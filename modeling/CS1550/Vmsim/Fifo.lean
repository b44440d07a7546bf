/-
Fifo is a circular buffer. Its queue of frame numbers is the walk through the frames from the next victim on
(`walk`), and so in the order in which their pages were loaded; every eviction gives up the page that was
loaded first, the `k`-th one in frame `k % n`, and the cells, faults and writes are those of the buffer `Ring`
after every access (`fifo_oldest_first`).
-/
import CS1550.Vmsim.Runs

namespace CS1550.Vmsim

/-! ## A circular buffer -/

/-- Slots with a page and its dirty bit, and the slot that the next page goes to. -/
structure Ring where
  slots : List (Option (Int × Bool))
  hand : Nat
  faults : Nat
  writes : Nat

/-- All slots are empty. -/
def Ring.init (n : Nat) : Ring := { slots := List.replicate n none, hand := 0, faults := 0, writes := 0 }

/-- Whether a page is in a slot. -/
def Ring.holds (r : Ring) (p : Int) : Bool := r.slots.any fun slot => slot.any fun c => c.1 == p

/-- A page that is in a slot is marked there; another one replaces what the hand points at. -/
def Ring.access (r : Ring) (m : MemoryAccess) : Ring :=
  if r.holds m.pageNo then
    { r with slots := r.slots.map (Option.map fun c => if c.1 = m.pageNo then (c.1, m.isStore || c.2) else c) }
  else
    { slots := r.slots.set r.hand (some (m.pageNo, m.isStore))
      hand := (r.hand + 1) % r.slots.length
      faults := r.faults + 1
      writes := r.writes + if (r.slots[r.hand]?.join.any Prod.snd) then 1 else 0 }

/-- The buffer after a trace. -/
def Ring.run (n : Nat) (traces : List MemoryAccess) : Ring := traces.foldl Ring.access (Ring.init n)

theorem Ring.run_take_succ (n : Nat) {traces : List MemoryAccess} {t : Nat} {m : MemoryAccess} (h : traces[t]? = some m) :
    Ring.run n (traces.take (t + 1)) = (Ring.run n (traces.take t)).access m := by
  rw [List.take_add_one, h, Option.toList_some, Ring.run, List.foldl_append]
  rfl

theorem Ring.holds_iff {r : Ring} {p : Int} : r.holds p = true ↔ ∃ b, some (p, b) ∈ r.slots := by
  simp only [Ring.holds, List.any_eq_true, Option.any_eq_true, beq_iff_eq]
  constructor
  · rintro ⟨slot, hslot, ⟨q, b⟩, rfl, rfl⟩
    exact ⟨b, hslot⟩
  · rintro ⟨b, hb⟩
    exact ⟨_, hb, (p, b), rfl, rfl⟩

/-! ## The queue as a walk through the frames -/

/-- The frames from number `e` on, `c` of them, around `n`. -/
def walk (n e c : Nat) : List Int := (List.range c).map fun j => (((e + j) % n : Nat) : Int)

theorem walk_succ (n e c : Nat) : walk n e (c + 1) = walk n e c ++ [(((e + c) % n : Nat) : Int)] := by
  simp [walk, List.range_succ]

theorem walk_cons (n e c : Nat) : walk n e (c + 1) = ((e % n : Nat) : Int) :: walk n (e + 1) c := by
  simp [walk, List.range_succ_eq_map, Nat.add_comm 1, Nat.add_assoc]

/-- Once all frames are taken, the first one of the walk goes to its end. -/
theorem walk_rotate {n e : Nat} {k : Int} {q : List Int} (hn : 1 ≤ n) (h : walk n e n = k :: q) :
    k = ((e % n : Nat) : Int) ∧ q ++ [k] = walk n (e + 1) n := by
  obtain ⟨c, rfl⟩ : ∃ c, n = c + 1 := ⟨n - 1, by omega⟩
  rw [walk_cons, List.cons.injEq] at h
  obtain ⟨rfl, rfl⟩ := h
  refine ⟨rfl, ?_⟩
  rw [walk_succ, show e + 1 + c = e + (c + 1) by omega, Nat.add_mod_right]

/-! ## One access -/

variable {n : Nat} {pt pt' : PageTable (List Int)} {m : MemoryAccess} {L : List Int} {rest : List MemoryAccess}

/-- What the hooks do to the queue on each path. -/
theorem fifo_queue (h : Resident n pt L) (hq : Queued rest pt.replacementAlgorithm L) (ho : Outcome fifo pt m pt') :
    (pt'.totalPageFaults = pt.totalPageFaults ∧ pt'.replacementAlgorithm = pt.replacementAlgorithm) ∨
    (pt'.newFramesCounter = pt.newFramesCounter + 1 ∧
      pt'.replacementAlgorithm = pt.replacementAlgorithm ++ [(pt.newFramesCounter : Int)]) ∨
    (pt'.totalPageFaults = pt.totalPageFaults + 1 ∧ pt'.newFramesCounter = pt.newFramesCounter ∧
      ∃ k q, pt.replacementAlgorithm = k :: q ∧ pt'.replacementAlgorithm = q ++ [k]) := by
  cases ho with
  | @hit a a' frames i e refresh resident entry hook =>
    left
    cases refresh
    cases hook
    obtain ⟨k, hik, hk⟩ := (h.table _ _).1 resident
    refine ⟨rfl, if_pos ((hq.2 i).2 ⟨k, hik, (List.getElem?_eq_some_iff.1 hk).1⟩)⟩
  | @fill a a' frames refresh absent room hook =>
    right; left
    cases refresh
    cases hook
    refine ⟨rfl, if_neg fun hmem => ?_⟩
    obtain ⟨k, hk, hlt⟩ := (hq.2 _).1 hmem
    have := h.counter
    omega
  | @evict a a' a'' frames frames' i victim v refresh absent full choice entry known hook =>
    right; right
    cases refresh
    obtain ⟨hnodup, -⟩ := hq
    simp only [fifo] at choice
    split at choice
    · rename_i k q hkq
      cases choice
      cases hook
      rw [hkq, List.nodup_cons] at hnodup
      exact ⟨rfl, rfl, (i : Int), a', hkq, if_neg hnodup.1⟩
    · cases choice

theorem fifo_picks {k : Int} (h : Picks fifo pt m k) : ∃ q, pt.replacementAlgorithm = k :: q := by
  obtain ⟨a, frames, a', frames', hr, hf⟩ := h
  cases hr
  simp only [fifo] at hf
  split at hf
  · rename_i k' q hkq
    cases hf
    exact ⟨_, hkq⟩
  · cases hf

/-! ## The order of the queue -/

/-- The page in frame `i` at time `t` was loaded by access `s`. -/
def LoadedAt (traces : List MemoryAccess) (run : Nat → PageTable (List Int)) (t : Nat) (i : Int) (s : Nat) : Prop :=
  ∃ (k : Nat) (p : Int) (b : Bool), i = k ∧ (cells (run t).frames)[k]? = some (some (p, b)) ∧
    Writeback.Since (requests traces) (fun k => (run k).memory) p s t

variable {traces : List MemoryAccess} {run : Nat → PageTable (List Int)} {t : Nat}

theorem LoadedAt.keep {i : Int} {s : Nat} (h : LoadedAt traces run t i s)
    (hcell : ∀ {k : Nat} {p b}, i = k → (cells (run t).frames)[k]? = some (some (p, b)) →
      ∃ b', (cells (run (t + 1)).frames)[k]? = some (some (p, b'))) : LoadedAt traces run (t + 1) i s := by
  obtain ⟨k, p, b, hik, hk, hsince⟩ := h
  obtain ⟨b', hk'⟩ := hcell hik hk
  exact ⟨k, p, b', hik, hk', hsince.extend (mem_held.2 ⟨b', List.mem_of_getElem? hk'⟩)⟩

/-- The page that an access brings in. -/
theorem loadedAt_new {k : Nat} {b : Bool} (hm : traces[t]? = some m) (habsent : m.pageNo ∉ (run t).memory.held)
    (hcell : (cells (run (t + 1)).frames)[k]? = some (some (m.pageNo, b))) : LoadedAt traces run (t + 1) k t := by
  refine ⟨k, m.pageNo, b, rfl, hcell, ⟨⟨m.isStore, by simp [requests, hm]⟩, habsent⟩, Nat.lt_succ_self t, fun j hj hjt => ?_⟩
  obtain rfl : j = t + 1 := by omega
  exact mem_held.2 ⟨b, List.mem_of_getElem? hcell⟩

theorem forall₂_exists_of_mem {α β : Type} {R : α → β → Prop} {l : List α} {l' : List β} (h : List.Forall₂ R l l') {a : α}
    (ha : a ∈ l) : ∃ b ∈ l', R a b := by
  induction h with
  | nil => exact absurd ha List.not_mem_nil
  | cons hab _ ih =>
    rcases List.mem_cons.1 ha with rfl | ha
    · exact ⟨_, List.mem_cons_self, hab⟩
    · obtain ⟨b, hb, hR⟩ := ih ha
      exact ⟨b, List.mem_cons_of_mem _ hb, hR⟩

/-- The queue is the walk from the number of evictions on, and its pages were loaded in this order. -/
structure Rotating (n : Nat) (traces : List MemoryAccess) (run : Nat → PageTable (List Int)) (t : Nat) : Prop where
  queue : ∃ e, (run t).totalPageFaults = e + (run t).newFramesCounter ∧ ((run t).newFramesCounter < n → e = 0) ∧
    (run t).replacementAlgorithm = walk n e (run t).newFramesCounter
  ordered : ∃ times, List.Forall₂ (LoadedAt traces run t) (run t).replacementAlgorithm times ∧ times.Pairwise (· < ·)

/-- A new page at the end of the queue is the last one loaded. -/
theorem pairwise_concat {q : List Int} {times : List Nat} (hq : List.Forall₂ (LoadedAt traces run t) q times)
    (h : times.Pairwise (· < ·)) : (times ++ [t]).Pairwise (· < ·) := by
  refine List.pairwise_append.2 ⟨h, List.pairwise_singleton _ _, fun s hs u hu => ?_⟩
  rw [List.mem_singleton] at hu
  subst hu
  obtain ⟨i, -, k, p, b, -, -, hsince⟩ := forall₂_exists_of_mem hq.flip hs
  exact hsince.lt

theorem Rotating.step (hn : 1 ≤ n) (hm : traces[t]? = some m) (hR : Resident n (run t) L)
    (hq : Queued rest (run t).replacementAlgorithm L) (ho : Outcome fifo (run t) m (run (t + 1)))
    (h : Rotating n traces run t) : Rotating n traces run (t + 1) := by
  obtain ⟨⟨e, hfaults, he, hwalk⟩, times, htimes, hsorted⟩ := h
  cases ho.change fifo_keepsCells hR with
  | hit k b here hcells faults writes counter =>
    have hsame : (run (t + 1)).replacementAlgorithm = (run t).replacementAlgorithm := by
      rcases fifo_queue hR hq ho with ⟨-, h⟩ | ⟨h, -⟩ | ⟨h, -⟩
      · exact h
      · omega
      · omega
    refine ⟨⟨e, by omega, by rw [counter]; exact he, by rw [hsame, counter, hwalk]⟩, times, ?_, hsorted⟩
    rw [hsame]
    refine htimes.imp fun i s hs => hs.keep fun {j p b'} _ hj => ?_
    rw [hcells]
    by_cases hkj : k = j
    · subst hkj
      rw [here] at hj
      cases hj
      exact ⟨_, List.getElem?_set_self (List.getElem?_eq_some_iff.1 here).1⟩
    · exact ⟨b', by rw [List.getElem?_set_ne hkj]; exact hj⟩
  | fill absent room hcells faults writes counter =>
    have happend : (run (t + 1)).replacementAlgorithm =
        (run t).replacementAlgorithm ++ [((run t).newFramesCounter : Int)] := by
      rcases fifo_queue hR hq ho with ⟨h, -⟩ | ⟨-, h⟩ | ⟨-, h, -⟩
      · omega
      · exact h
      · omega
    obtain rfl := he room
    have hempty := hR.empty_cell room
    refine ⟨⟨0, by omega, fun _ => rfl, ?_⟩, times ++ [t], ?_, pairwise_concat htimes hsorted⟩
    · rw [happend, counter, walk_succ, hwalk, Nat.zero_add, Nat.mod_eq_of_lt room]
    · have hothers : List.Forall₂ (LoadedAt traces run (t + 1)) (run t).replacementAlgorithm times := by
        refine htimes.imp fun i s hs => hs.keep fun {j p b'} _ hj => ⟨b', ?_⟩
        rw [hcells, List.getElem?_set_ne]
        · exact hj
        · rintro rfl
          rw [hempty] at hj
          cases hj
      have hnew : LoadedAt traces run (t + 1) (run t).newFramesCounter t := by
        refine loadedAt_new hm (not_held absent) (b := m.isStore) ?_
        rw [hcells, List.getElem?_set_self (List.getElem?_eq_some_iff.1 hempty).1]
      rw [happend]
      exact List.rel_append hothers (.cons hnew .nil)
  | evict k q b absent full victim allowed hcells faults writes counter =>
    obtain ⟨queue, hhead⟩ := fifo_picks allowed
    have hrotate : (run (t + 1)).replacementAlgorithm = queue ++ [(k : Int)] := by
      rcases fifo_queue hR hq ho with ⟨h, -⟩ | ⟨h, -⟩ | ⟨-, -, k', queue', hkq, h⟩
      · omega
      · omega
      · rw [hhead] at hkq
        cases hkq
        exact h
    rw [hhead, full] at hwalk
    rw [hhead] at htimes
    obtain ⟨-, hturned⟩ := walk_rotate hn hwalk.symm
    have hfresh : (k : Int) ∉ queue := by
      have hnodup := hq.1
      rw [hhead, List.nodup_cons] at hnodup
      exact hnodup.1
    cases htimes with
    | @cons _ s _ times hs htimes =>
      rw [List.pairwise_cons] at hsorted
      have hothers : List.Forall₂ (LoadedAt traces run (t + 1)) queue times := by
        refine (List.forall₂_and_left queue times |>.2 ⟨fun i hi => hi, htimes⟩).imp fun i s ⟨hi, hs⟩ => ?_
        refine hs.keep fun {j p b'} hij hj => ⟨b', ?_⟩
        rw [hcells, List.getElem?_set_ne]
        · exact hj
        · rintro rfl
          exact hfresh (hij ▸ hi)
      have hnew : LoadedAt traces run (t + 1) k t := by
        refine loadedAt_new hm (not_held absent) (b := m.isStore) ?_
        rw [hcells, List.getElem?_set_self (List.getElem?_eq_some_iff.1 victim).1]
      refine ⟨⟨e + 1, by omega, fun h => by omega, by rw [hrotate, counter, full, hturned]⟩, times ++ [t], ?_,
        pairwise_concat htimes hsorted.2⟩
      rw [hrotate]
      exact List.rel_append hothers (.cons hnew .nil)

/-! ## The buffer and the page table -/

/-- The buffer has the cells, the faults and the writes of the page table. -/
structure Ring.Shows (n : Nat) (r : Ring) (pt : PageTable (List Int)) : Prop where
  slots : r.slots = cells pt.frames
  hand : r.hand = pt.totalPageFaults % n
  faults : r.faults = pt.totalPageFaults
  writes : r.writes = pt.totalWritesToDisk

/-- Marking a page where it is. -/
theorem map_mark (hR : Resident n pt L) {k : Nat} {p : Int} {b : Bool} (hk : (cells pt.frames)[k]? = some (some (p, b)))
    (store : Bool) : (cells pt.frames).map (Option.map fun c => if c.1 = p then (c.1, store || c.2) else c) =
      (cells pt.frames).set k (some (p, store || b)) := by
  apply List.ext_getElem?
  intro j
  rw [List.getElem?_map, List.getElem?_set]
  by_cases hkj : k = j
  · subst hkj
    rw [if_pos rfl, if_pos (List.getElem?_eq_some_iff.1 hk).1, hk]
    simp
  · rw [if_neg hkj]
    cases hj : (cells pt.frames)[j]? with
    | none => rfl
    | some o =>
      cases o with
      | none => rfl
      | some c =>
        have hne : c.1 ≠ p := by
          rintro rfl
          exact hkj (hR.cell_unique hk hj).1
        simp [hne]

theorem Ring.Shows.step {r : Ring} (hn : 1 ≤ n) (hR : Resident n pt L) (ho : Outcome fifo pt m pt')
    (hqueue : ∃ e, pt.totalPageFaults = e + pt.newFramesCounter ∧ (pt.newFramesCounter < n → e = 0) ∧
      pt.replacementAlgorithm = walk n e pt.newFramesCounter)
    (h : r.Shows n pt) : (r.access m).Shows n pt' := by
  obtain ⟨e, hfaults, he, hwalk⟩ := hqueue
  have hlen : r.slots.length = n := by rw [h.slots, cells_length, hR.consistent.length]
  have hmiss : (∀ b, some (m.pageNo, b) ∉ cells pt.frames) → ¬ r.holds m.pageNo = true := by
    intro hb hm
    obtain ⟨b, hmem⟩ := Ring.holds_iff.1 hm
    exact hb b (h.slots ▸ hmem)
  unfold Ring.access
  cases ho.change fifo_keepsCells hR with
  | hit k b here hcells faults writes counter =>
    rw [if_pos (Ring.holds_iff.2 ⟨b, by rw [h.slots]; exact List.mem_of_getElem? here⟩)]
    exact ⟨by rw [hcells, ← map_mark hR here, h.slots], by rw [faults]; exact h.hand, h.faults.trans faults.symm,
      h.writes.trans writes.symm⟩
  | fill absent room hcells faults writes counter =>
    rw [if_neg (hmiss absent)]
    obtain rfl := he room
    have hhand : r.hand = pt.newFramesCounter := by rw [h.hand, hfaults, Nat.zero_add, Nat.mod_eq_of_lt room]
    have hclean : r.slots[r.hand]?.join.any Prod.snd = false := by rw [h.slots, hhand, hR.empty_cell room]; rfl
    refine ⟨by rw [hcells, hhand, h.slots], ?_, by rw [faults, h.faults], ?_⟩
    · rw [hlen, h.hand, faults, Nat.mod_add_mod]
    · rw [hclean, writes, h.writes]
      rfl
  | evict k q b absent full victim allowed hcells faults writes counter =>
    rw [if_neg (hmiss absent)]
    obtain ⟨queue, hhead⟩ := fifo_picks allowed
    rw [hhead, full] at hwalk
    have hhand : r.hand = k := by
      have hk := (walk_rotate hn hwalk.symm).1
      rw [h.hand, hfaults, full, Nat.add_mod_right]
      omega
    have hdirty : r.slots[r.hand]?.join.any Prod.snd = b := by rw [h.slots, hhand, victim]; rfl
    refine ⟨by rw [hcells, hhand, h.slots], ?_, by rw [faults, h.faults], ?_⟩
    · rw [hlen, h.hand, faults, Nat.mod_add_mod]
    · rw [hdirty, writes, h.writes]

/-! ## First in, first out -/

/-- The queue of fifo and the circular buffer at time `t` of a run. -/
structure FifoAt (n : Nat) (traces : List MemoryAccess) (run : Nat → PageTable (List Int)) (t : Nat) : Prop where
  nodup : (run t).replacementAlgorithm.Nodup
  occupied : ∀ i, i ∈ (run t).replacementAlgorithm ↔ ∃ (k : Nat) (e : PageTableEntry), i = k ∧ (run t).frames[k]? = some (some e)
  ordered : ∃ times, List.Forall₂ (LoadedAt traces run t) (run t).replacementAlgorithm times ∧ times.Pairwise (· < ·)
  ring : (Ring.run n (traces.take t)).Shows n (run t)

/-- Access `t` gives up page `p`: it was loaded before every other resident, and the accessed page takes its
frame, whose number is that of the eviction modulo `n`. -/
structure GivesUpOldest (n : Nat) (traces : List MemoryAccess) (run : Nat → PageTable (List Int)) (t : Nat)
    (m : MemoryAccess) (p : Int) : Prop where
  oldest : ∀ q ∈ (run t).memory.held, q ≠ p → ∀ s s', Writeback.Since (requests traces) (fun k => (run k).memory) p s t →
    Writeback.Since (requests traces) (fun k => (run k).memory) q s' t → s < s'
  frame : ∃ e e' : PageTableEntry,
    (run t).frames[Writeback.evictions (fun k => (run k).memory) t % n]? = some (some e) ∧ e.pageNo = p ∧
    (run (t + 1)).frames[Writeback.evictions (fun k => (run k).memory) t % n]? = some (some e') ∧ e'.pageNo = m.pageNo

theorem Rotating.givesUpOldest (hn : 1 ≤ n) (hR : Resident n (run t) L) (hq : Queued rest (run t).replacementAlgorithm L)
    (ho : Outcome fifo (run t) m (run (t + 1))) (h : Rotating n traces run t)
    (hev : Writeback.evictions (fun k => (run k).memory) t + (run t).newFramesCounter = (run t).totalPageFaults)
    {p : Int} (hp : p ∈ (run t).memory.held) (hleft : p ∉ (run (t + 1)).memory.held) :
    GivesUpOldest n traces run t m p := by
  obtain ⟨⟨e, hfaults, he, hwalk⟩, times, htimes, hsorted⟩ := h
  obtain rfl : Writeback.evictions (fun k => (run k).memory) t = e := by omega
  obtain ⟨k, b, allowed, -, full, hkp, hcells⟩ := (ho.change fifo_keepsCells hR).evicted hR hp hleft
  obtain ⟨queue, hhead⟩ := fifo_picks allowed
  rw [hhead, full] at hwalk
  have hframe : k = Writeback.evictions (fun k => (run k).memory) t % n := by
    have := (walk_rotate hn hwalk.symm).1
    omega
  rw [hhead] at htimes
  cases htimes with
  | @cons _ s₀ _ times hs₀ htimes =>
    refine ⟨fun q hq' hne s s' hs hs' => ?_, ?_⟩
    · obtain ⟨bq, hbq⟩ := mem_held.1 hq'
      obtain ⟨kq, hkq⟩ := List.mem_iff_getElem?.1 hbq
      have hmem : (kq : Int) ∈ (run t).replacementAlgorithm :=
        (hq.2 kq).2 ⟨kq, rfl, (List.getElem?_eq_some_iff.1 (hR.cell_iff.1 ⟨bq, hkq⟩)).1⟩
      rw [hhead, List.mem_cons] at hmem
      have hlater : (kq : Int) ∈ queue := by
        refine hmem.resolve_left fun hk => hne ?_
        obtain rfl : kq = k := by omega
        rw [hkp] at hkq
        cases hkq
        rfl
      -- the load times along the queue are those of the two pages
      have htime : ∀ {i : Nat} {r : Int} {br : Bool} {u u' : Nat}, (cells (run t).frames)[i]? = some (some (r, br)) →
          LoadedAt traces run t i u → Writeback.Since (requests traces) (fun k => (run k).memory) r u' t → u = u' := by
        rintro i r br u u' hi ⟨j, r', b', hij, hj, hsince⟩ hu'
        obtain rfl : i = j := by omega
        rw [hi] at hj
        cases hj
        exact hsince.unique hu'
      obtain ⟨s₁, hmem₁, hs₁⟩ := forall₂_exists_of_mem htimes hlater
      rw [← htime hkp hs₀ hs, ← htime hkq hs₁ hs']
      exact (List.pairwise_cons.1 hsorted).1 s₁ hmem₁
    · rw [← hframe]
      obtain ⟨e, he, hcell⟩ := cells_getElem?.1 hkp
      have hnew : (cells (run (t + 1)).frames)[k]? = some (some (m.pageNo, m.isStore)) := by
        rw [hcells, List.getElem?_set_self (List.getElem?_eq_some_iff.1 hkp).1]
      obtain ⟨e', he', hcell'⟩ := cells_getElem?.1 hnew
      exact ⟨e, e', he, congrArg Prod.fst hcell, he', congrArg Prod.fst hcell'⟩

/-- First in, first out: with at least one frame and over every trace, at every time the queue holds each
occupied frame once and in the order of the loads, the page table is that of the circular buffer, and each
eviction gives up the oldest page. -/
theorem fifo_oldest_first (n : Nat) (hn : 1 ≤ n) (traces : List MemoryAccess) :
    ∃ run, Traced fifo n [] traces run ∧ (∀ t ≤ traces.length, FifoAt n traces run t) ∧
      ∀ t m, traces[t]? = some m → ∀ p ∈ (run t).memory.held, p ∉ (run (t + 1)).memory.held →
        GivesUpOldest n traces run t m p := by
  obtain ⟨run, hrun, hinv, ho⟩ := (fifo_sound hn).traced fifo_keepsPages (queued_init traces)
  have hwb := hrun.writeback fifo_keepsCells ho (E := fun _ _ _ => True) fun _ _ _ _ _ _ => trivial
  have hrot : ∀ t ≤ traces.length, Rotating n traces run t ∧ (Ring.run n (traces.take t)).Shows n (run t) := by
    intro t
    induction t with
    | zero =>
      intro _
      refine ⟨⟨⟨0, ?_⟩, [], ?_⟩, ?_⟩
      · rw [hrun.start]
        exact ⟨rfl, fun _ => rfl, rfl⟩
      · rw [hrun.start]
        exact ⟨.nil, .nil⟩
      · rw [hrun.start]
        exact ⟨by simp [Ring.run, Ring.init, PageTable.init, cells], by simp [Ring.run, Ring.init, PageTable.init], rfl, rfl⟩
    | succ t ih =>
      intro ht
      obtain ⟨hprev, hshow⟩ := ih (by omega)
      obtain ⟨L, hR, hq⟩ := hinv t (by omega)
      have hm : traces[t]? = some traces[t] := List.getElem?_eq_getElem ht
      refine ⟨hprev.step hn hm hR hq (ho hm), ?_⟩
      rw [Ring.run_take_succ n hm]
      exact hshow.step hn hR (ho hm) hprev.queue
  refine ⟨run, hrun, fun t ht => ?_, fun t m hm p hp hleft => ?_⟩
  · obtain ⟨L, hR, hq⟩ := hinv t ht
    obtain ⟨hprev, hshow⟩ := hrot t ht
    refine ⟨hq.1, fun i => ?_, hprev.ordered, hshow⟩
    rw [hq.2]
    refine exists_congr fun k => ?_
    rw [exists_and_left]
    refine and_congr_right fun _ => ?_
    constructor
    · intro hk
      exact hR.consistent.occupied k (by rw [hR.counter]; exact hk)
    · rintro ⟨e, he⟩
      exact (List.getElem?_eq_some_iff.1 (hR.cell_iff.1 ⟨_, cells_getElem?.2 ⟨e, he, rfl⟩⟩)).1
  · have ht : t ≤ traces.length := (List.getElem?_eq_some_iff.1 hm).1.le
    obtain ⟨L, hR, hq⟩ := hinv t ht
    refine (hrot t ht).1.givesUpOldest hn hR hq (ho hm) ?_ hp hleft
    rw [← hR.held_card]
    exact hwb.faults_eq t (by rw [requests_length]; exact ht)

/-- Two frames and three pages: the first page is given up. -/
theorem fifo_oldest_first_two_frames :
    ∃ run, Traced fifo 2 [] [⟨.store, 1, 0⟩, ⟨.load, 2, 0⟩, ⟨.load, 1, 0⟩, ⟨.load, 3, 0⟩] run ∧
      ∀ t ≤ 4, FifoAt 2 [⟨.store, 1, 0⟩, ⟨.load, 2, 0⟩, ⟨.load, 1, 0⟩, ⟨.load, 3, 0⟩] run t := by
  obtain ⟨run, hrun, hat, -⟩ := fifo_oldest_first 2 (by decide) [⟨.store, 1, 0⟩, ⟨.load, 2, 0⟩, ⟨.load, 1, 0⟩, ⟨.load, 3, 0⟩]
  exact ⟨run, hrun, hat⟩

end CS1550.Vmsim
