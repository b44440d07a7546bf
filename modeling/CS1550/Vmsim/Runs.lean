/-
Whole runs of the simulator, as the page table before each access (`Traced`). Of the frames only the pages and
their dirty bits matter here (`cells`): one access changes one cell (`Change`), and the set of the pages held
and of the dirty ones makes a run of demand paging with write-back (`writeback_run`), for every algorithm whose
hooks change neither.
-/
import CS1550.Lib.Writeback
import CS1550.Vmsim.Consistency

namespace CS1550.Vmsim

variable {σ : Type}

/-! ## Runs over time -/

/-- The page table before each access of a trace, and after the last one; no access raises. -/
structure Traced (alg : ReplacementAlgorithm σ) (n : Nat) (a : σ) (traces : List MemoryAccess)
    (run : Nat → PageTable σ) : Prop where
  start : run 0 = PageTable.init n a
  access : ∀ {t m}, traces[t]? = some m → (run t).access alg m = .ok (run (t + 1))

theorem simulate_take_succ (alg : ReplacementAlgorithm σ) (pt : PageTable σ) {traces : List MemoryAccess} {t : Nat}
    {m : MemoryAccess} (h : traces[t]? = some m) :
    simulate alg pt (traces.take (t + 1)) = simulate alg pt (traces.take t) >>= fun pt' => pt'.access alg m := by
  rw [List.take_add_one, h, Option.toList_some, simulate, List.foldlM_append]
  simp [simulate]

/-- The tables of a run are what the main loop has after each part of the trace. -/
theorem Traced.simulate {alg : ReplacementAlgorithm σ} {n : Nat} {a : σ} {traces : List MemoryAccess}
    {run : Nat → PageTable σ} (h : Traced alg n a traces run) :
    ∀ t ≤ traces.length, Vmsim.simulate alg (PageTable.init n a) (traces.take t) = .ok (run t)
  | 0, _ => by rw [h.start]; rfl
  | t + 1, ht => by
    have hm : traces[t]? = some traces[t] := List.getElem?_eq_getElem ht
    rw [simulate_take_succ alg _ hm, h.simulate t (by omega)]
    exact h.access hm

/-- What a test of the main loop says about the table of a run. -/
theorem Traced.test {alg : ReplacementAlgorithm σ} {n : Nat} {a : σ} {traces : List MemoryAccess}
    {run : Nat → PageTable σ} (h : Traced alg n a traces run) {t : Nat} (ht : t ≤ traces.length) {P : PageTable σ → Prop}
    [DecidablePred P]
    (hP : (Vmsim.simulate alg (PageTable.init n a) (traces.take t)).toOption.any (fun pt => decide (P pt)) = true) :
    P (run t) := by
  rw [h.simulate t ht] at hP
  exact of_decide_eq_true hP

/-- A sound algorithm has a run over every trace; each access takes one of the three paths. -/
theorem Sound.traced {alg : ReplacementAlgorithm σ} (hp : KeepsPages alg) {n : Nat}
    {I : List MemoryAccess → σ → List Int → Prop} (hs : Sound alg n I) {a : σ} {traces : List MemoryAccess}
    (hI : I traces a []) : ∃ run, Traced alg n a traces run ∧
      (∀ t ≤ traces.length, ∃ L, Resident n (run t) L ∧ I (traces.drop t) (run t).replacementAlgorithm L) ∧
      ∀ {t m}, traces[t]? = some m → Outcome alg (run t) m (run (t + 1)) := by
  have hrun : ∀ t, ∃ pt, simulate alg (PageTable.init n a) (traces.take t) = .ok pt ∧
      ∃ L, Resident n pt L ∧ I (traces.drop t) pt.replacementAlgorithm L := by
    intro t
    have hI₀ : I (traces.take t ++ traces.drop t) a [] := by rw [List.take_append_drop]; exact hI
    obtain ⟨pt, L, hsim, hR, hI', -⟩ := hs.run hp (traces.take t) (resident_init n a) hI₀
    exact ⟨pt, hsim, L, hR, hI'⟩
  choose run hsim hres using hrun
  have haccess : ∀ {t m}, traces[t]? = some m → (run t).access alg m = .ok (run (t + 1)) := by
    intro t m hm
    have h := hsim (t + 1)
    rw [simulate_take_succ alg _ hm, hsim t] at h
    exact h
  refine ⟨run, ⟨?_, haccess⟩, fun t _ => hres t, fun {t m} hm => ?_⟩
  · exact (Except.ok.inj (hsim 0)).symm
  · obtain ⟨L, hR, hI'⟩ := hres t
    obtain ⟨hlt, hget⟩ := List.getElem?_eq_some_iff.1 hm
    rw [List.drop_eq_getElem_cons hlt, hget] at hI'
    obtain ⟨pt', f, L', ho, -⟩ := hs.step hp hR hI'
    -- the path that the hooks take is the access that the run makes
    have heq := (access_of_outcome ho).symm.trans (haccess hm)
    cases heq
    exact ho

/-! ## Cells -/

/-- The page in a frame and its dirty bit. -/
def cell (e : PageTableEntry) : Int × Bool := (e.pageNo, e.dirtyBit)

/-- The pages in the frames and their dirty bits. -/
def cells (frames : Frames) : List (Option (Int × Bool)) := frames.map (Option.map cell)

/-- An algorithm whose hooks change neither pages nor dirty bits. -/
structure KeepsCells (alg : ReplacementAlgorithm σ) : Prop where
  refresh : ∀ {a a' frames frames' m}, alg.attemptRefresh a frames m = .ok (a', frames') → cells frames' = cells frames
  find : ∀ {a a' frames frames' m i}, alg.findFrame a frames m = .ok (a', frames', i) → cells frames' = cells frames

theorem pages_eq_cells (frames : Frames) : pages frames = (cells frames).map (Option.map Prod.fst) := by
  rw [pages, cells, List.map_map]
  refine List.map_congr_left fun o _ => ?_
  cases o <;> rfl

theorem KeepsCells.keepsPages {alg : ReplacementAlgorithm σ} (h : KeepsCells alg) : KeepsPages alg :=
  ⟨fun hr => by rw [pages_eq_cells, pages_eq_cells, h.refresh hr], fun hf => by rw [pages_eq_cells, pages_eq_cells, h.find hf]⟩

theorem fifo_keepsCells : KeepsCells fifo := by
  constructor
  · intro a a' frames frames' m h
    cases h
    rfl
  · intro a a' frames frames' m i h
    cases a with
    | nil => cases h
    | cons f q => cases h; rfl

theorem optimal_keepsCells : KeepsCells optimal := by
  constructor
  · intro a a' frames frames' m h
    cases h
    rfl
  · intro a a' frames frames' m i h
    simp only [optimal, Optimal.findFrame] at h
    obtain ⟨⟨traceMap, k⟩, -, h⟩ := bind_ok.1 h
    cases h
    rfl

theorem aging_keepsCells : KeepsCells aging :=
  ⟨fun h => aging_refresh_map (fun _ => rfl) h, fun h => aging_find_map (fun _ _ => rfl) h⟩

theorem cells_getElem? {frames : Frames} {i : Nat} {c : Int × Bool} :
    (cells frames)[i]? = some (some c) ↔ ∃ e, frames[i]? = some (some e) ∧ cell e = c := by
  simp only [cells, List.getElem?_map, Option.map_eq_some_iff]
  constructor
  · rintro ⟨o, ho, e, rfl, rfl⟩
    exact ⟨e, ho, rfl⟩
  · rintro ⟨e, he, rfl⟩
    exact ⟨some e, he, e, rfl, rfl⟩

theorem cells_set (frames : Frames) (i : Nat) (e : PageTableEntry) :
    cells (frames.set i (some e)) = (cells frames).set i (some (cell e)) := by
  simp [cells, List.map_set]

theorem cells_length (frames : Frames) : (cells frames).length = frames.length := by simp [cells]

/-! ## One access -/

/-- Whether an access is a store. -/
def MemoryAccess.isStore (m : MemoryAccess) : Bool := m.op == .store

theorem cell_touch (e : PageTableEntry) (m : MemoryAccess) : cell (e.touch m.op) = (e.pageNo, m.isStore || e.dirtyBit) := by
  unfold MemoryAccess.isStore PageTableEntry.touch
  cases m.op <;> rfl

/-- What an access changes of the cells and of the counters, where an eviction takes a position as `E` allows. -/
inductive Change (E : Nat → Prop) (n : Nat) (m : MemoryAccess) (pt pt' : PageTable σ) : Prop
  | hit (k : Nat) (b : Bool) (here : (cells pt.frames)[k]? = some (some (m.pageNo, b)))
      (cells : cells pt'.frames = (cells pt.frames).set k (some (m.pageNo, m.isStore || b)))
      (faults : pt'.totalPageFaults = pt.totalPageFaults) (writes : pt'.totalWritesToDisk = pt.totalWritesToDisk)
      (counter : pt'.newFramesCounter = pt.newFramesCounter)
  | fill (absent : ∀ b, some (m.pageNo, b) ∉ cells pt.frames) (room : pt.newFramesCounter < n)
      (cells : cells pt'.frames = (cells pt.frames).set pt.newFramesCounter (some (m.pageNo, m.isStore)))
      (faults : pt'.totalPageFaults = pt.totalPageFaults + 1) (writes : pt'.totalWritesToDisk = pt.totalWritesToDisk)
      (counter : pt'.newFramesCounter = pt.newFramesCounter + 1)
  | evict (k : Nat) (q : Int) (b : Bool) (absent : ∀ b, some (m.pageNo, b) ∉ cells pt.frames)
      (full : pt.newFramesCounter = n) (victim : (cells pt.frames)[k]? = some (some (q, b))) (allowed : E k)
      (cells : cells pt'.frames = (cells pt.frames).set k (some (m.pageNo, m.isStore)))
      (faults : pt'.totalPageFaults = pt.totalPageFaults + 1)
      (writes : pt'.totalWritesToDisk = pt.totalWritesToDisk + if b then 1 else 0)
      (counter : pt'.newFramesCounter = pt.newFramesCounter)

variable {alg : ReplacementAlgorithm σ} {n : Nat} {pt pt' : PageTable σ} {m : MemoryAccess} {L : List Int}

/-- The pages of the cells are the residents. -/
theorem Resident.cell_iff (h : Resident n pt L) {k : Nat} {p : Int} :
    (∃ b, (cells pt.frames)[k]? = some (some (p, b))) ↔ L[k]? = some p := by
  rw [← shown_getElem? (n := n), ← h.frames, pages_getElem?]
  constructor
  · rintro ⟨b, hb⟩
    obtain ⟨e, he, hc⟩ := cells_getElem?.1 hb
    exact ⟨e, he, congrArg Prod.fst hc⟩
  · rintro ⟨e, he, rfl⟩
    exact ⟨e.dirtyBit, cells_getElem?.2 ⟨e, he, rfl⟩⟩

theorem Resident.absent_cells (h : Resident n pt L) {p : Int} (hp : p ∉ L) : ∀ b, some (p, b) ∉ cells pt.frames := by
  intro b hb
  obtain ⟨k, hk⟩ := List.mem_iff_getElem?.1 hb
  exact hp (List.mem_of_getElem? (h.cell_iff.1 ⟨b, hk⟩))

theorem Outcome.change (hc : KeepsCells alg) (h : Resident n pt L) (ho : Outcome alg pt m pt') :
    Change (Picks alg pt m ·) n m pt pt' := by
  have hlen : (cells pt.frames).length = n := by rw [cells_length, ← pages_length, h.frames, shown_length h.le]
  cases ho with
  | @hit a a' frames i e refresh resident entry hook =>
    have hcells := hc.refresh refresh
    have hpage : e.pageNo = m.pageNo := by
      obtain ⟨k, hik, hk⟩ := (h.table _ _).1 resident
      obtain rfl : i = k := by omega
      have hmem : L[i]? = some e.pageNo :=
        h.cell_iff.1 ⟨e.dirtyBit, by rw [← hcells]; exact cells_getElem?.2 ⟨e, entry, rfl⟩⟩
      rw [hk] at hmem
      exact (Option.some.inj hmem).symm
    refine .hit i e.dirtyBit ?_ ?_ rfl rfl rfl
    · rw [← hcells, ← hpage]
      exact cells_getElem?.2 ⟨e, entry, rfl⟩
    · show cells _ = _
      rw [cells_set, cell_touch, hcells, ← hpage]
  | @fill a a' frames refresh absent room hook =>
    have hcells := hc.refresh refresh
    have hroom : pt.newFramesCounter < n := by rw [← hlen, ← hcells, cells_length]; exact room
    refine .fill (h.absent_cells (h.absent.1 absent)) hroom ?_ rfl rfl rfl
    show cells _ = _
    rw [cells_set, cell_touch, hcells]
    simp [PageTableEntry.new]
  | @evict a a' a'' frames frames' i victim v refresh absent full choice entry known hook =>
    have hrefresh := hc.refresh refresh
    have hcells := (hc.find choice).trans hrefresh
    have hfull : pt.newFramesCounter = n := by
      have hle := h.le
      rw [← cells_length, hrefresh, hlen] at full
      rw [h.counter] at full ⊢
      omega
    refine .evict i victim.pageNo victim.dirtyBit (h.absent_cells (h.absent.1 absent)) hfull ?_
      ⟨a, frames, a', frames', refresh, choice⟩ ?_ rfl ?_ rfl
    · rw [← hcells]
      exact cells_getElem?.2 ⟨victim, entry, rfl⟩
    · show cells _ = _
      rw [cells_set, cell_touch, hcells]
      simp [PageTableEntry.new]
    · show (if victim.dirtyBit then _ else _) = _
      split <;> rfl

/-! ## Demand paging with write-back -/

/-- The pages held in the frames, and the dirty ones of them. -/
def PageTable.memory (pt : PageTable σ) : Writeback.Memory Int where
  held := ((cells pt.frames).filterMap (Option.map Prod.fst)).toFinset
  dirty := ((cells pt.frames).filterMap fun c => c.bind fun c => if c.2 then some c.1 else none).toFinset
  sub := by
    intro p hp
    simp only [List.mem_toFinset, List.mem_filterMap] at hp ⊢
    obtain ⟨_ | ⟨q, b⟩, hc, hp⟩ := hp
    · cases hp
    · refine ⟨some (q, b), hc, ?_⟩
      cases b with
      | false => cases hp
      | true => exact hp

theorem mem_held {p : Int} : p ∈ pt.memory.held ↔ ∃ b, some (p, b) ∈ cells pt.frames := by
  simp only [PageTable.memory, List.mem_toFinset, List.mem_filterMap]
  constructor
  · rintro ⟨_ | ⟨q, b⟩, hc, hp⟩
    · cases hp
    · cases hp
      exact ⟨b, hc⟩
  · rintro ⟨b, hb⟩
    exact ⟨some (p, b), hb, rfl⟩

theorem not_held {p : Int} (h : ∀ b, some (p, b) ∉ cells pt.frames) : p ∉ pt.memory.held := by
  rw [mem_held]
  rintro ⟨b, hb⟩
  exact h b hb

theorem mem_dirty {p : Int} : p ∈ pt.memory.dirty ↔ some (p, true) ∈ cells pt.frames := by
  simp only [PageTable.memory, List.mem_toFinset, List.mem_filterMap]
  constructor
  · rintro ⟨_ | ⟨q, b⟩, hc, hp⟩
    · cases hp
    · cases b with
      | false => cases hp
      | true => cases hp; exact hc
  · intro hb
    exact ⟨some (p, true), hb, rfl⟩

theorem Resident.held (h : Resident n pt L) : pt.memory.held = L.toFinset := by
  ext p
  rw [mem_held, List.mem_toFinset, List.mem_iff_getElem?]
  simp only [← h.cell_iff, List.mem_iff_getElem?]
  exact exists_comm

theorem Resident.held_card (h : Resident n pt L) : pt.memory.held.card = pt.newFramesCounter := by
  rw [h.held, List.toFinset_card_of_nodup h.nodup, h.counter]

/-- A page is in one cell only. -/
theorem Resident.cell_unique (h : Resident n pt L) {i j : Nat} {p : Int} {b b' : Bool}
    (hi : (cells pt.frames)[i]? = some (some (p, b))) (hj : (cells pt.frames)[j]? = some (some (p, b'))) : i = j ∧ b = b' := by
  obtain ⟨hil, hiv⟩ := List.getElem?_eq_some_iff.1 (h.cell_iff.1 ⟨b, hi⟩)
  obtain ⟨hjl, hjv⟩ := List.getElem?_eq_some_iff.1 (h.cell_iff.1 ⟨b', hj⟩)
  obtain rfl : i = j := h.nodup.getElem_inj_iff.1 (hiv.trans hjv.symm)
  rw [hi] at hj
  cases hj
  exact ⟨rfl, rfl⟩

/-- The dirty bit of a page in the frames. -/
theorem Resident.dirty_iff (h : Resident n pt L) {k : Nat} {p : Int} {b : Bool}
    (hk : (cells pt.frames)[k]? = some (some (p, b))) : p ∈ pt.memory.dirty ↔ b = true := by
  rw [mem_dirty]
  constructor
  · intro hmem
    obtain ⟨j, hj⟩ := List.mem_iff_getElem?.1 hmem
    exact (h.cell_unique hk hj).2
  · rintro rfl
    exact List.mem_of_getElem? hk

/-- Overwriting the cell of `q` with one of `p`: `q` leaves, `p` comes with the new dirty bit. -/
theorem mem_set_cells (h : Resident n pt L) {k : Nat} {p q : Int} {b d : Bool}
    (hk : (cells pt.frames)[k]? = some (some (q, b))) (hp : p ≠ q → ∀ b, some (p, b) ∉ cells pt.frames) (r : Int) (c : Bool) :
    some (r, c) ∈ (cells pt.frames).set k (some (p, d)) ↔ (r = p ∧ c = d) ∨ (r ≠ p ∧ r ≠ q ∧ some (r, c) ∈ cells pt.frames) := by
  have hlt : k < (cells pt.frames).length := (List.getElem?_eq_some_iff.1 hk).1
  simp only [List.mem_iff_getElem?, List.getElem?_set]
  constructor
  · rintro ⟨j, hj⟩
    by_cases hkj : k = j
    · subst hkj
      rw [if_pos rfl, if_pos hlt] at hj
      cases hj
      exact .inl ⟨rfl, rfl⟩
    · rw [if_neg hkj] at hj
      have hrq : r ≠ q := by
        rintro rfl
        exact hkj (h.cell_unique hk hj).1
      refine .inr ⟨?_, hrq, j, hj⟩
      rintro rfl
      exact hp hrq c (List.mem_of_getElem? hj)
  · rintro (⟨rfl, rfl⟩ | ⟨hrp, hrq, j, hj⟩)
    · exact ⟨k, by rw [if_pos rfl, if_pos hlt]⟩
    · refine ⟨j, ?_⟩
      rw [if_neg]
      · exact hj
      · rintro rfl
        rw [hk] at hj
        cases hj
        exact hrq rfl

/-- Filling an empty cell. -/
theorem mem_fill_cells {C : List (Option (Int × Bool))} {k : Nat} (hk : C[k]? = some none) (x y : Int × Bool) :
    some y ∈ C.set k (some x) ↔ y = x ∨ some y ∈ C := by
  have hlt : k < C.length := (List.getElem?_eq_some_iff.1 hk).1
  simp only [List.mem_iff_getElem?, List.getElem?_set]
  constructor
  · rintro ⟨j, hj⟩
    by_cases hkj : k = j
    · rw [if_pos hkj, if_pos hlt] at hj
      cases hj
      exact .inl rfl
    · rw [if_neg hkj] at hj
      exact .inr ⟨j, hj⟩
  · rintro (rfl | ⟨j, hj⟩)
    · exact ⟨k, by rw [if_pos rfl, if_pos hlt]⟩
    · refine ⟨j, ?_⟩
      rw [if_neg]
      · exact hj
      · rintro rfl
        rw [hk] at hj
        cases hj

theorem Resident.empty_cell (h : Resident n pt L) (hn : pt.newFramesCounter < n) :
    (cells pt.frames)[pt.newFramesCounter]? = some none := by
  have hempty := h.consistent.empty pt.newFramesCounter (le_refl _) hn
  simp [cells, hempty]

/-- A change of the cells is an access of demand paging with write-back. -/
theorem Change.step {E : Nat → Prop} (h : Resident n pt L) (hch : Change E n m pt pt') :
    ∃ f w, Writeback.Step (fun q => ∃ k b, E k ∧ (cells pt.frames)[k]? = some (some (q, b))) n pt.memory m.pageNo
        m.isStore f w pt'.memory ∧
      pt'.totalPageFaults = pt.totalPageFaults + f ∧ pt'.totalWritesToDisk = pt.totalWritesToDisk + w := by
  cases hch with
  | hit k b here hcells faults writes counter =>
    have hset := mem_set_cells (d := m.isStore || b) h here (fun hne => absurd rfl hne)
    have hmem : pt'.memory = pt.memory.touch m.pageNo m.isStore := by
      ext r
      · simp only [mem_held, Writeback.Memory.mem_held_touch, hcells, hset]
        by_cases hr : r = m.pageNo
        · simp [hr]
        · simp [hr]
      · simp only [mem_dirty, Writeback.Memory.mem_dirty_touch, hcells, hset]
        by_cases hr : r = m.pageNo
        · have hd := h.dirty_iff here
          rw [mem_dirty] at hd
          subst hr
          simp [hd, @eq_comm _ true]
        · simp [hr]
    rw [hmem]
    exact ⟨0, 0, .hit (mem_held.2 ⟨b, List.mem_of_getElem? here⟩), faults, writes⟩
  | fill absent room hcells faults writes counter =>
    have hset := mem_fill_cells (h.empty_cell room) (m.pageNo, m.isStore)
    have hmem : pt'.memory = pt.memory.touch m.pageNo m.isStore := by
      ext r
      · simp only [mem_held, Writeback.Memory.mem_held_touch, hcells, hset, Prod.mk.injEq]
        simp [exists_or]
      · simp only [mem_dirty, Writeback.Memory.mem_dirty_touch, hcells, hset, Prod.mk.injEq]
        simp [@eq_comm _ true]
    rw [hmem]
    exact ⟨1, 0, .fill (not_held absent) (by rw [h.held_card]; exact room), faults, writes⟩
  | evict k q b absent full victim allowed hcells faults writes counter =>
    have hset := mem_set_cells (d := m.isStore) h victim (fun _ => absent)
    have hmem : pt'.memory = (pt.memory.drop q).touch m.pageNo m.isStore := by
      ext r
      · simp only [mem_held, Writeback.Memory.mem_held_touch, Writeback.Memory.mem_held_drop, hcells, hset]
        by_cases hr : r = m.pageNo
        · simp [hr]
        · simp [hr]
      · simp only [mem_dirty, Writeback.Memory.mem_dirty_touch, Writeback.Memory.mem_dirty_drop, hcells, hset]
        by_cases hr : r = m.pageNo
        · have hno := absent true
          subst hr
          simp [hno, @eq_comm _ true]
        · simp [hr]
    rw [hmem]
    refine ⟨1, _, .evict q (not_held absent) (by rw [h.held_card]; exact full)
      (mem_held.2 ⟨b, List.mem_of_getElem? victim⟩) ⟨k, b, allowed, victim⟩, faults, ?_⟩
    simp only [h.dirty_iff victim]
    exact writes

/-- A page that an access makes leave was in the frame that the algorithm picked. -/
theorem Change.evicted {E : Nat → Prop} (h : Resident n pt L) (hch : Change E n m pt pt') {p : Int}
    (hp : p ∈ pt.memory.held) (hleft : p ∉ pt'.memory.held) :
    ∃ k b, E k ∧ m.pageNo ∉ pt.memory.held ∧ pt.newFramesCounter = n ∧ (cells pt.frames)[k]? = some (some (p, b)) ∧
      cells pt'.frames = (cells pt.frames).set k (some (m.pageNo, m.isStore)) := by
  obtain ⟨b, hb⟩ := mem_held.1 hp
  obtain ⟨j, hj⟩ := List.mem_iff_getElem?.1 hb
  -- a page whose cell is not overwritten with another page stays
  have hstays : ∀ {k c}, cells pt'.frames = (cells pt.frames).set k c → k ≠ j → False := by
    intro k c hcells hne
    refine hleft (mem_held.2 ⟨b, List.mem_of_getElem? (i := j) ?_⟩)
    rw [hcells, List.getElem?_set_ne hne]
    exact hj
  cases hch with
  | hit k b' here hcells faults writes counter =>
    by_cases hk : k = j
    · subst hk
      rw [hj] at here
      cases here
      have hnew : (cells pt'.frames)[k]? = some (some (m.pageNo, m.isStore || b)) := by
        rw [hcells, List.getElem?_set_self (List.getElem?_eq_some_iff.1 hj).1]
      exact absurd (mem_held.2 ⟨_, List.mem_of_getElem? hnew⟩) hleft
    · exact (hstays hcells hk).elim
  | fill absent room hcells faults writes counter =>
    refine (hstays hcells fun hk => ?_).elim
    rw [← hk, h.empty_cell room] at hj
    cases hj
  | evict k q b' absent full victim allowed hcells faults writes counter =>
    obtain rfl : k = j := by
      by_contra hne
      exact hstays hcells hne
    exact ⟨k, b, allowed, not_held absent, full, hj, hcells⟩

/-- The accesses of a trace as demand paging sees them. -/
def requests (traces : List MemoryAccess) : List (Int × Bool) := traces.map fun m => (m.pageNo, m.isStore)

theorem requests_getElem? {traces : List MemoryAccess} {t : Nat} {x : Int × Bool} (h : (requests traces)[t]? = some x) :
    ∃ m, traces[t]? = some m ∧ x = (m.pageNo, m.isStore) := by
  rw [requests, List.getElem?_map, Option.map_eq_some_iff] at h
  obtain ⟨m, hm, rfl⟩ := h
  exact ⟨m, hm, rfl⟩

theorem requests_length (traces : List MemoryAccess) : (requests traces).length = traces.length := List.length_map ..

theorem after_requests (traces : List MemoryAccess) (t : Nat) :
    Writeback.after (requests traces) t = (traces.drop (t + 1)).map MemoryAccess.pageNo := by
  rw [Writeback.after, requests, ← List.map_drop, List.map_map]
  rfl

section

variable {a : σ} {traces : List MemoryAccess} {run : Nat → PageTable σ}

/-- The residents at every time of a run whose accesses take the three paths. -/
theorem Traced.resident (hp : KeepsPages alg) (h : Traced alg n a traces run)
    (ho : ∀ {t m L}, traces[t]? = some m → Resident n (run t) L → Outcome alg (run t) m (run (t + 1))) :
    ∀ t ≤ traces.length, ∃ L, Resident n (run t) L
  | 0, _ => ⟨[], by rw [h.start]; exact resident_init n a⟩
  | t + 1, ht => by
    obtain ⟨L, hL⟩ := h.resident hp ho t (by omega)
    obtain ⟨f, L', -, hR, -⟩ := (ho (List.getElem?_eq_getElem ht) hL).resident hp hL
    exact ⟨L', hR⟩

/-- A run of the page table is a run of demand paging with write-back, under a rule that its picks obey. -/
theorem Traced.writeback (hc : KeepsCells alg) (h : Traced alg n a traces run)
    (ho : ∀ {t m}, traces[t]? = some m → Outcome alg (run t) m (run (t + 1)))
    {E : Writeback.Memory Int → List Int → Int → Prop}
    (hE : ∀ {t m k q b}, traces[t]? = some m → m.pageNo ∉ (run t).memory.held → (run t).newFramesCounter = n →
      Picks alg (run t) m (k : Nat) → (cells (run t).frames)[k]? = some (some (q, b)) → q ∉ (run (t + 1)).memory.held →
      E (run t).memory ((traces.drop (t + 1)).map MemoryAccess.pageNo) q) :
    Writeback.Run E n (requests traces) (fun t => (run t).memory) (fun t => (run t).totalPageFaults)
      fun t => (run t).totalWritesToDisk := by
  refine ⟨?_, by rw [h.start]; rfl, by rw [h.start]; rfl, fun {t x store} hx => ?_⟩
  · show (run 0).memory = _
    rw [h.start]
    have hheld := (resident_init n a).held
    ext p
    · rw [hheld]
      rfl
    · have hsub : p ∉ (PageTable.init n a).memory.dirty := by
        intro hp
        have := (PageTable.init n a).memory.sub hp
        rw [hheld] at this
        exact Finset.notMem_empty p this
      simp [hsub, Writeback.Memory.empty]
  · obtain ⟨m, hm, heq⟩ := requests_getElem? hx
    cases heq
    obtain ⟨L, hL⟩ := h.resident hc.keepsPages (fun hm _ => ho hm) t (List.getElem?_eq_some_iff.1 hm).1.le
    obtain ⟨f, w, hstep, hf, hw⟩ := ((ho hm).change hc hL).step hL
    refine ⟨f, w, hstep.imp ?_, hf, hw⟩
    rintro q hnot hfull hleft ⟨k, b, hk, hcell⟩
    rw [after_requests]
    exact hE hm hnot (by rw [← hL.held_card]; exact hfull) hk hcell hleft

end

end CS1550.Vmsim
