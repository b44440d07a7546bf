/-
How much fifo can lose to a rule that knows the future. Its queue of frame numbers, read as the pages in these frames,
is a queue of pages (`Lined`), so that a run of the simulator under fifo is a run of `Paging.Queue`; what the other
rule does in the page table is a run of demand paging as before. Fifo evicts at most `n / (n - h + 1)` times as often
with `n` frames as any policy, and as the optimal algorithm, with `h` (`fifo_competitive`).
-/
import CS1550.Lib.Competitive
import CS1550.Vmsim.Fifo
import CS1550.Vmsim.Optimality

namespace CS1550.Vmsim

/-! ## The queue of pages -/

/-- Page `p` is in frame `i`. -/
def InFrame (L : List Int) (i p : Int) : Prop := ∃ k : Nat, i = k ∧ L[k]? = some p

/-- The pages `q` in the frames of the queue, in its order. They are all the residents. -/
structure Lined (L queue q : List Int) : Prop where
  pages : List.Forall₂ (InFrame L) queue q
  perm : q.Perm L

theorem lined_nil : Lined [] [] [] := ⟨.nil, .refl []⟩

/-- A change of the residents that leaves the frames of the queue alone. -/
theorem inFrame_keep {L L' queue q : List Int} (h : List.Forall₂ (InFrame L) queue q)
    (hkeep : ∀ (k : Nat) (p : Int), (k : Int) ∈ queue → L[k]? = some p → L'[k]? = some p) :
    List.Forall₂ (InFrame L') queue q := by
  induction h with
  | nil => exact .nil
  | cons hfirst _ ih =>
    obtain ⟨k, rfl, hk⟩ := hfirst
    refine .cons ⟨k, rfl, hkeep k _ List.mem_cons_self hk⟩ (ih fun j p hj hp => ?_)
    exact hkeep j p (List.mem_cons_of_mem _ hj) hp

theorem Lined.fill {L queue q : List Int} (h : Lined L queue q) (p : Int) :
    Lined (L ++ [p]) (queue ++ [(L.length : Int)]) (q ++ [p]) := by
  refine ⟨List.rel_append (inFrame_keep h.pages fun k r _ hk => ?_) (.cons ⟨L.length, rfl, by simp⟩ .nil),
    h.perm.append_right [p]⟩
  rw [List.getElem?_append_left (List.getElem?_eq_some_iff.1 hk).1]
  exact hk

/-- The page of the first frame goes, and the new one is the last. -/
theorem Lined.evict {L queue q : List Int} {k : Nat} (h : Lined L ((k : Int) :: queue) q) (hfresh : (k : Int) ∉ queue)
    (p : Int) : ∃ v q', q = v :: q' ∧ Lined (L.set k p) (queue ++ [(k : Int)]) (q' ++ [p]) := by
  obtain ⟨hpages, hperm⟩ := h
  cases hpages with
  | @cons _ v _ q' hfirst hrest =>
    obtain ⟨j, hj, hv⟩ := hfirst
    obtain rfl : k = j := by omega
    obtain ⟨hlt, hget⟩ := List.getElem?_eq_some_iff.1 hv
    refine ⟨v, q', rfl, List.rel_append (inFrame_keep hrest fun j r hmem hr => ?_) (.cons ⟨k, rfl, ?_⟩ .nil), ?_⟩
    · rw [List.getElem?_set_ne]
      · exact hr
      · rintro rfl
        exact hfresh hmem
    · rw [List.getElem?_set_self hlt]
    · have hothers : q'.Perm (L.eraseIdx k) := by
        have hsplit := List.getElem_cons_eraseIdx_perm hlt
        rw [hget] at hsplit
        exact (hperm.trans hsplit.symm).cons_inv
      calc
        (q' ++ [p]).Perm (p :: q') := List.perm_append_singleton p q'
        List.Perm _ (p :: L.eraseIdx k) := hothers.cons p
        List.Perm _ (L.set k p) := (List.set_perm_cons_eraseIdx hlt p).symm

/-! ## One access -/

section Access

variable {n : Nat} {pt pt' : PageTable (List Int)} {m : MemoryAccess} {L L' q : List Int} {rest : List MemoryAccess}

/-- One access under fifo is one request to the queue. A fault that takes no new frame is an eviction. -/
theorem Lined.access {f : Nat} (hR : Resident n pt L) (hR' : Resident n pt' L')
    (hq : Queued rest pt.replacementAlgorithm L) (ho : Outcome fifo pt m pt')
    (hm : Moved (Picks fifo pt m ·) n m.pageNo L f L') (hf : pt'.totalPageFaults = pt.totalPageFaults + f)
    (h : Lined L pt.replacementAlgorithm q) :
    ∃ e q', Paging.Queue.Access n q m.pageNo e q' ∧ Lined L' pt'.replacementAlgorithm q' ∧
      pt'.totalPageFaults + pt.newFramesCounter = pt.totalPageFaults + pt'.newFramesCounter + e := by
  have hcount := hR.counter
  have hcount' := hR'.counter
  have hqueue := fifo_queue hR hq ho
  cases hm with
  | hit hmem =>
    have hsame : pt'.replacementAlgorithm = pt.replacementAlgorithm := by
      rcases hqueue with ⟨-, hsame⟩ | ⟨hnew, -⟩ | ⟨hfault, -⟩
      · exact hsame
      · omega
      · omega
    refine ⟨0, q, .hit (h.perm.mem_iff.2 hmem), ?_, by omega⟩
    rw [hsame]
    exact h
  | fill hnot hroom =>
    rw [List.length_append, List.length_singleton] at hcount'
    have happend : pt'.replacementAlgorithm = pt.replacementAlgorithm ++ [(L.length : Int)] := by
      rcases hqueue with ⟨hfault, -⟩ | ⟨-, happend⟩ | ⟨-, hnew, -⟩
      · omega
      · rw [happend, hcount]
      · omega
    refine ⟨0, q ++ [m.pageNo], .fill (fun hmem => hnot (h.perm.mem_iff.1 hmem)) ?_, ?_, by omega⟩
    · rw [h.perm.length_eq]
      exact hroom
    · rw [happend]
      exact h.fill m.pageNo
  | evict k hnot hfull hk hpick =>
    rw [List.length_set] at hcount'
    obtain ⟨queue, hhead⟩ := fifo_picks hpick
    have hrotate : pt'.replacementAlgorithm = queue ++ [(k : Int)] := by
      rcases hqueue with ⟨hfault, -⟩ | ⟨hnew, -⟩ | ⟨-, -, k', queue', hkq, hrotate⟩
      · omega
      · omega
      · rw [hhead] at hkq
        cases hkq
        exact hrotate
    have hfresh : (k : Int) ∉ queue := by
      have hnodup := hq.1
      rw [hhead, List.nodup_cons] at hnodup
      exact hnodup.1
    have hlen := h.perm.length_eq
    have habsent : m.pageNo ∉ q := fun hmem => hnot (h.perm.mem_iff.1 hmem)
    rw [hhead] at h
    obtain ⟨v, q', rfl, hlined⟩ := h.evict hfresh m.pageNo
    refine ⟨1, q' ++ [m.pageNo], .evict habsent rfl (by omega), ?_, by omega⟩
    rw [hrotate]
    exact hlined

end Access

/-! ## Whole runs -/

theorem fifo_queue_run {n : Nat} (hn : 1 ≤ n) :
    ∀ (traces : List MemoryAccess) {pt : PageTable (List Int)} {L q : List Int}, Resident n pt L →
      Queued traces pt.replacementAlgorithm L → Lined L pt.replacementAlgorithm q →
      ∃ pt' e q', simulate fifo pt traces = .ok pt' ∧
        Paging.Queue.Run n q (traces.map MemoryAccess.pageNo) e q' ∧
        pt'.totalPageFaults + pt.newFramesCounter = pt.totalPageFaults + pt'.newFramesCounter + e
  | [], pt, L, q, _, _, _ => ⟨pt, 0, q, rfl, .nil q, rfl⟩
  | m :: rest, pt, L, q, hR, hq, h => by
    obtain ⟨pt₁, f, L₁, ho, hR₁, hq₁, hm, hf⟩ := (fifo_sound hn).step fifo_keepsPages hR hq
    obtain ⟨e, q₁, hacc, h₁, he⟩ := h.access hR hR₁ hq ho hm hf
    obtain ⟨pt', e', q', hrun, hrest, he'⟩ := fifo_queue_run hn rest hR₁ hq₁ h₁
    refine ⟨pt', e + e', q', ?_, .cons hacc hrest, by omega⟩
    rw [simulate_cons, bind_ok]
    exact ⟨pt₁, access_of_outcome ho, hrun⟩

/-- The faults that found all frames taken. -/
def PageTable.evictions {σ : Type} (pt : PageTable σ) : Nat := pt.totalPageFaults - pt.newFramesCounter

/-- The run of fifo from the empty page table, as a queue and as demand paging. -/
theorem fifo_runs {n : Nat} (hn : 1 ≤ n) (traces : List MemoryAccess) :
    ∃ pt k R q, simulate fifo (PageTable.init n []) traces = .ok pt ∧
      Paging.Queue.Run n [] (traces.map MemoryAccess.pageNo) pt.evictions q ∧
      Paging.Run (fun _ _ _ => True) n ∅ (traces.map MemoryAccess.pageNo) k R ∧
      pt.totalPageFaults = pt.evictions + R.card := by
  obtain ⟨pt, e, q, hrun, hqueue, he⟩ := fifo_queue_run hn traces (resident_init n []) (queued_init traces) lined_nil
  obtain ⟨pt', k, R, hrun', hR, -, hcard⟩ := (fifo_sound hn).paging_counter fifo_keepsPages (E := fun _ _ _ => True)
    (fun _ _ _ _ _ _ => trivial) traces (resident_init n []) (queued_init traces)
  rw [hrun] at hrun'
  cases hrun'
  simp only [PageTable.init, Nat.add_zero, Nat.zero_add] at he
  have hev : pt.evictions = e := by
    unfold PageTable.evictions
    omega
  refine ⟨pt, k, R, q, hrun, ?_, hR, by omega⟩
  rw [hev]
  exact hqueue

/-- Fifo against one run of demand paging over the same trace. -/
theorem evictions_le_of_run {σ : Type} {n h k l : Nat} {xs q : List Int} {E E' : Finset Int → List Int → Int → Prop}
    {R S : Finset Int} {pt : PageTable (List Int)} {other : PageTable σ} (hn : 1 ≤ n)
    (hqueue : Paging.Queue.Run n [] xs pt.evictions q) (hR : Paging.Run E n ∅ xs k R)
    (hfaults : pt.totalPageFaults = pt.evictions + R.card) (hS : Paging.Run E' h ∅ xs l S)
    (hl : other.totalPageFaults = l) (hcard : other.newFramesCounter = S.card) :
    (n + 1 - h) * pt.evictions ≤ n * other.evictions ∧
      (h = n → pt.totalPageFaults ≤ n * other.totalPageFaults) := by
  have hle := hqueue.evictions_le hS
  have hother : other.evictions = l - S.card := by rw [PageTable.evictions, hl, hcard]
  refine ⟨by rw [hother]; exact hle, ?_⟩
  rintro rfl
  obtain ⟨hsame, -, -⟩ := Paging.Together.run hR hS ⟨rfl, Nat.zero_le _, fun _ => rfl⟩
  have hbound : S.card ≤ l := by simpa using hS.card_le_add
  rw [Nat.add_sub_cancel_left, Nat.one_mul] at hle
  rw [hfaults, hl, hsame]
  calc
    pt.evictions + S.card ≤ h * (l - S.card) + h * S.card := Nat.add_le_add hle (Nat.le_mul_of_pos_left _ hn)
    _ = h * l := by rw [← Nat.mul_add, Nat.sub_add_cancel hbound]

/-- The competitiveness of fifo: with `n ≥ 1` frames it completes every trace, and `n - h + 1` times its evictions are
at most `n` times those of every policy with `h ≤ n` frames that completes it, and of the optimal algorithm. With
equally many frames, its page faults are at most `n` times theirs. -/
theorem fifo_competitive (n h : Nat) (hn : 1 ≤ n) (hh : h ≤ n) (traces : List MemoryAccess) :
    ∃ pt, simulate fifo (PageTable.init n []) traces = .ok pt ∧
      (∀ (σ : Type) (alg : ReplacementAlgorithm σ) (a : σ) (other : PageTable σ), Policy alg →
        simulate alg (PageTable.init h a) traces = .ok other →
        (n - h + 1) * pt.evictions ≤ n * other.evictions ∧
          (h = n → pt.totalPageFaults ≤ n * other.totalPageFaults)) ∧
      (1 ≤ h → ∃ opt, simulate optimal (PageTable.init h (Optimal.init traces)) traces = .ok opt ∧
        (n - h + 1) * pt.evictions ≤ n * opt.evictions ∧ (h = n → pt.totalPageFaults ≤ n * opt.totalPageFaults)) := by
  obtain ⟨pt, k, R, q, hrun, hqueue, hR, hfaults⟩ := fifo_runs hn traces
  rw [show n - h + 1 = n + 1 - h by omega]
  refine ⟨pt, hrun, fun σ alg a other hp hother => ?_, fun hpos => ?_⟩
  · obtain ⟨l, S, hS, hl, hcard⟩ := hp.paging_counter traces (resident_init h a) hother
    exact evictions_le_of_run hn hqueue hR hfaults hS (by rw [hl, PageTable.init, Nat.zero_add]) hcard
  · obtain ⟨opt, l, S, hopt, hS, hl, hcard⟩ := optimal_paging_counter hpos traces
    exact ⟨opt, hopt, evictions_le_of_run hn hqueue hR hfaults hS hl hcard⟩

/-- Three frames against two of the optimal algorithm, on the trace 1, 2, 3, 4, 1, 2. -/
theorem fifo_competitive_three_frames :
    ∃ pt opt, simulate fifo (PageTable.init 3 []) ([1, 2, 3, 4, 1, 2].map fun p => ⟨.load, p, 0⟩) = .ok pt ∧
      simulate optimal (PageTable.init 2 (Optimal.init ([1, 2, 3, 4, 1, 2].map fun p => ⟨.load, p, 0⟩)))
        ([1, 2, 3, 4, 1, 2].map fun p => ⟨.load, p, 0⟩) = .ok opt ∧
      2 * pt.evictions ≤ 3 * opt.evictions := by
  obtain ⟨pt, hpt, -, hopt⟩ := fifo_competitive 3 2 (by decide) (by decide) ([1, 2, 3, 4, 1, 2].map fun p => ⟨.load, p, 0⟩)
  obtain ⟨opt, hrun, hle, -⟩ := hopt (by decide)
  exact ⟨pt, opt, hpt, hrun, hle⟩

end CS1550.Vmsim
