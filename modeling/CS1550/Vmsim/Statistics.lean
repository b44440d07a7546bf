/-
The statistics that the simulator prints mean what they say, for each of the three algorithms and at every
time of every run: accesses, evictions and dirty bits, and the writes to disk as the completed residencies that
contain a store (`statistics_exact`).
-/
import CS1550.Vmsim.Runs

namespace CS1550.Vmsim

variable {σ : Type}

/-- The statistics at time `t` of a run against its history. A request of the history is a page with whether it
is stored to; `Since` gives the most recent load of a resident page. -/
structure Statistics (n : Nat) (traces : List MemoryAccess) (run : Nat → PageTable σ) (t : Nat) : Prop where
  accesses : (run t).totalMemoryAccesses = t
  evictions : Writeback.evictions (fun k => (run k).memory) t + (run t).newFramesCounter = (run t).totalPageFaults
  dirty : ∀ (k : Nat) (e : PageTableEntry), (run t).frames[k]? = some (some e) →
    ∃ i, Writeback.Since (requests traces) (fun k => (run k).memory) e.pageNo i t ∧
      (e.dirtyBit = true ↔ Writeback.Stored (requests traces) e.pageNo i t)
  writes : (run t).totalWritesToDisk = {r : Int × Nat × Nat | r.2.2 < t ∧
    Writeback.Residency (requests traces) (fun k => (run k).memory) r.1 r.2.1 r.2.2 ∧
    Writeback.Stored (requests traces) r.1 r.2.1 r.2.2}.ncard
  distinct : (Writeback.requested (requests traces) t).card ≤ (run t).totalPageFaults
  few : (Writeback.requested (requests traces) t).card ≤ n →
    (run t).totalPageFaults = (Writeback.requested (requests traces) t).card ∧ (run t).totalWritesToDisk = 0

theorem Outcome.accesses {alg : ReplacementAlgorithm σ} {pt pt' : PageTable σ} {m : MemoryAccess}
    (h : Outcome alg pt m pt') : pt'.totalMemoryAccesses = pt.totalMemoryAccesses + 1 := by
  cases h <;> rfl

section

variable {alg : ReplacementAlgorithm σ} {n : Nat} {a : σ} {traces : List MemoryAccess} {run : Nat → PageTable σ}

theorem Traced.accesses (h : Traced alg n a traces run)
    (ho : ∀ {t m}, traces[t]? = some m → Outcome alg (run t) m (run (t + 1))) :
    ∀ t ≤ traces.length, (run t).totalMemoryAccesses = t
  | 0, _ => by rw [h.start]; rfl
  | t + 1, ht => by rw [(ho (List.getElem?_eq_getElem ht)).accesses, h.accesses ho t (by omega)]

theorem Traced.statistics (hc : KeepsCells alg) (h : Traced alg n a traces run)
    (ho : ∀ {t m}, traces[t]? = some m → Outcome alg (run t) m (run (t + 1))) {t : Nat} (ht : t ≤ traces.length) :
    Statistics n traces run t := by
  have hrun := h.writeback hc ho (E := fun _ _ _ => True) fun _ _ _ _ _ _ => trivial
  have hle : t ≤ (requests traces).length := by rw [requests_length]; exact ht
  obtain ⟨L, hL⟩ := h.resident hc.keepsPages (fun hm _ => ho hm) t ht
  refine ⟨h.accesses ho t ht, ?_, fun k e he => ?_, hrun.writes_ncard hle, hrun.requested_le t hle, hrun.few hle⟩
  · rw [← hL.held_card]
    exact hrun.faults_eq t hle
  · have hcell : (cells (run t).frames)[k]? = some (some (e.pageNo, e.dirtyBit)) := cells_getElem?.2 ⟨e, he, rfl⟩
    obtain ⟨i, hsince, hdirty⟩ := hrun.since t hle e.pageNo (mem_held.2 ⟨e.dirtyBit, List.mem_of_getElem? hcell⟩)
    exact ⟨i, hsince, (hL.dirty_iff hcell).symm.trans hdirty⟩

end

/-- A run over the trace that raises nothing, with exact statistics after every access. -/
def RunsExactly (alg : ReplacementAlgorithm σ) (n : Nat) (a : σ) (traces : List MemoryAccess) : Prop :=
  ∃ run, Traced alg n a traces run ∧ simulate alg (PageTable.init n a) traces = .ok (run traces.length) ∧
    ∀ t ≤ traces.length, Statistics n traces run t

theorem Sound.runsExactly {alg : ReplacementAlgorithm σ} (hc : KeepsCells alg) {n : Nat}
    {I : List MemoryAccess → σ → List Int → Prop} (hs : Sound alg n I) {a : σ} {traces : List MemoryAccess}
    (hI : I traces a []) : RunsExactly alg n a traces := by
  obtain ⟨run, hrun, -, ho⟩ := hs.traced hc.keepsPages hI
  refine ⟨run, hrun, ?_, fun t ht => hrun.statistics hc ho ht⟩
  have h := hrun.simulate traces.length (le_refl _)
  rwa [List.take_length] at h

/-- Exact statistics: with at least one frame, over every trace and at every time of the run, for the optimal
algorithm built from the trace, fifo, and aging with a positive refresh rate. -/
theorem statistics_exact (n : Nat) (hn : 1 ≤ n) (traces : List MemoryAccess) :
    RunsExactly optimal n (Optimal.init traces) traces ∧ RunsExactly fifo n [] traces ∧
    ∀ r : Int, 1 ≤ r → RunsExactly aging n (Aging.init r) traces := by
  exact ⟨(optimal_sound_at hn traces.length).runsExactly optimal_keepsCells (foreseenAt_init traces),
    (fifo_sound hn).runsExactly fifo_keepsCells (queued_init traces),
    fun r hr => (aging_sound hn).runsExactly aging_keepsCells hr⟩

/-- One frame: page 1 is stored to and given up, so it is written. -/
theorem statistics_exact_one_frame : RunsExactly fifo 1 [] [⟨.store, 1, 0⟩, ⟨.load, 2, 3⟩] ∧
    RunsExactly aging 1 (Aging.init 4) [⟨.store, 1, 0⟩, ⟨.load, 2, 3⟩] :=
  ⟨(statistics_exact 1 (by decide) _).2.1, (statistics_exact 1 (by decide) _).2.2 4 (by decide)⟩

end CS1550.Vmsim
