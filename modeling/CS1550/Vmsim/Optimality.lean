/-
The optimal algorithm has the fewest page faults: over every trace and with any positive number of
frames, `total_page_faults` under `OptimalReplacementAlgorithm` is at most that under any rule that
picks a frame on a fault with all frames full, run through the same page table, and so at most that
of fifo and of aging with any refresh rate. Nor does another frame cost it a fault.

A run of the page table is a run of demand paging on its set of residents (`Moved.access`); the
optimal algorithm evicts a page with the furthest next use because `trace_map` is an oracle, and the
comparison is Belady's theorem (`Paging.Run.furthest_le`).
-/
import CS1550.Lib.Paging
import CS1550.Vmsim.Consistency
import Mathlib.Data.Finset.Dedup

namespace CS1550.Vmsim

variable {σ : Type}

/-! ## Demand paging -/

theorem toFinset_set {L : List Int} (hL : L.Nodup) {k : Nat} {p q : Int} (hk : L[k]? = some q) (hp : p ∉ L) :
    (L.set k p).toFinset = insert p (L.toFinset.erase q) := by
  ext x
  simp only [List.mem_toFinset, Finset.mem_insert, Finset.mem_erase, List.mem_iff_getElem?,
    getElem?_set_iff hL hk hp]
  by_cases hx : x = p
  · simp [hx]
  · simp only [hx, if_false, false_or]
    constructor
    · rintro ⟨i, hi, hne⟩; exact ⟨hne, i, hi⟩
    · rintro ⟨hne, i, hi⟩; exact ⟨i, hi, hne⟩

/-- One access of the page table is one request of demand paging. -/
theorem Moved.access {F : Nat → Prop} {E : Finset Int → List Int → Int → Prop} {n : Nat} {p : Int}
    {L L' : List Int} {f : Nat} {rest : List Int} (hL : L.Nodup) (h : Moved F n p L f L')
    (hE : ∀ k q, p ∉ L → L.length = n → F k → L[k]? = some q → E L.toFinset rest q) :
    Paging.Access E n L.toFinset p rest f L'.toFinset := by
  cases h with
  | hit hp => exact .hit (by simpa using hp)
  | fill hp hn =>
    have hset : (L ++ [p]).toFinset = insert p L.toFinset := by
      ext x; simp
    rw [hset]
    exact .fill (by simpa using hp) (by rw [List.toFinset_card_of_nodup hL]; exact hn)
  | evict k hp hn hk hF =>
    obtain ⟨q, hq⟩ : ∃ q, L[k]? = some q := ⟨_, List.getElem?_eq_getElem (by omega)⟩
    rw [toFinset_set hL hq hp]
    exact .evict q (by simpa using hp) (by rw [List.toFinset_card_of_nodup hL]; exact hn)
      (by simpa using List.mem_of_getElem? hq) (hE k q hp hn hF hq)

theorem Resident.counter_eq_card {n : Nat} {pt : PageTable σ} {L : List Int} (h : Resident n pt L) :
    pt.newFramesCounter = L.toFinset.card := by
  rw [h.counter, List.toFinset_card_of_nodup h.nodup]

/-- The run of a sound algorithm as a run of demand paging under a rule that its picks obey, with as many pages held
at the end as frames have come into use. -/
theorem Sound.paging_counter {alg : ReplacementAlgorithm σ} (hp : KeepsPages alg) {n : Nat}
    {I : List MemoryAccess → σ → List Int → Prop} (hs : Sound alg n I) {E : Finset Int → List Int → Int → Prop}
    (hE : ∀ {m rest pt L k q}, Resident n pt L → I (m :: rest) pt.replacementAlgorithm L → m.pageNo ∉ L →
      L.length = n → Picks alg pt m (k : Nat) → L[k]? = some q → E L.toFinset (rest.map MemoryAccess.pageNo) q) :
    ∀ (traces : List MemoryAccess) {pt : PageTable σ} {L : List Int}, Resident n pt L →
      I traces pt.replacementAlgorithm L →
      ∃ pt' k R, simulate alg pt traces = .ok pt' ∧
        Paging.Run E n L.toFinset (traces.map MemoryAccess.pageNo) k R ∧
        pt'.totalPageFaults = pt.totalPageFaults + k ∧ pt'.newFramesCounter = R.card
  | [], pt, L, h, _ => ⟨pt, 0, _, rfl, .nil _, rfl, h.counter_eq_card⟩
  | m :: rest, pt, L, h, hI => by
    obtain ⟨pt₁, f, L₁, ho, h₁, hI₁, hm, hf⟩ := hs.step hp h hI
    obtain ⟨pt', k, R, hrun, hR, hk, hcard⟩ := Sound.paging_counter hp hs hE rest h₁ hI₁
    refine ⟨pt', f + k, R, ?_, .cons (hm.access h.nodup fun k q hp hn hF hq => hE h hI hp hn hF hq) hR, by omega, hcard⟩
    rw [simulate_cons, bind_ok]
    exact ⟨pt₁, access_of_outcome ho, hrun⟩

theorem Sound.paging {alg : ReplacementAlgorithm σ} (hp : KeepsPages alg) {n : Nat}
    {I : List MemoryAccess → σ → List Int → Prop} (hs : Sound alg n I) {E : Finset Int → List Int → Int → Prop}
    (hE : ∀ {m rest pt L k q}, Resident n pt L → I (m :: rest) pt.replacementAlgorithm L → m.pageNo ∉ L →
      L.length = n → Picks alg pt m (k : Nat) → L[k]? = some q → E L.toFinset (rest.map MemoryAccess.pageNo) q)
    (traces : List MemoryAccess) {pt : PageTable σ} {L : List Int} (h : Resident n pt L)
    (hI : I traces pt.replacementAlgorithm L) :
    ∃ pt' k R, simulate alg pt traces = .ok pt' ∧
      Paging.Run E n L.toFinset (traces.map MemoryAccess.pageNo) k R ∧
      pt'.totalPageFaults = pt.totalPageFaults + k := by
  obtain ⟨pt', k, R, hrun, hR, hk, -⟩ := hs.paging_counter hp hE traces h hI
  exact ⟨pt', k, R, hrun, hR, hk⟩

/-- A rule for picking frames, with any state and history of its own: its hooks move no page, and
what it picks is a frame number. -/
structure Policy (alg : ReplacementAlgorithm σ) : Prop extends KeepsPages alg where
  position : ∀ {a a' frames frames' m i}, alg.findFrame a frames m = .ok (a', frames', i) → 0 ≤ i

theorem Policy.indexed {alg : ReplacementAlgorithm σ} (hp : Policy alg) {n : Nat} {pt : PageTable σ}
    (m : MemoryAccess) {L : List Int} (h : Resident n pt L) : Indexed alg pt m := by
  refine ⟨fun p i hi => ?_, fun i hi => ?_⟩
  · obtain ⟨k, rfl, -⟩ := (h.table p i).1 hi; omega
  · obtain ⟨a, frames, a', frames', -, hf⟩ := hi
    exact hp.position hf

/-- The run of any policy as a run of demand paging. -/
theorem Policy.paging_counter {alg : ReplacementAlgorithm σ} (hp : Policy alg) {n : Nat} :
    ∀ (traces : List MemoryAccess) {pt pt' : PageTable σ} {L : List Int}, Resident n pt L →
      simulate alg pt traces = .ok pt' →
      ∃ k R, Paging.Run (fun _ _ _ => True) n L.toFinset (traces.map MemoryAccess.pageNo) k R ∧
        pt'.totalPageFaults = pt.totalPageFaults + k ∧ pt'.newFramesCounter = R.card
  | [], pt, pt', L, h, hrun => by cases hrun; exact ⟨0, _, .nil _, rfl, h.counter_eq_card⟩
  | m :: rest, pt, pt', L, h, hrun => by
    rw [simulate_cons, bind_ok] at hrun
    obtain ⟨pt₁, ha, hrun⟩ := hrun
    obtain ⟨f, L₁, hm, h₁, hf⟩ := (outcome_of_access (hp.indexed m h) ha).resident hp.toKeepsPages h
    obtain ⟨k, R, hR, hk, hcard⟩ := Policy.paging_counter hp rest h₁ hrun
    exact ⟨f + k, R, .cons (hm.access h.nodup fun _ _ _ _ _ _ => trivial) hR, by omega, hcard⟩

theorem Policy.paging {alg : ReplacementAlgorithm σ} (hp : Policy alg) {n : Nat} (traces : List MemoryAccess)
    {pt pt' : PageTable σ} {L : List Int} (h : Resident n pt L) (hrun : simulate alg pt traces = .ok pt') :
    ∃ k R, Paging.Run (fun _ _ _ => True) n L.toFinset (traces.map MemoryAccess.pageNo) k R ∧
      pt'.totalPageFaults = pt.totalPageFaults + k := by
  obtain ⟨k, R, hR, hk, -⟩ := hp.paging_counter traces h hrun
  exact ⟨k, R, hR, hk⟩

/-! ## The furthest next use -/

/-- The frame that the optimal algorithm picks is the chosen one by the next access times. -/
theorem optimal_picks {n t : Nat} (hn : 1 ≤ n) {m : MemoryAccess} {rest : List MemoryAccess} {pt : PageTable TraceMap}
    {L : List Int} {k : Nat} {known : Int → Prop} (h : Resident n pt L)
    (ht : Tracked t (m :: rest) pt.replacementAlgorithm known) (hk : ∀ p ∈ L, known p) (hm : m.pageNo ∉ L)
    (hL : L.length = n) (hpick : Picks optimal pt m (k : Int)) :
    ∃ es best, pt.frames = es.map some ∧ es.map PageTableEntry.pageNo = L ∧
      Chosen (fun p => nextTime (upcoming (t + 1) rest p)) es k best := by
  obtain ⟨es, traceMap', k', best, hes, hpages, hfind, hc, -⟩ := optimal_find hn hL ht hk hm h.frames
  obtain ⟨a, frames, a', frames', hr, hf⟩ := hpick
  cases hr
  simp only [optimal] at hf
  rw [hfind] at hf
  simp only [Except.ok.injEq, Prod.mk.injEq, Int.natCast_inj] at hf
  obtain ⟨-, -, rfl⟩ := hf
  exact ⟨es, best, hes, hpages, hc⟩

/-- A page with the largest next access time has the furthest next use. -/
theorem furthest_of_nextTime_le {t : Nat} {rest : List MemoryAccess} {R : Finset Int} {q : Int}
    (h : ∀ p ∈ R, nextTime (upcoming t rest p) ≤ nextTime (upcoming t rest q)) :
    Paging.Furthest R (rest.map MemoryAccess.pageNo) q := by
  intro p hp j hqj
  exact (nextTime_upcoming_lt rest t j p).1 (lt_of_le_of_lt (h p hp) ((nextTime_upcoming_lt rest t j q).2 hqj))

/-- The optimal algorithm picks a resident with the furthest next use. -/
theorem optimal_furthest {n : Nat} (hn : 1 ≤ n) {m : MemoryAccess} {rest : List MemoryAccess}
    {pt : PageTable TraceMap} {L : List Int} {k : Nat} {q : Int} (h : Resident n pt L)
    (hI : Foreseen (m :: rest) pt.replacementAlgorithm L) (hm : m.pageNo ∉ L) (hL : L.length = n)
    (hpick : Picks optimal pt m (k : Int)) (hq : L[k]? = some q) :
    Paging.Furthest L.toFinset (rest.map MemoryAccess.pageNo) q := by
  obtain ⟨t, ht⟩ := hI
  obtain ⟨es, best, -, rfl, hc⟩ := optimal_picks hn h ht (fun p hp => .inl hp) hm hL hpick
  rw [List.getElem?_map, hc.entry] at hq
  cases hq
  refine furthest_of_nextTime_le (t := t + 1) fun p hp => ?_
  rw [List.mem_toFinset, List.mem_map] at hp
  obtain ⟨e, he, rfl⟩ := hp
  exact hc.le e he

/-- The run of the optimal algorithm evicts a page with the furthest next use each time. -/
theorem optimal_paging_counter {n : Nat} (hn : 1 ≤ n) (traces : List MemoryAccess) :
    ∃ pt k R, simulate optimal (PageTable.init n (Optimal.init traces)) traces = .ok pt ∧
      Paging.Run Paging.Furthest n ∅ (traces.map MemoryAccess.pageNo) k R ∧ pt.totalPageFaults = k ∧
      pt.newFramesCounter = R.card := by
  obtain ⟨pt, k, R, hrun, hR, hk, hcard⟩ := (optimal_sound hn).paging_counter optimal_keepsPages (E := Paging.Furthest)
    (fun h hI hm hL hpick hq => optimal_furthest hn h hI hm hL hpick hq) traces
    (resident_init n (Optimal.init traces)) ⟨0, fun p hp => tracked_init traces p (by simpa using hp)⟩
  exact ⟨pt, k, R, hrun, by simpa using hR, by simpa [PageTable.init] using hk, hcard⟩

theorem optimal_paging {n : Nat} (hn : 1 ≤ n) (traces : List MemoryAccess) :
    ∃ pt k R, simulate optimal (PageTable.init n (Optimal.init traces)) traces = .ok pt ∧
      Paging.Run Paging.Furthest n ∅ (traces.map MemoryAccess.pageNo) k R ∧ pt.totalPageFaults = k := by
  obtain ⟨pt, k, R, hrun, hR, hk, -⟩ := optimal_paging_counter hn traces
  exact ⟨pt, k, R, hrun, hR, hk⟩

/-- The optimal run against one given run of demand paging over the same trace. -/
theorem furthest_le_of_run {n k : Nat} {traces : List MemoryAccess} {R : Finset Int}
    {pt : PageTable σ} {a : σ} {E : Finset Int → List Int → Int → Prop}
    (hopt : Paging.Run Paging.Furthest n ∅ (traces.map MemoryAccess.pageNo) k R)
    (h : ∃ k' R', Paging.Run E n ([] : List Int).toFinset (traces.map MemoryAccess.pageNo) k' R' ∧
      pt.totalPageFaults = (PageTable.init n a).totalPageFaults + k') : k ≤ pt.totalPageFaults := by
  obtain ⟨k', R', hrun, hk⟩ := h
  have := Paging.Run.furthest_le (le_refl n) (by simp) hopt hrun
  simp only [PageTable.init] at hk
  omega

/-- Optimality: over every trace and with `n ≥ 1` frames the optimal algorithm, built from the trace,
completes, and its page faults are at most those of every policy that completes, of fifo, and of
aging with any positive refresh rate. -/
theorem optimal_faults_le (n : Nat) (hn : 1 ≤ n) (traces : List MemoryAccess) :
    ∃ opt, simulate optimal (PageTable.init n (Optimal.init traces)) traces = .ok opt ∧
      (∀ (σ : Type) (alg : ReplacementAlgorithm σ) (a : σ) (pt : PageTable σ), Policy alg →
        simulate alg (PageTable.init n a) traces = .ok pt → opt.totalPageFaults ≤ pt.totalPageFaults) ∧
      (∃ pt, simulate fifo (PageTable.init n []) traces = .ok pt ∧ opt.totalPageFaults ≤ pt.totalPageFaults) ∧
      ∀ r : Int, 1 ≤ r → ∃ pt, simulate aging (PageTable.init n (Aging.init r)) traces = .ok pt ∧
        opt.totalPageFaults ≤ pt.totalPageFaults := by
  obtain ⟨opt, k, R, hrun, hR, rfl⟩ := optimal_paging hn traces
  refine ⟨opt, hrun, fun σ alg a pt hp hpt => ?_, ?_, fun r hr => ?_⟩
  · exact furthest_le_of_run hR (hp.paging traces (resident_init n a) hpt)
  · obtain ⟨pt, k', R', hpt, hR', hk⟩ := (fifo_sound hn).paging fifo_keepsPages (E := fun _ _ _ => True)
      (fun _ _ _ _ _ _ => trivial) traces (resident_init n []) (queued_init traces)
    exact ⟨pt, hpt, furthest_le_of_run hR ⟨k', R', hR', hk⟩⟩
  · obtain ⟨pt, k', R', hpt, hR', hk⟩ := (aging_sound hn).paging aging_keepsPages (E := fun _ _ _ => True)
      (fun _ _ _ _ _ _ => trivial) traces (resident_init n (Aging.init r)) hr
    exact ⟨pt, hpt, furthest_le_of_run hR ⟨k', R', hR', hk⟩⟩

/-- The rule that always gives up frame 0. -/
def firstFrame : ReplacementAlgorithm Unit where
  findFrame _ frames _ := .ok ((), frames, 0)
  attemptRefresh _ frames _ := .ok ((), frames)
  onMemoryAccess _ _ _ _ := .ok ()

theorem firstFrame_policy : Policy firstFrame := by
  refine { refresh := ?_, find := ?_, position := ?_ }
  · intro a a' frames frames' m h; cases h; rfl
  · intro a a' frames frames' m i h; cases h; rfl
  · intro a a' frames frames' m i h; cases h; exact le_refl _

/-- Two frames and a trace on which giving up frame 0 loses the page needed next, against the
optimal algorithm. -/
theorem optimal_faults_le_two_frames :
    ∃ opt, simulate optimal (PageTable.init 2 (Optimal.init [⟨.load, 1, 0⟩, ⟨.load, 2, 0⟩, ⟨.load, 3, 0⟩, ⟨.load, 1, 0⟩]))
        [⟨.load, 1, 0⟩, ⟨.load, 2, 0⟩, ⟨.load, 3, 0⟩, ⟨.load, 1, 0⟩] = .ok opt ∧
      ∀ pt, simulate firstFrame (PageTable.init 2 ()) [⟨.load, 1, 0⟩, ⟨.load, 2, 0⟩, ⟨.load, 3, 0⟩, ⟨.load, 1, 0⟩] =
        .ok pt → opt.totalPageFaults ≤ pt.totalPageFaults := by
  obtain ⟨opt, h, hpol, -⟩ := optimal_faults_le 2 (by decide)
    [⟨.load, 1, 0⟩, ⟨.load, 2, 0⟩, ⟨.load, 3, 0⟩, ⟨.load, 1, 0⟩]
  exact ⟨opt, h, fun pt hpt => hpol Unit firstFrame () pt firstFrame_policy hpt⟩

/-- Another frame never costs a fault: over every trace the optimal algorithm has at most as many page
faults with `n + 1` frames as with `n`. -/
theorem optimal_faults_antitone (n : Nat) (hn : 1 ≤ n) (traces : List MemoryAccess) :
    ∃ small large, simulate optimal (PageTable.init n (Optimal.init traces)) traces = .ok small ∧
      simulate optimal (PageTable.init (n + 1) (Optimal.init traces)) traces = .ok large ∧
      large.totalPageFaults ≤ small.totalPageFaults := by
  obtain ⟨small, k, R, hsmall, hR, rfl⟩ := optimal_paging hn traces
  obtain ⟨large, k', R', hlarge, hR', rfl⟩ := optimal_paging (Nat.le_add_left 1 n) traces
  exact ⟨small, large, hsmall, hlarge, Paging.Run.furthest_le (Nat.le_succ n) (by simp) hR' hR⟩

/-- One frame against two on the trace 1, 2, 1. -/
theorem optimal_faults_antitone_one_frame :
    ∃ small large, simulate optimal (PageTable.init 1 (Optimal.init [⟨.load, 1, 0⟩, ⟨.load, 2, 0⟩, ⟨.load, 1, 0⟩]))
        [⟨.load, 1, 0⟩, ⟨.load, 2, 0⟩, ⟨.load, 1, 0⟩] = .ok small ∧
      simulate optimal (PageTable.init 2 (Optimal.init [⟨.load, 1, 0⟩, ⟨.load, 2, 0⟩, ⟨.load, 1, 0⟩]))
        [⟨.load, 1, 0⟩, ⟨.load, 2, 0⟩, ⟨.load, 1, 0⟩] = .ok large ∧
      large.totalPageFaults ≤ small.totalPageFaults :=
  optimal_faults_antitone 1 (by decide) _

end CS1550.Vmsim
