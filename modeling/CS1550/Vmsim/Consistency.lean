/-
The page table, the frames and the algorithm's own state stay in step: for each of the three
algorithms and every trace no access raises, and after every access the frames below
`new_frames_counter` are occupied and the others empty, the occupied frames hold distinct pages,
`page_frame_table` is exactly their inverse and the page just accessed is resident
(`simulate_consistent`).
-/
import CS1550.Vmsim.Oracle
import CS1550.Vmsim.Victim

namespace CS1550.Vmsim

variable {σ : Type}

/-! ## Full frames -/

/-- Frames that show as many pages as there are frames are all occupied. -/
theorem entries_of_full {n : Nat} {L : List Int} (hn : L.length = n) {frames : Frames}
    (h : pages frames = shown n L) : ∃ es : List PageTableEntry, frames = es.map some ∧
      es.map PageTableEntry.pageNo = L := by
  subst hn
  simp only [shown, Nat.sub_self, List.replicate_zero, List.append_nil] at h
  induction L generalizing frames with
  | nil => exact ⟨[], by simpa [pages] using h, rfl⟩
  | cons p L ih =>
    cases frames with
    | nil => simp [pages] at h
    | cons o frames =>
      simp only [pages, List.map_cons, List.cons.injEq] at h
      obtain ⟨ho, h⟩ := h
      cases o with
      | none => cases ho
      | some e =>
        simp only [Option.map_some, Option.some.injEq] at ho
        obtain ⟨es, rfl, hes⟩ := ih h
        exact ⟨e :: es, rfl, by simp [ho, hes]⟩

/-! ## Fifo -/

/-- The queue holds each occupied frame exactly once. -/
def Queued (_ : List MemoryAccess) (queue : List Int) (L : List Int) : Prop :=
  queue.Nodup ∧ ∀ i, i ∈ queue ↔ ∃ k : Nat, i = k ∧ k < L.length

theorem queued_init (traces : List MemoryAccess) : Queued traces [] [] := ⟨List.nodup_nil, fun i => by simp⟩

theorem fifo_keepsPages : KeepsPages fifo := by
  constructor
  · intro a a' frames frames' m h; cases h; rfl
  · intro a a' frames frames' m i h
    cases a with
    | nil => cases h
    | cons f q => cases h; rfl

theorem fifo_sound {n : Nat} (hn : 1 ≤ n) : Sound fifo n Queued := by
  refine ⟨fun h _ => ⟨_, _, rfl, h⟩, ?_, ?_, ?_⟩
  · rintro m rest queue L frames k ⟨hd, hq⟩ - hk
    have hmem : (k : Int) ∈ queue := (hq k).2 ⟨k, rfl, (List.getElem?_eq_some_iff.1 hk).1⟩
    refine ⟨queue, ?_, hd, hq⟩
    simp [fifo, hmem]
  · rintro m rest queue L frames ⟨hd, hq⟩ - - -
    have hnot : (L.length : Int) ∉ queue := by
      intro hm
      obtain ⟨k, hk, hlt⟩ := (hq _).1 hm
      omega
    refine ⟨queue ++ [(L.length : Int)], by simp [fifo, hnot], ?_, fun i => ?_⟩
    · exact List.nodup_append.2 ⟨hd, List.nodup_singleton _, fun a ha b hb => by
        rw [List.mem_singleton] at hb; subst hb; rintro rfl; exact hnot ha⟩
    · rw [List.mem_append, List.mem_singleton, hq, List.length_append, List.length_singleton]
      constructor
      · rintro (⟨k, rfl, hk⟩ | rfl)
        · exact ⟨k, rfl, by omega⟩
        · exact ⟨L.length, rfl, by omega⟩
      · rintro ⟨k, rfl, hk⟩
        by_cases hkL : k < L.length
        · exact .inl ⟨k, rfl, hkL⟩
        · exact .inr (by omega)
  · rintro m rest queue L frames ⟨hd, hq⟩ - hL -
    cases queue with
    | nil => have := (hq 0).2 ⟨0, rfl, by omega⟩; simp at this
    | cons f queue =>
      obtain ⟨k, rfl, hk⟩ := (hq f).1 (List.mem_cons_self ..)
      obtain ⟨hnot, hd⟩ := List.nodup_cons.1 hd
      refine ⟨queue, frames, k, rfl, by omega, fun frames'' _ => ⟨queue ++ [(k : Int)], by simp [fifo, hnot], ?_, fun i => ?_⟩⟩
      · exact List.nodup_append.2 ⟨hd, List.nodup_singleton _, fun a ha b hb => by
          rw [List.mem_singleton] at hb; subst hb; rintro rfl; exact hnot ha⟩
      · rw [List.length_set, ← hq, List.mem_append, List.mem_singleton, List.mem_cons, or_comm]

/-! ## Aging -/

/-- A refresh divides by the rate, so the rate must not be zero; it never changes. -/
def Rated (_ : List MemoryAccess) (a : Aging) (_ : List Int) : Prop := 1 ≤ a.refreshRate

section Entries

variable {β : Type} {f : PageTableEntry → β}

/-- A refresh keeps every part of the entries that it keeps in each one. -/
theorem map_refresh_iterate (hf : ∀ e : PageTableEntry, f e.refresh = f e) (frames : Frames) :
    ∀ k, (Aging.refresh^[k] frames).map (Option.map f) = frames.map (Option.map f)
  | 0 => rfl
  | k + 1 => by
    rw [Function.iterate_succ', Function.comp, ← map_refresh_iterate hf frames k, Aging.refresh, List.map_map]
    refine List.map_congr_left fun o _ => ?_
    cases o with
    | none => rfl
    | some e => exact congrArg some (hf e)

/-- Writing back an entry that agrees with the one that was there. -/
theorem map_setItem {frames frames' : Frames} {i : Int} {e e' : PageTableEntry} (he : getEntry frames i = .ok e)
    (hs : setItem frames i (some e') = .ok frames') (hf : f e' = f e) :
    frames'.map (Option.map f) = frames.map (Option.map f) := by
  unfold setItem at hs
  obtain ⟨k, hk, hs⟩ := bind_ok.1 hs
  rw [pure_ok] at hs; subst hs
  unfold getEntry getItem at he
  rw [hk] at he
  obtain ⟨o, ho, he⟩ := bind_ok.1 he
  simp only [bind, Except.bind] at ho
  have hget : frames[k]? = some o := by
    split at ho
    · rename_i x hx; cases ho; exact hx
    · cases ho
  cases o with
  | none => cases he
  | some e₀ =>
    cases he
    obtain ⟨hlt, hv⟩ := List.getElem?_eq_some_iff.1 hget
    rw [List.map_set, Option.map_some, hf, ← Option.map_some, ← hv, ← List.map_set, List.set_getElem_self hlt]

theorem aging_refresh_map (hf : ∀ e : PageTableEntry, f e.refresh = f e) {a a' : Aging} {frames frames' : Frames}
    {m : MemoryAccess} (h : aging.attemptRefresh a frames m = .ok (a', frames')) :
    frames'.map (Option.map f) = frames.map (Option.map f) := by
  simp only [aging, Aging.attemptRefresh] at h
  generalize a.cyclesSinceRefresh + m.cycles + (if a.firstTrace then 0 else 1) = cycles at h
  split at h
  · split at h
    · cases h
    · cases h; exact map_refresh_iterate hf _ _
  · cases h; rfl

theorem aging_find_map (hf : ∀ (e : PageTableEntry) (c : Nat), f { e with agingCounter := c } = f e) {a a' : Aging}
    {frames frames' : Frames} {m : MemoryAccess} {i : Int} (h : aging.findFrame a frames m = .ok (a', frames', i)) :
    frames'.map (Option.map f) = frames.map (Option.map f) := by
  simp only [aging, Aging.findFrame] at h
  obtain ⟨j, -, h⟩ := bind_ok.1 h
  obtain ⟨page, hpage, h⟩ := bind_ok.1 h
  obtain ⟨frames'', hs, h⟩ := bind_ok.1 h
  cases h
  exact map_setItem hpage hs (hf _ _)

end Entries

theorem aging_keepsPages : KeepsPages aging :=
  ⟨fun h => aging_refresh_map (fun _ => rfl) h, fun h => aging_find_map (fun _ _ => rfl) h⟩

theorem aging_sound {n : Nat} (hn : 1 ≤ n) : Sound aging n Rated := by
  refine ⟨?_, fun h _ _ => ⟨_, rfl, h⟩, fun h _ _ _ => ⟨_, rfl, h⟩, ?_⟩
  · intro m rest a L frames h _
    simp only [aging, Aging.attemptRefresh]
    generalize a.cyclesSinceRefresh + m.cycles + (if a.firstTrace then 0 else 1) = cycles
    unfold Rated at h
    split
    · rw [if_neg (by omega)]; exact ⟨_, _, rfl, h⟩
    · exact ⟨_, _, rfl, h⟩
  · intro m rest a L frames h _ hL hf
    obtain ⟨es, rfl, hes⟩ := entries_of_full hL hf
    have hlen : es.length = n := by rw [← hL, ← hes, List.length_map]
    have hne : es ≠ [] := by
      rintro rfl
      simp at hlen
      omega
    obtain ⟨k, best, hleast, hfind⟩ := Aging.findFrame_least a m hne
    have hk : k < es.length := (List.getElem?_eq_some_iff.1 hleast.entry).1
    exact ⟨a, _, k, hfind, by omega, fun _ _ => ⟨a, rfl, h⟩⟩

/-! ## Optimal -/

/-- The map is an oracle for the residents and every page still to come. -/
def Foreseen (rest : List MemoryAccess) (traceMap : TraceMap) (L : List Int) : Prop :=
  ∃ t, Tracked t rest traceMap fun p => p ∈ L ∨ p ∈ rest.map MemoryAccess.pageNo

theorem optimal_keepsPages : KeepsPages optimal := by
  constructor
  · intro a a' frames frames' m h; cases h; rfl
  · intro a a' frames frames' m i h
    simp only [optimal, Optimal.findFrame] at h
    obtain ⟨⟨tm, k⟩, -, h⟩ := bind_ok.1 h
    cases h; rfl

/-- Before an access of another page, the map ends in the next access time after it. -/
theorem Tracked.known {t : Nat} {m : MemoryAccess} {rest : List MemoryAccess} {traceMap : TraceMap}
    {known : Int → Prop} (h : Tracked t (m :: rest) traceMap known) {p : Int} (hp : known p) (hne : m.pageNo ≠ p) :
    Known (fun p => nextTime (upcoming (t + 1) rest p)) traceMap p := by
  obtain ⟨times, htm, hu⟩ := h p hp
  rw [upcoming_cons_of_ne hne] at hu
  refine ⟨times, htm, ?_, nextTime_upcoming_nonneg _ _ _⟩
  rcases hu with rfl | ⟨hu, rfl⟩
  · rfl
  · show _ = nextTime (upcoming (t + 1) rest p)
    rw [hu]; rfl

/-- `find_frame` of the optimal algorithm on full frames without the accessed page: it returns the
chosen frame by the next access times. -/
theorem optimal_find {t n : Nat} {m : MemoryAccess} {rest : List MemoryAccess} {traceMap : TraceMap} {L : List Int}
    {known : Int → Prop} (hn : 1 ≤ n) (hL : L.length = n) (ht : Tracked t (m :: rest) traceMap known)
    (hk : ∀ p ∈ L, known p) (hm : m.pageNo ∉ L) {frames : Frames} (hf : pages frames = shown n L) :
    ∃ es traceMap' k best, frames = es.map some ∧ es.map PageTableEntry.pageNo = L ∧
      Optimal.findFrame traceMap frames m = .ok (traceMap', frames, (k : Nat)) ∧
      Chosen (fun p => nextTime (upcoming (t + 1) rest p)) es k best ∧ Padded traceMap traceMap' := by
  obtain ⟨es, rfl, hes⟩ := entries_of_full hL hf
  have hknown : ∀ e ∈ es, Known (fun p => nextTime (upcoming (t + 1) rest p)) traceMap e.pageNo := by
    intro e he
    have heL : e.pageNo ∈ L := by rw [← hes]; exact List.mem_map_of_mem he
    exact ht.known (hk _ heL) fun h => hm (h ▸ heL)
  have hne : ([] : List PageTableEntry) ++ es ≠ [] := by
    rintro h
    simp only [List.nil_append] at h
    subst h; simp at hes; subst hes; simp at hL; omega
  obtain ⟨traceMap', k, best, hscan, hc, hpad⟩ := scan_chosen es [] traceMap _ _ hknown hne (.inl ⟨rfl, rfl, rfl⟩)
  simp only [List.nil_append, List.length_nil] at hscan hc
  refine ⟨es, traceMap', k, best, rfl, hes, ?_, hc, hpad⟩
  unfold Optimal.findFrame
  rw [hscan]
  rfl

/-- An oracle in a trace of `N` accesses: the next one is at the time that leaves `rest` for the end. -/
def ForeseenAt (N : Nat) (rest : List MemoryAccess) (traceMap : TraceMap) (L : List Int) : Prop :=
  ∃ t, t + rest.length = N ∧ Tracked t rest traceMap fun p => p ∈ L ∨ p ∈ rest.map MemoryAccess.pageNo

theorem foreseenAt_init (traces : List MemoryAccess) : ForeseenAt traces.length traces (Optimal.init traces) [] :=
  ⟨0, Nat.zero_add _, fun p hp => tracked_init traces p (by simpa using hp)⟩

theorem optimal_sound_at {n : Nat} (hn : 1 ≤ n) (N : Nat) : Sound optimal n (ForeseenAt N) := by
  -- in every path the accessed page sits in the frame passed to the hook, which consumes its time
  have hook : ∀ {t : Nat} {m : MemoryAccess} {rest : List MemoryAccess} {traceMap : TraceMap} {L L' : List Int}
      {frames : Frames} {k : Nat}, t + (m :: rest).length = N →
      Tracked t (m :: rest) traceMap (fun p => p ∈ L ∨ p ∈ (m :: rest).map MemoryAccess.pageNo) →
      (∀ p ∈ L', p ∈ L ∨ p = m.pageNo) → pages frames = shown n L' → L'[k]? = some m.pageNo →
      ∃ traceMap', optimal.onMemoryAccess traceMap frames k m = .ok traceMap' ∧ ForeseenAt N rest traceMap' L' := by
    intro t m rest traceMap L L' frames k hN ht hL' hf hk
    obtain ⟨e, he, hp⟩ := pages_getElem?.1 (by rw [hf]; exact shown_getElem?.2 hk)
    obtain ⟨traceMap', h1, h2⟩ := ht.hook (fun p => p ∈ L' ∨ p ∈ rest.map MemoryAccess.pageNo)
      (.inr (by simp)) (fun p hp => by
        rcases hp with hp | hp
        · rcases hL' p hp with h | h
          · exact .inl h
          · exact .inr (by simp [h])
        · exact .inr (by simp only [List.map_cons, List.mem_cons]; exact .inr hp)) he hp
    exact ⟨traceMap', h1, t + 1, by rw [List.length_cons] at hN; omega, h2⟩
  refine ⟨fun h _ => ⟨_, _, rfl, h⟩, ?_, ?_, ?_⟩
  · rintro m rest traceMap L frames k ⟨t, hN, ht⟩ hf hk
    exact hook hN ht (fun p hp => .inl hp) hf hk
  · rintro m rest traceMap L frames ⟨t, hN, ht⟩ - - hf
    exact hook hN ht (fun p hp => by simpa using hp) hf (by simp)
  · rintro m rest traceMap L frames ⟨t, hN, ht⟩ hm hL hf
    obtain ⟨es, traceMap', k, best, rfl, hes, hfind, hc, hpad⟩ := optimal_find hn hL ht (fun p hp => .inl hp) hm hf
    have hk : k < L.length := by
      have := (List.getElem?_eq_some_iff.1 hc.entry).1
      rw [← hes, List.length_map]; exact this
    refine ⟨traceMap', es.map some, k, hfind, by omega, fun frames'' hf'' => ?_⟩
    refine hook hN (hpad.tracked ht) (fun p hp => ?_) hf'' (List.getElem?_set_self hk)
    exact (List.mem_or_eq_of_mem_set hp)

theorem optimal_sound {n : Nat} (hn : 1 ≤ n) : Sound optimal n Foreseen := by
  have hforeseen : Foreseen = fun rest traceMap L => ∃ N, ForeseenAt N rest traceMap L := by
    funext rest traceMap L
    refine propext ⟨fun ⟨t, ht⟩ => ⟨_, t, rfl, ht⟩, fun ⟨_, t, _, ht⟩ => ⟨t, ht⟩⟩
  rw [hforeseen]
  exact Sound.exists (optimal_sound_at hn)

/-! ## Consistency after every access -/

/-- The three structures agree. -/
structure Consistent (n : Nat) (pt : PageTable σ) : Prop where
  length : pt.frames.length = n
  counter : pt.newFramesCounter ≤ n
  occupied : ∀ i < pt.newFramesCounter, ∃ e, pt.frames[i]? = some (some e)
  empty : ∀ i, pt.newFramesCounter ≤ i → i < n → pt.frames[i]? = some none
  distinct : ∀ (i j : Nat) (e e' : PageTableEntry), pt.frames[i]? = some (some e) → pt.frames[j]? = some (some e') → e.pageNo = e'.pageNo → i = j
  table : ∀ p i, pt.pageFrameTable p = some i ↔ ∃ (k : Nat) (e : PageTableEntry), i = k ∧
    pt.frames[k]? = some (some e) ∧ e.pageNo = p

theorem Resident.consistent {n : Nat} {pt : PageTable σ} {L : List Int} (h : Resident n pt L) : Consistent n pt := by
  have hshow : ∀ {k : Nat} {p : Int}, (∃ e, pt.frames[k]? = some (some e) ∧ e.pageNo = p) ↔ L[k]? = some p := by
    intro k p
    rw [← pages_getElem?, h.frames, shown_getElem?]
  refine ⟨?_, ?_, ?_, ?_, ?_, ?_⟩
  · rw [← pages_length, h.frames, shown_length h.le]
  · rw [h.counter]; exact h.le
  · intro i hi
    obtain ⟨e, he, -⟩ := hshow.2 (List.getElem?_eq_getElem (by rw [← h.counter]; exact hi))
    exact ⟨e, he⟩
  · intro i hi hin
    have hlen : i < pt.frames.length := by rw [← pages_length, h.frames, shown_length h.le]; exact hin
    rw [List.getElem?_eq_getElem hlen, Option.some.injEq]
    cases hfr : pt.frames[i] with
    | none => rfl
    | some e =>
      have := hshow.1 ⟨e, by rw [List.getElem?_eq_getElem hlen, hfr], rfl⟩
      have := (List.getElem?_eq_some_iff.1 this).1
      rw [h.counter] at hi; omega
  · intro i j e e' hi hj hp
    obtain ⟨hil, hiv⟩ := List.getElem?_eq_some_iff.1 (hshow.1 ⟨e, hi, rfl⟩)
    obtain ⟨hjl, hjv⟩ := List.getElem?_eq_some_iff.1 (hshow.1 ⟨e', hj, rfl⟩)
    exact h.nodup.getElem_inj_iff.1 (hiv.trans (hp.trans hjv.symm))
  · intro p i
    rw [h.table]
    constructor
    · rintro ⟨k, rfl, hk⟩
      obtain ⟨e, he, hp⟩ := hshow.2 hk
      exact ⟨k, e, rfl, he, hp⟩
    · rintro ⟨k, e, rfl, he, hp⟩
      exact ⟨k, rfl, hshow.1 ⟨e, he, hp⟩⟩

/-- A run from the empty table that does not raise over any prefix `done` of the trace, ends
consistent and with the last accessed page resident. -/
def RunsConsistently (alg : ReplacementAlgorithm σ) (n : Nat) (a : σ) (traces : List MemoryAccess) : Prop :=
  ∀ done rest, traces = done ++ rest → ∃ pt, simulate alg (PageTable.init n a) done = .ok pt ∧ Consistent n pt ∧
    ∀ m ∈ done.getLast?, ∃ i, pt.pageFrameTable m.pageNo = some i

theorem Sound.runsConsistently {alg : ReplacementAlgorithm σ} (hp : KeepsPages alg) {n : Nat}
    {I : List MemoryAccess → σ → List Int → Prop} (hs : Sound alg n I) {a : σ} {traces : List MemoryAccess}
    (hI : I traces a []) : RunsConsistently alg n a traces := by
  rintro done rest rfl
  obtain ⟨pt, L, hrun, h, -, hlast⟩ := hs.run hp done (resident_init n a) hI
  refine ⟨pt, hrun, h.consistent, fun m hm => ?_⟩
  obtain ⟨k, hk⟩ := List.mem_iff_getElem?.1 (hlast m hm)
  exact ⟨k, (h.table _ _).2 ⟨k, rfl, hk⟩⟩

/-- Page-table consistency: with at least one frame, over every trace and after every access of it,
the optimal algorithm built from the trace, fifo, and aging with a positive refresh rate raise
nothing and leave the table consistent with the accessed page resident. -/
theorem simulate_consistent (n : Nat) (hn : 1 ≤ n) (traces : List MemoryAccess) :
    RunsConsistently optimal n (Optimal.init traces) traces ∧
    RunsConsistently fifo n [] traces ∧
    ∀ r : Int, 1 ≤ r → RunsConsistently aging n (Aging.init r) traces := by
  exact ⟨(optimal_sound_at hn traces.length).runsConsistently optimal_keepsPages (foreseenAt_init traces),
    (fifo_sound hn).runsConsistently fifo_keepsPages (queued_init traces),
    fun r hr => (aging_sound hn).runsConsistently aging_keepsPages hr⟩

/-- Two frames, three accesses of two pages and a third one that evicts. -/
theorem simulate_consistent_two_frames :
    RunsConsistently optimal 2 (Optimal.init [⟨.store, 1, 0⟩, ⟨.load, 2, 3⟩, ⟨.load, 1, 1⟩, ⟨.store, 3, 0⟩])
      [⟨.store, 1, 0⟩, ⟨.load, 2, 3⟩, ⟨.load, 1, 1⟩, ⟨.store, 3, 0⟩] ∧
    RunsConsistently aging 2 (Aging.init 4) [⟨.store, 1, 0⟩, ⟨.load, 2, 3⟩, ⟨.load, 1, 1⟩, ⟨.store, 3, 0⟩] :=
  ⟨(simulate_consistent 2 (by decide) _).1, (simulate_consistent 2 (by decide) _).2.2 4 (by decide)⟩

end CS1550.Vmsim
