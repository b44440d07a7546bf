/-
The optimal algorithm's `trace_map` is an oracle for the accesses to come: consumed by a pop on
every access and padded with infinities on evictions, its last element for a page is still the
page's next access time (`Tracked`). `find_frame` returns a frame whose page has the largest such
time; among equal times the first clean one, or the first one if all are dirty (`Chosen`).
-/
import CS1550.Vmsim.Resident
import Mathlib.Order.Basic
import Mathlib.Data.Nat.Basic

namespace CS1550.Vmsim

/-! ## Access times to come -/

/-- The times at which `p` is accessed in `rest`, whose first access is at time `t`; the next one
last. -/
def upcoming (t : Nat) : List MemoryAccess → Int → List Number
  | [], _ => []
  | m :: rest, p => upcoming (t + 1) rest p ++ if m.pageNo = p then [.int t] else []

/-- The last element of a list of times, infinity for the empty list. -/
def nextTime (times : List Number) : Number := times.getLast?.getD .inf

theorem upcoming_cons_of_ne {t : Nat} {m : MemoryAccess} {rest : List MemoryAccess} {p : Int} (h : m.pageNo ≠ p) :
    upcoming t (m :: rest) p = upcoming (t + 1) rest p := by
  simp [upcoming, h]

theorem upcoming_cons_self (t : Nat) (m : MemoryAccess) (rest : List MemoryAccess) :
    upcoming t (m :: rest) m.pageNo = upcoming (t + 1) rest m.pageNo ++ [.int t] := by
  simp [upcoming]

/-- The next access time is below `t + k` exactly when the page is among the next `k` accesses. -/
theorem nextTime_upcoming_lt : ∀ (rest : List MemoryAccess) (t k : Nat) (p : Int),
    nextTime (upcoming t rest p) < .int (t + k : Nat) ↔ p ∈ (rest.map MemoryAccess.pageNo).take k
  | [], t, k, p => by simp [upcoming, nextTime]
  | m :: rest, t, k, p => by
    by_cases hm : m.pageNo = p
    · subst hm
      rw [upcoming_cons_self]
      cases k with
      | zero => simp [nextTime]
      | succ k =>
        simp only [nextTime, List.getLast?_concat, Option.getD_some, List.map_cons, List.take_succ_cons,
          List.mem_cons_self, iff_true]
        rw [Number.int_lt_int]; omega
    · rw [upcoming_cons_of_ne hm]
      cases k with
      | zero =>
        simp only [Nat.add_zero, List.take_zero, List.not_mem_nil, iff_false]
        intro hlt
        have h0 := (nextTime_upcoming_lt rest (t + 1) 0 p).1
          (hlt.trans (by rw [Number.int_lt_int]; omega))
        simp at h0
      | succ k =>
        have ih := nextTime_upcoming_lt rest (t + 1) k p
        rw [show t + 1 + k = t + (k + 1) by omega] at ih
        rw [ih]
        simp [Ne.symm hm]

theorem nextTime_upcoming_nonneg (rest : List MemoryAccess) (t : Nat) (p : Int) :
    .int (-1) < nextTime (upcoming t rest p) := by
  have h : ¬ nextTime (upcoming t rest p) < .int (t + 0 : Nat) := by
    rw [nextTime_upcoming_lt]; simp
  refine lt_of_lt_of_le ?_ (not_lt.1 h)
  rw [Number.int_lt_int]; omega

/-! ## The map -/

/-- The map knows every page of `known`, and its list for a page holds the access times to come, or
infinity alone when there are none. -/
def Tracked (t : Nat) (rest : List MemoryAccess) (traceMap : TraceMap) (known : Int → Prop) : Prop :=
  ∀ p, known p → ∃ times, traceMap p = some times ∧
    (times = upcoming t rest p ∨ upcoming t rest p = [] ∧ times = [.inf])

/-- The building loop, run over the accesses from time `t` on. -/
theorem foldl_addTrace : ∀ (traces : List MemoryAccess) (t : Nat) (p : Int),
    ((traces.zipIdx t).reverse.foldl Optimal.addTrace fun _ => none) p =
      if upcoming t traces p = [] then none else some (upcoming t traces p)
  | [], t, p => by simp [upcoming]
  | m :: traces, t, p => by
    have ih := foldl_addTrace traces (t + 1)
    rw [List.zipIdx_cons, List.reverse_cons, List.foldl_append]
    simp only [List.foldl_cons, List.foldl_nil, Optimal.addTrace, setKey]
    by_cases hm : m.pageNo = p
    · subst hm
      have hne : upcoming (t + 1) traces m.pageNo ++ [.int t] ≠ [] := by simp
      rw [upcoming_cons_self, if_neg hne, if_pos rfl, ih]
      split
      · rename_i h; simp [h]
      · rfl
    · rw [if_neg (Ne.symm hm), upcoming_cons_of_ne hm]
      exact ih p

theorem tracked_init (traces : List MemoryAccess) :
    Tracked 0 traces (Optimal.init traces) (· ∈ traces.map MemoryAccess.pageNo) := by
  intro p hp
  refine ⟨upcoming 0 traces p, ?_, .inl rfl⟩
  unfold Optimal.init
  rw [foldl_addTrace, if_neg]
  intro h
  -- a page of the trace is among all its accesses, so it has a next time
  have := (nextTime_upcoming_lt traces 0 (traces.map MemoryAccess.pageNo).length p).2 (by rw [List.take_length]; exact hp)
  rw [h] at this
  simp [nextTime] at this

/-- A list of times and the same one after the possible append of infinity. -/
def Padded (traceMap traceMap' : TraceMap) : Prop :=
  ∀ p, traceMap' p = traceMap p ∨ traceMap p = some [] ∧ traceMap' p = some [.inf]

theorem Padded.refl (traceMap : TraceMap) : Padded traceMap traceMap := fun _ => .inl rfl

theorem Padded.trans {a b c : TraceMap} (h1 : Padded a b) (h2 : Padded b c) : Padded a c := by
  intro p
  rcases h1 p with e1 | ⟨e1, e2⟩ <;> rcases h2 p with f1 | ⟨f1, f2⟩
  · exact .inl (f1.trans e1)
  · exact .inr ⟨e1 ▸ f1, f2⟩
  · exact .inr ⟨e1, f1.trans e2⟩
  · rw [e2] at f1; simp at f1

theorem Padded.tracked {t : Nat} {rest : List MemoryAccess} {traceMap traceMap' : TraceMap} {known : Int → Prop}
    (hp : Padded traceMap traceMap') (h : Tracked t rest traceMap known) : Tracked t rest traceMap' known := by
  intro p hk
  obtain ⟨times, ht, hu⟩ := h p hk
  rcases hp p with e | ⟨e1, e2⟩
  · exact ⟨times, e.trans ht, hu⟩
  · rw [ht] at e1; cases e1
    rcases hu with hu | ⟨-, hu⟩
    · exact ⟨[.inf], e2, .inr ⟨hu.symm, rfl⟩⟩
    · cases hu

/-- `on_memory_access` for the frame that holds the accessed page consumes exactly its time. -/
theorem Tracked.hook {t : Nat} {m : MemoryAccess} {rest : List MemoryAccess} {traceMap : TraceMap}
    {known : Int → Prop} (known' : Int → Prop) (h : Tracked t (m :: rest) traceMap known) (hm : known m.pageNo)
    (hk : ∀ p, known' p → known p) {frames : Frames} {k : Nat} {e : PageTableEntry}
    (he : frames[k]? = some (some e)) (hp : e.pageNo = m.pageNo) :
    ∃ traceMap', Optimal.onMemoryAccess traceMap frames k m = .ok traceMap' ∧ Tracked (t + 1) rest traceMap' known' := by
  obtain ⟨times, ht, hu⟩ := h _ hm
  rw [upcoming_cons_self] at hu
  have htimes : times = upcoming (t + 1) rest m.pageNo ++ [.int t] := by
    rcases hu with hu | ⟨hu, -⟩
    · exact hu
    · simp at hu
  refine ⟨setKey traceMap m.pageNo times.dropLast, ?_, fun p hkp => ?_⟩
  · unfold Optimal.onMemoryAccess
    simp only [bind_ok, getEntry_natCast_ok, getKey_ok]
    refine ⟨e, he, times, by rw [hp]; exact ht, ?_⟩
    rw [if_pos (by rw [htimes]; simp), hp]
    rfl
  · unfold setKey
    by_cases hpm : p = m.pageNo
    · subst hpm
      exact ⟨times.dropLast, by simp, .inl (by rw [htimes]; simp)⟩
    · rw [if_neg hpm, ← upcoming_cons_of_ne (Ne.symm hpm)]
      exact h p (hk p hkp)

/-! ## The victim -/

theorem getItem_neg_one {α : Type} {xs : List α} {x : α} (h : xs.getLast? = some x) : getItem xs (-1) = .ok x := by
  have hpos : 0 < xs.length := by
    cases xs with
    | nil => cases h
    | cons _ _ => simp
  unfold getItem pyIndex
  rw [if_neg (by omega), if_pos (by omega)]
  have hidx : ((xs.length : Int) + -1).toNat = xs.length - 1 := by omega
  simp only [hidx, bind, Except.bind]
  rw [List.getLast?_eq_getElem?] at h
  simp [h, pure, Except.pure]

/-- Position `k` has the largest time under `T` among `es`; an earlier one with the same time is
dirty where `k` is clean, and if `k` is dirty every one with the same time is. -/
structure Chosen (T : Int → Number) (es : List PageTableEntry) (k : Nat) (best : PageTableEntry) : Prop where
  entry : es[k]? = some best
  le : ∀ e ∈ es, T e.pageNo ≤ T best.pageNo
  before : ∀ j < k, ∀ e, es[j]? = some e → T e.pageNo = T best.pageNo → e.dirtyBit = true ∧ best.dirtyBit = false
  after : ∀ j > k, ∀ e, es[j]? = some e → T e.pageNo = T best.pageNo → best.dirtyBit = true → e.dirtyBit = true

theorem Chosen.keep {T : Int → Number} {es : List PageTableEntry} {k : Nat} {best page : PageTableEntry}
    (h : Chosen T es k best) (hle : T page.pageNo ≤ T best.pageNo)
    (htie : T page.pageNo = T best.pageNo → best.dirtyBit = true → page.dirtyBit = true) :
    Chosen T (es ++ [page]) k best := by
  obtain ⟨hk, -⟩ := List.getElem?_eq_some_iff.1 h.entry
  refine ⟨by rw [List.getElem?_append_left hk]; exact h.entry, fun e he => ?_, fun j hj e he => ?_, fun j hj e he => ?_⟩
  · rcases List.mem_append.1 he with he | he
    · exact h.le e he
    · rw [List.mem_singleton] at he; subst he; exact hle
  · rw [List.getElem?_append_left (by omega)] at he
    exact h.before j hj e he
  · rw [List.getElem?_append] at he
    split at he
    · exact h.after j hj e he
    · have := List.mem_of_getElem? he
      rw [List.mem_singleton] at this; subst this; exact htie

theorem Chosen.move {T : Int → Number} {es : List PageTableEntry} {page : PageTableEntry}
    (hlt : ∀ e ∈ es, T e.pageNo ≤ T page.pageNo ∧
      (T e.pageNo = T page.pageNo → e.dirtyBit = true ∧ page.dirtyBit = false)) :
    Chosen T (es ++ [page]) es.length page := by
  refine ⟨by simp, fun e he => ?_, fun j hj e he heq => ?_, fun j hj e he => ?_⟩
  · rcases List.mem_append.1 he with he | he
    · exact (hlt e he).1
    · rw [List.mem_singleton] at he; subst he; exact le_refl _
  · rw [List.getElem?_append_left hj] at he
    exact (hlt e (List.mem_of_getElem? he)).2 heq
  · rw [List.getElem?_eq_none (by simp; omega)] at he; cases he

/-- What the scan needs of a page: its list is known and ends in its time. -/
def Known (T : Int → Number) (traceMap : TraceMap) (p : Int) : Prop :=
  ∃ times, traceMap p = some times ∧ nextTime times = T p ∧ .int (-1) < T p

/-- Reading a page's time in the scan: it is known, and only an empty list is changed. -/
theorem Known.read {T : Int → Number} {traceMap : TraceMap} {p : Int} (h : Known T traceMap p) :
    ∃ times, traceMap p = some times ∧ getItem (if times.length = 0 then [.inf] else times) (-1) = .ok (T p) ∧
      Padded traceMap (setKey traceMap p (if times.length = 0 then [.inf] else times)) := by
  obtain ⟨times, ht, hT, -⟩ := h
  refine ⟨times, ht, ?_, fun q => ?_⟩
  · cases times with
    | nil => rw [← hT]; exact getItem_neg_one (by simp [nextTime])
    | cons a l =>
      rw [if_neg (by simp), ← hT]
      exact getItem_neg_one (by simp [nextTime, List.getLast?_cons])
  · unfold setKey
    by_cases hq : q = p
    · subst hq
      cases times with
      | nil => exact .inr ⟨ht, by simp⟩
      | cons a l => exact .inl (by simp [ht])
    · exact .inl (by rw [if_neg hq])

theorem Padded.known {T : Int → Number} {traceMap traceMap' : TraceMap} (hp : Padded traceMap traceMap')
    {p : Int} (h : Known T traceMap p) : Known T traceMap' p := by
  obtain ⟨times, ht, hT, hpos⟩ := h
  rcases hp p with e | ⟨e1, e2⟩
  · exact ⟨times, e.trans ht, hT, hpos⟩
  · rw [ht] at e1; cases e1
    exact ⟨[.inf], e2, by rw [← hT]; rfl, hpos⟩

/-- The state of the scan after the entries `seen`: nothing chosen yet, or the choice among them. -/
def Scanned (T : Int → Number) (seen : List PageTableEntry) (maxTime : Number) (maxIndex : Int) : Prop :=
  seen = [] ∧ maxTime = .int (-1) ∧ maxIndex = -1 ∨
  ∃ k best, Chosen T seen k best ∧ maxTime = T best.pageNo ∧ maxIndex = (k : Int)

/-- The tie-break never raises; it gives up the maximum exactly for a clean page against a dirty one. -/
theorem tieBreak_scanned {T : Int → Number} {seen : List PageTableEntry} (rest : List PageTableEntry) {page : PageTableEntry}
    {maxTime : Number} {maxIndex : Int} (hs : Scanned T seen maxTime maxIndex)
    (hpos : .int (-1) < T page.pageNo) :
    ∃ time, Optimal.tieBreak ((seen ++ rest).map some) page (T page.pageNo) maxTime maxIndex = .ok time ∧
      (time < T page.pageNo → Scanned T (seen ++ [page]) (T page.pageNo) seen.length) ∧
      (¬ time < T page.pageNo → Scanned T (seen ++ [page]) time maxIndex) := by
  rcases hs with ⟨rfl, rfl, rfl⟩ | ⟨k, best, hc, rfl, rfl⟩
  · refine ⟨.int (-1), by simp [Optimal.tieBreak, hpos.ne', pure, Except.pure],
      fun _ => .inr ⟨0, page, ?_, rfl, rfl⟩, fun h => absurd hpos h⟩
    have hmove : Chosen T ([] ++ [page]) 0 page := Chosen.move (by simp)
    exact hmove
  · have hget : getEntry ((seen ++ rest).map some) (k : Int) = .ok best := by
      obtain ⟨hk, -⟩ := List.getElem?_eq_some_iff.1 hc.entry
      rw [getEntry_natCast_ok, List.getElem?_map, List.getElem?_append_left hk, hc.entry]
      rfl
    have hmove : T best.pageNo ≤ T page.pageNo →
        (T best.pageNo = T page.pageNo → best.dirtyBit = true ∧ page.dirtyBit = false) →
        Scanned T (seen ++ [page]) (T page.pageNo) seen.length := by
      intro hle htie
      refine .inr ⟨seen.length, page, Chosen.move fun e he => ⟨(hc.le e he).trans hle, fun heq => ?_⟩, rfl, rfl⟩
      have hbest : T best.pageNo = T page.pageNo := le_antisymm hle (heq ▸ hc.le e he)
      obtain ⟨hb, hp⟩ := htie hbest
      refine ⟨?_, hp⟩
      obtain ⟨j, hj⟩ := List.mem_iff_getElem?.1 he
      rcases lt_trichotomy j k with hjk | rfl | hjk
      · have := (hc.before j hjk e hj (heq.trans hbest.symm)).2
        rw [hb] at this; cases this
      · rw [hc.entry] at hj; cases hj; exact hb
      · exact hc.after j hjk e hj (heq.trans hbest.symm) hb
    unfold Optimal.tieBreak
    by_cases heq : T page.pageNo = T best.pageNo
    · rw [if_pos heq, hget]
      by_cases hd : best.dirtyBit && !page.dirtyBit
      · refine ⟨.int (-1), by simp only [bind, Except.bind]; rw [if_pos hd]; rfl,
          fun _ => hmove heq.ge fun _ => by simpa using hd, fun h => absurd hpos h⟩
      · refine ⟨T best.pageNo, by simp only [bind, Except.bind]; rw [if_neg hd]; rfl,
          fun h => absurd h (by rw [heq]; exact lt_irrefl _), fun _ => .inr ⟨k, best, hc.keep heq.le ?_, rfl, rfl⟩⟩
        intro _ hb
        by_contra hp
        simp [hb, hp] at hd
    · rw [if_neg heq]
      refine ⟨T best.pageNo, rfl, fun h => hmove h.le fun e => absurd e.symm heq, fun h => ?_⟩
      exact .inr ⟨k, best, hc.keep (not_lt.1 h) fun e => absurd e heq, rfl, rfl⟩

/-- The scan over frames that are all occupied by known pages returns the chosen frame; the map is
only padded. -/
theorem scan_chosen {T : Int → Number} : ∀ (rest seen : List PageTableEntry) (traceMap : TraceMap)
    (maxTime : Number) (maxIndex : Int), (∀ e ∈ rest, Known T traceMap e.pageNo) → seen ++ rest ≠ [] →
    Scanned T seen maxTime maxIndex →
    ∃ traceMap' k best, Optimal.scan ((seen ++ rest).map some) (rest.map some) seen.length traceMap maxTime maxIndex =
      .ok (traceMap', (k : Nat)) ∧ Chosen T (seen ++ rest) k best ∧ Padded traceMap traceMap'
  | [], seen, traceMap, maxTime, maxIndex, _, hne, hs => by
    rcases hs with ⟨rfl, -⟩ | ⟨k, best, hc, -, rfl⟩
    · simp at hne
    · exact ⟨traceMap, k, best, rfl, by simpa using hc, Padded.refl _⟩
  | page :: rest, seen, traceMap, maxTime, maxIndex, hk, hne, hs => by
    obtain ⟨times, ht, hread, hpad⟩ := (hk page (List.mem_cons_self ..)).read
    obtain ⟨-, -, -, hpos⟩ := hk page (List.mem_cons_self ..)
    obtain ⟨time, htie, hyes, hno⟩ := tieBreak_scanned (page :: rest) hs hpos
    have hk' : ∀ e ∈ rest, Known T (setKey traceMap page.pageNo (if times.length = 0 then [.inf] else times)) e.pageNo :=
      fun e he => hpad.known (hk e (List.mem_cons_of_mem _ he))
    have hstep : ∀ mt mi, Scanned T (seen ++ [page]) mt mi →
        ∃ traceMap' k best, Optimal.scan ((seen ++ page :: rest).map some) (rest.map some) (seen.length + 1)
            (setKey traceMap page.pageNo (if times.length = 0 then [.inf] else times)) mt mi = .ok (traceMap', (k : Nat)) ∧
          Chosen T (seen ++ page :: rest) k best ∧ Padded traceMap traceMap' := by
      intro mt mi hsc
      obtain ⟨tm', k, best, hrun, hc, hp⟩ := scan_chosen rest (seen ++ [page]) _ mt mi hk' (by simp) hsc
      simp only [List.append_assoc, List.singleton_append, List.length_append, List.length_singleton] at hrun hc
      exact ⟨tm', k, best, hrun, hc, hpad.trans hp⟩
    simp only [List.map_cons, Optimal.scan, getKey, ht]
    simp only [bind, Except.bind]
    rw [hread]
    simp only [List.map_append, List.map_cons] at htie hstep ⊢
    rw [htie]
    simp only
    by_cases hlt : time < T page.pageNo
    · rw [if_pos hlt]; exact hstep _ _ (hyes hlt)
    · rw [if_neg hlt]; exact hstep _ _ (hno hlt)

end CS1550.Vmsim
