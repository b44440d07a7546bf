/-
The refreshes of the aging algorithm against a clock that advances one cycle at a time. The code batches them:
it adds the cycles of an access to a remainder, refreshes once per full period in the sum and keeps what is left
over. The algorithm `clocked` ticks through the same cycles and refreshes at every `r`-th one. The frames of the
two runs are the same after every access, and the refreshes made are the periods that have passed
(`aging_clocked`).
-/
import CS1550.Vmsim.Runs
import Mathlib.Data.Nat.ModEq

namespace CS1550.Vmsim

/-! ## The clock -/

/-- The cycles that have passed. -/
structure Clock where
  cycle : Nat
  refreshRate : Nat
  firstTrace : Bool

/-- The clock before the first access. -/
def Clock.init (refreshRate : Nat) : Clock := { cycle := 0, refreshRate := refreshRate, firstTrace := true }

/-- One cycle; every `refreshRate`-th one refreshes the frames. -/
def Clock.tick (s : Clock × Frames) : Clock × Frames :=
  ({ s.1 with cycle := s.1.cycle + 1 },
    if (s.1.cycle + 1) % s.1.refreshRate = 0 then Aging.refresh s.2 else s.2)

/-- The cycles of an access, and one more for every access after the first. -/
def MemoryAccess.ticks (m : MemoryAccess) (firstTrace : Bool) : Nat := m.cycles.toNat + if firstTrace then 0 else 1

/-- Aging with a clock that ticks through the cycles of each access and then performs it. -/
def clocked : ReplacementAlgorithm Clock where
  findFrame c frames m := do
    let (_, frames, minIndex) ← Aging.findFrame (Aging.init c.refreshRate) frames m
    return (c, frames, minIndex)
  attemptRefresh c frames m := .ok (Clock.tick^[m.ticks c.firstTrace] ({ c with firstTrace := false }, frames))
  onMemoryAccess c _ _ _ := .ok c

/-- The refreshes in `k` cycles are the full periods in them and in the cycles since the last refresh. -/
theorem tick_iterate (c : Clock) (frames : Frames) : ∀ k, Clock.tick^[k] (c, frames) =
    ({ c with cycle := c.cycle + k }, Aging.refresh^[(c.cycle % c.refreshRate + k) / c.refreshRate] frames)
  | 0 => by simp
  | k + 1 => by
    have hmod : (c.cycle + k + 1) % c.refreshRate = 0 ↔ c.refreshRate ∣ c.cycle % c.refreshRate + k + 1 := by
      rw [Nat.dvd_iff_mod_eq_zero, Nat.add_assoc, Nat.add_assoc, Nat.mod_add_mod]
    rw [Function.iterate_succ_apply', tick_iterate c frames k, Clock.tick, ← Nat.add_assoc, ← Nat.add_assoc, Nat.succ_div]
    by_cases hdvd : c.refreshRate ∣ c.cycle % c.refreshRate + k + 1
    · simp only [hmod.2 hdvd, if_pos hdvd, if_true, Function.iterate_succ_apply']
    · simp only [mt hmod.1 hdvd, if_neg hdvd, if_false, Nat.add_zero]

/-! ## The batched refreshes -/

/-- `refresh_times`: the calls of `refresh` in `attempt_refresh`. -/
def Aging.refreshTimes (a : Aging) (m : MemoryAccess) : Nat :=
  let cycles := a.cyclesSinceRefresh + m.cycles + if a.firstTrace then 0 else 1
  if a.refreshRate ≤ cycles then (cycles.fdiv a.refreshRate).toNat else 0

/-- The fields of the algorithm after `cycle` cycles. -/
def Aging.after (r cycle : Nat) (firstTrace : Bool) : Aging :=
  { cyclesSinceRefresh := (cycle % r : Nat), refreshRate := r, firstTrace := firstTrace }

variable {r : Nat} {m : MemoryAccess}

/-- The calls that `attempt_refresh` makes are the refreshes of the clock, and it keeps the cycles since the
last one. -/
theorem Aging.attemptRefresh_after (hr : 1 ≤ r) (hm : 0 ≤ m.cycles) (cycle : Nat) (first : Bool) (frames : Frames) :
    (Aging.after r cycle first).refreshTimes m = (cycle % r + m.ticks first) / r ∧
    Aging.attemptRefresh (Aging.after r cycle first) frames m =
      .ok (Aging.after r (cycle + m.ticks first) false, Aging.refresh^[(cycle % r + m.ticks first) / r] frames) := by
  have hcycles : (Aging.after r cycle first).cyclesSinceRefresh + m.cycles +
      (if (Aging.after r cycle first).firstTrace = true then 0 else 1) = ((cycle % r + m.ticks first : Nat) : Int) := by
    unfold MemoryAccess.ticks Aging.after
    cases first <;> simp <;> omega
  have hmod : (cycle + m.ticks first) % r = (cycle % r + m.ticks first) % r := (Nat.mod_add_mod ..).symm
  simp only [Aging.refreshTimes, Aging.attemptRefresh, hcycles]
  rw [Aging.after, Aging.after, hmod]
  dsimp only
  generalize cycle % r + m.ticks first = c
  have hrate : (r : Int) ≠ 0 := by omega
  by_cases hle : (r : Int) ≤ c
  · rw [if_pos hle, if_pos hle, if_neg hrate, Int.fdiv_eq_ediv_of_nonneg _ (by omega), Int.fmod_eq_emod_of_nonneg _ (by omega)]
    exact ⟨rfl, rfl⟩
  · have hlt : c < r := by omega
    rw [if_neg hle, if_neg hle, Nat.div_eq_of_lt hlt, Nat.mod_eq_of_lt hlt]
    exact ⟨rfl, rfl⟩

theorem Aging.findFrame_any {a a' : Aging} {frames frames' : Frames} {i : Int}
    (h : Aging.findFrame a frames m = .ok (a', frames', i)) (b : Aging) : Aging.findFrame b frames m = .ok (b, frames', i) := by
  unfold Aging.findFrame at h ⊢
  simp only [bind_ok, pure_ok] at h ⊢
  obtain ⟨j, hj, page, hpage, frames'', hs, heq⟩ := h
  cases heq
  exact ⟨_, hj, page, hpage, _, hs, rfl⟩

/-! ## The two runs -/

/-- The page table with a clock in the place of the algorithm's fields. -/
def PageTable.withClock (pt : PageTable Aging) (c : Clock) : PageTable Clock := { pt with replacementAlgorithm := c }

/-- An access of the aging algorithm is the same one with the clock. -/
theorem Outcome.clocked {pt pt' : PageTable Aging} {cycle : Nat} {first : Bool} (hr : 1 ≤ r) (hm : 0 ≤ m.cycles)
    (ha : pt.replacementAlgorithm = Aging.after r cycle first) (h : Outcome aging pt m pt') :
    pt'.replacementAlgorithm = Aging.after r (cycle + m.ticks first) false ∧
    Outcome clocked (pt.withClock ⟨cycle, r, first⟩) m (pt'.withClock ⟨cycle + m.ticks first, r, false⟩) := by
  have hrefresh : ∀ {a frames}, aging.attemptRefresh pt.replacementAlgorithm pt.frames m = .ok (a, frames) →
      a = Aging.after r (cycle + m.ticks first) false ∧
      Vmsim.clocked.attemptRefresh ⟨cycle, r, first⟩ pt.frames m = .ok (⟨cycle + m.ticks first, r, false⟩, frames) := by
    intro a frames h
    rw [ha] at h
    have heq := (Aging.attemptRefresh_after hr hm cycle first pt.frames).2.symm.trans h
    cases heq
    exact ⟨rfl, congrArg Except.ok (tick_iterate ..)⟩
  cases h with
  | hit refresh resident entry hook =>
    obtain ⟨rfl, hclock⟩ := hrefresh refresh
    cases hook
    exact ⟨rfl, .hit hclock resident entry rfl⟩
  | fill refresh absent room hook =>
    obtain ⟨rfl, hclock⟩ := hrefresh refresh
    cases hook
    exact ⟨rfl, .fill hclock absent room rfl⟩
  | @evict a a' a'' frames frames' i victim v refresh absent full choice entry known hook =>
    obtain ⟨rfl, hclock⟩ := hrefresh refresh
    cases hook
    have hsame := Aging.findFrame_any (m := m) choice
    have hkeep := (hsame (Aging.after r (cycle + m.ticks first) false)).symm.trans choice
    cases hkeep
    refine ⟨rfl, .evict hclock absent full ?_ entry known rfl⟩
    simp only [Vmsim.clocked, bind_ok, pure_ok]
    exact ⟨_, hsame _, rfl⟩

/-- The cycles of the first `i` accesses. -/
def cyclesUntil (traces : List MemoryAccess) : Nat → Nat
  | 0 => 0
  | i + 1 => cyclesUntil traces i + traces[i]?.elim 0 fun m => m.ticks (i == 0)

/-- The calls of `refresh` in the first `i` accesses of a run. -/
def refreshCalls (traces : List MemoryAccess) (run : Nat → PageTable Aging) (i : Nat) : Nat :=
  ∑ t ∈ Finset.range i, traces[t]?.elim 0 (run t).replacementAlgorithm.refreshTimes

/-- The cycles after `i` accesses: those of the trace, and one for each access after the first. -/
def elapsed (traces : List MemoryAccess) (i : Nat) : Int := ((traces.take i).map MemoryAccess.cycles).sum + ((i : Int) - 1)

theorem elapsed_eq {traces : List MemoryAccess} (hcycles : ∀ m ∈ traces, 0 ≤ m.cycles) :
    ∀ i, i < traces.length → elapsed traces (i + 1) = (cyclesUntil traces (i + 1) : Nat)
  | 0, hi => by
    obtain ⟨m, rest, rfl⟩ := List.exists_cons_of_length_pos hi
    have := hcycles m List.mem_cons_self
    simp [elapsed, cyclesUntil, MemoryAccess.ticks]
    omega
  | i + 1, hi => by
    have ih := elapsed_eq hcycles i (by omega)
    have hget : traces[i + 1]? = some traces[i + 1] := List.getElem?_eq_getElem hi
    have hpos := hcycles traces[i + 1] (List.getElem_mem hi)
    have hticks : (traces[i + 1].ticks false : Int) = traces[i + 1].cycles + 1 := by
      simp [MemoryAccess.ticks]
      omega
    rw [elapsed] at ih ⊢
    rw [List.take_add_one, hget, Option.toList_some, List.map_append, List.sum_append, cyclesUntil, hget, Option.elim_some]
    push_cast
    rw [hticks, ← ih]
    simp only [List.map_cons, List.map_nil, List.sum_cons, List.sum_nil]
    push_cast
    omega

/-- The state of the clock before each access. -/
def clockAt (r : Nat) (traces : List MemoryAccess) (t : Nat) : Clock :=
  { cycle := cyclesUntil traces t, refreshRate := r, firstTrace := t == 0 }

section

variable {n : Nat} {traces : List MemoryAccess} {run : Nat → PageTable Aging}

/-- The algorithm's fields at every time of a run are those after the cycles so far. -/
theorem Traced.aging_after (hr : 1 ≤ r) (hcycles : ∀ m ∈ traces, 0 ≤ m.cycles) (h : Traced aging n (Aging.init r) traces run)
    (ho : ∀ {t m}, traces[t]? = some m → Outcome aging (run t) m (run (t + 1))) :
    ∀ t ≤ traces.length, (run t).replacementAlgorithm = Aging.after r (cyclesUntil traces t) (t == 0)
  | 0, _ => by
    rw [h.start]
    simp [PageTable.init, Aging.init, Aging.after, cyclesUntil]
  | t + 1, ht => by
    have hget : traces[t]? = some traces[t] := List.getElem?_eq_getElem ht
    have ih := h.aging_after hr hcycles ho t (by omega)
    rw [((ho hget).clocked hr (hcycles _ (List.getElem_mem ht)) ih).1, cyclesUntil, hget]
    rfl

/-- The same run with the clock. -/
theorem Traced.clocked (hr : 1 ≤ r) (hcycles : ∀ m ∈ traces, 0 ≤ m.cycles) (h : Traced aging n (Aging.init r) traces run)
    (ho : ∀ {t m}, traces[t]? = some m → Outcome aging (run t) m (run (t + 1))) :
    Traced clocked n (Clock.init r) traces fun t => (run t).withClock (clockAt r traces t) := by
  refine ⟨by rw [h.start]; rfl, fun {t m} hm => ?_⟩
  have hlt : t < traces.length := (List.getElem?_eq_some_iff.1 hm).1
  have hstep := ((ho hm).clocked hr (hcycles m (List.mem_of_getElem? hm)) (h.aging_after hr hcycles ho t hlt.le)).2
  have hclock : clockAt r traces (t + 1) = ⟨cyclesUntil traces t + m.ticks (t == 0), r, false⟩ := by
    simp [clockAt, cyclesUntil, hm]
  rw [hclock]
  exact access_of_outcome hstep

/-- The calls of `refresh` so far are the periods in the cycles so far. -/
theorem Traced.refreshCalls_eq (hr : 1 ≤ r) (hcycles : ∀ m ∈ traces, 0 ≤ m.cycles) (h : Traced aging n (Aging.init r) traces run)
    (ho : ∀ {t m}, traces[t]? = some m → Outcome aging (run t) m (run (t + 1))) :
    ∀ t ≤ traces.length, refreshCalls traces run t = cyclesUntil traces t / r
  | 0, _ => by simp [refreshCalls, cyclesUntil]
  | t + 1, ht => by
    have hget : traces[t]? = some traces[t] := List.getElem?_eq_getElem ht
    have ih := h.refreshCalls_eq hr hcycles ho t (by omega)
    have htimes := (Aging.attemptRefresh_after hr (hcycles _ (List.getElem_mem ht)) (cyclesUntil traces t) (t == 0) []).1
    rw [refreshCalls, Finset.sum_range_succ, ← refreshCalls, ih, hget, Option.elim_some,
      h.aging_after hr hcycles ho t (by omega), htimes, cyclesUntil, hget, Option.elim_some]
    -- the full periods before the access and those with the remainder
    generalize cyclesUntil traces t = c
    generalize traces[t].ticks (t == 0) = k
    have hsplit : c + k = c % r + k + r * (c / r) := by
      have := Nat.mod_add_div c r
      omega
    rw [hsplit, Nat.add_mul_div_left _ _ (by omega : 0 < r), Nat.add_comm]

end

/-- The clock of aging: over every trace with cycle counts that are not negative, with at least one frame and a
positive refresh rate `r`, the refreshes made after `i` accesses and the cycles since the last one are quotient
and remainder of the cycles so far, and the frames are those of the run that ticks through every cycle. -/
theorem aging_clocked (n : Nat) (hn : 1 ≤ n) (r : Nat) (hr : 1 ≤ r) (traces : List MemoryAccess)
    (hcycles : ∀ m ∈ traces, 0 ≤ m.cycles) :
    ∃ run run', Traced aging n (Aging.init r) traces run ∧ Traced clocked n (Clock.init r) traces run' ∧
      ∀ i, 1 ≤ i → i ≤ traces.length →
        (refreshCalls traces run i : Int) = elapsed traces i / r ∧
        (run i).replacementAlgorithm.cyclesSinceRefresh = elapsed traces i % r ∧ (run' i).frames = (run i).frames := by
  have hrated : Rated traces (Aging.init r) [] := by show (1 : Int) ≤ r; omega
  obtain ⟨run, hrun, -, ho⟩ := (aging_sound hn).traced aging_keepsPages hrated
  refine ⟨run, _, hrun, hrun.clocked hr hcycles ho, fun i hi hlen => ⟨?_, ?_, rfl⟩⟩
  · obtain ⟨j, rfl⟩ : ∃ j, i = j + 1 := ⟨i - 1, by omega⟩
    rw [elapsed_eq hcycles j hlen, hrun.refreshCalls_eq hr hcycles ho _ hlen]
    rfl
  · obtain ⟨j, rfl⟩ : ∃ j, i = j + 1 := ⟨i - 1, by omega⟩
    rw [elapsed_eq hcycles j hlen, hrun.aging_after hr hcycles ho _ hlen]
    rfl

/-- A gap of several periods between two accesses. -/
theorem aging_clocked_long_gap :
    ∃ run run', Traced aging 1 (Aging.init 2) [⟨.load, 1, 1⟩, ⟨.load, 2, 7⟩] run ∧
      Traced clocked 1 (Clock.init 2) [⟨.load, 1, 1⟩, ⟨.load, 2, 7⟩] run' ∧
      ∀ i, 1 ≤ i → i ≤ 2 → (refreshCalls [⟨.load, 1, 1⟩, ⟨.load, 2, 7⟩] run i : Int) =
          elapsed [⟨.load, 1, 1⟩, ⟨.load, 2, 7⟩] i / 2 ∧
        (run i).replacementAlgorithm.cyclesSinceRefresh = elapsed [⟨.load, 1, 1⟩, ⟨.load, 2, 7⟩] i % 2 ∧
        (run' i).frames = (run i).frames :=
  aging_clocked 1 (by decide) 2 (by decide) [⟨.load, 1, 1⟩, ⟨.load, 2, 7⟩] (by decide)

end CS1550.Vmsim
