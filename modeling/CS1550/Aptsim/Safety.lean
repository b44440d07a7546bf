/-
Safety of the apartment: a tenant inspects only while an agent is in the apartment.

The last tenant resets `agent_arrived` and `apt_lock` after it has signalled the agent and released
the mutex. A tenant that arrives in between takes the token of `apt_lock` that the last tenant still
has to take back, and inspects after the agent has left (`inspects_alone`). In a run in which no
tenant takes such a token the apartment is safe (`safe_of_backed`): by the balance of the tokens an
agent is then waiting for `tenants_leave`, and nobody can signal it before the tenant is out again.
-/
import CS1550.Aptsim.Invariant

namespace CS1550.Aptsim

open Semaphore

variable {m k : Nat} {s s' : State m k} {p : Proc m k}

/-- Whenever some tenant is inspecting, some agent is in the apartment. -/
def Safe (s : State m k) : Prop :=
  (∃ p, inspecting (s.loc p) = true) → ∃ q, agentInside (s.loc q) = true

/-- A tenant passes `down(apt_lock)` in `viewApt` only on a token that no last tenant has still to take
back: the tokens of `apt_lock`, with those that tenants between their `down` and their `up` hold,
outnumber the last tenants that have not done their `down(apt_lock)`. -/
def Backed (s : State m k) (p : Proc m k) : Prop :=
  s.loc p = .viewDown → count owesAptLock s < s.shared.sem .aptLock + count (· == .viewUp) s

instance : Decidable (Safe s) := inferInstanceAs (Decidable (_ → _))

instance : Decidable (Backed s p) := inferInstanceAs (Decidable (_ → _))

/-- While a tenant inspects, the agent that opened the apartment waits for `tenants_leave`, which has
not been signalled and is not about to be. -/
def Attended (s : State m k) : Prop :=
  1 ≤ count inspecting s →
    count (· == .awaitLeave) s = 1 ∧ s.shared.sem .tenantsLeave = 0 ∧ count closing s = 0

theorem Inv.awaitLeave_le (hi : Inv s) : count (· == .awaitLeave) s ≤ 1 := by
  refine le_trans (count_mono (fun l hl => ?_) s) hi.agents_le
  rw [beq_iff_eq.1 hl]
  rfl

theorem Attended.safe (ha : Attended s) : Safe s := by
  rintro ⟨p, hp⟩
  obtain ⟨q, hq⟩ := exists_of_count (ha (one_le_count hp)).1.ge
  refine ⟨q, ?_⟩
  rw [beq_iff_eq.1 hq]
  rfl

theorem attended_init (m k : Nat) : Attended (init m k) := by
  intro h
  simp [init, count, inspecting] at h

/-- The token of a tenant that starts to inspect is that of the agent. -/
theorem Inv.attended_of_backed (hi : Inv s) (hp : s.loc p = .viewDown) (hb : Backed s p) :
    count (· == .awaitLeave) s = 1 ∧ s.shared.sem .tenantsLeave = 0 ∧ count closing s = 0 := by
  have hlt := hb hp
  have htok := hi.apt_tokens
  have hle := hi.awaitLeave_le
  have hcl := count_nonneg closing s
  omega

/-- A tenant inspects only while the count of tenants is positive. -/
theorem Inv.tenants_pos (hi : Inv s) (h : 1 ≤ count inspecting s) : 1 ≤ s.shared.var .tenantsInApt := by
  rw [hi.tenants]
  refine le_trans h (count_mono (fun l hl => ?_) s)
  cases l <;> first | rfl | cases hl

/-- A counted process is one of the tenants counted. -/
theorem Inv.tenants_pos_of (hi : Inv s) (h : counted (s.loc p) = true) : 1 ≤ s.shared.var .tenantsInApt := by
  rw [hi.tenants]
  exact one_le_count h

/-! ## The step -/

/-- A tenant starts to inspect only in `viewApt`. -/
theorem inspecting_exec {l l' : Pc} {sh sh' : Shared Sem Var} (h : (code p l).exec sh = some (l', sh'))
    (hl : l ≠ .viewDown) : one inspecting l' ≤ one inspecting l := by
  cases l
  case viewDown => exact absurd rfl hl
  all_goals
    simp only [code, Instr.exec] at h
    try split at h
    all_goals cases h
    all_goals simp [one, inspecting]

/-- With tenants in the apartment and `tenants_leave` not signalled, no process leaves its wait for it
and none gets to where it would signal it. -/
theorem attended_exec {l l' : Pc} {sh sh' : Shared Sem Var} (h : (code p l).exec sh = some (l', sh'))
    (hleave : sh.sem .tenantsLeave = 0) (hclosing : closing l = false) (htenants : 1 ≤ sh.var .tenantsInApt) :
    sh'.sem .tenantsLeave = 0 ∧ closing l' = false ∧ one (· == .awaitLeave) l ≤ one (· == .awaitLeave) l' := by
  cases l
  case awaitLeave => simp [code, Instr.exec, hleave] at h
  case testLast =>
    simp only [code, Instr.exec] at h
    rw [if_neg (by omega)] at h
    cases h
    exact ⟨hleave, rfl, le_refl _⟩
  case closeCount | closeSignal => cases hclosing
  all_goals
    simp only [code, Instr.exec] at h
    try split at h
    all_goals cases h
    all_goals simp [one, closing, hleave]

theorem Attended.step (ha : Attended s) (hi : Inv s) (hb : Backed s p) (h : move code s p = some s') :
    Attended s' := by
  intro hin
  obtain ⟨l, sh, he, hsh, hl, -⟩ := move_loc h
  -- the agent attends already in the state before
  obtain ⟨⟨hwait, hleave, hclose⟩, htenants⟩ : (count (· == .awaitLeave) s = 1 ∧
      s.shared.sem .tenantsLeave = 0 ∧ count closing s = 0) ∧ 1 ≤ s.shared.var .tenantsInApt := by
    by_cases hv : s.loc p = .viewDown
    · exact ⟨hi.attended_of_backed hv hb, hi.tenants_pos_of (by rw [hv]; rfl)⟩
    · have hle := inspecting_exec he hv
      have hcount := count_step inspecting h
      rw [hl] at hcount
      exact ⟨ha (by omega), hi.tenants_pos (by omega)⟩
  have hp : closing (s.loc p) = false := by
    by_contra hne
    have := one_le_count (f := closing) (Bool.of_not_eq_false hne)
    omega
  obtain ⟨hleave', hclose', hwait'⟩ := attended_exec he hleave hp htenants
  have h1 := count_step (· == .awaitLeave) h
  have h2 := count_step closing h
  have h3 := (hi.step h).awaitLeave_le
  rw [hl] at h1 h2
  have h4 : count closing s' = 0 := by simpa [one, hp, hclose', hclose] using h2
  exact ⟨by omega, by rw [hsh, hleave'], h4⟩

theorem attended_of_backed {h : List (State m k × Proc m k)} (hp : Steps m k h s)
    (hok : ∀ x ∈ h, Backed x.1 x.2) : Attended s := by
  have hboth := hp.invariant (I := fun s => Inv s ∧ Attended s) Backed ⟨inv_init m k, attended_init m k⟩
    (fun _ _ _ hi hb hs => ⟨hi.1.step hs, hi.2.step hi.1 hb hs⟩) hok
  exact hboth.2

/-- In a run in which every tenant enters on a token that is not owed, the apartment is safe in every
state. -/
theorem safe_of_backed (m k : Nat) (h : List (State m k × Proc m k)) (s : State m k) (hp : Steps m k h s)
    (hok : ∀ x ∈ h, Backed x.1 x.2) : ∀ x ∈ Run.visited h s, Safe x :=
  hp.forall_visited (fun _ _ hp hok => (attended_of_backed hp hok).safe) hok

/-- One tenant views the apartment of one agent. -/
def quietVisit : List (Proc 1 1) :=
  List.replicate 5 agent0 ++ List.replicate 13 tenant0 ++ List.replicate 2 agent0 ++ List.replicate 1 tenant0

theorem safe_of_backed_quietVisit : ∃ h s, Steps 1 1 h s ∧ (∀ x ∈ h, Backed x.1 x.2) ∧
    (∃ p, inspecting (s.loc p) = true) ∧ ∀ x ∈ Run.visited h s, Safe x := by
  obtain ⟨h, s, hp, hok, hin⟩ := exists_of_runSchedule code (init 1 1) quietVisit
    (P := fun h s => (∀ x ∈ h, Backed x.1 x.2) ∧ ∃ p, inspecting (s.loc p) = true) (by decide +kernel)
  exact ⟨h, s, hp, hok, hin, safe_of_backed 1 1 h s hp hok⟩

/-- The last tenant is held up after it has released the mutex, its agent leaves, and a second tenant
goes through `agent_arrived` and `apt_lock` on the tokens of the first. -/
def lateReset : List (Proc 2 1) :=
  List.replicate 5 agent0 ++ List.replicate 13 tenant0 ++ List.replicate 2 agent0 ++ List.replicate 9 tenant0 ++
    List.replicate 5 agent0 ++ List.replicate 14 tenant1

theorem inspects_alone : ¬ ∀ (m k : Nat) (h : List (State m k × Proc m k)) (s : State m k), Steps m k h s → Safe s := by
  intro hall
  obtain ⟨h, s, hp, hbad⟩ := exists_of_runSchedule code (init 2 1) lateReset
    (P := fun _ s => ¬ Safe s) (by decide +kernel)
  exact hbad (hall 2 1 h s hp)

end CS1550.Aptsim
