/-
Exclusion in the apartment simulator, told by what the processes have done so far: one process at a
time is between its `down(mutex)` and its `up(mutex)`, one agent between those on `agent_apt_lock`, the
shared counters are written under the mutex only, and `tenants_in_apt` is the number of tenants that
have incremented it and not yet decremented it.
-/
import CS1550.Aptsim.Invariant

namespace CS1550.Aptsim

open Semaphore

variable {m k : Nat} {s s' : State m k} {p : Proc m k}

/-- The store of `(*tenants_in_apt)++` in `tenantArrives`. -/
def isEntry : Pc → Bool
  | .enterWrite _ => true
  | _ => false

/-- The store of `(*tenants_in_apt)--` in `tenantLeaves`. -/
def isDeparture : Pc → Bool
  | .leaveWrite _ => true
  | _ => false

/-- Process `p` has executed, in a history, an instruction at a location that satisfies `f`. -/
def executed (f : Pc → Bool) (p : Proc m k) (h : List (State m k × Proc m k)) : Bool :=
  h.any fun x => decide (x.2 = p) && f (x.1.loc p)

/-- A tenant that has decremented `tenants_in_apt`. -/
def departed : Pc → Bool
  | .testLast | .closeCount | .closeSignal | .closeUpMutex | .resetAgent | .resetApt | .leaveUpMutex | .tenantDone => true
  | _ => false

/-- The locations of `agentProcess`. -/
def isAgent : Pc → Bool
  | .agentMutex | .testAgentId | .yieldMutex | .nextAptLock | .nextMutex | .wakeTenants | .firstAptLock
  | .arriveUpMutex | .signalAgent | .awaitTenant | .openApt | .awaitLeave | .agentLeaveMutex | .freeAptLock
  | .resetCount | .agentUpMutex | .agentDone => true
  | _ => false

theorem executed_concat (f : Pc → Bool) (p q : Proc m k) (h : List (State m k × Proc m k)) :
    executed f p (h ++ [(s, q)]) = (executed f p h || (decide (q = p) && f (s.loc p))) := by
  simp [executed]

/-- The phases of a process: a step past the increment or the decrement is that store, and no process
leaves its own program. -/
theorem phase_exec {l l' : Pc} {sh sh' : Shared Sem Var} (h : (code p l).exec sh = some (l', sh')) :
    (counted l' || departed l') = (counted l || departed l || isEntry l) ∧ departed l' = (departed l || isDeparture l) ∧
      isAgent l' = isAgent l := by
  cases l
  case testFull | testRoom | testFirst | testLast | testAgentId =>
    simp only [code, Instr.exec] at h
    cases h
    split <;> exact ⟨rfl, rfl, rfl⟩
  all_goals
    simp only [code, Instr.exec] at h
    try split at h
    all_goals cases h
    all_goals exact ⟨rfl, rfl, rfl⟩

/-- The location of a process tells which of the two stores it has executed. -/
theorem Steps.executed_eq {h : List (State m k × Proc m k)} (hp : Steps m k h s) (p : Proc m k) :
    executed isEntry p h = (counted (s.loc p) || departed (s.loc p)) ∧
      executed isDeparture p h = departed (s.loc p) := by
  induction hp with
  | start => cases p <;> exact ⟨rfl, rfl⟩
  | @step h s s' q hp hs ih =>
    obtain ⟨l, sh, he, -, hl, hother⟩ := move_loc hs
    rw [executed_concat, executed_concat, ih.1, ih.2]
    by_cases hqp : q = p
    · subst hqp
      obtain ⟨hentry, hdeparture, -⟩ := phase_exec he
      rw [hl, hentry, hdeparture, decide_eq_true rfl, Bool.true_and, Bool.true_and]
      exact ⟨rfl, rfl⟩
    · rw [hother p (Ne.symm hqp)]
      simp only [decide_eq_false hqp, Bool.false_and, Bool.or_false, and_self]

theorem Steps.agent_loc {h : List (State m k × Proc m k)} (hp : Steps m k h s) (j : Fin k) :
    isAgent (s.loc (.inr j)) = true := by
  refine hp.always (I := fun s => isAgent (s.loc (.inr j)) = true) rfl fun s q s' hi hs => ?_
  obtain ⟨l, sh, he, -, hl, hother⟩ := move_loc hs
  by_cases hq : q = .inr j
  · rw [hq] at he hl
    rw [hl, (phase_exec he).2.2, hi]
  · rw [hother _ (Ne.symm hq), hi]

theorem counted_iff {l : Pc} : counted l = ((counted l || departed l) && !departed l) := by
  cases l <;> rfl

theorem not_counted_of_isAgent {l : Pc} (h : isAgent l = true) : counted l = false := by
  cases l <;> first | rfl | cases h

/-- The tenants that have executed the increment of `tenants_in_apt` and not yet its decrement. -/
def tenantsCounted (h : List (State m k × Proc m k)) : Finset (Fin m) :=
  Finset.univ.filter fun i => executed isEntry (.inl i) h && !executed isDeparture (.inl i) h

theorem Steps.count_counted {h : List (State m k × Proc m k)} (hp : Steps m k h s) :
    count counted s = (tenantsCounted h).card := by
  have htenant : ∀ i : Fin m, counted (s.loc (.inl i)) =
      (executed isEntry (.inl i) h && !executed isDeparture (.inl i) h) := by
    intro i
    rw [(Steps.executed_eq hp _).1, (Steps.executed_eq hp _).2]
    exact counted_iff
  unfold count tenantsCounted
  rw [Fintype.sum_sum_type, Finset.card_filter]
  push_cast
  simp only [htenant, not_counted_of_isAgent (Steps.agent_loc hp _), Bool.false_eq_true, if_false, Finset.sum_const_zero,
    add_zero]

/-- Only the holder of the mutex writes the shared counters. -/
theorem Steps.store_held {h : List (State m k × Proc m k)} (hp : Steps m k h s) {x : Var} {v : Int} {next : Pc}
    (hst : code p (s.loc p) = .store x v next) : held code .mutex p h = 1 := by
  rw [held_eq balanced_mutex (fun i => by cases i <;> rfl) hp]
  exact one_of (holdsMutex_of_store hst)

theorem exclusion (m k : Nat) (h : List (State m k × Proc m k)) (s : State m k) (hp : Steps m k h s) :
    (∀ p q : Proc m k, 0 < held code .mutex p h → 0 < held code .mutex q h → p = q) ∧
      (∀ i j : Fin k, 0 < held code .agentAptLock (.inr i) h → 0 < held code .agentAptLock (.inr j) h → i = j) ∧
      (∀ h₁ x p h₂, h = h₁ ++ (x, p) :: h₂ → ∀ y v next, code p (x.loc p) = .store y v next →
        held code .mutex p h₁ = 1) ∧
      s.shared.var .tenantsInApt = (tenantsCounted h).card := by
  have hi := Steps.inv hp
  refine ⟨fun p q hm hq => ?_, fun i j hm hq => ?_, fun h₁ x p h₂ hh y v next hst => ?_, ?_⟩
  · rw [held_eq balanced_mutex (fun i => by cases i <;> rfl) hp] at hm hq
    refine atMostOne (w := one holdsMutex) (one_nonneg _) ?_ hm hq
    have := hi.mutex
    rw [← count_eq]
    omega
  · rw [held_eq balanced_agents (fun i => by cases i <;> rfl) hp] at hm hq
    exact Sum.inr_injective (atMostOne (w := one agentInside) (one_nonneg _) hi.agents_le hm hq)
  · have hsplit : Steps m k (h₁ ++ [(x, p)] ++ h₂) s := by
      rw [List.append_assoc, List.singleton_append, ← hh]
      exact hp
    obtain ⟨x', hx'⟩ := hsplit.take
    exact Steps.store_held hx'.of_concat.1 hst
  · rw [hi.tenants, Steps.count_counted hp]

/-- One agent and one tenant that is about to release the mutex after its increment. -/
def oneCounted : List (Proc 1 1) := List.replicate 5 agent0 ++ List.replicate 7 tenant0

theorem exclusion_oneCounted : ∃ h s, Steps 1 1 h s ∧ held code .mutex tenant0 h = 1 ∧
    held code .agentAptLock agent0 h = 1 ∧ s.shared.var .tenantsInApt = 1 ∧ (tenantsCounted h).card = 1 := by
  obtain ⟨h, s, hp, hmutex, hagent, hone⟩ := exists_of_runSchedule code (init 1 1) oneCounted
    (P := fun h s => held code .mutex tenant0 h = 1 ∧ held code .agentAptLock agent0 h = 1 ∧
      s.shared.var .tenantsInApt = 1) (by decide +kernel)
  refine ⟨h, s, hp, hmutex, hagent, hone, ?_⟩
  have hcard := (exclusion 1 1 h s hp).2.2.2
  omega

end CS1550.Aptsim
