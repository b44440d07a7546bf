/-
The holder of the mutex: can it always take its next step?

The one `down` inside the mutex is that of the first agent on `agent_apt_lock`. If another agent has
gone through `agent_apt_lock` before it, the first agent blocks there with the mutex in its hands
(`first_agent_blocks`). The mutex holder is never blocked in exactly the runs in which the first agent
enters that branch while the lock is free and nobody takes it from there (`unblocked_iff`).
-/
import CS1550.Aptsim.Invariant

namespace CS1550.Aptsim

open Semaphore

variable {m k : Nat} {s s' : State m k} {p : Proc m k}

/-- No process that holds the mutex is at a `down` on a semaphore that is not positive. -/
def Unblocked (s : State m k) : Prop :=
  ∀ p, holdsMutex (s.loc p) = true → ∀ sem next, code p (s.loc p) = .down sem next → 0 < s.shared.sem sem

/-- The first agent goes on to its `down(agent_apt_lock)` only while it is free, and no other agent
passes that semaphore while the first one is there. -/
def FirstUnhindered (s : State m k) (p : Proc m k) : Prop :=
  (s.loc p = .testAgentId → isFirstAgent p = true → 0 < s.shared.sem .agentAptLock) ∧
    (s.loc p = .nextAptLock → ∀ q, s.loc q ≠ .firstAptLock)

instance : Decidable (FirstUnhindered s p) := inferInstanceAs (Decidable (_ ∧ _))

/-- The `down`s under the mutex. -/
theorem down_under_mutex {l next : Pc} {sem : Sem} (hl : holdsMutex l = true) (h : code p l = .down sem next) :
    l = .firstAptLock ∧ sem = .agentAptLock := by
  cases l <;> first | cases hl; done | cases h; exact ⟨rfl, rfl⟩ | cases h

theorem unblocked_iff_first : Unblocked s ↔ ∀ p, s.loc p = .firstAptLock → 0 < s.shared.sem .agentAptLock := by
  constructor
  · intro h p hp
    exact h p (by rw [hp]; rfl) .agentAptLock .arriveUpMutex (by rw [hp]; rfl)
  · intro h p hp sem next hcode
    obtain ⟨hl, rfl⟩ := down_under_mutex hp hcode
    exact h p hl

instance : Decidable (Unblocked s) := decidable_of_iff' _ unblocked_iff_first

/-- The first agent gets to its `down(agent_apt_lock)` from its test only, and the lock goes down only
where an agent takes it. -/
theorem agentAptLock_exec {l l' : Pc} {sh sh' : Shared Sem Var} (h : (code p l).exec sh = some (l', sh')) :
    (l' = .firstAptLock → l = .testAgentId ∧ isFirstAgent p = true ∧ sh' = sh) ∧
      (l ≠ .nextAptLock → l ≠ .firstAptLock → sh.sem .agentAptLock ≤ sh'.sem .agentAptLock) := by
  cases l
  case testAgentId =>
    simp only [code, Instr.exec] at h
    cases h
    split <;> simp_all
  case nextAptLock | firstAptLock =>
    simp only [code, Instr.exec] at h
    split at h <;> cases h
    simp
  case testFull | testRoom | testFirst | testLast =>
    simp only [code, Instr.exec] at h
    cases h
    split <;> simp
  all_goals
    simp only [code, Instr.exec] at h
    try split at h
    all_goals cases h
    all_goals simp

theorem Unblocked.step (hu : Unblocked s) (hi : Inv s) (hok : FirstUnhindered s p) (h : move code s p = some s') :
    Unblocked s' := by
  rw [unblocked_iff_first] at hu ⊢
  obtain ⟨l, sh, he, hsh, hl, hother⟩ := move_loc h
  obtain ⟨hreach, hlock⟩ := agentAptLock_exec he
  intro q hq
  rw [hsh]
  by_cases hqp : q = p
  · obtain ⟨htest, hfirst, rfl⟩ := hreach (by rw [← hl, ← hqp, hq])
    exact hok.1 htest hfirst
  · rw [hother q hqp] at hq
    have hlock' := hlock (fun hn => hok.2 hn q hq) fun hf =>
      hqp (hi.exclusive (p := q) (q := p) (by rw [hq]; rfl) (by rw [hf]; rfl))
    exact (hu q hq).trans_le hlock'

/-- A step that breaks the condition leads to a state in which the first agent is blocked. -/
theorem unhindered_of_unblocked (hi : Inv s) (h : move code s p = some s') (hu : Unblocked s') :
    FirstUnhindered s p := by
  rw [unblocked_iff_first] at hu
  obtain ⟨l, sh, he, hsh, hl, hother⟩ := move_loc h
  constructor
  · intro htest hfirst
    rw [htest] at he
    simp only [code, Instr.exec, hfirst, if_true, Option.some.injEq, Prod.mk.injEq] at he
    have hpos := hu p (by rw [hl, ← he.1])
    rwa [hsh, ← he.2] at hpos
  · intro hnext q hq
    have hqp : q ≠ p := fun hqp => by rw [hqp, hnext] at hq; cases hq
    have hpos := hu q (by rw [hother q hqp, hq])
    rw [hnext] at he
    simp only [code, Instr.exec] at he
    split at he <;> cases he
    have hle := hi.agents
    have hnn := count_nonneg agentInside s
    simp only [hsh, Function.update_self] at hpos
    omega

theorem unblocked_init (m k : Nat) : Unblocked (init m k) := by
  rw [unblocked_iff_first]
  intro p hp
  cases p <;> cases hp

theorem unblocked_iff (m k : Nat) (h : List (State m k × Proc m k)) (s : State m k) (hp : Steps m k h s) :
    (∀ x ∈ Run.visited h s, Unblocked x) ↔ ∀ x ∈ h, FirstUnhindered x.1 x.2 := by
  constructor
  · rintro hall ⟨x, p⟩ hx
    obtain ⟨h', x', hp', hs, -, hx'⟩ := hp.split hx
    exact unhindered_of_unblocked (Steps.inv hp') hs (hall x' hx')
  · refine hp.forall_visited fun h s hp hok => ?_
    have hboth := hp.invariant (I := fun s => Inv s ∧ Unblocked s) FirstUnhindered
      ⟨inv_init m k, unblocked_init m k⟩ (fun _ _ _ hi hok hs => ⟨hi.1.step hs, hi.2.step hi.1 hok hs⟩) hok
    exact hboth.2

/-- The first agent arrives first, and the second one waits for it. -/
def inOrder : List (Proc 0 2) := List.replicate 5 agent0 ++ List.replicate 3 agent1

theorem unblocked_inOrder : ∃ h s, Steps 0 2 h s ∧ (∃ x ∈ h, x.1.loc x.2 = .firstAptLock) ∧
    ∀ x ∈ Run.visited h s, Unblocked x := by
  obtain ⟨h, s, hp, hfirst, hok⟩ := exists_of_runSchedule code (init 0 2) inOrder
    (P := fun h _ => (∃ x ∈ h, x.1.loc x.2 = .firstAptLock) ∧ ∀ x ∈ h, FirstUnhindered x.1 x.2) (by decide +kernel)
  exact ⟨h, s, hp, hfirst, (unblocked_iff 0 2 h s hp).2 hok⟩

/-- Agent 1 goes through `agent_apt_lock` before agent 0 has the mutex. -/
def overtaken : List (Proc 0 2) := List.replicate 4 agent1 ++ List.replicate 2 agent0

theorem first_agent_blocks : ¬ ∀ (m k : Nat) (h : List (State m k × Proc m k)) (s : State m k), Steps m k h s →
    Unblocked s := by
  intro hall
  obtain ⟨h, s, hp, hbad⟩ := exists_of_runSchedule code (init 0 2) overtaken (P := fun _ s => ¬ Unblocked s)
    (by decide +kernel)
  exact hbad (hall 0 2 h s hp)

end CS1550.Aptsim
