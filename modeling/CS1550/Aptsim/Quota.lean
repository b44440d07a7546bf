/-
The quota of the apartment simulator: an agent shows the apartment to at most
`MAX_TENANTS_PER_AGENT` tenants.

A tenant that was woken on `waiting_for_agent` increments `current_agent_tenants` without testing it
again, and every agent but the first posts a token there whether or not anyone waits, so an eleventh
tenant can be admitted (`eleventh_tenant`). The quota is kept in exactly the runs in which every woken
tenant finds room (`withinQuota_iff`).
-/
import CS1550.Aptsim.Invariant

namespace CS1550.Aptsim

open Semaphore

variable {m k : Nat} {s s' : State m k} {p : Proc m k}

/-- The store of `(*current_agent_tenants)++` after a wait. -/
def isWokenStore : Pc → Bool
  | .wokenWrite _ => true
  | _ => false

/-- The store of `(*current_agent_tenants)++`, on either branch of `tenantArrives`. -/
def isAdmission : Pc → Bool
  | .wokenWrite _ | .freshWrite _ => true
  | _ => false

/-- The number of tenants admitted in a stretch of a run. -/
def admitted (w : List (State m k × Proc m k)) : Nat := w.countP fun x => isAdmission (x.1.loc x.2)

/-- A stretch of a run in which no agent resets `current_agent_tenants`. -/
def NoReset (w : List (State m k × Proc m k)) : Prop := ∀ x ∈ w, x.1.loc x.2 ≠ .resetCount

/-- The counter stays within the quota in every state of the run, and a stretch of it without a reset,
such as one between two consecutive resets, admits no more tenants than the quota. -/
def WithinQuota (h : List (State m k × Proc m k)) (s : State m k) : Prop :=
  (∀ x ∈ Run.visited h s, x.shared.var .currentAgentTenants ≤ maxTenantsPerAgent) ∧
    ∀ h₁ w h₂, h = h₁ ++ w ++ h₂ → NoReset w → (admitted w : Int) ≤ maxTenantsPerAgent

/-- A woken tenant is admitted only while there is room, which is what a tenant that did not wait
tests. -/
def Rechecked (s : State m k) (p : Proc m k) : Prop :=
  isWokenStore (s.loc p) = true → s.shared.var .currentAgentTenants < maxTenantsPerAgent

instance : Decidable (Rechecked s p) := inferInstanceAs (Decidable (_ → _))

/-- The counter after a step that respects the quota: within it, and no less than before plus the
tenant admitted, unless it is reset. -/
theorem counter_exec {l l' : Pc} {sh sh' : Shared Sem Var} (ha : Asserts l sh.var)
    (hr : isWokenStore l = true → sh.var .currentAgentTenants < maxTenantsPerAgent)
    (hpos : 0 ≤ sh.var .currentAgentTenants) (hle : sh.var .currentAgentTenants ≤ maxTenantsPerAgent)
    (h : (code p l).exec sh = some (l', sh')) :
    0 ≤ sh'.var .currentAgentTenants ∧ sh'.var .currentAgentTenants ≤ maxTenantsPerAgent ∧
      (l ≠ .resetCount → sh.var .currentAgentTenants + one isAdmission l ≤ sh'.var .currentAgentTenants) := by
  cases l
  case wokenWrite v =>
    have hroom := hr rfl
    simp only [code, Instr.exec] at h
    cases h
    simp only [Asserts] at ha
    simp only [Function.update_self, one, isAdmission]
    refine ⟨?_, ?_, fun _ => ?_⟩ <;> omega
  case freshWrite v =>
    simp only [code, Instr.exec] at h
    cases h
    obtain ⟨hv, hroom⟩ := ha
    simp only [Function.update_self, one, isAdmission]
    refine ⟨?_, ?_, fun _ => ?_⟩ <;> omega
  case closeCount =>
    simp only [code, Instr.exec] at h
    cases h
    simpa [one, isAdmission] using ⟨hpos.trans hle, hle⟩
  case resetCount =>
    simp only [code, Instr.exec] at h
    cases h
    simp [maxTenantsPerAgent]
  all_goals
    simp only [code, Instr.exec] at h
    try split at h
    all_goals cases h
    all_goals simp [one, isAdmission, hpos, hle]

/-- After a run that respects the quota the counter bounds the tenants admitted since any point after
the last reset. -/
theorem admitted_le_counter {h : List (State m k × Proc m k)} (hp : Steps m k h s)
    (hok : ∀ x ∈ h, Rechecked x.1 x.2) :
    0 ≤ s.shared.var .currentAgentTenants ∧ s.shared.var .currentAgentTenants ≤ maxTenantsPerAgent ∧
      ∀ h₁ w, h = h₁ ++ w → NoReset w → (admitted w : Int) ≤ s.shared.var .currentAgentTenants := by
  induction hp with
  | start =>
    refine ⟨le_refl _, by simp [init, maxTenantsPerAgent], fun h₁ w hw _ => ?_⟩
    obtain ⟨-, rfl⟩ := List.append_eq_nil_iff.1 hw.symm
    exact le_refl _
  | @step h s s' p hp hs ih =>
    obtain ⟨hpos, hle, hadm⟩ := ih fun x hx => hok x (List.mem_append_left _ hx)
    obtain ⟨l, sh, he, rfl, -, -⟩ := move_loc hs
    obtain ⟨hpos', hle', hadd⟩ := counter_exec (Steps.inv hp |>.asserts p) (hok (s, p) (by simp)) hpos hle he
    refine ⟨hpos', hle', fun h₁ w hw hno => ?_⟩
    -- the stretch is empty, or ends with the step just taken
    rcases List.eq_nil_or_concat w with rfl | ⟨w, x, rfl⟩
    · simpa [admitted] using hpos'
    · rw [List.concat_eq_append, ← List.append_assoc] at hw
      obtain ⟨rfl, hx⟩ := List.append_inj' hw rfl
      cases hx
      have hrest := hadm h₁ w rfl fun x hx => hno x (by simp [hx])
      have hlast := hadd (hno (s, p) (by simp))
      have hcount : (admitted (w.concat (s, p)) : Int) = admitted w + one isAdmission (s.loc p) := by
        simp only [admitted, one, List.concat_eq_append, List.countP_append, List.countP_singleton]
        split <;> simp
      omega

/-- The counter exceeds the quota right after a woken tenant that found no room. -/
theorem recheck_of_le {h : List (State m k × Proc m k)} (hp : Steps m k h s) (hs : move code s p = some s')
    (hle : s'.shared.var .currentAgentTenants ≤ maxTenantsPerAgent) : Rechecked s p := by
  intro hw
  have ha := (Steps.inv hp).asserts p
  obtain ⟨l, sh, he, rfl⟩ := move_some.1 hs
  cases hl : s.loc p <;> rw [hl] at hw <;> cases hw
  rw [hl] at he ha
  simp only [code, Instr.exec] at he
  cases he
  simp only [Asserts] at ha
  simp only [Function.update_self] at hle
  omega

theorem withinQuota_iff (m k : Nat) (h : List (State m k × Proc m k)) (s : State m k) (hp : Steps m k h s) :
    WithinQuota h s ↔ ∀ x ∈ h, Rechecked x.1 x.2 := by
  constructor
  · rintro ⟨hle, -⟩ ⟨x, p⟩ hx
    obtain ⟨h', x', hp', hs, -, hx'⟩ := hp.split hx
    exact recheck_of_le hp' hs (hle x' hx')
  · intro hok
    refine ⟨hp.forall_visited (fun _ _ hp hok => (admitted_le_counter hp hok).2.1) hok, fun h₁ w h₂ hh hno => ?_⟩
    subst hh
    obtain ⟨x, hx⟩ := hp.take
    obtain ⟨-, hle, hadm⟩ := admitted_le_counter hx fun y hy => hok y (List.mem_append_left _ hy)
    exact (hadm h₁ w rfl hno).trans hle

/-- A tenant arrives while the first agent is about to leave, waits, and is woken by the second
agent. -/
def secondAgent : List (Proc 2 2) :=
  List.replicate 5 agent0 ++ List.replicate 13 tenant0 ++ List.replicate 2 agent0 ++ List.replicate 9 tenant0 ++
    List.replicate 3 tenant1 ++ List.replicate 5 agent0 ++ List.replicate 2 tenant0 ++ List.replicate 7 agent1 ++
    List.replicate 4 tenant1

theorem withinQuota_secondAgent : ∃ h s, Steps 2 2 h s ∧ (∃ x ∈ h, isWokenStore (x.1.loc x.2) = true) ∧
    WithinQuota h s := by
  obtain ⟨h, s, hp, hwoken, hok⟩ := exists_of_runSchedule code (init 2 2) secondAgent
    (P := fun h _ => (∃ x ∈ h, isWokenStore (x.1.loc x.2) = true) ∧ ∀ x ∈ h, Rechecked x.1 x.2) (by decide +kernel)
  exact ⟨h, s, hp, hwoken, (withinQuota_iff 2 2 h s hp).2 hok⟩

/-- Agent 1 comes before anybody waits and leaves a token on `waiting_for_agent`; ten tenants are
admitted, and the eleventh waits, takes the token and is admitted too. -/
def tokenForNobody : List (Proc 11 2) :=
  List.replicate 7 agent1 ++ List.replicate 9 tenant0 ++
    (List.finRange 9).flatMap (fun t => List.replicate 8 (.inl t.succ.castSucc)) ++ List.replicate 7 (.inl (Fin.last 10))

theorem eleventh_tenant : ¬ ∀ (m k : Nat) (h : List (State m k × Proc m k)) (s : State m k), Steps m k h s →
    s.shared.var .currentAgentTenants ≤ maxTenantsPerAgent := by
  intro hall
  obtain ⟨h, s, hp, hbad⟩ := exists_of_runSchedule code (init 11 2) tokenForNobody
    (P := fun _ s => ¬ s.shared.var .currentAgentTenants ≤ maxTenantsPerAgent) (by decide +kernel)
  exact hbad (hall 11 2 h s hp)

end CS1550.Aptsim
