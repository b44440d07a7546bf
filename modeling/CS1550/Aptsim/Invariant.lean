/-
What holds in every reachable state of the apartment simulator, for any number of tenants and agents:
the mutex and `agent_apt_lock` exclude, `tenants_in_apt` is the number of counted tenants, and the
tokens of `apt_lock` and `tenants_leave` balance against the agent that opened the apartment and the
last tenants that still have to take theirs back.
-/
import CS1550.Aptsim.Program

namespace CS1550.Aptsim

open Semaphore

variable {m k : Nat} {s s' : State m k} {p : Proc m k}

/-- The indicator of a set of locations. -/
def one (f : Pc → Bool) (l : Pc) : Int := if f l then 1 else 0

theorem one_nonneg (f : Pc → Bool) (l : Pc) : 0 ≤ one f l := by
  unfold one; split <;> omega

theorem one_of {f : Pc → Bool} {l : Pc} (h : f l = true) : one f l = 1 := by simp [one, h]

theorem count_eq (f : Pc → Bool) (s : State m k) : count f s = ∑ p, one f (s.loc p) := rfl

theorem count_nonneg (f : Pc → Bool) (s : State m k) : 0 ≤ count f s :=
  Finset.sum_nonneg fun _ _ => one_nonneg f _

theorem one_le_count {f : Pc → Bool} (h : f (s.loc p) = true) : 1 ≤ count f s := by
  rw [← one_of h]
  exact le_sum (one_nonneg f) p

theorem exists_of_count {f : Pc → Bool} (h : 1 ≤ count f s) : ∃ p, f (s.loc p) = true := by
  by_contra hno
  have hz : count f s = 0 := Finset.sum_eq_zero fun p _ => by
    rw [if_neg fun hp => hno ⟨p, hp⟩]
  omega

theorem count_mono {f g : Pc → Bool} (h : ∀ l, f l = true → g l = true) (s : State m k) : count f s ≤ count g s :=
  Finset.sum_le_sum fun p _ => by
    by_cases hf : f (s.loc p) = true
    · simp [hf, h _ hf]
    · simp only [hf]; exact one_nonneg g _

/-- A step moves one process, from where it was to where it is. -/
theorem count_step (f : Pc → Bool) (h : move code s p = some s') :
    count f s' + one f (s.loc p) = count f s + one f (s'.loc p) := by
  obtain ⟨l, sh, -, rfl⟩ := move_some.1 h
  have hsum := sum_update (one f) s.loc p l
  simpa [count_eq] using hsum

/-! ## Assertions under the mutex -/

/-- What a process knows of the counters at a location inside the mutex. -/
def Asserts : Pc → (Var → Int) → Prop
  | .wokenWrite v, x => x .currentAgentTenants = v
  | .freshRead, x => x .currentAgentTenants < maxTenantsPerAgent
  | .freshWrite v, x => x .currentAgentTenants = v ∧ v < maxTenantsPerAgent
  | .enterWrite v, x => x .tenantsInApt = v
  | .leaveWrite v, x => x .tenantsInApt = v
  | .closeCount, x => x .tenantsInApt = 0
  | .closeSignal, x => x .tenantsInApt = 0
  | _, _ => True

theorem asserts_of_outside {l : Pc} (h : ¬ holdsMutex l = true) (x : Var → Int) : Asserts l x := by
  cases l <;> trivial

theorem holdsMutex_of_store {l next : Pc} {x : Var} {v : Int} (h : code p l = .store x v next) : holdsMutex l = true := by
  cases l <;> first | rfl | cases h

theorem asserts_own {l l' : Pc} {sh sh' : Shared Sem Var} (ha : Asserts l sh.var)
    (h : (code p l).exec sh = some (l', sh')) : Asserts l' sh'.var := by
  cases l
  -- the two tests whose outcome a later location relies on
  case testFull =>
    simp only [code, Instr.exec] at h
    cases h
    split <;> simp_all [Asserts]
  case testLast =>
    simp only [code, Instr.exec] at h
    cases h
    split <;> simp_all [Asserts]
  case closeCount => simp only [code, Instr.exec] at h; cases h; simpa [Asserts] using ha
  all_goals
    simp only [code, Instr.exec] at h
    try split at h
    all_goals cases h
    all_goals simp_all [Asserts]

/-! ## The tokens of the semaphores -/

theorem balanced_mutex (p : Proc m k) (l : Pc) : Weighed [.mutex] (one holdsMutex) l (code p l) := by
  cases l
  case testFull | testRoom | testFirst | testLast => intro v; dsimp only; split <;> rfl
  case testAgentId => simp only [code, Weighed]; split <;> rfl
  all_goals first | rfl | exact fun _ => rfl | trivial

theorem balanced_agents (p : Proc m k) (l : Pc) : Weighed [.agentAptLock] (one agentInside) l (code p l) := by
  cases l
  case testFull | testRoom | testFirst | testLast => intro v; dsimp only; split <;> rfl
  case testAgentId => simp only [code, Weighed]; split <;> rfl
  all_goals first | rfl | exact fun _ => rfl | trivial

/-- A last tenant that has not yet signalled `tenants_leave`. -/
def closing : Pc → Bool
  | .closeCount | .closeSignal => true
  | _ => false

/-- Minus the tokens of `apt_lock` and `tenants_leave` that a process is answerable for. -/
def aptBalance : Pc → Int
  | .viewUp => 1
  | .awaitLeave | .closeUpMutex | .resetAgent | .resetApt => -1
  | _ => 0

theorem balanced_apt (p : Proc m k) (l : Pc) : Weighed [.aptLock, .tenantsLeave] aptBalance l (code p l) := by
  cases l
  case testFull | testRoom | testFirst | testLast => intro v; dsimp only; split <;> rfl
  case testAgentId => simp only [code, Weighed]; split <;> rfl
  all_goals first | rfl | exact fun _ => rfl | trivial

/-- The invariant of the simulator. -/
structure Inv (s : State m k) : Prop where
  mutex : s.shared.sem .mutex + count holdsMutex s = 1
  agents : s.shared.sem .agentAptLock + count agentInside s = 1
  asserts : ∀ p, Asserts (s.loc p) s.shared.var
  tenants : s.shared.var .tenantsInApt = count counted s
  apt : tokens [.aptLock, .tenantsLeave] s.shared + ∑ p, aptBalance (s.loc p) = 0

theorem Inv.exclusive (hi : Inv s) {p q : Proc m k} (hp : holdsMutex (s.loc p) = true)
    (hq : holdsMutex (s.loc q) = true) : p = q := by
  refine atMostOne (w := one holdsMutex) (one_nonneg _) ?_ (one_of hp).ge (one_of hq).ge
  rw [← count_eq]
  have := hi.mutex
  omega

/-- `tenants_in_apt` follows the counted tenants, as the load and the store of each change of it are
under one hold of the mutex. -/
theorem counted_exec {l l' : Pc} {sh sh' : Shared Sem Var} (ha : Asserts l sh.var)
    (h : (code p l).exec sh = some (l', sh')) :
    sh'.var .tenantsInApt - one counted l' = sh.var .tenantsInApt - one counted l := by
  cases l
  case enterWrite v => simp only [code, Instr.exec] at h; cases h; simp_all [Asserts, one, counted]
  case leaveWrite v => simp only [code, Instr.exec] at h; cases h; simp_all [Asserts, one, counted]
  case testFull | testRoom | testFirst | testLast =>
    simp only [code, Instr.exec] at h
    cases h
    split <;> rfl
  all_goals
    simp only [code, Instr.exec] at h
    try split at h
    all_goals cases h
    all_goals simp [one, counted]

theorem inv_init (m k : Nat) : Inv (init m k) where
  mutex := by simp [init, initSem, count, holdsMutex]
  agents := by simp [init, initSem, count, agentInside]
  asserts p := by cases p <;> trivial
  tenants := by simp [init, count, counted]
  apt := by simp [init, initSem, tokens, aptBalance]

theorem Inv.step (hi : Inv s) (h : move code s p = some s') : Inv s' where
  mutex := by
    have hb := balanced_step balanced_mutex h
    have := hi.mutex
    simp only [tokens, List.map_cons, List.map_nil, List.sum_cons, List.sum_nil, ← count_eq] at hb
    omega
  agents := by
    have hb := balanced_step balanced_agents h
    have := hi.agents
    simp only [tokens, List.map_cons, List.map_nil, List.sum_cons, List.sum_nil, ← count_eq] at hb
    omega
  asserts := asserts_step (fun l => holdsMutex l = true) (fun _ _ => hi.exclusive)
    (fun _ _ _ _ _ => holdsMutex_of_store) (fun _ x hl => asserts_of_outside hl x)
    (fun _ _ _ _ _ => asserts_own) h hi.asserts
  tenants := by
    have hs := sum_step (fun sh => sh.var .tenantsInApt) (fun l => - one counted l) h fun l sh he => by
      have := counted_exec (hi.asserts p) he
      omega
    have := hi.tenants
    simp only [Finset.sum_neg_distrib, ← count_eq] at hs
    omega
  apt := by
    rw [balanced_step balanced_apt h]
    exact hi.apt

theorem Steps.inv {h : List (State m k × Proc m k)} (hp : Steps m k h s) : Inv s :=
  hp.always (inv_init m k) fun _ _ _ hi hs => hi.step hs

/-! ## What the invariant says of the apartment -/

theorem Inv.agents_le (hi : Inv s) : count agentInside s ≤ 1 := by
  have := hi.agents
  omega

/-- The tokens against their owners: `apt_lock` is up once for the agent that waits for its tenants to
leave and once for every last tenant that has not taken its own back. -/
theorem Inv.apt_tokens (hi : Inv s) :
    (s.shared.sem .aptLock : Int) + s.shared.sem .tenantsLeave + count (· == .viewUp) s + count closing s =
      count (· == .awaitLeave) s + count owesAptLock s := by
  have hapt := hi.apt
  have hsplit : ∀ l, aptBalance l =
      one (· == .viewUp) l + one closing l - one (· == .awaitLeave) l - one owesAptLock l := by
    intro l
    cases l <;> rfl
  simp only [hsplit, Finset.sum_add_distrib, Finset.sum_sub_distrib, ← count_eq, tokens, List.map_cons,
    List.map_nil, List.sum_cons, List.sum_nil] at hapt
  omega

end CS1550.Aptsim
