/-
The apartment simulator `aptsim.c` as processes over seven semaphores and two shared counters. Every
location below is one atomic action of the C text, named after the function and what it does there;
`x++` and `x--` on a shared counter are a load and a store. `down` and `up` are the kernel's system
calls, taken as an atomic counting semaphore. A process that has not been forked yet is one that has
not made its first step, so the arrivals come in any order.
-/
import CS1550.Lib.Run
import CS1550.Lib.Semaphore

namespace CS1550.Aptsim

open Semaphore

/-- `MAX_TENANTS_PER_AGENT` -/
def maxTenantsPerAgent : Int := 10

/-- The semaphores of the simulation. -/
inductive Sem
  | mutex | waitingForAgent | tenantArrived | agentArrived | aptLock | tenantsLeave | agentAptLock
  deriving DecidableEq, Repr

/-- The shared counters. -/
inductive Var
  | currentAgentTenants | tenantsInApt
  deriving DecidableEq, Repr

/-- The locations of `tenantProcess` and of `agentProcess`. A location between the load and the store
of a counter carries the value loaded. -/
inductive Pc
  -- tenantArrives
  | arriveMutex | testFull | waitUpMutex | waitAgent | wokenMutex | wokenRead | wokenWrite (v : Int) | testRoom
  | wakeNext | freshRead | freshWrite (v : Int) | enterRead | enterWrite (v : Int) | testFirst | signalTenant
  | admitUpMutex | awaitAgent | passMutex | passAgent | passUpMutex
  -- viewApt
  | viewDown | viewUp
  -- tenantLeaves
  | leaveMutex | leaveRead | leaveWrite (v : Int) | testLast | closeCount | closeSignal | closeUpMutex
  | resetAgent | resetApt | leaveUpMutex | tenantDone
  -- agentArrives
  | agentMutex | testAgentId | yieldMutex | nextAptLock | nextMutex | wakeTenants | firstAptLock | arriveUpMutex
  | signalAgent | awaitTenant
  -- openApt
  | openApt
  -- agentLeaves
  | awaitLeave | agentLeaveMutex | freeAptLock | resetCount | agentUpMutex | agentDone
  deriving DecidableEq, Repr

/-- `m` tenants and `k` agents; an agent's index is its `agent_id`. -/
abbrev Proc (m k : Nat) := Fin m ⊕ Fin k

/-- The first two tenants and the first two agents. -/
def tenant0 {m k : Nat} : Proc (m + 1) k := .inl ⟨0, Nat.succ_pos m⟩

/-- The second tenant. -/
def tenant1 {m k : Nat} : Proc (m + 2) k := .inl ⟨1, Nat.succ_lt_succ (Nat.succ_pos m)⟩

/-- The first agent. -/
def agent0 {m k : Nat} : Proc m (k + 1) := .inr ⟨0, Nat.succ_pos k⟩

/-- The second agent. -/
def agent1 {m k : Nat} : Proc m (k + 2) := .inr ⟨1, Nat.succ_lt_succ (Nat.succ_pos k)⟩

/-- `agent_id == 0` -/
def isFirstAgent {m k : Nat} : Proc m k → Bool
  | .inl _ => false
  | .inr j => j.val == 0

/-- The program text. -/
def code {m k : Nat} (p : Proc m k) : Pc → Instr Sem Var Pc
  -- tenantArrives
  | .arriveMutex => .down .mutex .testFull
  | .testFull => .load .currentAgentTenants fun v => if maxTenantsPerAgent ≤ v then .waitUpMutex else .freshRead
  | .waitUpMutex => .up .mutex .waitAgent
  | .waitAgent => .down .waitingForAgent .wokenMutex
  | .wokenMutex => .down .mutex .wokenRead
  | .wokenRead => .load .currentAgentTenants .wokenWrite
  | .wokenWrite v => .store .currentAgentTenants (v + 1) .testRoom
  | .testRoom => .load .currentAgentTenants fun v => if v < maxTenantsPerAgent then .wakeNext else .enterRead
  | .wakeNext => .up .waitingForAgent .enterRead
  | .freshRead => .load .currentAgentTenants .freshWrite
  | .freshWrite v => .store .currentAgentTenants (v + 1) .enterRead
  | .enterRead => .load .tenantsInApt .enterWrite
  | .enterWrite v => .store .tenantsInApt (v + 1) .testFirst
  | .testFirst => .load .currentAgentTenants fun v => if v = 1 then .signalTenant else .admitUpMutex
  | .signalTenant => .up .tenantArrived .admitUpMutex
  | .admitUpMutex => .up .mutex .awaitAgent
  | .awaitAgent => .down .agentArrived .passMutex
  | .passMutex => .down .mutex .passAgent
  | .passAgent => .up .agentArrived .passUpMutex
  | .passUpMutex => .up .mutex .viewDown
  -- viewApt
  | .viewDown => .down .aptLock .viewUp
  | .viewUp => .up .aptLock .leaveMutex
  -- tenantLeaves
  | .leaveMutex => .down .mutex .leaveRead
  | .leaveRead => .load .tenantsInApt .leaveWrite
  | .leaveWrite v => .store .tenantsInApt (v - 1) .testLast
  | .testLast => .load .tenantsInApt fun v => if v = 0 then .closeCount else .leaveUpMutex
  | .closeCount => .store .currentAgentTenants maxTenantsPerAgent .closeSignal
  | .closeSignal => .up .tenantsLeave .closeUpMutex
  | .closeUpMutex => .up .mutex .resetAgent
  | .resetAgent => .down .agentArrived .resetApt
  | .resetApt => .down .aptLock .tenantDone
  | .leaveUpMutex => .up .mutex .tenantDone
  | .tenantDone => .halt
  -- agentArrives
  | .agentMutex => .down .mutex .testAgentId
  | .testAgentId => .jump (if isFirstAgent p then .firstAptLock else .yieldMutex)
  | .yieldMutex => .up .mutex .nextAptLock
  | .nextAptLock => .down .agentAptLock .nextMutex
  | .nextMutex => .down .mutex .wakeTenants
  | .wakeTenants => .up .waitingForAgent .arriveUpMutex
  | .firstAptLock => .down .agentAptLock .arriveUpMutex
  | .arriveUpMutex => .up .mutex .signalAgent
  | .signalAgent => .up .agentArrived .awaitTenant
  | .awaitTenant => .down .tenantArrived .openApt
  -- openApt
  | .openApt => .up .aptLock .awaitLeave
  -- agentLeaves
  | .awaitLeave => .down .tenantsLeave .agentLeaveMutex
  | .agentLeaveMutex => .down .mutex .freeAptLock
  | .freeAptLock => .up .agentAptLock .resetCount
  | .resetCount => .store .currentAgentTenants 0 .agentUpMutex
  | .agentUpMutex => .up .mutex .agentDone
  | .agentDone => .halt

/-- The semaphores, the counters, and where every process is. -/
abbrev State (m k : Nat) := Config (Proc m k) Sem Var Pc

/-- `initSharedVariables` -/
def initSem : Sem → Nat
  | .mutex | .agentAptLock => 1
  | _ => 0

/-- The state when the processes are started. -/
def init (m k : Nat) : State m k where
  shared := { sem := initSem, var := fun _ => 0 }
  loc
    | .inl _ => .arriveMutex
    | .inr _ => .agentMutex

/-- Runs of the simulator with their histories. -/
abbrev Steps (m k : Nat) : List (State m k × Proc m k) → State m k → Prop :=
  Run.Path (fun s p s' => move code s p = some s') (init m k)

/-! ## Where a process is -/

/-- It has completed `down(mutex)` and not yet done the matching `up(mutex)`. -/
def holdsMutex : Pc → Bool
  | .testFull | .waitUpMutex | .wokenRead | .wokenWrite _ | .testRoom | .wakeNext | .freshRead | .freshWrite _
  | .enterRead | .enterWrite _ | .testFirst | .signalTenant | .admitUpMutex | .passAgent | .passUpMutex | .leaveRead
  | .leaveWrite _ | .testLast | .closeCount | .closeSignal | .closeUpMutex | .leaveUpMutex | .testAgentId | .yieldMutex
  | .wakeTenants | .firstAptLock | .arriveUpMutex | .freeAptLock | .resetCount | .agentUpMutex => true
  | _ => false

/-- An agent that has completed `down(agent_apt_lock)` and not yet executed `up(agent_apt_lock)`. -/
def agentInside : Pc → Bool
  | .nextMutex | .wakeTenants | .arriveUpMutex | .signalAgent | .awaitTenant | .openApt | .awaitLeave
  | .agentLeaveMutex | .freeAptLock => true
  | _ => false

/-- A tenant that has executed the increment of `tenants_in_apt` and not yet its decrement. -/
def counted : Pc → Bool
  | .testFirst | .signalTenant | .admitUpMutex | .awaitAgent | .passMutex | .passAgent | .passUpMutex | .viewDown
  | .viewUp | .leaveMutex | .leaveRead | .leaveWrite _ => true
  | _ => false

/-- A tenant that has completed `down(apt_lock)` in `viewApt` and not yet decremented
`tenants_in_apt`. -/
def inspecting : Pc → Bool
  | .viewUp | .leaveMutex | .leaveRead | .leaveWrite _ => true
  | _ => false

/-- A last tenant that has not yet taken its `down(apt_lock)` back. -/
def owesAptLock : Pc → Bool
  | .closeCount | .closeSignal | .closeUpMutex | .resetAgent | .resetApt => true
  | _ => false

/-- The number of processes at a location that satisfies `f`. -/
def count {m k : Nat} (f : Pc → Bool) (s : State m k) : Int := ∑ p, if f (s.loc p) then 1 else 0

end CS1550.Aptsim
