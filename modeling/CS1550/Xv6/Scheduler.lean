/-
The scheduler of `lab3/xv6-public/proc.c` on one processor, with the processes it runs as its environment:
between two switches the running process makes any calls it likes, and interrupts wake processes. A pass of
the scheduler computes the smallest priority number once, in its first loop; the second loop dispatches every
process with that number.
-/
import CS1550.Lib.Run
import CS1550.Xv6.Proc

namespace CS1550.Xv6

variable {n : Nat}

/-! ## The state machine -/

/-- A call of the running process to the kernel. A `fork` is made in two calls, since the process may lose the
processor in between. -/
inductive Call (n : Nat)
  | yield
  | sleep (chan : Chan n)
  | exit
  | wait
  | forkBegin
  | forkEnd
  | forkFail
  | wakeup (chan : Chan n)
  | kill (pid : Int)
  | setpriority (priority : Int)
  deriving DecidableEq

/-- The table after a call, and whether the process has called `sched`. -/
def Table.call (t : Table n) (curproc : Fin n) : Call n → Option (Bool × Table n)
  | .yield => some (true, t.yield curproc)
  | .sleep chan => some (true, t.sleep curproc chan)
  | .exit => (t.exit curproc).map (true, ·)
  | .wait => some ((t.wait curproc).1.isNone, (t.wait curproc).2)
  | .forkBegin => some (false, t.forkBegin curproc)
  | .forkEnd => (t.procs curproc).np.map fun np => (false, (t.forkEnd curproc np).2)
  | .forkFail => (t.procs curproc).np.map fun np => (false, t.forkFail curproc np)
  | .wakeup chan => some (false, t.wakeup chan)
  | .kill pid => some (false, (t.kill pid).2)
  | .setpriority priority => some ((t.setpriority curproc priority).1, (t.setpriority curproc priority).2.2)

/-- Where the scheduler is. -/
inductive Phase (n : Nat)
  /-- Between two passes, with interrupts on. -/
  | top
  /-- In the second loop, at slot `i`. -/
  | second (i : Nat) (maxPriority : Int)
  /-- In the second loop, switched to process `p`. -/
  | running (p : Fin n) (maxPriority : Int)
  deriving DecidableEq

/-- The table, and where the scheduler is. -/
structure Kernel (n : Nat) where
  table : Table n
  phase : Phase n

/-- What happens next. -/
inductive Event (n : Nat)
  /-- The first loop. -/
  | scan
  /-- One turn of the second loop, or its end. -/
  | visit
  | call (c : Call n)
  /-- An interrupt handler that wakes what sleeps on `chan`. -/
  | interrupt (chan : Chan n)
  deriving DecidableEq

/-- The first loop: `max_priority`. -/
def firstLoop (t : Table n) : Int :=
  (List.finRange n).foldl (fun maxPriority p =>
    if (t.procs p).state ≠ .runnable then maxPriority
    else if (t.procs p).priority < maxPriority then (t.procs p).priority
    else maxPriority) 201

/-- The process that the second loop switches to at slot `i`. -/
def chosen (t : Table n) (i : Nat) (maxPriority : Int) : Option (Fin n) :=
  if h : i < n then
    if (t.procs ⟨i, h⟩).state = .runnable ∧ (t.procs ⟨i, h⟩).priority = maxPriority then some ⟨i, h⟩ else none
  else none

/-- A process that is switched to; one that has slept goes on behind `sched` in `sleep` and clears its `chan`. -/
def Table.dispatch (t : Table n) (p : Fin n) : Table n := t.update p fun x => { x with state := .running, chan := none }

/-- One step of the scheduler or of the process that runs. -/
def step (k : Kernel n) (e : Event n) : Option (Kernel n) :=
  match k.phase, e with
  | .top, .scan => some ⟨k.table, .second 0 (firstLoop k.table)⟩
  | .second i maxPriority, .visit =>
    if i < n then
      match chosen k.table i maxPriority with
      | some p => some ⟨k.table.dispatch p, .running p maxPriority⟩
      | none => some ⟨k.table, .second (i + 1) maxPriority⟩
    else some ⟨k.table, .top⟩
  | .running p maxPriority, .call c =>
    (k.table.call p c).map fun (sched, t) => ⟨t, if sched then .second (p + 1) maxPriority else .running p maxPriority⟩
  | .running p maxPriority, .interrupt chan => some ⟨k.table.wakeup chan, .running p maxPriority⟩
  | .top, .interrupt chan => some ⟨k.table.wakeup chan, .top⟩
  | _, _ => none

/-- One step, as a relation. -/
def Step (k : Kernel n) (e : Event n) (k' : Kernel n) : Prop := step k e = some k'

/-- The steps, one by one. -/
inductive Moves : Kernel n → Event n → Kernel n → Prop
  | scan (t : Table n) : Moves ⟨t, .top⟩ .scan ⟨t, .second 0 (firstLoop t)⟩
  | switch {t : Table n} {i : Nat} {m : Int} {p : Fin n} (hp : chosen t i m = some p) :
    Moves ⟨t, .second i m⟩ .visit ⟨t.dispatch p, .running p m⟩
  | skip {t : Table n} {i : Nat} {m : Int} (hi : i < n) (hp : chosen t i m = none) :
    Moves ⟨t, .second i m⟩ .visit ⟨t, .second (i + 1) m⟩
  | finish {t : Table n} {i : Nat} {m : Int} (hi : n ≤ i) : Moves ⟨t, .second i m⟩ .visit ⟨t, .top⟩
  | call {t t' : Table n} {p : Fin n} {m : Int} {c : Call n} {sched : Bool} (h : t.call p c = some (sched, t')) :
    Moves ⟨t, .running p m⟩ (.call c) ⟨t', if sched then .second (p + 1) m else .running p m⟩
  | interrupt (t : Table n) (p : Fin n) (m : Int) (chan : Chan n) :
    Moves ⟨t, .running p m⟩ (.interrupt chan) ⟨t.wakeup chan, .running p m⟩
  | idle (t : Table n) (chan : Chan n) : Moves ⟨t, .top⟩ (.interrupt chan) ⟨t.wakeup chan, .top⟩

theorem Step.moves {k k' : Kernel n} {e : Event n} (hs : Step k e k') : Moves k e k' := by
  obtain ⟨t, phase⟩ := k
  cases phase with
  | top =>
    cases e with
    | scan =>
      cases hs
      exact .scan t
    | interrupt chan =>
      cases hs
      exact .idle t chan
    | visit => cases hs
    | call c => cases hs
  | second i m =>
    cases e with
    | visit =>
      unfold Step step at hs
      dsimp only at hs
      split at hs
      · rename_i hi
        split at hs
        · rename_i p hp
          cases hs
          exact .switch hp
        · rename_i hp
          cases hs
          exact .skip hi hp
      · rename_i hi
        cases hs
        exact .finish (Nat.le_of_not_lt hi)
    | scan => cases hs
    | call c => cases hs
    | interrupt chan => cases hs
  | running p m =>
    cases e with
    | call c =>
      obtain ⟨⟨sched, t'⟩, hcall, heq⟩ := Option.map_eq_some_iff.1 hs
      cases heq
      exact .call hcall
    | interrupt chan =>
      cases hs
      exact .interrupt t p m chan
    | scan => cases hs
    | visit => cases hs

/-- The process that the scheduler switches to in a step. -/
def dispatched (k : Kernel n) (e : Event n) : Option (Fin n) :=
  match k.phase, e with
  | .second i maxPriority, .visit => chosen k.table i maxPriority
  | _, _ => none

theorem dispatched_some {k : Kernel n} {e : Event n} {p : Fin n} (h : dispatched k e = some p) :
    ∃ i m, k.phase = .second i m ∧ chosen k.table i m = some p := by
  unfold dispatched at h
  split at h
  · rename_i i m hphase
    exact ⟨i, m, hphase, h⟩
  · cases h

/-! ## Becoming RUNNABLE -/

/-- The process `q` is one that a call of `p` makes RUNNABLE. -/
def Call.Readies (t : Table n) (p q : Fin n) : Call n → Prop
  | .yield => q = p
  | .setpriority v => q = p ∧ 0 ≤ v ∧ v ≤ 200 ∧ (t.procs p).priority < v
  | .forkEnd => (t.procs p).np = some q
  | .exit => t.SleepsOn q ((t.procs p).parent.map .proc) ∨
      t.SleepsOn q (t.initproc.map .proc) ∧ ∃ c, (t.procs c).parent = some p ∧ (t.procs c).state = .zombie
  | .wakeup chan => t.SleepsOn q (some chan)
  | .kill pid => t.withPid pid = some q ∧ (t.procs q).state = .sleeping
  | _ => False

instance (t : Table n) (p q : Fin n) : (c : Call n) → Decidable (c.Readies t p q)
  | .yield => inferInstanceAs (Decidable (_ = _))
  | .setpriority _ => inferInstanceAs (Decidable (_ ∧ _))
  | .forkEnd => inferInstanceAs (Decidable (_ = _))
  | .exit => inferInstanceAs (Decidable (_ ∨ _))
  | .wakeup _ => inferInstanceAs (Decidable (t.SleepsOn _ _))
  | .kill _ => inferInstanceAs (Decidable (_ ∧ _))
  | .sleep _ => isFalse id
  | .wait => isFalse id
  | .forkBegin => isFalse id
  | .forkFail => isFalse id

/-- The priority that a process has when the call has made it RUNNABLE. -/
def Call.newPriority (t : Table n) (q : Fin n) : Call n → Int
  | .setpriority v => v
  | _ => (t.procs q).priority

/-- The kernel as it starts, and the runs from there. -/
abbrev RunsTo (h : List (Kernel n × Event n)) (k : Kernel n) : Prop :=
  ∃ t, (Table.zeroed n).userinit = some t ∧ Run.Path Step ⟨t, .top⟩ h k

end CS1550.Xv6
