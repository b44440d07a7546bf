/-
The process table of the kernel in `lab3/xv6-public/proc.c`, and what the kernel functions do to it. Each
function holds `ptable.lock` while it changes the table, so on one processor it is one step; a process that
calls `sched` gives the processor back to the scheduler. The table has any number of slots.
-/
import Mathlib.Algebra.Ring.Int.Defs
import Mathlib.Algebra.Ring.Nat
import Mathlib.Logic.Function.Basic
import Mathlib.Data.List.FinRange

namespace CS1550.Xv6

/-- `enum procstate` -/
inductive ProcState
  | unused
  | embryo
  | sleeping
  | runnable
  | running
  | zombie
  deriving DecidableEq

/-- What a process can sleep on: a slot of the table (in `wait`), or some other address. -/
inductive Chan (n : Nat)
  | proc (p : Fin n)
  | other (address : Nat)
  deriving DecidableEq

/-- The fields of `struct proc` that scheduling depends on. -/
structure Proc (n : Nat) where
  state : ProcState
  pid : Int
  parent : Option (Fin n)
  chan : Option (Chan n)
  killed : Bool
  priority : Int
  /-- The local `np` of a `fork` that the process is in. -/
  np : Option (Fin n)

/-- `ptable.proc`, `nextpid` and `initproc`. -/
structure Table (n : Nat) where
  procs : Fin n → Proc n
  nextpid : Int
  initproc : Option (Fin n)

variable {n : Nat}

/-- The table in zeroed memory, and the initial `nextpid`. -/
def Table.zeroed (n : Nat) : Table n := ⟨fun _ => ⟨.unused, 0, none, none, false, 0, none⟩, 1, none⟩

/-- One slot changed. -/
def Table.update (t : Table n) (p : Fin n) (f : Proc n → Proc n) : Table n :=
  { t with procs := Function.update t.procs p (f (t.procs p)) }

@[simp] theorem procs_update_self (t : Table n) (p : Fin n) (f : Proc n → Proc n) :
    (t.update p f).procs p = f (t.procs p) := Function.update_self ..

@[simp] theorem procs_update_of_ne {t : Table n} {p q : Fin n} {f : Proc n → Proc n} (h : q ≠ p) :
    (t.update p f).procs q = t.procs q := Function.update_of_ne h ..

/-! ## Creating processes -/

/-- The first slot that is not used, or 0. Where `kalloc` fails the slot is given back by `forkFail`. The `int` `nextpid`
comes round as the machine's addition does. -/
def Table.allocproc (t : Table n) : Option (Fin n × Table n) :=
  ((List.finRange n).find? fun p => (t.procs p).state = .unused).map fun p =>
    (p, { t.update p fun x => { x with state := .embryo, pid := t.nextpid, priority := 50 } with
      nextpid := (t.nextpid + 1).bmod (2 ^ 32) })

/-- `userinit` -/
def Table.userinit (t : Table n) : Option (Table n) :=
  t.allocproc.map fun (p, t) => { t.update p fun x => { x with state := .runnable } with initproc := some p }

/-- `fork` of `curproc` up to the call of `allocproc`; without a free slot it returns -1. -/
def Table.forkBegin (t : Table n) (curproc : Fin n) : Table n :=
  match t.allocproc with
  | none => t
  | some (np, t) => t.update curproc fun x => { x with np := some np }

/-- `fork` where the child could not be set up. -/
def Table.forkFail (t : Table n) (curproc np : Fin n) : Table n :=
  (t.update np fun x => { x with state := .unused }).update curproc fun x => { x with np := none }

/-- The rest of `fork`, which returns the child's `pid`. -/
def Table.forkEnd (t : Table n) (curproc np : Fin n) : Int × Table n :=
  ((t.procs np).pid, (t.update np fun x => { x with parent := some curproc, state := .runnable }).update curproc
    fun x => { x with np := none })

/-! ## Sleeping and waking -/

/-- A process that `wakeup1(chan)` wakes. -/
def Table.SleepsOn (t : Table n) (p : Fin n) (chan : Option (Chan n)) : Prop :=
  (t.procs p).state = .sleeping ∧ (t.procs p).chan = chan

instance (t : Table n) (p : Fin n) (chan : Option (Chan n)) : Decidable (t.SleepsOn p chan) :=
  inferInstanceAs (Decidable (_ ∧ _))

/-- `wakeup1` -/
def Table.wakeup1 (t : Table n) (chan : Option (Chan n)) : Table n :=
  { t with procs := fun p => if t.SleepsOn p chan then { t.procs p with state := .runnable } else t.procs p }

/-- `wakeup` -/
def Table.wakeup (t : Table n) (chan : Chan n) : Table n := t.wakeup1 (some chan)

/-- `sleep` of the process in a slot. -/
def Table.sleep (t : Table n) (p : Fin n) (chan : Chan n) : Table n :=
  t.update p fun x => { x with chan := some chan, state := .sleeping }

/-- `yield` of the process in a slot. -/
def Table.yield (t : Table n) (p : Fin n) : Table n := t.update p fun x => { x with state := .runnable }

/-- The first process with that `pid`, whatever its state. -/
def Table.withPid (t : Table n) (pid : Int) : Option (Fin n) := (List.finRange n).find? fun p => (t.procs p).pid = pid

/-- `kill` -/
def Table.kill (t : Table n) (pid : Int) : Int × Table n :=
  match t.withPid pid with
  | none => (-1, t)
  | some p => (0, t.update p fun x =>
      { x with killed := true, state := if x.state = .sleeping then .runnable else x.state })

/-- Whether `sys_setpriority` yields, what it returns and the table. `argint` is not checked, so `priority` may
be any number. -/
def Table.setpriority (t : Table n) (curproc : Fin n) (priority : Int) : Bool × Int × Table n :=
  if priority < 0 ∨ priority > 200 then (false, -1, t)
  else
    let t' := t.update curproc fun x => { x with priority }
    if (t.procs curproc).priority < priority then (true, 0, t'.yield curproc) else (false, 0, t')

/-! ## Exiting -/

/-- The children of `curproc` are passed to init, slot by slot. -/
def Table.reparent (t : Table n) (curproc : Fin n) : Table n :=
  (List.finRange n).foldl (fun t p =>
    if (t.procs p).parent = some curproc then
      let t := t.update p fun x => { x with parent := t.initproc }
      if (t.procs p).state = .zombie then t.wakeup1 (t.initproc.map .proc) else t
    else t) t

/-- `exit`; init must not exit. -/
def Table.exit (t : Table n) (curproc : Fin n) : Option (Table n) :=
  if t.initproc = some curproc then none
  else
    let t := t.wakeup1 ((t.procs curproc).parent.map .proc)
    some ((t.reparent curproc).update curproc fun x => { x with state := .zombie })

/-- One turn of the loop of `wait`: what it returns, if it does not go to sleep, and the table. -/
def Table.wait (t : Table n) (curproc : Fin n) : Option Int × Table n :=
  match (List.finRange n).find? fun p => (t.procs p).parent = some curproc ∧ (t.procs p).state = .zombie with
  | some p => (some (t.procs p).pid, t.update p fun x =>
      { x with pid := 0, parent := none, killed := false, state := .unused })
  | none =>
    if (¬ ∃ p, (t.procs p).parent = some curproc) ∨ (t.procs curproc).killed then (some (-1), t)
    else (none, t.sleep curproc (.proc curproc))

/-! ## What the loops do to a slot -/

theorem state_wakeup1 (t : Table n) (chan : Option (Chan n)) (q : Fin n) :
    ((t.wakeup1 chan).procs q).state = if t.SleepsOn q chan then .runnable else (t.procs q).state := by
  simp only [Table.wakeup1]
  split <;> rfl

/-- `wakeup1` changes nothing but states. -/
theorem wakeup1_slot (t : Table n) (chan : Option (Chan n)) (q : Fin n) :
    (t.wakeup1 chan).procs q = { t.procs q with state := ((t.wakeup1 chan).procs q).state } := by
  simp only [Table.wakeup1]
  split <;> rfl

/-- What `reparent` can make of a slot: the state is kept unless a child that has exited is passed to init, which
is sleeping there. -/
structure Reparented (t : Table n) (curproc : Fin n) (t' : Table n) : Prop where
  initproc : t'.initproc = t.initproc
  slot : ∀ q, (t'.procs q).priority = (t.procs q).priority ∧ (t'.procs q).np = (t.procs q).np ∧
    (t'.procs q).chan = (t.procs q).chan
  parent : ∀ q, (t'.procs q).parent = some curproc → (t.procs q).parent = some curproc
  state : ∀ q, (t'.procs q).state = (t.procs q).state ∨ (t'.procs q).state = .runnable ∧
    t.SleepsOn q (t.initproc.map .proc) ∧ ∃ c, (t.procs c).parent = some curproc ∧ (t.procs c).state = .zombie

theorem Reparented.refl (t : Table n) (curproc : Fin n) : Reparented t curproc t :=
  ⟨rfl, fun _ => ⟨rfl, rfl, rfl⟩, fun _ h => h, fun _ => .inl rfl⟩

theorem Reparented.trans {t t' t'' : Table n} {curproc : Fin n} (h : Reparented t curproc t')
    (h' : Reparented t' curproc t'') : Reparented t curproc t'' := by
  have hzombie : ∀ c, (t'.procs c).state = .zombie → (t.procs c).state = .zombie := by
    intro c hc
    rcases h.state c with heq | ⟨hrun, -⟩
    · rwa [heq] at hc
    · rw [hrun] at hc
      cases hc
  refine ⟨h'.initproc.trans h.initproc, fun q => ?_, fun q hq => h.parent q (h'.parent q hq), fun q => ?_⟩
  · obtain ⟨h1, h2, h3⟩ := h.slot q
    obtain ⟨h1', h2', h3'⟩ := h'.slot q
    exact ⟨h1'.trans h1, h2'.trans h2, h3'.trans h3⟩
  · rcases h'.state q with heq | ⟨hrun, ⟨hsleep, hchan⟩, c, hc, hz⟩
    · rw [heq]
      exact h.state q
    · rcases h.state q with heq | hwoken
      · rw [h.initproc, (h.slot q).2.2] at hchan
        exact .inr ⟨hrun, ⟨heq ▸ hsleep, hchan⟩, c, h.parent c hc, hzombie c hz⟩
      · rw [hwoken.1] at hsleep
        cases hsleep

/-- The child in slot `p` passed to init. -/
theorem reparented_slot {t : Table n} {curproc p : Fin n} (hparent : (t.procs p).parent = some curproc) :
    Reparented t curproc (t.update p fun x => { x with parent := t.initproc }) ∧
      ((t.procs p).state = .zombie → Reparented t curproc
        ((t.update p fun x => { x with parent := t.initproc }).wakeup1 (t.initproc.map .proc))) := by
  have hkept : ∀ q, ((t.update p fun x => { x with parent := t.initproc }).procs q) =
      { t.procs q with parent := ((t.update p fun x => { x with parent := t.initproc }).procs q).parent } := by
    intro q
    by_cases hqp : q = p
    · subst hqp
      simp
    · simp [hqp]
  have hmoved : ∀ q, ((t.update p fun x => { x with parent := t.initproc }).procs q).parent = some curproc →
      (t.procs q).parent = some curproc := by
    intro q hq
    by_cases hqp : q = p
    · exact hqp ▸ hparent
    · rwa [procs_update_of_ne hqp] at hq
  constructor
  · refine ⟨rfl, fun q => ?_, hmoved, fun q => .inl ?_⟩
    · rw [hkept q]
      exact ⟨rfl, rfl, rfl⟩
    · rw [hkept q]
  · intro hzombie
    refine ⟨rfl, fun q => ?_, fun q hq => ?_, fun q => ?_⟩
    · rw [wakeup1_slot, hkept q]
      exact ⟨rfl, rfl, rfl⟩
    · rw [wakeup1_slot] at hq
      exact hmoved q hq
    · rw [state_wakeup1]
      split
      · rename_i hsleeps
        rw [Table.SleepsOn, hkept q] at hsleeps
        exact .inr ⟨rfl, hsleeps, p, hparent, hzombie⟩
      · rw [hkept q]
        exact .inl rfl

theorem reparented_reparent (t : Table n) (curproc : Fin n) : Reparented t curproc (t.reparent curproc) := by
  unfold Table.reparent
  generalize List.finRange n = l
  induction l generalizing t with
  | nil => exact .refl t curproc
  | cons p l ih =>
    rw [List.foldl_cons]
    refine Reparented.trans ?_ (ih _)
    split
    · rename_i hparent
      obtain ⟨hmoved, hwoken⟩ := reparented_slot hparent
      dsimp only
      split
      · rename_i hzombie
        rw [procs_update_self] at hzombie
        exact hwoken hzombie
      · exact hmoved
    · exact .refl t curproc

end CS1550.Xv6
