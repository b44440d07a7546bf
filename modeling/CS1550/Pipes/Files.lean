/-
Descriptors, files and pipes of `lab4/xv6-public`: the table of open files and its reference counts (`file.c`), the
system calls that change the descriptors of a process (`sysfile.c`, `fork` and `exit` of `proc.c`), and the pipes behind
them (`pipe.c`). A step of a process is what it does under one lock, together with what it does for itself; what is left
of a system call after such a step is in its `Activity`. Files on the disk are here only as entries of the table.
-/
import CS1550.Pipes.Buffer
import CS1550.Lib.Run
import Mathlib.Data.List.FinRange

namespace CS1550.Pipes

/-- `NOFILE` -/
def nofile : Nat := 16

/-- `NFILE` -/
def nfile : Nat := 100

/-- The page of a pipe. -/
abbrev Addr := Nat

/-- The `type` of a file. -/
inductive FileType
  | none | pipe | inode
  deriving DecidableEq, Repr

/-- `struct file`, without what belongs to inodes. -/
structure File where
  type : FileType
  ref : Int
  readable : Bool
  writable : Bool
  pipe : Addr
  deriving DecidableEq, Repr

/-- `ftable.file` -/
abbrev FileTable := Fin nfile → File

/-- The `ofile` of a process. -/
abbrev Descriptors := Fin nofile → Option (Fin nfile)

/-- Where the kernel panics, or uses what it has freed. -/
inductive Fault
  | filedup | fileclose | fileread | filewrite
  /-- A pipe is used after it was freed. -/
  | freed
  deriving DecidableEq, Repr

/-! ## `file.c` -/

/-- `filealloc` -/
def filealloc (files : FileTable) : Option (Fin nfile × FileTable) :=
  ((List.finRange nfile).find? fun f => (files f).ref = 0).map fun f =>
    (f, Function.update files f { files f with ref := 1 })

/-- `filedup` -/
def filedup (files : FileTable) (f : Fin nfile) : Except Fault FileTable :=
  if (files f).ref < 1 then .error .filedup
  else .ok (Function.update files f { files f with ref := (files f).ref + 1 })

/-- `fileclose` under the lock of the table, and the call of `pipeclose` that follows. -/
def fileclose (files : FileTable) (f : Fin nfile) : Except Fault (FileTable × Option (Addr × Bool)) :=
  if (files f).ref < 1 then .error .fileclose
  else if (files f).ref - 1 > 0 then .ok (Function.update files f { files f with ref := (files f).ref - 1 }, none)
  else
    .ok (Function.update files f { files f with ref := 0, type := .none },
      if (files f).type = .pipe then some ((files f).pipe, (files f).writable) else none)

/-! ## Processes -/

/-- Where a process is. -/
inductive Activity
  /-- On the way out of the kernel: the pipe end that is to be closed, and then the files. With none of them the
  process is in user mode. -/
  | leaving (pending : Option (Addr × Bool)) (files : List (Fin nfile))
  /-- In `pipealloc`, with the first file, or with both. -/
  | piping (f0 : Fin nfile) (f1 : Option (Fin nfile))
  /-- In `piperead` or `pipewrite`, before it takes the lock or asleep. -/
  | inPipe (a : Addr) (c : Call) (asleep : Bool)
  deriving DecidableEq

/-- In user mode. -/
abbrev Activity.user : Activity := .leaving none []

/-- The fields of `struct proc` that pipes depend on. -/
structure Proc where
  live : Bool
  killed : Bool
  ofile : Descriptors
  act : Activity

/-- The files, the pipes that are allocated, and the processes. -/
structure System (n : Nat) where
  files : FileTable
  pipes : Addr → Option Pipe
  procs : Fin n → Proc

/-- The first process alone, with no open files. -/
def System.boot (n : Nat) : System n where
  files _ := { type := .none, ref := 0, readable := false, writable := false, pipe := 0 }
  pipes _ := none
  procs p := { live := p.val = 0, killed := false, ofile := fun _ => none, act := .user }

variable {n : Nat}

/-- One process changed. -/
def System.setProc (σ : System n) (p : Fin n) (P : Proc) : System n :=
  { σ with procs := Function.update σ.procs p P }

/-- A process gets somewhere else. -/
def System.setAct (σ : System n) (p : Fin n) (act : Activity) : System n :=
  σ.setProc p { σ.procs p with act := act }

/-- `wakeup` of the processes that sleep in the pipe at its writing end, or at its reading end. -/
def Activity.wakeup (a : Addr) (writers : Bool) : Activity → Activity
  | .inPipe a' c asleep => .inPipe a' c (asleep && !(a' = a && c.writes = writers))
  | act => act

/-- `wakeup` of the processes that sleep at one end of a pipe. -/
def System.wakeup (σ : System n) (a : Addr) (writers : Bool) : System n :=
  { σ with procs := fun q => { σ.procs q with act := (σ.procs q).act.wakeup a writers } }

/-! ## `pipe.c` -/

/-- One end of a pipe closed. -/
def pipeclose (q : Pipe) (writable : Bool) : Pipe :=
  if writable then { q with writeopen := false } else { q with readopen := false }

/-- `pipeclose`. The pipe is freed with its second end. -/
def System.pipeclose (σ : System n) (a : Addr) (writable : Bool) : Except Fault (System n) :=
  match σ.pipes a with
  | none => .error .freed
  | some q =>
    let q := Pipes.pipeclose q writable
    let σ := σ.wakeup a !writable
    .ok { σ with pipes := Function.update σ.pipes a (if !q.readopen && !q.writeopen then none else some q) }

/-- Where a process is after a turn. -/
def Result.act (a : Addr) : Result → Activity
  | .returns _ => .user
  | .sleeps c => .inPipe a c true

/-- A turn of `piperead` or `pipewrite`. -/
def System.turn (σ : System n) (p : Fin n) (a : Addr) (c : Call) : Except Fault (System n) :=
  match σ.pipes a with
  | none => .error .freed
  | some q =>
    let t := c.turn q (σ.procs p).killed
    let σ := { σ with pipes := Function.update σ.pipes a (some t.pipe) }
    let σ := σ.setAct p (t.result.act a)
    .ok (if t.wakes then σ.wakeup a !c.writes else σ)

/-! ## `sysfile.c` -/

/-- `fdalloc` -/
def fdalloc (ofile : Descriptors) (f : Fin nfile) : Option (Fin nofile × Descriptors) :=
  ((List.finRange nofile).find? fun fd => (ofile fd).isNone).map fun fd => (fd, Function.update ofile fd (some f))

/-- `argfd`, for the value of the argument. -/
def argfd (ofile : Descriptors) (fd : Int) : Option (Fin nofile × Fin nfile) :=
  if h : 0 ≤ fd ∧ fd < nofile then (ofile ⟨fd.toNat, by omega⟩).map fun f => (⟨fd.toNat, by omega⟩, f)
  else none

/-- `sys_dup` -/
def System.sysDup (σ : System n) (p : Fin n) (fd : Int) : Except Fault (System n) :=
  match argfd (σ.procs p).ofile fd with
  | none => .ok σ
  | some (_, f) =>
    match fdalloc (σ.procs p).ofile f with
    | none => .ok σ
    | some (_, ofile) => do
      let files ← filedup σ.files f
      .ok { σ.setProc p { σ.procs p with ofile := ofile } with files := files }

/-- `fileclose` by a process that has the files `rest` to close after it. -/
def System.drop (σ : System n) (p : Fin n) (f : Fin nfile) (rest : List (Fin nfile)) : Except Fault (System n) := do
  let (files, pending) ← fileclose σ.files f
  .ok { σ.setAct p (.leaving pending rest) with files := files }

/-- `sys_close`, up to the end of `fileclose` under the lock. -/
def System.sysClose (σ : System n) (p : Fin n) (fd : Int) : Except Fault (System n) :=
  match argfd (σ.procs p).ofile fd with
  | none => .ok σ
  | some (i, f) => (σ.setProc p { σ.procs p with ofile := Function.update (σ.procs p).ofile i none }).drop p f []

/-- `sys_open`, as far as the table of files is concerned. -/
def System.sysOpen (σ : System n) (p : Fin n) (readable writable : Bool) : System n :=
  match filealloc σ.files with
  | none => σ
  | some (f, files) =>
    match fdalloc (σ.procs p).ofile f with
    | none => { σ.setAct p (.leaving none [f]) with files := files }
    | some (_, ofile) =>
      { σ.setProc p { σ.procs p with ofile := ofile } with
        files := Function.update files f
          { files f with type := .inode, readable := readable, writable := writable } }

/-- `pipealloc` up to the first file. -/
def System.sysPipe (σ : System n) (p : Fin n) : System n :=
  match filealloc σ.files with
  | none => σ
  | some (f0, files) => { σ.setAct p (.piping f0 none) with files := files }

/-- The second file. -/
def System.pipealloc (σ : System n) (p : Fin n) (f0 : Fin nfile) : System n :=
  match filealloc σ.files with
  | none => σ.setAct p (.leaving none [f0])
  | some (f1, files) => { σ.setAct p (.piping f0 (some f1)) with files := files }

/-- What `pipealloc` writes to its two files. -/
def pipeFiles (files : FileTable) (f0 f1 : Fin nfile) (a : Addr) : FileTable :=
  let files := Function.update files f0 { files f0 with type := .pipe, readable := true, writable := false, pipe := a }
  Function.update files f1 { files f1 with type := .pipe, readable := false, writable := true, pipe := a }

/-- The rest of `pipealloc` and of `sys_pipe`, where `kalloc` has returned a page with any contents, or none. -/
def System.pipeopen (σ : System n) (p : Fin n) (f0 f1 : Fin nfile) (page : Option (Addr × (Nat → UInt8))) : System n :=
  match page with
  | none => σ.setAct p (.leaving none [f0, f1])
  | some (a, data) =>
    let σ := { σ with
      files := pipeFiles σ.files f0 f1 a
      pipes := Function.update σ.pipes a (some (Pipe.init data)) }
    match fdalloc (σ.procs p).ofile f0 with
    | none => σ.setAct p (.leaving none [f0, f1])
    | some (_, ofile) =>
      match fdalloc ofile f1 with
      | none => σ.setAct p (.leaving none [f0, f1])
      | some (_, ofile) => σ.setProc p { σ.procs p with ofile := ofile, act := .user }

/-- `fileread`: where the process is next. -/
def fileread (files : FileTable) (f : Fin nfile) (n : Nat) : Except Fault Activity :=
  if (files f).readable = false then .ok .user
  else match (files f).type with
    | .pipe => .ok (.inPipe (files f).pipe (.read n) false)
    | .inode => .ok .user
    | .none => .error .fileread

/-- `filewrite`: where the process is next. -/
def filewrite (files : FileTable) (f : Fin nfile) (addr : List UInt8) : Except Fault Activity :=
  if (files f).writable = false then .ok .user
  else match (files f).type with
    | .pipe => .ok (.inPipe (files f).pipe (.write addr.length addr) false)
    | .inode => .ok .user
    | .none => .error .filewrite

/-- `sys_read` -/
def System.sysRead (σ : System n) (p : Fin n) (fd : Int) (len : Nat) : Except Fault (System n) :=
  match argfd (σ.procs p).ofile fd with
  | none => .ok σ
  | some (_, f) => do
    let act ← fileread σ.files f len
    .ok (σ.setAct p act)

/-- `sys_write` -/
def System.sysWrite (σ : System n) (p : Fin n) (fd : Int) (addr : List UInt8) : Except Fault (System n) :=
  match argfd (σ.procs p).ofile fd with
  | none => .ok σ
  | some (_, f) => do
    let act ← filewrite σ.files f addr
    .ok (σ.setAct p act)

/-! ## `proc.c` -/

/-- The loop of `fork` over the descriptors. Where the parent has none, the child keeps what its slot had. -/
def dupAll (parent : Descriptors) : List (Fin nofile) → FileTable × Descriptors → Except Fault (FileTable × Descriptors)
  | [], r => .ok r
  | fd :: fds, (files, child) =>
    match parent fd with
    | none => dupAll parent fds (files, child)
    | some f => do
      let files ← filedup files f
      dupAll parent fds (files, Function.update child fd (some f))

/-- What `fork` does to the files, for the child in slot `c`. -/
def System.fork (σ : System n) (p c : Fin n) : Except Fault (System n) := do
  let (files, ofile) ← dupAll (σ.procs p).ofile (List.finRange nofile) (σ.files, (σ.procs c).ofile)
  .ok { σ.setProc c { σ.procs c with live := true, ofile := ofile } with files := files }

/-- The end of `exit`, behind the loop that closes the files, up to the `wait` of the parent. -/
def System.exit (σ : System n) (p : Fin n) : System n :=
  σ.setProc p { σ.procs p with live := false, killed := false }

/-- A process that is woken up wherever it sleeps. -/
def Activity.interrupt : Activity → Activity
  | .inPipe a c _ => .inPipe a c false
  | act => act

/-- `kill` of the process in a slot. -/
def System.kill (σ : System n) (p : Fin n) : System n :=
  σ.setProc p { σ.procs p with killed := true, act := (σ.procs p).act.interrupt }

/-! ## Steps -/

/-- The steps of the processes. -/
inductive Event (n : Nat)
  | openFile (p : Fin n) (readable writable : Bool)
  | pipe (p : Fin n)
  | pipealloc (p : Fin n)
  | pipeopen (p : Fin n) (page : Option (Addr × (Nat → UInt8)))
  | dup (p : Fin n) (fd : Int)
  | close (p : Fin n) (fd : Int)
  | fileclose (p : Fin n)
  | pipeclose (p : Fin n)
  | read (p : Fin n) (fd : Int) (len : Nat)
  | write (p : Fin n) (fd : Int) (addr : List UInt8)
  | turn (p : Fin n)
  | fork (p c : Fin n)
  | exit (p : Fin n)
  | kill (p : Fin n)

/-- The process is running in user mode and can make a system call. -/
def System.Calls (σ : System n) (p : Fin n) : Prop := (σ.procs p).live = true ∧ (σ.procs p).act = .user

/-- The steps and what comes of them; a call is made in user mode. -/
inductive Step : System n → Event n → Except Fault (System n) → Prop
  | openFile {σ p r w} : σ.Calls p → Step σ (.openFile p r w) (.ok (σ.sysOpen p r w))
  | pipe {σ p} : σ.Calls p → Step σ (.pipe p) (.ok (σ.sysPipe p))
  | pipealloc {σ p f0} : (σ.procs p).act = .piping f0 none → Step σ (.pipealloc p) (.ok (σ.pipealloc p f0))
  | pipeopen {σ p f0 f1 page} : (σ.procs p).act = .piping f0 (some f1) → (∀ x ∈ page, σ.pipes x.1 = none) →
      Step σ (.pipeopen p page) (.ok (σ.pipeopen p f0 f1 page))
  | dup {σ p fd} : σ.Calls p → Step σ (.dup p fd) (σ.sysDup p fd)
  | close {σ p fd} : σ.Calls p → Step σ (.close p fd) (σ.sysClose p fd)
  | fileclose {σ p f rest} : (σ.procs p).act = .leaving none (f :: rest) → Step σ (.fileclose p) (σ.drop p f rest)
  | pipeclose {σ p a w rest} : (σ.procs p).act = .leaving (some (a, w)) rest →
      Step σ (.pipeclose p) ((σ.setAct p (.leaving none rest)).pipeclose a w)
  | read {σ p fd len} : σ.Calls p → Step σ (.read p fd len) (σ.sysRead p fd len)
  | write {σ p fd addr} : σ.Calls p → Step σ (.write p fd addr) (σ.sysWrite p fd addr)
  | turn {σ p a c} : (σ.procs p).act = .inPipe a c false → Step σ (.turn p) (σ.turn p a c)
  | fork {σ p c} : σ.Calls p → (σ.procs c).live = false → Step σ (.fork p c) (σ.fork p c)
  | exit {σ p} : σ.Calls p → (∀ fd, (σ.procs p).ofile fd = none) → Step σ (.exit p) (.ok (σ.exit p))
  | kill {σ p} : (σ.procs p).live = true → Step σ (.kill p) (.ok (σ.kill p))

/-- The steps that do not stop the machine. -/
def Next (σ : System n) (e : Event n) (σ' : System n) : Prop := Step σ e (.ok σ')

/-! ## Running the steps -/

instance (σ : System n) (p : Fin n) : Decidable (σ.Calls p) := inferInstanceAs (Decidable (_ ∧ _))

/-- What the event does, if the process can take this step. -/
def System.exec (σ : System n) : Event n → Option (Except Fault (System n))
  | .openFile p r w => if σ.Calls p then some (.ok (σ.sysOpen p r w)) else none
  | .pipe p => if σ.Calls p then some (.ok (σ.sysPipe p)) else none
  | .pipealloc p =>
    match (σ.procs p).act with
    | .piping f0 none => some (.ok (σ.pipealloc p f0))
    | _ => none
  | .pipeopen p page =>
    match (σ.procs p).act with
    | .piping f0 (some f1) =>
      if ∀ x ∈ page, σ.pipes x.1 = none then some (.ok (σ.pipeopen p f0 f1 page)) else none
    | _ => none
  | .dup p fd => if σ.Calls p then some (σ.sysDup p fd) else none
  | .close p fd => if σ.Calls p then some (σ.sysClose p fd) else none
  | .fileclose p =>
    match (σ.procs p).act with
    | .leaving none (f :: rest) => some (σ.drop p f rest)
    | _ => none
  | .pipeclose p =>
    match (σ.procs p).act with
    | .leaving (some (a, w)) rest => some ((σ.setAct p (.leaving none rest)).pipeclose a w)
    | _ => none
  | .read p fd len => if σ.Calls p then some (σ.sysRead p fd len) else none
  | .write p fd addr => if σ.Calls p then some (σ.sysWrite p fd addr) else none
  | .turn p =>
    match (σ.procs p).act with
    | .inPipe a c false => some (σ.turn p a c)
    | _ => none
  | .fork p c => if σ.Calls p ∧ (σ.procs c).live = false then some (σ.fork p c) else none
  | .exit p => if σ.Calls p ∧ ∀ fd, (σ.procs p).ofile fd = none then some (.ok (σ.exit p)) else none
  | .kill p => if (σ.procs p).live = true then some (.ok (σ.kill p)) else none

theorem exec_iff {σ : System n} {e : Event n} {r : Except Fault (System n)} : σ.exec e = some r ↔ Step σ e r := by
  constructor
  · intro h
    cases e with
    | fork p c =>
      obtain ⟨hp, heq⟩ := Option.ite_none_right_eq_some.1 h
      cases heq
      exact .fork hp.1 hp.2
    | exit p =>
      obtain ⟨hp, heq⟩ := Option.ite_none_right_eq_some.1 h
      cases heq
      exact .exit hp.1 hp.2
    | pipeopen p page =>
      simp only [System.exec] at h
      split at h
      · obtain ⟨hpage, heq⟩ := Option.ite_none_right_eq_some.1 h
        cases heq
        exact .pipeopen ‹_› hpage
      · cases h
    | _ =>
      simp only [System.exec] at h
      split at h
      · cases h
        constructor
        assumption
      · cases h
  · intro hs
    cases hs <;> simp_all [System.exec]

end CS1550.Pipes
