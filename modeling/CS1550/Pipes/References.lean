/-
The reference counts of `lab4/xv6-public/file.c`. Every counter of the file table is the number of references that the
processes have to the file, in their descriptors and in the calls they are in; and an end of a pipe is open exactly as
long as there is a file for it, or a process on its way to `pipeclose` (`Inv`). One process moves at a time
(`Inv.update`).
-/
import CS1550.Lib.RefCount
import CS1550.Pipes.Files

namespace CS1550.Pipes

open RefCount

variable {n : Nat}

/-! ## Who refers to what -/

/-- The files that a process refers to besides its descriptors. -/
def Activity.held : Activity → List (Fin nfile)
  | .leaving _ files => files
  | .piping f0 f1 => f0 :: f1.toList
  | .inPipe _ _ _ => []

/-- The files that have been allocated and have no type yet. -/
def Activity.fresh : Activity → List (Fin nfile)
  | .piping f0 f1 => f0 :: f1.toList
  | _ => []

/-- The end of a pipe that is going to be closed. -/
def Activity.pending : Activity → Option (Addr × Bool)
  | .leaving pending _ => pending
  | _ => none

/-- The end of a pipe that a call works on. -/
def Activity.uses : Activity → Option (Addr × Bool)
  | .inPipe a c _ => some (a, c.writes)
  | _ => none

/-- Whether a descriptor is one for `f`. -/
def hit (f : Fin nfile) (o : Option (Fin nfile)) : ℕ := if o = some f then 1 else 0

/-- The number of descriptors for `f`. -/
def fds (ofile : Descriptors) (f : Fin nfile) : ℕ := ∑ fd, hit f (ofile fd)

/-- The references to `f` that a process has. -/
def Proc.own (P : Proc) (f : Fin nfile) : ℕ := fds P.ofile f + P.act.held.count f

theorem fds_update (ofile : Descriptors) (i : Fin nofile) (o : Option (Fin nfile)) (f : Fin nfile) :
    fds (Function.update ofile i o) f + hit f (ofile i) = fds ofile f + hit f o := by
  have hsum := sum_update (hit f ∘ ofile) i (hit f o)
  rw [← Function.comp_update] at hsum
  exact hsum

theorem fds_pos {ofile : Descriptors} {i : Fin nofile} {f : Fin nfile} (h : ofile i = some f) : 0 < fds ofile f := by
  have hle := Finset.single_le_sum (f := fun fd => hit f (ofile fd)) (fun _ _ => Nat.zero_le _) (Finset.mem_univ i)
  rw [h, hit, if_pos rfl] at hle
  exact hle

theorem fds_eq_zero {ofile : Descriptors} {f : Fin nfile} (h : ∀ i, ofile i ≠ some f) : fds ofile f = 0 :=
  Finset.sum_eq_zero fun i _ => if_neg (h i)

theorem fds_eq_sum (ofile : Descriptors) (f : Fin nfile) :
    fds ofile f = ((List.finRange nofile).map fun fd => hit f (ofile fd)).sum := Fin.sum_univ_def _

attribute [irreducible] fds

theorem own_pos_of_fd {P : Proc} {i : Fin nofile} {f : Fin nfile} (h : P.ofile i = some f) : 0 < P.own f :=
  Nat.add_pos_left (fds_pos h) _

theorem own_pos_of_held {P : Proc} {f : Fin nfile} (h : f ∈ P.act.held) : 0 < P.own f :=
  Nat.add_pos_right _ (List.count_pos_iff.2 h)

theorem fresh_subset_held (act : Activity) : act.fresh ⊆ act.held := by
  cases act with
  | piping f0 f1 => exact fun _ h => h
  | leaving pending files => exact List.nil_subset _
  | inPipe a c asleep => exact List.nil_subset _

/-- The end of a pipe that a file stands for. -/
def File.holds (F : File) (x : Addr × Bool) : ℕ := if F.type = .pipe ∧ (F.pipe, F.writable) = x then 1 else 0

/-- Whether a process is going to close that end. -/
def Proc.closes (P : Proc) (x : Addr × Bool) : ℕ := if P.act.pending = some x then 1 else 0

/-- Whether an end is open. -/
def Pipe.isOpen (q : Pipe) (writable : Bool) : Bool := if writable then q.writeopen else q.readopen

/-- Whether an end of an allocated pipe is open, as a count. -/
def openCount (pipes : Addr → Option Pipe) (x : Addr × Bool) : ℤ :=
  if (pipes x.1).any (·.isOpen x.2) = true then 1 else 0

/-! ## The invariant -/

/-- Whatever refers to the one file may refer to the other. -/
def SameFile (F F' : File) : Prop :=
  F'.type = F.type ∧ F'.readable = F.readable ∧ F'.writable = F.writable ∧ F'.pipe = F.pipe

/-- The counts are those of the references, and no file or pipe that is in use is free. -/
structure Inv (σ : System n) : Prop where
  refs : Counts (fun f => (σ.files f).ref) (Proc.own ∘ σ.procs)
  ends : Counts (openCount σ.pipes) (Sum.elim (File.holds ∘ σ.files) (Proc.closes ∘ σ.procs))
  closed : ∀ f, (σ.files f).ref = 0 → (σ.files f).type = .none
  opened : ∀ p fd f, (σ.procs p).ofile fd = some f → (σ.files f).type ≠ .none
  fresh : ∀ p, ∀ f ∈ (σ.procs p).act.fresh, (σ.files f).type = .none ∧ (σ.files f).ref = 1
  sides : ∀ f, (σ.files f).type = .pipe → (σ.files f).readable = !(σ.files f).writable
  alloc : ∀ a q, σ.pipes a = some q → q.readopen = true ∨ q.writeopen = true
  calls : ∀ p x, (σ.procs p).act.uses = some x → ∃ fd f, (σ.procs p).ofile fd = some f ∧
    (σ.files f).type = .pipe ∧ ((σ.files f).pipe, (σ.files f).writable) = x
  unused : ∀ p, (σ.procs p).live = false → (∀ fd, (σ.procs p).ofile fd = none) ∧ (σ.procs p).act = .user

theorem inv_boot (n : Nat) : Inv (System.boot n) where
  refs := by
    refine counts_zero (fun _ => rfl) fun p f => ?_
    show fds (fun _ => none) f + 0 = 0
    rw [fds_eq_zero fun _ => (Option.some_ne_none f).symm]
  ends := by
    refine counts_zero (fun _ => rfl) fun i x => ?_
    rcases i with f | p
    · simp [File.holds, System.boot]
    · simp [Proc.closes, System.boot, Activity.pending]
  closed _ _ := rfl
  opened p fd f h := by cases h
  fresh p f hf := absurd hf List.not_mem_nil
  sides f h := by cases h
  alloc a q h := by cases h
  calls p x h := by cases h
  unused p _ := ⟨fun _ => rfl, rfl⟩

variable {σ : System n} {p : Fin n} {f : Fin nfile}

/-- A file that another process refers to, too. -/
theorem Inv.shared (h : Inv σ) {q : Fin n} (hq : q ≠ p) (hown : 0 < (σ.procs q).own f) :
    ((σ.procs p).own f : ℤ) + 1 ≤ (σ.files f).ref := by
  have hle := h.refs.le_two hq f
  simp only [Function.comp_apply] at hle
  omega

/-- One process moves. What the others refer to is as it was, as long as they refer to it. -/
theorem Inv.update (h : Inv σ) {files : FileTable} {pipes : Addr → Option Pipe} {P : Proc}
    (hrefs : ∀ f, (files f).ref + (σ.procs p).own f = (σ.files f).ref + P.own f)
    (hends : Counts (openCount pipes) (Sum.elim (File.holds ∘ files) (Proc.closes ∘ Function.update σ.procs p P)))
    (hothers : ∀ f, ((σ.procs p).own f : ℤ) + 1 ≤ (σ.files f).ref → SameFile (σ.files f) (files f) ∧
      ((σ.files f).type = .none → (σ.files f).ref = 1 → (files f).ref = 1))
    (hclosed : ∀ f, (files f).ref = 0 → (files f).type = .none)
    (hopened : ∀ fd f, P.ofile fd = some f → (files f).type ≠ .none)
    (hfresh : ∀ f ∈ P.act.fresh, (files f).type = .none ∧ (files f).ref = 1)
    (hsides : ∀ f, (files f).type = .pipe → (files f).readable = !(files f).writable)
    (halloc : ∀ a q, pipes a = some q → q.readopen = true ∨ q.writeopen = true)
    (hcalls : ∀ x, P.act.uses = some x → ∃ fd f, P.ofile fd = some f ∧
      (files f).type = .pipe ∧ ((files f).pipe, (files f).writable) = x)
    (hunused : P.live = false → (∀ fd, P.ofile fd = none) ∧ P.act = .user) :
    Inv { files := files, pipes := pipes, procs := Function.update σ.procs p P : System n } := by
  refine ⟨?_, hends, hclosed, ?_, ?_, hsides, halloc, ?_, ?_⟩
  · dsimp only
    rw [Function.comp_update]
    exact h.refs.update _ p P.own hrefs
  · intro q fd f hfd
    dsimp only at hfd ⊢
    by_cases hq : q = p
    · subst hq
      rw [Function.update_self] at hfd
      exact hopened fd f hfd
    · rw [Function.update_of_ne hq] at hfd
      rw [(hothers f (h.shared hq (own_pos_of_fd hfd))).1.1]
      exact h.opened q fd f hfd
  · intro q f hf
    dsimp only at hf ⊢
    by_cases hq : q = p
    · subst hq
      rw [Function.update_self] at hf
      exact hfresh f hf
    · rw [Function.update_of_ne hq] at hf
      obtain ⟨hsame, hone⟩ := hothers f (h.shared hq (own_pos_of_held (fresh_subset_held _ hf)))
      obtain ⟨htype, href⟩ := h.fresh q f hf
      exact ⟨hsame.1.trans htype, hone htype href⟩
  · intro q x hx
    dsimp only at hx ⊢
    by_cases hq : q = p
    · subst hq
      rw [Function.update_self] at hx ⊢
      exact hcalls x hx
    · rw [Function.update_of_ne hq] at hx ⊢
      obtain ⟨fd, f, hfd, htype, hend⟩ := h.calls q x hx
      obtain ⟨⟨hsame, -, hwritable, hpipe⟩, -⟩ := hothers f (h.shared hq (own_pos_of_fd hfd))
      exact ⟨fd, f, hfd, hsame.trans htype, by rw [hpipe, hwritable]; exact hend⟩
  · intro q hq
    dsimp only at hq ⊢
    by_cases hqp : q = p
    · subst hqp
      rw [Function.update_self] at hq ⊢
      exact hunused hq
    · rw [Function.update_of_ne hqp] at hq ⊢
      exact h.unused q hq

/-- No end of a pipe is opened or closed. -/
theorem Inv.ends_same (h : Inv σ) {files : FileTable} {pipes : Addr → Option Pipe} {P : Proc}
    (hfiles : ∀ f, (files f).holds = (σ.files f).holds) (hP : P.closes = (σ.procs p).closes)
    (hpipes : openCount pipes = openCount σ.pipes) :
    Counts (openCount pipes) (Sum.elim (File.holds ∘ files) (Proc.closes ∘ Function.update σ.procs p P)) := by
  have hholds : File.holds ∘ files = File.holds ∘ σ.files := funext hfiles
  have hcloses : Proc.closes ∘ Function.update σ.procs p P = Proc.closes ∘ σ.procs := by
    rw [Function.comp_update, hP]
    exact Function.update_eq_self p _
  rw [hholds, hcloses, hpipes]
  exact h.ends

/-- A file and a process change. -/
theorem ends_update (σ : System n) (f : Fin nfile) (F : File) (p : Fin n) (P : Proc) :
    Sum.elim (File.holds ∘ Function.update σ.files f F) (Proc.closes ∘ Function.update σ.procs p P) =
      Function.update (Function.update (Sum.elim (File.holds ∘ σ.files) (Proc.closes ∘ σ.procs)) (.inl f) F.holds)
        (.inr p) P.closes := by
  rw [Function.comp_update, Function.comp_update, Sum.update_elim_inl, Sum.update_elim_inr]

theorem holds_of_type {F : File} (h : F.type ≠ .pipe) (x : Addr × Bool) : F.holds x = 0 := if_neg fun hx => h hx.1

theorem holds_update {files : FileTable} {F : File} (hF : F.holds = (files f).holds) (g : Fin nfile) :
    (Function.update files f F g).holds = (files g).holds := by
  by_cases hg : g = f
  · subst hg
    rw [Function.update_self, hF]
  · rw [Function.update_of_ne hg]

theorem Inv.live (h : Inv σ) (hact : (σ.procs p).act ≠ .user) : (σ.procs p).live = true := by
  by_contra hlive
  exact hact (h.unused p (by simpa using hlive)).2

/-! ## Files -/

theorem filealloc_eq {files files' : FileTable} (h : filealloc files = some (f, files')) :
    (files f).ref = 0 ∧ files' = Function.update files f { files f with ref := 1 } := by
  obtain ⟨g, hg, heq⟩ := Option.map_eq_some_iff.1 h
  cases heq
  exact ⟨by simpa using List.find?_some hg, rfl⟩

theorem fdalloc_eq {ofile ofile' : Descriptors} {i : Fin nofile} (h : fdalloc ofile f = some (i, ofile')) :
    ofile i = none ∧ ofile' = Function.update ofile i (some f) := by
  obtain ⟨j, hj, heq⟩ := Option.map_eq_some_iff.1 h
  cases heq
  exact ⟨by simpa using List.find?_some hj, rfl⟩

theorem argfd_eq {ofile : Descriptors} {fd : Int} {i : Fin nofile} (h : argfd ofile fd = some (i, f)) :
    ofile i = some f := by
  unfold argfd at h
  split at h
  · obtain ⟨g, hg, heq⟩ := Option.map_eq_some_iff.1 h
    cases heq
    exact hg
  · cases h

/-- The file that a new descriptor is for. -/
theorem fds_install {ofile : Descriptors} {i : Fin nofile} (h : ofile i = none) (f g : Fin nfile) :
    fds (Function.update ofile i (some f)) g = fds ofile g + if g = f then 1 else 0 := by
  have hupdate := fds_update ofile i (some f) g
  rw [h] at hupdate
  simp only [hit, Option.some.injEq, reduceCtorEq, if_false, Nat.add_zero, eq_comm (a := f)] at hupdate
  exact hupdate

theorem own_install {P : Proc} {i : Fin nofile} (h : P.ofile i = none) (f g : Fin nfile) :
    ({ P with ofile := Function.update P.ofile i (some f) } : Proc).own g = P.own g + if g = f then 1 else 0 := by
  unfold Proc.own
  dsimp only
  rw [fds_install h]
  omega

theorem mem_install {ofile : Descriptors} {i fd : Fin nofile} {g : Fin nfile}
    (h : Function.update ofile i (some f) fd = some g) : g = f ∨ ∃ fd, ofile fd = some g := by
  by_cases hi : fd = i
  · subst hi
    rw [Function.update_self] at h
    exact .inl (Option.some.inj h).symm
  · rw [Function.update_of_ne hi] at h
    exact .inr ⟨fd, h⟩

/-- One process moves, and one entry of the file table changes. -/
theorem Inv.update_file (h : Inv σ) {F : File} {P : Proc} (f : Fin nfile)
    (hown : ∀ g ≠ f, P.own g = (σ.procs p).own g) (href : F.ref + (σ.procs p).own f = (σ.files f).ref + P.own f)
    (hends : Counts (openCount σ.pipes)
      (Sum.elim (File.holds ∘ Function.update σ.files f F) (Proc.closes ∘ Function.update σ.procs p P)))
    (hshared : ((σ.procs p).own f : ℤ) + 1 ≤ (σ.files f).ref → SameFile (σ.files f) F ∧
      ((σ.files f).type = .none → (σ.files f).ref = 1 → F.ref = 1))
    (hclosed : F.ref = 0 → F.type = .none) (hsides : F.type = .pipe → F.readable = !F.writable)
    (hopened : ∀ fd g, P.ofile fd = some g → if g = f then F.type ≠ .none else ∃ fd, (σ.procs p).ofile fd = some g)
    (hfresh : ∀ g ∈ P.act.fresh, if g = f then F.type = .none ∧ F.ref = 1 else g ∈ (σ.procs p).act.fresh)
    (huses : P.act.uses = none) (hlive : P.live = true) :
    Inv { files := Function.update σ.files f F, pipes := σ.pipes, procs := Function.update σ.procs p P : System n } := by
  refine h.update ?_ hends ?_ ?_ ?_ ?_ ?_ h.alloc ?_ ?_
  · intro g
    by_cases hg : g = f
    · subst hg
      rw [Function.update_self]
      exact href
    · rw [Function.update_of_ne hg, hown g hg]
  · intro g hg
    by_cases hgf : g = f
    · subst hgf
      rw [Function.update_self]
      exact hshared hg
    · rw [Function.update_of_ne hgf]
      exact ⟨⟨rfl, rfl, rfl, rfl⟩, fun _ href => href⟩
  · intro g hg
    by_cases hgf : g = f
    · subst hgf
      rw [Function.update_self] at hg ⊢
      exact hclosed hg
    · rw [Function.update_of_ne hgf] at hg ⊢
      exact h.closed g hg
  · intro fd g hfd
    have hg := hopened fd g hfd
    by_cases hgf : g = f
    · subst hgf
      rw [if_pos rfl] at hg
      rw [Function.update_self]
      exact hg
    · rw [if_neg hgf] at hg
      obtain ⟨fd', hfd'⟩ := hg
      rw [Function.update_of_ne hgf]
      exact h.opened p fd' g hfd'
  · intro g hg
    have hg := hfresh g hg
    by_cases hgf : g = f
    · subst hgf
      rw [if_pos rfl] at hg
      rw [Function.update_self]
      exact hg
    · rw [if_neg hgf] at hg
      rw [Function.update_of_ne hgf]
      exact h.fresh p g hg
  · intro g hg
    by_cases hgf : g = f
    · subst hgf
      rw [Function.update_self] at hg ⊢
      exact hsides hg
    · rw [Function.update_of_ne hgf] at hg ⊢
      exact h.sides g hg
  · intro x hx
    rw [huses] at hx
    cases hx
  · intro hnot
    rw [hlive] at hnot
    cases hnot

/-- A file is allocated, and the process holds it. -/
theorem Inv.filealloc (h : Inv σ) {files : FileTable} {act : Activity} (hf : filealloc σ.files = some (f, files))
    (hlive : (σ.procs p).live = true) (hheld : act.held.Perm (f :: (σ.procs p).act.held))
    (hfresh : ∀ g ∈ act.fresh, g = f ∨ g ∈ (σ.procs p).act.fresh) (hpending : act.pending = (σ.procs p).act.pending)
    (huses : act.uses = none) : Inv { σ.setAct p act with files := files } := by
  obtain ⟨hzero, rfl⟩ := filealloc_eq hf
  have htype := h.closed f hzero
  have hcount : ∀ g, ({ σ.procs p with act := act } : Proc).own g = (σ.procs p).own g + if g = f then 1 else 0 := by
    intro g
    unfold Proc.own
    dsimp only
    rw [hheld.count_eq g, List.count_cons, ← Nat.add_assoc]
    simp only [beq_iff_eq, eq_comm (a := f)]
  refine h.update_file f ?_ ?_ (h.ends_same (holds_update rfl) ?_ rfl) ?_ ?_ ?_ ?_ ?_ huses hlive
  · intro g hg
    rw [hcount, if_neg hg, Nat.add_zero]
  · rw [hcount, if_pos rfl]
    dsimp only
    omega
  · unfold Proc.closes
    rw [hpending]
  · intro hshared
    omega
  · intro hone
    cases hone
  · intro hpipe
    rw [htype] at hpipe
    cases hpipe
  · intro fd g hfd
    split
    · rename_i hg
      subst hg
      exact h.opened p fd g hfd
    · exact ⟨fd, hfd⟩
  · intro g hg
    split
    · exact ⟨htype, rfl⟩
    · rename_i hne
      exact (hfresh g hg).resolve_left hne

theorem Inv.sysOpen (h : Inv σ) (hp : σ.Calls p) (readable writable : Bool) : Inv (σ.sysOpen p readable writable) := by
  obtain ⟨hlive, hact⟩ := hp
  unfold System.sysOpen
  split
  · exact h
  · rename_i f files hf
    obtain ⟨hzero, hfiles⟩ := filealloc_eq hf
    have htype := h.closed f hzero
    split
    · refine h.filealloc hf hlive ?_ ?_ ?_ rfl
      · rw [hact]
        exact .refl _
      · intro g hg
        cases hg
      · rw [hact]
        rfl
    · rename_i i ofile hfd
      obtain ⟨hnone, rfl⟩ := fdalloc_eq hfd
      subst hfiles
      have hcount := own_install hnone f
      rw [Function.update_self, Function.update_idem]
      refine h.update_file f ?_ ?_ (h.ends_same (holds_update ?_) rfl rfl) ?_ ?_ ?_ ?_ ?_ ?_ hlive
      · intro g hg
        rw [hcount, if_neg hg, Nat.add_zero]
      · rw [hcount, if_pos rfl]
        dsimp only
        omega
      · funext x
        rw [holds_of_type (by simp), holds_of_type (by simp [htype])]
      · intro hshared
        omega
      · intro hone
        cases hone
      · intro hpipe
        cases hpipe
      · intro fd g hfd
        split
        · simp
        · rename_i hne
          exact (mem_install hfd).resolve_left hne
      · intro g hg
        dsimp only at hg
        rw [hact] at hg
        cases hg
      · dsimp only
        rw [hact]
        rfl

theorem Inv.sysPipe (h : Inv σ) (hp : σ.Calls p) : Inv (σ.sysPipe p) := by
  obtain ⟨hlive, hact⟩ := hp
  unfold System.sysPipe
  split
  · exact h
  · rename_i f0 files hf
    refine h.filealloc hf hlive ?_ ?_ ?_ rfl
    · rw [hact]
      exact .refl _
    · intro g hg
      exact .inl (List.mem_singleton.1 hg)
    · rw [hact]
      rfl

/-- The process gives up what it was about to do, and what it holds is to be closed. -/
theorem Inv.giveUp (h : Inv σ) {act : Activity} (hlive : (σ.procs p).live = true)
    (hheld : act.held = (σ.procs p).act.held) (hfresh : act.fresh ⊆ (σ.procs p).act.fresh)
    (hpending : act.pending = (σ.procs p).act.pending) (huses : act.uses = none ∨ act.uses = (σ.procs p).act.uses) :
    Inv (σ.setAct p act) := by
  refine h.update ?_ (h.ends_same (fun _ => rfl) ?_ rfl) ?_ h.closed (h.opened p) ?_ h.sides h.alloc ?_ ?_
  · intro g
    unfold Proc.own
    dsimp only
    rw [hheld]
  · unfold Proc.closes
    rw [hpending]
  · intro g _
    exact ⟨⟨rfl, rfl, rfl, rfl⟩, fun _ href => href⟩
  · intro g hg
    exact h.fresh p g (hfresh hg)
  · intro x hx
    dsimp only at hx ⊢
    rcases huses with huses | huses
    · rw [huses] at hx
      cases hx
    · rw [huses] at hx
      exact h.calls p x hx
  · intro hnot
    dsimp only at hnot
    rw [hlive] at hnot
    cases hnot

theorem Inv.pipealloc (h : Inv σ) {f0 : Fin nfile} (hact : (σ.procs p).act = .piping f0 none) :
    Inv (σ.pipealloc p f0) := by
  have hlive := h.live (p := p) (by rw [hact]; simp)
  unfold System.pipealloc
  split
  · refine h.giveUp hlive ?_ (List.nil_subset _) ?_ (.inl rfl)
    · rw [hact]
      rfl
    · rw [hact]
      rfl
  · rename_i f1 files hf
    refine h.filealloc hf hlive ?_ ?_ ?_ rfl
    · rw [hact]
      exact List.Perm.swap _ _ _
    · intro g hg
      rw [hact]
      rcases List.mem_cons.1 hg with rfl | hg
      · exact .inr List.mem_cons_self
      · exact .inl (List.mem_singleton.1 hg)
    · rw [hact]
      rfl

theorem Inv.sysDup (h : Inv σ) (hp : σ.Calls p) (fd : Int) : ∃ σ', σ.sysDup p fd = .ok σ' ∧ Inv σ' := by
  obtain ⟨hlive, hact⟩ := hp
  unfold System.sysDup
  split
  · exact ⟨σ, rfl, h⟩
  · rename_i j f harg
    have hold := argfd_eq harg
    have hpos := own_pos_of_fd hold
    have hle : ((σ.procs p).own f : ℤ) ≤ (σ.files f).ref := h.refs.le p f
    split
    · exact ⟨σ, rfl, h⟩
    · rename_i i ofile hfd
      obtain ⟨hnone, rfl⟩ := fdalloc_eq hfd
      have hcount := own_install hnone f
      unfold filedup
      rw [if_neg (by omega)]
      refine ⟨_, rfl, ?_⟩
      refine h.update_file f ?_ ?_ (h.ends_same (holds_update rfl) rfl rfl) ?_ ?_ ?_ ?_ ?_ ?_ hlive
      · intro g hg
        rw [hcount, if_neg hg, Nat.add_zero]
      · rw [hcount, if_pos rfl]
        dsimp only
        omega
      · intro hshared
        exact ⟨⟨rfl, rfl, rfl, rfl⟩, fun _ href => by omega⟩
      · intro hzero
        dsimp only at hzero
        omega
      · exact h.sides f
      · intro fd g hg
        split
        · exact h.opened p j f hold
        · rename_i hne
          exact (mem_install hg).resolve_left hne
      · intro g hg
        dsimp only at hg
        rw [hact] at hg
        cases hg
      · dsimp only
        rw [hact]
        rfl

/-! ## Closing -/

/-- `fileclose` of a file that the process has a reference to. -/
theorem Inv.fileclose (h : Inv σ) (ofile : Descriptors) (rest : List (Fin nfile)) (hlive : (σ.procs p).live = true)
    (hpending : (σ.procs p).act.pending = none)
    (hown : ∀ g, fds ofile g + rest.count g + (if g = f then 1 else 0) = (σ.procs p).own g)
    (hofile : ∀ fd g, ofile fd = some g → ∃ fd, (σ.procs p).ofile fd = some g) :
    ∃ files pending, fileclose σ.files f = .ok (files, pending) ∧ Inv (⟨files, σ.pipes,
      Function.update σ.procs p { σ.procs p with ofile := ofile, act := .leaving pending rest }⟩ : System n) := by
  have hle : ((σ.procs p).own f : ℤ) ≤ (σ.files f).ref := h.refs.le p f
  have hf := hown f
  rw [if_pos rfl] at hf
  unfold Pipes.fileclose
  rw [if_neg (by omega)]
  split
  · refine ⟨_, _, rfl, h.update_file f ?_ ?_ (h.ends_same (holds_update rfl) ?_ rfl) ?_ ?_ (h.sides f) ?_ ?_ rfl hlive⟩
    · intro g hg
      have hg' := hown g
      rw [if_neg hg] at hg'
      exact hg'
    · show (σ.files f).ref - 1 + (σ.procs p).own f = (σ.files f).ref + (fds ofile f + rest.count f : ℕ)
      omega
    · unfold Proc.closes
      rw [hpending]
      rfl
    · intro _
      exact ⟨⟨rfl, rfl, rfl, rfl⟩, fun _ href => by omega⟩
    · intro hzero
      dsimp only at hzero
      omega
    · intro fd g hfd
      obtain ⟨fd', hfd'⟩ := hofile fd g hfd
      split
      · rename_i hg
        subst hg
        exact h.opened p fd' g hfd'
      · exact ⟨fd', hfd'⟩
    · intro g hg
      cases hg
  · have hlast : fds ofile f + rest.count f = 0 := by omega
    refine ⟨_, _, rfl, h.update_file f ?_ ?_ ?_ ?_ (fun _ => rfl) ?_ ?_ ?_ rfl hlive⟩
    · intro g hg
      have hg' := hown g
      rw [if_neg hg] at hg'
      exact hg'
    · show (0 : ℤ) + (σ.procs p).own f = (σ.files f).ref + (fds ofile f + rest.count f : ℕ)
      omega
    · rw [ends_update]
      refine h.ends.transfer Sum.inr_ne_inl _ _ fun x => ?_
      have hnone : (σ.procs p).closes x = 0 := by simp [Proc.closes, hpending]
      rw [holds_of_type (by simp), Sum.elim_inl, Sum.elim_inr, Function.comp_apply, Function.comp_apply, hnone]
      by_cases htype : (σ.files f).type = .pipe <;> simp [Proc.closes, Activity.pending, File.holds, htype]
    · intro hshared
      omega
    · intro hpipe
      cases hpipe
    · intro fd g hfd
      split
      · rename_i hg
        subst hg
        have hpos : 0 < fds ofile g := fds_pos hfd
        omega
      · exact hofile fd g hfd
    · intro g hg
      cases hg

theorem Inv.drop (h : Inv σ) {rest : List (Fin nfile)} (hact : (σ.procs p).act = .leaving none (f :: rest)) :
    ∃ σ', σ.drop p f rest = .ok σ' ∧ Inv σ' := by
  obtain ⟨files, pending, hclose, hinv⟩ := h.fileclose (p := p) (f := f) (σ.procs p).ofile rest
    (h.live (by rw [hact]; simp)) (by rw [hact]; rfl)
    (fun g => by
      unfold Proc.own
      rw [hact, Activity.held, List.count_cons]
      simp only [beq_iff_eq, eq_comm (a := f)]
      omega)
    (fun fd g hfd => ⟨fd, hfd⟩)
  unfold System.drop
  rw [hclose]
  exact ⟨_, rfl, hinv⟩

theorem Inv.sysClose (h : Inv σ) (hp : σ.Calls p) (fd : Int) : ∃ σ', σ.sysClose p fd = .ok σ' ∧ Inv σ' := by
  obtain ⟨hlive, hact⟩ := hp
  unfold System.sysClose
  split
  · exact ⟨σ, rfl, h⟩
  · rename_i i f harg
    have hold := argfd_eq harg
    obtain ⟨files, pending, hclose, hinv⟩ := h.fileclose (p := p) (f := f)
      (Function.update (σ.procs p).ofile i none) [] hlive (by rw [hact]; rfl)
      (fun g => by
        have hupdate := fds_update (σ.procs p).ofile i none g
        rw [hold] at hupdate
        simp only [hit, reduceCtorEq, if_false, Option.some.injEq, eq_comm (a := f)] at hupdate
        unfold Proc.own
        rw [hact, Activity.held, List.count_nil]
        omega)
      (fun fd g hfd => by
        by_cases hi : fd = i
        · subst hi
          rw [Function.update_self] at hfd
          cases hfd
        · rw [Function.update_of_ne hi] at hfd
          exact ⟨fd, hfd⟩)
    unfold System.drop
    rw [show (σ.setProc p _).files = σ.files from rfl, hclose]
    refine ⟨_, rfl, ?_⟩
    unfold System.setAct System.setProc
    dsimp only
    rw [Function.update_idem, Function.update_self]
    exact hinv

end CS1550.Pipes
