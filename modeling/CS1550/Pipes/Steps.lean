/-
The steps of `lab4/xv6-public` on files and pipes keep the references right (`Step.inv`): none of them stops the machine
with a panic of `file.c`, and none finds its pipe freed.
-/
import CS1550.Pipes.References

namespace CS1550.Pipes

open RefCount

variable {n : Nat} {σ : System n} {p : Fin n} {f : Fin nfile} {a : Addr} {w : Bool}

/-! ## Waking up -/

/-- All that the references depend on. -/
structure SameView (P P' : Proc) : Prop where
  live : P'.live = P.live
  ofile : P'.ofile = P.ofile
  held : P'.act.held = P.act.held
  fresh : P'.act.fresh = P.act.fresh
  pending : P'.act.pending = P.act.pending
  uses : P'.act.uses = P.act.uses
  user : P.act = .user → P'.act = .user

theorem Inv.view (h : Inv σ) {procs : Fin n → Proc} (hview : ∀ p, SameView (σ.procs p) (procs p)) :
    Inv { σ with procs := procs } := by
  have hown : Proc.own ∘ procs = Proc.own ∘ σ.procs := by
    funext p f
    simp only [Function.comp_apply, Proc.own, (hview p).ofile, (hview p).held]
  have hcloses : Proc.closes ∘ procs = Proc.closes ∘ σ.procs := by
    funext p x
    simp only [Function.comp_apply, Proc.closes, (hview p).pending]
  refine ⟨?_, ?_, h.closed, ?_, ?_, h.sides, h.alloc, ?_, ?_⟩
  · dsimp only
    rw [hown]
    exact h.refs
  · dsimp only
    rw [hcloses]
    exact h.ends
  · intro p fd f hfd
    rw [(hview p).ofile] at hfd
    exact h.opened p fd f hfd
  · intro p f hf
    rw [(hview p).fresh] at hf
    exact h.fresh p f hf
  · intro p x hx
    rw [(hview p).uses] at hx
    rw [(hview p).ofile]
    exact h.calls p x hx
  · intro p hp
    rw [(hview p).live] at hp
    rw [(hview p).ofile]
    obtain ⟨hofile, hact⟩ := h.unused p hp
    exact ⟨hofile, (hview p).user hact⟩

theorem Inv.wakeup (h : Inv σ) (a : Addr) (w : Bool) : Inv (σ.wakeup a w) := by
  refine h.view fun p => ?_
  cases hact : (σ.procs p).act <;> constructor <;> simp [hact, Activity.wakeup, Activity.held, Activity.fresh,
    Activity.pending, Activity.uses]

theorem Inv.kill (h : Inv σ) (p : Fin n) : Inv (σ.kill p) := by
  refine h.view fun q => ?_
  by_cases hq : q = p
  · subst hq
    rw [Function.update_self]
    cases hact : (σ.procs q).act <;> constructor <;> simp [hact, Activity.interrupt, Activity.held, Activity.fresh,
      Activity.pending, Activity.uses]
  · rw [Function.update_of_ne hq]
    exact ⟨rfl, rfl, rfl, rfl, rfl, rfl, id⟩

/-! ## Pipes -/

/-- An end with a holder is open. -/
theorem Inv.exists_pipe (h : Inv σ) {i : Fin nfile ⊕ Fin n}
    (hi : 0 < Sum.elim (File.holds ∘ σ.files) (Proc.closes ∘ σ.procs) i (a, w)) :
    ∃ q, σ.pipes a = some q ∧ q.isOpen w = true := by
  have hle := h.ends.le i (a, w)
  unfold openCount at hle
  split at hle
  · rename_i hopen
    rw [Option.any_eq_true] at hopen
    exact hopen
  · omega

theorem isOpen_pipeclose (q : Pipe) (w w' : Bool) : (pipeclose q w).isOpen w' = (q.isOpen w' && w' != w) := by
  cases w <;> cases w' <;> simp [pipeclose, Pipe.isOpen]

/-- A pipe with no open end is the same as none. -/
theorem any_isOpen_freed (q : Pipe) (w : Bool) :
    (if !q.readopen && !q.writeopen then none else some q).any (·.isOpen w) = q.isOpen w := by
  cases hr : q.readopen <;> cases hw : q.writeopen <;> cases w <;> simp [Pipe.isOpen, hr, hw]

theorem openCount_update (pipes : Addr → Option Pipe) (a : Addr) (o : Option Pipe) (x : Addr × Bool) :
    openCount (Function.update pipes a o) x =
      if x.1 = a then (if o.any (·.isOpen x.2) = true then 1 else 0) else openCount pipes x := by
  unfold openCount
  by_cases hx : x.1 = a
  · rw [hx, Function.update_self, if_pos rfl]
  · rw [Function.update_of_ne hx, if_neg hx]

theorem Inv.pipeclose (h : Inv σ) {rest : List (Fin nfile)} (hact : (σ.procs p).act = .leaving (some (a, w)) rest) :
    ∃ σ', (σ.setAct p (.leaving none rest)).pipeclose a w = .ok σ' ∧ Inv σ' := by
  have hcloses : ∀ x, (σ.procs p).closes x = if (a, w) = x then 1 else 0 := by
    intro x
    simp [Proc.closes, hact, Activity.pending]
  obtain ⟨q, hq, hopen⟩ := h.exists_pipe (a := a) (w := w) (i := .inr p) (by simp [hcloses])
  unfold System.pipeclose
  rw [show (σ.setAct p (.leaving none rest)).pipes a = some q from hq]
  refine ⟨_, rfl, ?_⟩
  generalize hfreed : (if !(Pipes.pipeclose q w).readopen && !(Pipes.pipeclose q w).writeopen then none
    else some (Pipes.pipeclose q w)) = o
  have hany : ∀ w', o.any (·.isOpen w') = (q.isOpen w' && w' != w) := by
    intro w'
    rw [← hfreed, any_isOpen_freed, isOpen_pipeclose]
  have hinv : Inv { σ.setAct p (.leaving none rest) with pipes := Function.update σ.pipes a o } := by
    refine h.update ?_ ?_ ?_ h.closed (h.opened p) ?_ h.sides ?_ ?_ ?_
    · intro g
      unfold Proc.own
      dsimp only
      rw [hact]
      rfl
    · rw [Function.comp_update, ← Sum.update_elim_inr]
      refine h.ends.update _ _ _ fun x => ?_
      rw [Sum.elim_inr, Function.comp_apply, hcloses, openCount_update, hany]
      obtain ⟨a', w'⟩ := x
      have hnone : ({ σ.procs p with act := .leaving none rest } : Proc).closes (a', w') = 0 := rfl
      rw [hnone]
      by_cases ha : a' = a
      · subst ha
        unfold openCount
        dsimp only
        rw [hq, if_pos rfl]
        by_cases hw : w' = w
        · subst hw
          simp [hopen]
        · simp [hw, Ne.symm hw]
      · rw [if_neg ha, if_neg fun heq => ha (congrArg Prod.fst heq).symm]
    · intro g _
      exact ⟨⟨rfl, rfl, rfl, rfl⟩, fun _ href => href⟩
    · intro g hg
      cases hg
    · intro a' q' hq'
      by_cases ha : a' = a
      · subst ha
        rw [Function.update_self, ← hfreed] at hq'
        split at hq'
        · cases hq'
        · rename_i hboth
          cases hq'
          simp only [Bool.and_eq_true, Bool.not_eq_eq_eq_not, Bool.not_true, not_and, Bool.not_eq_false] at hboth
          cases hr : (Pipes.pipeclose q w).readopen with
          | true => exact .inl rfl
          | false => exact .inr (hboth hr)
      · rw [Function.update_of_ne ha] at hq'
        exact h.alloc a' q' hq'
    · intro x hx
      cases hx
    · intro hlive
      rw [h.live (p := p) (by rw [hact]; simp)] at hlive
      cases hlive
  exact hinv.wakeup a !w

section NewPipe

variable {f0 f1 : Fin nfile} {files : FileTable}

theorem pipeFiles_fst (hne : f0 ≠ f1) : pipeFiles files f0 f1 a f0 =
    { files f0 with type := .pipe, readable := true, writable := false, pipe := a } := by
  unfold pipeFiles
  rw [Function.update_of_ne hne, Function.update_self]

theorem pipeFiles_snd (hne : f0 ≠ f1) : pipeFiles files f0 f1 a f1 =
    { files f1 with type := .pipe, readable := false, writable := true, pipe := a } := by
  unfold pipeFiles
  rw [Function.update_self, Function.update_of_ne hne.symm]

theorem pipeFiles_other {g : Fin nfile} (h0 : g ≠ f0) (h1 : g ≠ f1) : pipeFiles files f0 f1 a g = files g := by
  unfold pipeFiles
  rw [Function.update_of_ne h1, Function.update_of_ne h0]

/-- The table at the two files, and elsewhere. -/
theorem pipeFiles_cases {C : Fin nfile → File → Prop} (hne : f0 ≠ f1)
    (h0 : C f0 { files f0 with type := .pipe, readable := true, writable := false, pipe := a })
    (h1 : C f1 { files f1 with type := .pipe, readable := false, writable := true, pipe := a })
    (hother : ∀ g, g ≠ f0 → g ≠ f1 → C g (files g)) (g : Fin nfile) : C g (pipeFiles files f0 f1 a g) := by
  by_cases hg0 : g = f0
  · subst hg0
    rw [pipeFiles_fst hne]
    exact h0
  · by_cases hg1 : g = f1
    · subst hg1
      rw [pipeFiles_snd hne]
      exact h1
    · rw [pipeFiles_other hg0 hg1]
      exact hother g hg0 hg1

/-- Both ends of a new pipe are open, and each of them has its file. -/
theorem Inv.ends_newPipe (h : Inv σ) {P : Proc} (data : Nat → UInt8) (ha : σ.pipes a = none) (hne : f0 ≠ f1)
    (hf0 : (σ.files f0).type = .none) (hf1 : (σ.files f1).type = .none) (hP : P.closes = (σ.procs p).closes) :
    Counts (openCount (Function.update σ.pipes a (some (Pipe.init data))))
      (Sum.elim (File.holds ∘ pipeFiles σ.files f0 f1 a) (Proc.closes ∘ Function.update σ.procs p P)) := by
  have hcloses : Proc.closes ∘ Function.update σ.procs p P = Proc.closes ∘ σ.procs := by
    rw [Function.comp_update, hP]
    exact Function.update_eq_self p _
  unfold pipeFiles
  dsimp only
  rw [hcloses, Function.comp_update, Function.comp_update, ← Sum.update_elim_inl, ← Sum.update_elim_inl,
    Function.update_of_ne hne.symm]
  refine (h.ends.update (fun x => openCount σ.pipes x + if (a, false) = x then 1 else 0) _ _ ?_).update _ _ _ ?_
  · intro x
    rw [Sum.elim_inl, Function.comp_apply, holds_of_type (by simp [hf0])]
    simp [File.holds]
  · intro x
    rw [Function.update_of_ne (by simp [hne.symm]), Sum.elim_inl, Function.comp_apply, holds_of_type (by simp [hf1]),
      openCount_update]
    obtain ⟨a', w'⟩ := x
    by_cases ha' : a' = a
    · subst ha'
      cases w' <;> simp [openCount, ha, File.holds, Pipe.init, Pipe.isOpen]
    · simp [File.holds, ha', Ne.symm ha']

/-- The two files of a new pipe. -/
theorem Inv.newPipe (h : Inv σ) {P : Proc} (data : Nat → UInt8) (hact : (σ.procs p).act = .piping f0 (some f1))
    (ha : σ.pipes a = none) (hown : ∀ g, P.own g = (σ.procs p).own g)
    (hofile : ∀ fd g, P.ofile fd = some g → g = f0 ∨ g = f1 ∨ ∃ fd, (σ.procs p).ofile fd = some g)
    (hlive : P.live = true) {held : List (Fin nfile)} (hleaves : P.act = .leaving none held) :
    Inv ⟨pipeFiles σ.files f0 f1 a, Function.update σ.pipes a (some (Pipe.init data)),
      Function.update σ.procs p P⟩ := by
  have hmem0 : f0 ∈ (σ.procs p).act.fresh := by
    rw [hact]
    exact List.mem_cons_self
  have hmem1 : f1 ∈ (σ.procs p).act.fresh := by
    rw [hact]
    exact List.mem_cons_of_mem _ List.mem_cons_self
  obtain ⟨htype0, href0⟩ := h.fresh p f0 hmem0
  obtain ⟨htype1, href1⟩ := h.fresh p f1 hmem1
  have hpos0 := own_pos_of_held (fresh_subset_held _ hmem0)
  have hpos1 := own_pos_of_held (fresh_subset_held _ hmem1)
  have hne : f0 ≠ f1 := by
    rintro rfl
    have hle : ((σ.procs p).own f0 : ℤ) ≤ (σ.files f0).ref := h.refs.le p f0
    have htwo : 2 ≤ (σ.procs p).own f0 := by
      unfold Proc.own
      rw [hact]
      simp [Activity.held]
    omega
  refine h.update ?_ (h.ends_newPipe data ha hne htype0 htype1 ?_) ?_ ?_ ?_ ?_ ?_ ?_ ?_ ?_
  · intro g
    rw [hown]
    refine pipeFiles_cases (C := fun g F => F.ref + ((σ.procs p).own g : ℤ) = (σ.files g).ref + (σ.procs p).own g) hne
      rfl rfl (fun _ _ _ => rfl) g
  · unfold Proc.closes
    rw [hact, hleaves]
    rfl
  · refine pipeFiles_cases (C := fun g F => ((σ.procs p).own g : ℤ) + 1 ≤ (σ.files g).ref → SameFile (σ.files g) F ∧
      ((σ.files g).type = .none → (σ.files g).ref = 1 → F.ref = 1)) hne ?_ ?_ ?_
    · intro hshared
      omega
    · intro hshared
      omega
    · intro g _ _ _
      exact ⟨⟨rfl, rfl, rfl, rfl⟩, fun _ href => href⟩
  · refine pipeFiles_cases (C := fun g F => F.ref = 0 → F.type = .none) hne ?_ ?_ fun g _ _ => h.closed g
    · intro hzero
      dsimp only at hzero
      omega
    · intro hzero
      dsimp only at hzero
      omega
  · intro fd g hfd
    refine pipeFiles_cases (C := fun g F => P.ofile fd = some g → F.type ≠ .none) hne (fun _ => by simp) (fun _ => by simp)
      (fun g h0 h1 hg => ?_) g hfd
    obtain ⟨fd', hfd'⟩ := ((hofile fd g hg).resolve_left h0).resolve_left h1
    exact h.opened p fd' g hfd'
  · intro g hg
    rw [hleaves] at hg
    cases hg
  · exact pipeFiles_cases (C := fun g F => F.type = .pipe → F.readable = !F.writable) hne (fun _ => rfl) (fun _ => rfl)
      fun g _ _ => h.sides g
  · intro a' q hq
    by_cases ha' : a' = a
    · subst ha'
      rw [Function.update_self] at hq
      cases hq
      exact .inl rfl
    · rw [Function.update_of_ne ha'] at hq
      exact h.alloc a' q hq
  · intro x hx
    rw [hleaves] at hx
    cases hx
  · intro hnot
    rw [hlive] at hnot
    cases hnot

theorem Inv.pipeopen (h : Inv σ) {page : Option (Addr × (Nat → UInt8))}
    (hact : (σ.procs p).act = .piping f0 (some f1)) (hpage : ∀ x ∈ page, σ.pipes x.1 = none) :
    Inv (σ.pipeopen p f0 f1 page) := by
  have hlive := h.live (p := p) (by rw [hact]; simp)
  have hheld : ∀ g, ({ σ.procs p with act := .leaving none [f0, f1] } : Proc).own g = (σ.procs p).own g := by
    intro g
    unfold Proc.own
    rw [hact]
    rfl
  unfold System.pipeopen
  split
  · refine h.giveUp hlive ?_ (List.nil_subset _) ?_ (.inl rfl)
    · rw [hact]
      rfl
    · rw [hact]
      rfl
  · rename_i a data
    have ha := hpage (a, data) rfl
    dsimp only
    split
    · exact h.newPipe data hact ha hheld (fun fd g hfd => .inr (.inr ⟨fd, hfd⟩)) hlive rfl
    · rename_i i ofile hfd
      obtain ⟨hi, rfl⟩ := fdalloc_eq hfd
      split
      · exact h.newPipe data hact ha hheld (fun fd g hfd => .inr (.inr ⟨fd, hfd⟩)) hlive rfl
      · rename_i j ofile' hfd'
        obtain ⟨hj, rfl⟩ := fdalloc_eq hfd'
        refine h.newPipe data hact ha (fun g => ?_) (fun fd g hfd => ?_) hlive rfl
        · unfold Proc.own
          dsimp only
          rw [hact, fds_install hj, fds_install hi]
          simp only [Activity.held, Option.toList_some, List.count_cons, List.count_nil, beq_iff_eq, eq_comm (b := g)]
          omega
        · rcases mem_install hfd with rfl | ⟨fd', hfd'⟩
          · exact .inr (.inl rfl)
          · rcases mem_install hfd' with rfl | hold
            · exact .inl rfl
            · exact .inr (.inr hold)

end NewPipe

/-! ## Reading and writing -/

/-- A call on a descriptor of the process. -/
theorem Inv.enter (h : Inv σ) (hp : σ.Calls p) {fd : Fin nofile} {c : Call} (hfd : (σ.procs p).ofile fd = some f)
    (htype : (σ.files f).type = .pipe) (hw : (σ.files f).writable = c.writes) :
    Inv (σ.setAct p (.inPipe (σ.files f).pipe c false)) := by
  obtain ⟨hlive, hact⟩ := hp
  refine h.update ?_ (h.ends_same (fun _ => rfl) ?_ rfl) ?_ h.closed (h.opened p) ?_ h.sides h.alloc ?_ ?_
  · intro g
    unfold Proc.own
    rw [hact]
    rfl
  · unfold Proc.closes
    rw [hact]
    rfl
  · intro g _
    exact ⟨⟨rfl, rfl, rfl, rfl⟩, fun _ href => href⟩
  · intro g hg
    cases hg
  · intro x hx
    cases hx
    exact ⟨fd, f, hfd, htype, by rw [hw]⟩
  · intro hnot
    dsimp only at hnot
    rw [hlive] at hnot
    cases hnot

theorem setAct_user (hp : σ.Calls p) : σ.setAct p .user = σ := by
  unfold System.setAct System.setProc
  rw [← hp.2, Function.update_eq_self]

theorem Inv.sysRead (h : Inv σ) (hp : σ.Calls p) (fd : Int) (len : Nat) : ∃ σ', σ.sysRead p fd len = .ok σ' ∧ Inv σ' := by
  unfold System.sysRead
  split
  · exact ⟨σ, rfl, h⟩
  · rename_i i f harg
    have hfd := argfd_eq harg
    unfold fileread
    split
    · exact ⟨_, rfl, by rw [setAct_user hp]; exact h⟩
    · rename_i hreadable
      split
      · rename_i htype
        refine ⟨_, rfl, h.enter hp hfd htype ?_⟩
        have hsides := h.sides f htype
        rw [Bool.eq_true_of_not_eq_false hreadable] at hsides
        show (σ.files f).writable = false
        simpa using hsides
      · exact ⟨_, rfl, by rw [setAct_user hp]; exact h⟩
      · rename_i htype
        exact absurd htype (h.opened p i f hfd)

theorem Inv.sysWrite (h : Inv σ) (hp : σ.Calls p) (fd : Int) (addr : List UInt8) :
    ∃ σ', σ.sysWrite p fd addr = .ok σ' ∧ Inv σ' := by
  unfold System.sysWrite
  split
  · exact ⟨σ, rfl, h⟩
  · rename_i i f harg
    have hfd := argfd_eq harg
    unfold filewrite
    split
    · exact ⟨_, rfl, by rw [setAct_user hp]; exact h⟩
    · rename_i hwritable
      split
      · rename_i htype
        exact ⟨_, rfl, h.enter hp hfd htype (Bool.eq_true_of_not_eq_false hwritable)⟩
      · exact ⟨_, rfl, by rw [setAct_user hp]; exact h⟩
      · rename_i htype
        exact absurd htype (h.opened p i f hfd)

/-- A process in a call has a descriptor for its pipe, so that end is open. -/
theorem Inv.pipe_of_call (h : Inv σ) {c : Call} {asleep : Bool} (hact : (σ.procs p).act = .inPipe a c asleep) :
    ∃ q, σ.pipes a = some q ∧ q.isOpen c.writes = true := by
  obtain ⟨fd, f, -, htype, hend⟩ := h.calls p (a, c.writes) (by rw [hact]; rfl)
  refine h.exists_pipe (i := .inl f) ?_
  rw [Sum.elim_inl, Function.comp_apply, File.holds, if_pos ⟨htype, hend⟩]
  exact Nat.one_pos

theorem SameEnds.isOpen {q q' : Pipe} (h : SameEnds q q') (w : Bool) : q'.isOpen w = q.isOpen w := by
  unfold Pipe.isOpen
  rw [h.1, h.2]

theorem openCount_turn {q q' : Pipe} (hq : σ.pipes a = some q) (hends : SameEnds q q') :
    openCount (Function.update σ.pipes a (some q')) = openCount σ.pipes := by
  funext x
  rw [openCount_update]
  split
  · rename_i hx
    unfold openCount
    rw [hx, hq, Option.any_some, Option.any_some, hends.isOpen]
  · rfl

theorem Inv.turn (h : Inv σ) {c : Call} (hact : (σ.procs p).act = .inPipe a c false) :
    ∃ σ', σ.turn p a c = .ok σ' ∧ Inv σ' := by
  obtain ⟨q, hq, -⟩ := h.pipe_of_call hact
  obtain ⟨hends, -⟩ := turn_items q (σ.procs p).killed c
  have hlive := h.live (p := p) (by rw [hact]; simp)
  have hafter : Inv { σ with pipes := Function.update σ.pipes a (some (c.turn q (σ.procs p).killed).pipe) } := by
    refine ⟨h.refs, ?_, h.closed, h.opened, h.fresh, h.sides, ?_, h.calls, h.unused⟩
    · dsimp only
      rw [openCount_turn hq hends]
      exact h.ends
    · intro a' q' hq'
      dsimp only at hq'
      by_cases ha : a' = a
      · subst ha
        rw [Function.update_self] at hq'
        cases hq'
        rw [hends.1, hends.2]
        exact h.alloc a' q hq
      · rw [Function.update_of_ne ha] at hq'
        exact h.alloc a' q' hq'
  have hback : Inv (System.setAct
      { σ with pipes := Function.update σ.pipes a (some (c.turn q (σ.procs p).killed).pipe) } p
      ((c.turn q (σ.procs p).killed).result.act a)) := by
    unfold Result.act
    split
    · refine hafter.giveUp hlive ?_ (List.nil_subset _) ?_ (.inl rfl)
      · rw [hact]
        rfl
      · rw [hact]
        rfl
    · rename_i c' hsleeps
      refine hafter.giveUp hlive ?_ (List.nil_subset _) ?_ (.inr ?_)
      · rw [hact]
        rfl
      · rw [hact]
        rfl
      · rw [hact]
        simp only [Activity.uses, (turn_waits hsleeps).1]
  unfold System.turn
  rw [hq]
  dsimp only
  split
  · exact ⟨_, rfl, hback.wakeup a _⟩
  · exact ⟨_, rfl, hback⟩

/-! ## `fork` and `exit` -/

theorem dupAll_spec (parent : Descriptors) (l : List (Fin nofile)) (files : FileTable) (child : Descriptors)
    (href : ∀ fd f, parent fd = some f → 1 ≤ (files f).ref) :
    ∃ files' child', dupAll parent l (files, child) = .ok (files', child') ∧
      (∀ f, SameFile (files f) (files' f) ∧
        (files' f).ref = (files f).ref + ((l.map fun fd => hit f (parent fd)).sum : ℕ)) ∧
      ∀ fd, child' fd = if fd ∈ l ∧ parent fd ≠ none then parent fd else child fd := by
  induction l generalizing files child with
  | nil => exact ⟨files, child, rfl, fun f => ⟨⟨rfl, rfl, rfl, rfl⟩, by simp⟩, fun fd => by simp⟩
  | cons fd fds ih =>
    unfold dupAll
    cases hfd : parent fd with
    | none =>
      obtain ⟨files', child', heq, hfiles, hchild⟩ := ih files child href
      refine ⟨files', child', heq, fun f => ⟨(hfiles f).1, ?_⟩, fun i => ?_⟩
      · rw [(hfiles f).2, List.map_cons, List.sum_cons, hfd]
        simp [hit]
      · rw [hchild i]
        by_cases hi : i = fd
        · subst hi
          simp [hfd]
        · simp [hi]
    | some f =>
      dsimp only
      unfold filedup
      rw [if_neg (by have := href fd f hfd; omega)]
      obtain ⟨files', child', heq, hfiles, hchild⟩ := ih
        (Function.update files f { files f with ref := (files f).ref + 1 }) (Function.update child fd (some f)) (by
          intro i g hg
          have hpos := href i g hg
          by_cases hgf : g = f
          · subst hgf
            rw [Function.update_self]
            dsimp only
            omega
          · rw [Function.update_of_ne hgf]
            exact hpos)
      refine ⟨files', child', heq, fun g => ?_, fun i => ?_⟩
      · obtain ⟨hsame, hcount⟩ := hfiles g
        rw [List.map_cons, List.sum_cons, hfd]
        by_cases hgf : g = f
        · subst hgf
          rw [Function.update_self] at hsame hcount
          refine ⟨hsame, ?_⟩
          rw [hcount]
          simp only [hit, if_true]
          push_cast
          omega
        · rw [Function.update_of_ne hgf] at hsame hcount
          refine ⟨hsame, ?_⟩
          rw [hcount]
          simp [hit, Ne.symm hgf]
      · rw [hchild i]
        by_cases hi : i = fd
        · subst hi
          simp [hfd]
        · simp [hi]

theorem Inv.fork (h : Inv σ) {c : Fin n} (hc : (σ.procs c).live = false) :
    ∃ σ', σ.fork p c = .ok σ' ∧ Inv σ' := by
  obtain ⟨hnone, huser⟩ := h.unused c hc
  obtain ⟨files, ofile, heq, hfiles, hofile⟩ := dupAll_spec (σ.procs p).ofile (List.finRange nofile) σ.files
    (σ.procs c).ofile (fun fd f hfd => by
      have hle : ((σ.procs p).own f : ℤ) ≤ (σ.files f).ref := h.refs.le p f
      have hpos := own_pos_of_fd hfd
      omega)
  obtain rfl : ofile = (σ.procs p).ofile := by
    funext fd
    rw [hofile fd, hnone fd]
    cases (σ.procs p).ofile fd <;> simp
  have hcount : ∀ g, (files g).ref = (σ.files g).ref + (fds (σ.procs p).ofile g : ℕ) := by
    intro g
    rw [(hfiles g).2, fds_eq_sum]
  have hempty : ∀ g, (σ.procs c).own g = 0 := by
    intro g
    unfold Proc.own
    rw [huser, fds_eq_zero fun i => by rw [hnone i]; exact (Option.some_ne_none g).symm]
    rfl
  have hnonneg : ∀ g, 0 ≤ (σ.files g).ref := h.refs.nonneg
  unfold System.fork
  rw [heq]
  refine ⟨_, rfl, h.update (p := c) ?_ (h.ends_same (fun g => ?_) rfl rfl) ?_ ?_ ?_ ?_ ?_ h.alloc ?_ ?_⟩
  · intro g
    rw [hcount g, hempty g]
    unfold Proc.own
    dsimp only
    rw [huser]
    simp [Activity.held]
  · obtain ⟨⟨htype, -, hwritable, hpipe⟩, -⟩ := hfiles g
    unfold File.holds
    rw [htype, hwritable, hpipe]
  · intro g _
    refine ⟨(hfiles g).1, fun htype href => ?_⟩
    rw [hcount g, href, fds_eq_zero fun i hi => h.opened p i g hi htype]
    rfl
  · intro g hg
    rw [(hfiles g).1.1]
    refine h.closed g ?_
    have hg' := hcount g
    have hpos := hnonneg g
    omega
  · intro fd g hfd
    rw [(hfiles g).1.1]
    exact h.opened p fd g hfd
  · intro g hg
    dsimp only at hg
    rw [huser] at hg
    cases hg
  · intro g hg
    obtain ⟨⟨htype, hreadable, hwritable, -⟩, -⟩ := hfiles g
    rw [hreadable, hwritable]
    exact h.sides g (htype ▸ hg)
  · intro x hx
    dsimp only at hx
    rw [huser] at hx
    cases hx
  · intro hnot
    cases hnot

theorem Inv.exit (h : Inv σ) (hp : σ.Calls p) (hofile : ∀ fd, (σ.procs p).ofile fd = none) : Inv (σ.exit p) := by
  obtain ⟨-, hact⟩ := hp
  refine h.update (fun _ => rfl) (h.ends_same (fun _ => rfl) rfl rfl)
    (fun g _ => ⟨⟨rfl, rfl, rfl, rfl⟩, fun _ href => href⟩) h.closed (h.opened p) (h.fresh p) h.sides h.alloc (h.calls p)
    fun _ => ⟨hofile, hact⟩

/-! ## Every step -/

theorem Step.inv {e : Event n} {r : Except Fault (System n)} (hs : Step σ e r) (h : Inv σ) : ∃ σ', r = .ok σ' ∧ Inv σ' := by
  cases hs with
  | openFile hp => exact ⟨_, rfl, h.sysOpen hp _ _⟩
  | pipe hp => exact ⟨_, rfl, h.sysPipe hp⟩
  | pipealloc hact => exact ⟨_, rfl, h.pipealloc hact⟩
  | pipeopen hact hpage => exact ⟨_, rfl, h.pipeopen hact hpage⟩
  | dup hp => exact h.sysDup hp _
  | close hp => exact h.sysClose hp _
  | fileclose hact => exact h.drop hact
  | pipeclose hact => exact h.pipeclose hact
  | read hp => exact h.sysRead hp _ _
  | write hp => exact h.sysWrite hp _ _
  | turn hact => exact h.turn hact
  | fork _ hc => exact h.fork hc
  | exit hp hofile => exact ⟨_, rfl, h.exit hp hofile⟩
  | kill _ => exact ⟨_, rfl, h.kill _⟩

theorem Next.inv {σ' : System n} {e : Event n} (hs : Next σ e σ') (h : Inv σ) : Inv σ' := by
  obtain ⟨σ'', heq, hinv⟩ := Step.inv hs h
  cases heq
  exact hinv

end CS1550.Pipes
