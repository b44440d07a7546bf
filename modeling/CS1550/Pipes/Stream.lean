/-
What goes through a pipe of `lab4/xv6-public`, and who waits for it. Only a turn of `pipewrite` or of `piperead` moves
bytes, and only a turn or `pipeclose` lets a process sleep or wakes it up; all other steps are `Quiet` for the pipes. A
process that sleeps in `pipewrite` has a full pipe in front of it, and one in `piperead` an empty pipe, unless a
`pipewrite` has returned -1 after it had put bytes into the pipe (`abandons`): then it wakes nobody up.
-/
import CS1550.Pipes.Steps

namespace CS1550.Pipes

variable {n : Nat} {σ σ' : System n} {e : Event n} {p : Fin n} {a : Addr} {q q' : Pipe}

/-! ## What a step does to the pipes -/

/-- The system calls that bring a process into a pipe, with the call that it makes there. -/
def Event.enters : Event n → Fin n → Call → Prop
  | .read p _ len => fun r c => r = p ∧ c = .read len
  | .write p _ addr => fun r c => r = p ∧ c = .write addr.length addr
  | _ => fun _ _ => False

/-- No bytes are moved, no pipe is closed, and nobody falls asleep: who is in a pipe was in it before, with the same
call, or has entered it with this step. -/
structure Quiet (e : Event n) (σ σ' : System n) : Prop where
  pipes : ∀ a q, σ.pipes a = some q → σ'.pipes a = some q
  inPipe : ∀ p a c s, (σ'.procs p).act = .inPipe a c s → (e.enters p c ∧ s = false) ∨
    ∃ s₀, (σ.procs p).act = .inPipe a c s₀ ∧ (s = true → s₀ = true ∧ (σ'.procs p).killed = (σ.procs p).killed)

theorem Quiet.refl (e : Event n) (σ : System n) : Quiet e σ σ :=
  ⟨fun _ _ h => h, fun _ _ _ s h => .inr ⟨s, h, fun hs => ⟨hs, rfl⟩⟩⟩

theorem Quiet.asleep {c : Call} (h : Quiet e σ σ') (hact : (σ'.procs p).act = .inPipe a c true) :
    (σ.procs p).act = .inPipe a c true ∧ (σ'.procs p).killed = (σ.procs p).killed := by
  obtain ⟨-, hfalse⟩ | ⟨s₀, hold, hsame⟩ := h.inPipe p a c true hact
  · cases hfalse
  · obtain ⟨rfl, hkilled⟩ := hsame rfl
    exact ⟨hold, hkilled⟩

/-- One process moves, and is not asleep afterwards. -/
theorem quiet_update {files : FileTable} {pipes : Addr → Option Pipe} {P : Proc}
    (hpipes : ∀ a q, σ.pipes a = some q → pipes a = some q)
    (hP : ∀ a c s, P.act = .inPipe a c s → (e.enters p c ∧ s = false) ∨
      ∃ s₀, (σ.procs p).act = .inPipe a c s₀ ∧ (s = true → s₀ = true ∧ P.killed = (σ.procs p).killed)) :
    Quiet e σ ⟨files, pipes, Function.update σ.procs p P⟩ := by
  refine ⟨hpipes, fun q a c s hact => ?_⟩
  dsimp only at hact ⊢
  by_cases hq : q = p
  · subst hq
    rw [Function.update_self] at hact ⊢
    exact hP a c s hact
  · rw [Function.update_of_ne hq] at hact ⊢
    exact .inr ⟨s, hact, fun hs => ⟨hs, rfl⟩⟩

theorem quiet_setAct {files : FileTable} {act : Activity} (hact : ∀ a c s, act ≠ .inPipe a c s) :
    Quiet e σ { σ.setAct p act with files := files } :=
  quiet_update (fun _ _ h => h) fun a c s h => absurd h (hact a c s)

theorem quiet_ofile {files : FileTable} {ofile : Descriptors} :
    Quiet e σ { σ.setProc p { σ.procs p with ofile := ofile } with files := files } :=
  quiet_update (fun _ _ h => h) fun _ _ s h => .inr ⟨s, h, fun hs => ⟨hs, rfl⟩⟩

/-- A process enters a pipe. -/
theorem quiet_enters {b : Addr} {c : Call} (hc : e.enters p c) : Quiet e σ (σ.setAct p (.inPipe b c false)) := by
  refine quiet_update (fun _ _ h => h) fun a c' s hact => .inl ?_
  cases hact
  exact ⟨hc, rfl⟩

theorem Quiet.trans {σ'' : System n} (h : Quiet e σ σ') (h' : Quiet e σ' σ'') : Quiet e σ σ'' := by
  refine ⟨fun a q hq => h'.pipes a q (h.pipes a q hq), fun p a c s hact => ?_⟩
  obtain henters | ⟨s₁, hact₁, hsame₁⟩ := h'.inPipe p a c s hact
  · exact .inl henters
  · obtain ⟨henters, rfl⟩ | ⟨s₀, hact₀, hsame₀⟩ := h.inPipe p a c s₁ hact₁
    · refine .inl ⟨henters, ?_⟩
      by_contra hs
      cases (hsame₁ (by simpa using hs)).1
    · refine .inr ⟨s₀, hact₀, fun hs => ?_⟩
      obtain ⟨hs₁, hkilled₁⟩ := hsame₁ hs
      obtain ⟨hs₀, hkilled₀⟩ := hsame₀ hs₁
      exact ⟨hs₀, hkilled₁.trans hkilled₀⟩

theorem quiet_drop {f : Fin nfile} {rest : List (Fin nfile)} (h : σ.drop p f rest = .ok σ') : Quiet e σ σ' := by
  unfold System.drop at h
  cases hclose : fileclose σ.files f with
  | error e =>
    rw [hclose] at h
    cases h
  | ok r =>
    rw [hclose] at h
    cases h
    exact quiet_setAct nofun

theorem quiet_sysOpen (σ : System n) (p : Fin n) (readable writable : Bool) :
    Quiet e σ (σ.sysOpen p readable writable) := by
  unfold System.sysOpen
  split
  · exact .refl e σ
  · split
    · exact quiet_setAct nofun
    · exact quiet_ofile

theorem quiet_sysPipe (σ : System n) (p : Fin n) : Quiet e σ (σ.sysPipe p) := by
  unfold System.sysPipe
  split
  · exact .refl e σ
  · exact quiet_setAct nofun

theorem quiet_pipealloc (σ : System n) (p : Fin n) (f0 : Fin nfile) : Quiet e σ (σ.pipealloc p f0) := by
  unfold System.pipealloc
  split
  · exact quiet_setAct nofun
  · exact quiet_setAct nofun

theorem quiet_pipeopen {f0 f1 : Fin nfile} {page : Option (Addr × (Nat → UInt8))}
    (hpage : ∀ x ∈ page, σ.pipes x.1 = none) : Quiet e σ (σ.pipeopen p f0 f1 page) := by
  unfold System.pipeopen
  split
  · exact quiet_setAct nofun
  · rename_i a data
    have ha := hpage (a, data) rfl
    have hpipes : ∀ b q, σ.pipes b = some q → Function.update σ.pipes a (some (Pipe.init data)) b = some q := by
      intro b q hq
      rw [Function.update_of_ne]
      · exact hq
      · rintro rfl
        rw [ha] at hq
        cases hq
    dsimp only
    split
    · exact quiet_update hpipes nofun
    · split
      · exact quiet_update hpipes nofun
      · exact quiet_update hpipes nofun

theorem quiet_sysDup {fd : Int} (h : σ.sysDup p fd = .ok σ') : Quiet e σ σ' := by
  unfold System.sysDup at h
  split at h
  · cases h
    exact .refl e σ
  · split at h
    · cases h
      exact .refl e σ
    · rename_i f _ _ i ofile _
      cases hdup : filedup σ.files f with
      | error e =>
        rw [hdup] at h
        cases h
      | ok files =>
        rw [hdup] at h
        cases h
        exact quiet_ofile

theorem quiet_sysClose {fd : Int} (h : σ.sysClose p fd = .ok σ') : Quiet e σ σ' := by
  unfold System.sysClose at h
  split at h
  · cases h
    exact .refl e σ
  · exact quiet_ofile.trans (quiet_drop h)

theorem quiet_sysRead {fd : Int} {len : Nat} (h : σ.sysRead p fd len = .ok σ') : Quiet (.read p fd len) σ σ' := by
  unfold System.sysRead fileread at h
  split at h
  · cases h
    exact .refl _ σ
  · split at h
    · cases h
      exact quiet_setAct nofun
    · split at h
      · cases h
        exact quiet_enters ⟨rfl, rfl⟩
      · cases h
        exact quiet_setAct nofun
      · cases h

theorem quiet_sysWrite {fd : Int} {addr : List UInt8} (h : σ.sysWrite p fd addr = .ok σ') :
    Quiet (.write p fd addr) σ σ' := by
  unfold System.sysWrite filewrite at h
  split at h
  · cases h
    exact .refl _ σ
  · split at h
    · cases h
      exact quiet_setAct nofun
    · split at h
      · cases h
        exact quiet_enters ⟨rfl, rfl⟩
      · cases h
        exact quiet_setAct nofun
      · cases h

theorem quiet_fork {c : Fin n} (h : σ.fork p c = .ok σ') : Quiet e σ σ' := by
  unfold System.fork at h
  cases hdup : dupAll (σ.procs p).ofile (List.finRange nofile) (σ.files, (σ.procs c).ofile) with
  | error e =>
    rw [hdup] at h
    cases h
  | ok r =>
    rw [hdup] at h
    cases h
    exact quiet_update (fun _ _ h => h) fun _ _ s h => .inr ⟨s, h, fun hs => ⟨hs, rfl⟩⟩

theorem quiet_exit (hp : σ.Calls p) : Quiet e σ (σ.exit p) := by
  refine quiet_update (fun _ _ h => h) fun a c s hact => ?_
  have hact : (σ.procs p).act = .inPipe a c s := hact
  rw [hp.2] at hact
  cases hact

theorem quiet_kill (σ : System n) (p : Fin n) : Quiet e σ (σ.kill p) := by
  refine quiet_update (fun _ _ h => h) fun a c s hact => .inr ?_
  have hact : (σ.procs p).act.interrupt = .inPipe a c s := hact
  cases hold : (σ.procs p).act with
  | inPipe b c' s₀ =>
    rw [hold] at hact
    cases hact
    exact ⟨s₀, rfl, nofun⟩
  | leaving pending files =>
    rw [hold] at hact
    cases hact
  | piping f0 f1 =>
    rw [hold] at hact
    cases hact

/-- The steps, as far as the pipes are concerned. -/
inductive Effect (σ : System n) : Event n → System n → Prop
  | quiet {e : Event n} {τ : System n} : (∀ p, e ≠ .turn p) → Quiet e σ τ → Effect σ e τ
  | turn {p : Fin n} {a : Addr} {c : Call} {τ : System n} : (σ.procs p).act = .inPipe a c false →
      σ.turn p a c = .ok τ → Effect σ (.turn p) τ
  | pipeclose {p : Fin n} {a : Addr} {w : Bool} {rest : List (Fin nfile)} {τ : System n} :
      (σ.setAct p (.leaving none rest)).pipeclose a w = .ok τ → Effect σ (.pipeclose p) τ

theorem Next.effect (hs : Next σ e σ') : Effect σ e σ' := by
  unfold Next at hs
  generalize hr : Except.ok σ' = r at hs
  cases hs with
  | openFile hp =>
    cases hr
    exact .quiet nofun (quiet_sysOpen _ _ _ _)
  | pipe hp =>
    cases hr
    exact .quiet nofun (quiet_sysPipe _ _)
  | pipealloc hact =>
    cases hr
    exact .quiet nofun (quiet_pipealloc _ _ _)
  | pipeopen hact hpage =>
    cases hr
    exact .quiet nofun (quiet_pipeopen hpage)
  | dup hp => exact .quiet nofun (quiet_sysDup hr.symm)
  | close hp => exact .quiet nofun (quiet_sysClose hr.symm)
  | fileclose hact => exact .quiet nofun (quiet_drop hr.symm)
  | pipeclose hact => exact .pipeclose hr.symm
  | read hp => exact .quiet nofun (quiet_sysRead hr.symm)
  | write hp => exact .quiet nofun (quiet_sysWrite hr.symm)
  | turn hact => exact .turn hact hr.symm
  | fork hp hc => exact .quiet nofun (quiet_fork hr.symm)
  | exit hp hofile =>
    cases hr
    exact .quiet nofun (quiet_exit hp)
  | kill hp =>
    cases hr
    exact .quiet nofun (quiet_kill _ _)

/-! ## Turns and closes -/

theorem turn_eq {c : Call} (h : σ.turn p a c = .ok σ') : ∃ q, σ.pipes a = some q ∧
    σ'.pipes = Function.update σ.pipes a (some (c.turn q (σ.procs p).killed).pipe) ∧
    ∀ r, (σ'.procs r).killed = (σ.procs r).killed ∧ (σ'.procs r).act =
      let act := if r = p then (c.turn q (σ.procs p).killed).result.act a else (σ.procs r).act
      if (c.turn q (σ.procs p).killed).wakes then act.wakeup a !c.writes else act := by
  unfold System.turn at h
  split at h
  · cases h
  · rename_i q hq
    cases h
    refine ⟨q, hq, ?_, fun r => ?_⟩
    · split <;> rfl
    · by_cases hr : r = p
      · subst hr
        split <;> simp [System.setAct, System.setProc, System.wakeup]
      · split <;> simp [System.setAct, System.setProc, System.wakeup, hr]

theorem pipeclose_eq {act : Activity} {w : Bool} (h : (σ.setAct p act).pipeclose a w = .ok σ') :
    ∃ q, σ.pipes a = some q ∧ σ'.pipes = Function.update σ.pipes a
      (if !(pipeclose q w).readopen && !(pipeclose q w).writeopen then none else some (pipeclose q w)) ∧
    ∀ r, (σ'.procs r).killed = (σ.procs r).killed ∧
      (σ'.procs r).act = (if r = p then act else (σ.procs r).act).wakeup a !w := by
  unfold System.pipeclose at h
  split at h
  · cases h
  · rename_i q hq
    cases h
    refine ⟨q, hq, rfl, fun r => ?_⟩
    by_cases hr : r = p
    · subst hr
      simp [System.setAct, System.setProc, System.wakeup]
    · simp [System.setAct, System.setProc, System.wakeup, hr]

theorem wakeup_inPipe {act : Activity} {b : Addr} {c : Call} {w s : Bool} (h : act.wakeup b w = .inPipe a c s) :
    ∃ s₀, act = .inPipe a c s₀ ∧ (s = true → s₀ = true ∧ ¬ (a = b ∧ c.writes = w)) := by
  cases act with
  | inPipe a' c' asleep =>
    obtain ⟨rfl, rfl, rfl⟩ := Activity.inPipe.inj h
    exact ⟨asleep, rfl, fun hs => by simpa [imp_iff_not_or] using hs⟩
  | leaving pending files => cases h
  | piping f0 f1 => cases h

/-- A process that is in a pipe after a turn has gone to sleep in it, or was there before. One that is asleep has
not been woken up. -/
theorem turn_inPipe {b : Addr} {c c₁ : Call} {r : Fin n} {s : Bool} (h : σ.turn p b c₁ = .ok σ')
    (hq : σ.pipes b = some q) (hact : (σ'.procs r).act = .inPipe a c s) :
    (r = p ∧ b = a ∧ (c₁.turn q (σ.procs p).killed).result = .sleeps c ∨
      r ≠ p ∧ ∃ s₀, (σ.procs r).act = .inPipe a c s₀ ∧ (s = true → s₀ = true)) ∧
    (s = true → (c₁.turn q (σ.procs p).killed).wakes = true → ¬ (a = b ∧ c.writes = !c₁.writes)) := by
  obtain ⟨q₁, hq₁, -, hprocs⟩ := turn_eq h
  rw [hq] at hq₁
  cases hq₁
  rw [(hprocs r).2] at hact
  have hbefore : ∃ s₀, (if r = p then (c₁.turn q (σ.procs p).killed).result.act b else (σ.procs r).act) =
      .inPipe a c s₀ ∧ (s = true → s₀ = true ∧ ((c₁.turn q (σ.procs p).killed).wakes = true →
        ¬ (a = b ∧ c.writes = !c₁.writes))) := by
    dsimp only at hact
    split at hact
    · obtain ⟨s₀, hact, hs⟩ := wakeup_inPipe hact
      exact ⟨s₀, hact, fun hasleep => ⟨(hs hasleep).1, fun _ => (hs hasleep).2⟩⟩
    · rename_i hno
      exact ⟨s, hact, fun hasleep => ⟨hasleep, fun hwakes => absurd hwakes hno⟩⟩
  obtain ⟨s₀, hact, hs⟩ := hbefore
  refine ⟨?_, fun hasleep => (hs hasleep).2⟩
  by_cases hr : r = p
  · rw [if_pos hr] at hact
    cases hresult : (c₁.turn q (σ.procs p).killed).result with
    | returns v =>
      rw [hresult] at hact
      cases hact
    | sleeps c' =>
      rw [hresult] at hact
      cases hact
      exact .inl ⟨hr, rfl, rfl⟩
  · rw [if_neg hr] at hact
    exact .inr ⟨hr, s₀, hact, fun hasleep => (hs hasleep).1⟩

/-- A process that is in a pipe after a close was there before. -/
theorem pipeclose_inPipe {b : Addr} {c : Call} {r : Fin n} {w s : Bool} {rest : List (Fin nfile)}
    (h : (σ.setAct p (.leaving none rest)).pipeclose b w = .ok σ') (hact : (σ'.procs r).act = .inPipe a c s) :
    ∃ s₀, (σ.procs r).act = .inPipe a c s₀ ∧ (s = true → s₀ = true ∧ ¬ (a = b ∧ c.writes = !w)) := by
  obtain ⟨q, -, -, hprocs⟩ := pipeclose_eq h
  rw [(hprocs r).2] at hact
  obtain ⟨s₀, hact, hs⟩ := wakeup_inPipe hact
  by_cases hr : r = p
  · rw [if_pos hr] at hact
    cases hact
  · rw [if_neg hr] at hact
    exact ⟨s₀, hact, hs⟩

/-! ## The bytes -/

/-- The bytes that a step puts into the pipe, or takes out of it. -/
def System.moves (σ : System n) (a : Addr) (w : Bool) : Event n → List UInt8
  | .turn p =>
    match (σ.procs p).act, σ.pipes a with
    | .inPipe a' c false, some q => if a' = a ∧ c.writes = w then (c.turn q (σ.procs p).killed).moved else []
    | _, _ => []
  | _ => []

theorem moves_of_ne_turn (h : ∀ p, e ≠ .turn p) (w : Bool) : σ.moves a w e = [] := by
  cases e with
  | turn p => exact absurd rfl (h p)
  | _ => rfl

theorem moves_turn {b : Addr} {c : Call} (hact : (σ.procs p).act = .inPipe b c false) (hq : σ.pipes a = some q)
    (w : Bool) : σ.moves a w (.turn p) =
      if b = a ∧ c.writes = w then (c.turn q (σ.procs p).killed).moved else [] := by
  simp only [System.moves, hact, hq]

/-- What is put into a pipe comes behind what is in it, and what is taken out was in front. -/
theorem Next.stream (hs : Next σ e σ') (hq : σ.pipes a = some q) (hq' : σ'.pipes a = some q') :
    q.items ++ σ.moves a true e = σ.moves a false e ++ q'.items := by
  cases hs.effect with
  | quiet hne hquiet =>
    rw [hquiet.pipes a q hq] at hq'
    cases hq'
    rw [moves_of_ne_turn hne, moves_of_ne_turn hne, List.append_nil, List.nil_append]
  | @turn p b c _ hact hturn =>
    obtain ⟨q₁, hq₁, hpipes, -⟩ := turn_eq hturn
    rw [moves_turn hact hq, moves_turn hact hq]
    rw [hpipes] at hq'
    by_cases hb : b = a
    · subst hb
      rw [hq] at hq₁
      cases hq₁
      rw [Function.update_self] at hq'
      cases hq'
      have hitems := (turn_items q (σ.procs p).killed c).2
      cases hw : c.writes with
      | true =>
        rw [hw, if_pos rfl] at hitems
        simp [hitems]
      | false =>
        rw [hw, if_neg Bool.false_ne_true] at hitems
        simp [hitems]
    · rw [Function.update_of_ne (Ne.symm hb), hq] at hq'
      cases hq'
      simp [hb]
  | @pipeclose p b w rest _ hclose =>
    obtain ⟨q₁, hq₁, hpipes, -⟩ := pipeclose_eq hclose
    rw [show σ.moves a true (.pipeclose p) = [] from rfl, show σ.moves a false (.pipeclose p) = [] from rfl,
      List.append_nil, List.nil_append]
    rw [hpipes] at hq'
    by_cases hb : b = a
    · subst hb
      rw [hq] at hq₁
      cases hq₁
      rw [Function.update_self] at hq'
      split at hq'
      · cases hq'
      · cases hq'
        cases w <;> rfl
    · rw [Function.update_of_ne (Ne.symm hb), hq] at hq'
      cases hq'
      rfl

/-! ## The bytes of a system call -/

/-- The turn in a pipe that the process can take. -/
def System.turnOf (σ : System n) (p : Fin n) : Option Turn :=
  match (σ.procs p).act with
  | .inPipe a c false => (σ.pipes a).map fun q => c.turn q (σ.procs p).killed
  | _ => none

theorem turnOf_eq {c : Call} (hact : (σ.procs p).act = .inPipe a c false) (hq : σ.pipes a = some q) :
    σ.turnOf p = some (c.turn q (σ.procs p).killed) := by
  simp only [System.turnOf, hact, hq, Option.map_some]

/-- The bytes of the last `write` of a process, with those that the turns since then have moved. -/
def writing (r : Fin n) : List UInt8 × List UInt8 → System n × Event n → List UInt8 × List UInt8
  | w, (x, e) =>
    match e with
    | .write p _ addr => if p = r then (addr, []) else w
    | .turn p => if p = r then (w.1, w.2 ++ (x.turnOf r).elim [] Turn.moved) else w
    | _ => w

/-- What a process that is in `pipewrite` has put into the pipe, and what is left, are the bytes of its `write`. -/
def Underway (σ : System n) (r : Fin n) (w : List UInt8 × List UInt8) : Prop :=
  ∀ a m left s, (σ.procs r).act = .inPipe a (.write m left) s → m = w.1.length ∧ w.2 ++ left = w.1

theorem writing_of_not_enters {r : Fin n} {w : List UInt8 × List UInt8} (hturn : e ≠ .turn r)
    (hwrite : ∀ fd addr, e ≠ .write r fd addr) : writing r w (σ, e) = w := by
  cases e with
  | write p fd addr => exact if_neg fun hp : p = r => hwrite fd addr (hp ▸ rfl)
  | turn p => exact if_neg fun hp : p = r => hturn (hp ▸ rfl)
  | _ => rfl

theorem Underway.quiet {r : Fin n} {w : List UInt8 × List UInt8} (h : Underway σ r w) (hs : Next σ e σ')
    (hne : ∀ p, e ≠ .turn p) (hquiet : Quiet e σ σ') : Underway σ' r (writing r w (σ, e)) := by
  intro a m left s hact
  obtain ⟨henters, -⟩ | ⟨s₀, hold, -⟩ := hquiet.inPipe r a _ s hact
  · cases e with
    | write p fd addr =>
      obtain ⟨rfl, hc⟩ := henters
      cases hc
      simp [writing]
    | read p fd len =>
      obtain ⟨-, hc⟩ := henters
      cases hc
    | _ => exact henters.elim
  · by_cases hwrite : ∃ fd addr, e = .write r fd addr
    · -- a process that is in a pipe makes no system call
      obtain ⟨fd, addr, rfl⟩ := hwrite
      have hcalls : σ.Calls r := by
        unfold Next at hs
        generalize Except.ok σ' = result at hs
        cases hs with
        | write hp => exact hp
      rw [hcalls.2] at hold
      cases hold
    · rw [writing_of_not_enters (hne r) fun fd addr he => hwrite ⟨fd, addr, he⟩]
      exact h a m left s₀ hold

theorem Underway.turn {r : Fin n} {w : List UInt8 × List UInt8} {b : Addr} {c : Call} (h : Underway σ r w)
    (hcall : (σ.procs p).act = .inPipe b c false) (hturn : σ.turn p b c = .ok σ') :
    Underway σ' r (writing r w (σ, .turn p)) := by
  intro a m left s hact
  obtain ⟨q, hq, -, -⟩ := turn_eq hturn
  obtain ⟨rfl, rfl, hresult⟩ | ⟨hr, s₀, hold, -⟩ := (turn_inPipe hturn hq hact).1
  · have hwriting : writing r w (σ, .turn r) = (w.1, w.2 ++ (c.turn q (σ.procs r).killed).moved) := by
      simp only [writing, turnOf_eq hcall hq, if_true, Option.elim_some]
    rw [hwriting]
    cases c with
    | read len =>
      obtain ⟨hw, -⟩ := turn_waits hresult
      cases hw
    | write m₁ left₁ =>
      obtain ⟨rfl, hput⟩ := h b m₁ left₁ false hcall
      obtain ⟨rest, hsplit, ⟨hreturns, -⟩ | ⟨hreturns | hgo, -⟩⟩ := pipewrite_accounted q (σ.procs r).killed hput
      · rw [hresult] at hreturns
        cases hreturns
      · rw [hresult] at hreturns
        cases hreturns
      · rw [hresult] at hgo
        cases hgo
        exact ⟨rfl, hsplit⟩
  · rw [writing_of_not_enters (fun he => hr (Event.turn.inj he).symm) nofun]
    exact h a m left s₀ hold

/-- A call of `pipewrite` goes on with what is left of the same bytes. -/
theorem Next.underway (hs : Next σ e σ') {r : Fin n} {w : List UInt8 × List UInt8} (h : Underway σ r w) :
    Underway σ' r (writing r w (σ, e)) := by
  cases hs.effect with
  | quiet hne hquiet => exact h.quiet hs hne hquiet
  | turn hcall hturn => exact h.turn hcall hturn
  | pipeclose hclose =>
    intro a m left s hact
    obtain ⟨s₀, hold, -⟩ := pipeclose_inPipe hclose hact
    exact h a m left s₀ hold

/-! ## Sleepers -/

/-- A step in which `pipewrite` gives up after it has put bytes into the pipe. -/
def System.abandons (σ : System n) (a : Addr) : Event n → Bool
  | .turn p =>
    match (σ.procs p).act, σ.pipes a with
    | .inPipe a' c false, some q =>
      a' = a && c.writes && !(c.turn q (σ.procs p).killed).wakes && (c.turn q (σ.procs p).killed).moved ≠ []
    | _, _ => false
  | _ => false

/-- The calls at one end of the pipe that are asleep have something to wait for. -/
def Settled (σ : System n) (a : Addr) (w : Bool) : Prop :=
  ∀ p c, (σ.procs p).act = .inPipe a c true → c.writes = w →
    (σ.procs p).killed = false ∧ ∃ q, σ.pipes a = some q ∧ c.Waits q

/-- A call waits only as long as the other end is open. -/
theorem Call.Waits.isOpen {c : Call} (h : c.Waits q) : q.isOpen (!c.writes) = true := by
  cases c with
  | write n left => exact h.2
  | read n => exact h.2

/-- When its own end is closed, a call goes on waiting, and the pipe is not freed. -/
theorem Call.Waits.pipeclose {c : Call} (h : c.Waits q) : c.Waits (Pipes.pipeclose q c.writes) ∧
    ¬ (!(Pipes.pipeclose q c.writes).readopen && !(Pipes.pipeclose q c.writes).writeopen) = true := by
  cases c with
  | write n left => exact ⟨h, by simp [Pipes.pipeclose, Call.writes, h.2]⟩
  | read n => exact ⟨h, by simp [Pipes.pipeclose, Call.writes, h.2]⟩

/-- A turn that wakes nobody up has moved nothing, unless `pipewrite` has given up. -/
theorem moved_of_not_abandons {c : Call} (hcall : (σ.procs p).act = .inPipe a c false) (hq : σ.pipes a = some q)
    (hquiet : (c.turn q (σ.procs p).killed).wakes = false)
    (hok : c.writes = true → σ.abandons a (.turn p) = false) : (c.turn q (σ.procs p).killed).moved = [] := by
  cases hc : c.writes with
  | false => exact moved_of_not_wakes hquiet hc
  | true => simpa [System.abandons, hcall, hq, hc, hquiet] using hok hc

theorem Settled.turn {w : Bool} {b : Addr} {c₁ : Call} (h : Settled σ a w)
    (hcall : (σ.procs p).act = .inPipe b c₁ false) (hturn : σ.turn p b c₁ = .ok σ')
    (hok : w = false → σ.abandons a (.turn p) = false) : Settled σ' a w := by
  intro r c hact hw
  obtain ⟨q, hq, hpipes, hprocs⟩ := turn_eq hturn
  obtain ⟨hwho, hasleep⟩ := turn_inPipe hturn hq hact
  rw [(hprocs r).1, hpipes]
  obtain ⟨rfl, rfl, hsleeps⟩ | ⟨-, s₀, hold, hs⟩ := hwho
  · obtain ⟨-, hwaits, hkilled⟩ := turn_waits hsleeps
    exact ⟨hkilled, _, Function.update_self _ _ _, hwaits⟩
  · obtain rfl := hs rfl
    obtain ⟨hkilled, q₀, hq₀, hwaits⟩ := h r c hold hw
    refine ⟨hkilled, ?_⟩
    by_cases hb : b = a
    · subst hb
      rw [hq] at hq₀
      cases hq₀
      refine ⟨_, Function.update_self _ _ _, hwaits.turn ?_⟩
      by_cases hside : c₁.writes = c.writes
      · exact .inl hside
      · have hother : c.writes = !c₁.writes := Bool.eq_not.2 (Ne.symm hside)
        have hquiet := Bool.eq_false_iff.2 fun hwakes => hasleep rfl hwakes ⟨rfl, hother⟩
        refine .inr (moved_of_not_abandons hcall hq hquiet fun hwrites => hok ?_)
        rw [← hw, hother, hwrites]
        rfl
    · rw [Function.update_of_ne (Ne.symm hb)]
      exact ⟨q₀, hq₀, hwaits⟩

theorem Settled.pipeclose {w w₁ : Bool} {b : Addr} {rest : List (Fin nfile)} (h : Settled σ a w)
    (hclose : (σ.setAct p (.leaving none rest)).pipeclose b w₁ = .ok σ') : Settled σ' a w := by
  intro r c hact hw
  obtain ⟨q, hq, hpipes, hprocs⟩ := pipeclose_eq hclose
  obtain ⟨s₀, hold, hs⟩ := pipeclose_inPipe hclose hact
  obtain ⟨rfl, hnot⟩ := hs rfl
  obtain ⟨hfree, q₀, hq₀, hwaits⟩ := h r c hold hw
  refine ⟨(hprocs r).1.trans hfree, ?_⟩
  rw [hpipes]
  by_cases hb : b = a
  · subst hb
    rw [hq] at hq₀
    cases hq₀
    -- the end that is closed is the one of the sleeper, who waits for the other one
    obtain rfl : c.writes = w₁ := by
      by_contra hside
      exact hnot ⟨rfl, Bool.eq_not.2 hside⟩
    obtain ⟨hstill, hopen⟩ := hwaits.pipeclose
    exact ⟨_, by rw [Function.update_self, if_neg hopen], hstill⟩
  · rw [Function.update_of_ne (Ne.symm hb)]
    exact ⟨q₀, hq₀, hwaits⟩

theorem Next.settled (hs : Next σ e σ') {w : Bool} (hok : w = false → σ.abandons a e = false) (h : Settled σ a w) :
    Settled σ' a w := by
  cases hs.effect with
  | quiet _ hquiet =>
    intro r c hact hw
    obtain ⟨hold, hkilled⟩ := hquiet.asleep hact
    obtain ⟨hnot, q, hq, hwaits⟩ := h r c hold hw
    exact ⟨hkilled.trans hnot, q, hquiet.pipes a q hq, hwaits⟩
  | turn hcall hturn => exact h.turn hcall hturn hok
  | pipeclose hclose => exact h.pipeclose hclose

end CS1550.Pipes
