/-
What the functions of `lab3/xv6-public/proc.c` do to the processes' states, numbers and parents, for all calls
that the running process can make. Most of them move processes between SLEEPING, RUNNABLE and RUNNING and change
nothing else (`Rescheduled`); `fork` and a `wait` that finds a child change one slot (`Changed`), and `exit`
passes the children on (`Exited`). `Table.call_effect` puts them together.
-/
import CS1550.Xv6.Priority

namespace CS1550.Xv6

variable {n : Nat}

/-- A process that has been created and has not exited. -/
def ProcState.Live (s : ProcState) : Prop := s = .sleeping ∨ s = .runnable ∨ s = .running

instance (s : ProcState) : Decidable s.Live := inferInstanceAs (Decidable (_ ∨ _))

/-- A slot that holds a live process before and after, or is in the same state. -/
def ProcState.Alike (s s' : ProcState) : Prop := s' = s ∨ s.Live ∧ s'.Live

theorem ProcState.Alike.live {s s' : ProcState} (h : s.Alike s') : s'.Live ↔ s.Live := by
  rcases h with rfl | ⟨h1, h2⟩
  · rfl
  · exact ⟨fun _ => h1, fun _ => h2⟩

theorem ProcState.Alike.eq_iff {s s' r : ProcState} (h : s.Alike s') (hr : ¬ r.Live) : s' = r ↔ s = r := by
  rcases h with rfl | ⟨h1, h2⟩
  · rfl
  · constructor
    · rintro rfl
      exact absurd h2 hr
    · rintro rfl
      exact absurd h1 hr

theorem ProcState.Live.ne_unused {s : ProcState} (h : s.Live) : s ≠ .unused := by
  rintro rfl
  exact absurd h (by decide)

variable {t t' : Table n} {p q c : Fin n}

theorem procs_update (t : Table n) (p q : Fin n) (f : Proc n → Proc n) :
    (t.update p f).procs q = if q = p then f (t.procs p) else t.procs q := by
  by_cases h : q = p
  · subst h
    rw [procs_update_self, if_pos rfl]
  · rw [procs_update_of_ne h, if_neg h]

/-! ## Calls that only reschedule -/

/-- Nothing has changed but which of the live processes sleep, and on what, and which of them run. -/
structure Rescheduled (t t' : Table n) : Prop where
  nextpid : t'.nextpid = t.nextpid
  initproc : t'.initproc = t.initproc
  slot : ∀ q, (t'.procs q).pid = (t.procs q).pid ∧ (t'.procs q).parent = (t.procs q).parent ∧
    (t'.procs q).np = (t.procs q).np
  state : ∀ q, (t.procs q).state.Alike (t'.procs q).state

theorem Rescheduled.refl (t : Table n) : Rescheduled t t := ⟨rfl, rfl, fun _ => ⟨rfl, rfl, rfl⟩, fun _ => .inl rfl⟩

theorem Rescheduled.update {f : Proc n → Proc n}
    (hslot : ∀ x, (f x).pid = x.pid ∧ (f x).parent = x.parent ∧ (f x).np = x.np)
    (hstate : (t.procs p).state.Alike (f (t.procs p)).state) :
    Rescheduled t (t.update p f) := by
  refine ⟨rfl, rfl, fun q => ?_, fun q => ?_⟩
  · rw [procs_update]
    split
    · rename_i hq
      exact hq ▸ hslot _
    · exact ⟨rfl, rfl, rfl⟩
  · rw [procs_update]
    split
    · rename_i hq
      exact hq ▸ hstate
    · exact .inl rfl

theorem rescheduled_wakeup1 (t : Table n) (chan : Option (Chan n)) : Rescheduled t (t.wakeup1 chan) := by
  refine ⟨rfl, rfl, fun q => ?_, fun q => ?_⟩
  · rw [wakeup1_slot]
    exact ⟨rfl, rfl, rfl⟩
  · rw [state_wakeup1]
    split
    · rename_i hsleeps
      exact .inr ⟨.inl hsleeps.1, .inr (.inl rfl)⟩
    · exact .inl rfl

theorem rescheduled_kill (t : Table n) (pid : Int) : Rescheduled t (t.kill pid).2 := by
  unfold Table.kill
  split
  · exact .refl t
  · rename_i p hp
    dsimp only
    refine .update (fun x => ⟨by rfl, by rfl, by rfl⟩) ?_
    dsimp only
    split
    · rename_i hsleep
      exact .inr ⟨.inl hsleep, .inr (.inl rfl)⟩
    · exact .inl rfl

/-! ## Calls that change a slot -/

theorem allocproc_eq (h : t.allocproc = some (c, t')) : (t.procs c).state = .unused ∧
    t' = { t.update c fun x => { x with state := .embryo, pid := t.nextpid, priority := 50 } with
      nextpid := (t.nextpid + 1).bmod (2 ^ 32) } := by
  obtain ⟨c', hc, heq⟩ := Option.map_eq_some_iff.1 h
  obtain ⟨rfl, rfl⟩ := Prod.mk.injEq .. ▸ heq
  have hfree := List.find?_some hc
  exact ⟨by simpa using hfree, rfl⟩

theorem allocproc_isSome (h : (t.procs c).state = .unused) : t.allocproc.isSome := by
  unfold Table.allocproc
  rw [Option.isSome_map, List.find?_isSome]
  exact ⟨c, List.mem_finRange c, by simpa using h⟩

/-- An `int` that has not come round. -/
theorem nextpid_succ {m : Int} (hpos : 0 ≤ m) (hlt : m + 1 < 2 ^ 31) : (m + 1).bmod (2 ^ 32) = m + 1 :=
  Int.bmod_eq_of_le (by omega) (by omega)

/-- The slots after a step that changes the slot `c` and the `np` of `p`. -/
structure Changed (t : Table n) (p c : Fin n) (state : ProcState) (pid : Int) (parent np : Option (Fin n))
    (t' : Table n) : Prop where
  initproc : t'.initproc = t.initproc
  state : ∀ q, (t'.procs q).state = if q = c then state else (t.procs q).state
  pid : ∀ q, (t'.procs q).pid = if q = c then pid else (t.procs q).pid
  parent : ∀ q, (t'.procs q).parent = if q = c then parent else (t.procs q).parent
  np : ∀ q, (t'.procs q).np = if q = p then np else (t.procs q).np
  chan : ∀ q, (t'.procs q).chan = (t.procs q).chan

theorem changed_update {f : Proc n → Proc n} (hf : ∀ x, (f x).np = x.np ∧ (f x).chan = x.chan) :
    Changed t p c (f (t.procs c)).state (f (t.procs c)).pid (f (t.procs c)).parent (t.procs p).np (t.update c f) := by
  refine ⟨rfl, ?_, ?_, ?_, ?_, ?_⟩
  all_goals
    intro q
    rw [procs_update]
    split <;> simp_all

theorem Changed.fork {s : ProcState} {pid : Int} {parent np np' : Option (Fin n)}
    (h : Changed t p c s pid parent np t') (m : Int) :
    Changed t p c s pid parent np' (Table.update { t' with nextpid := m } p fun x => { x with np := np' }) := by
  obtain ⟨h1, h2, h3, h4, h5, h6⟩ := h
  refine ⟨h1, ?_, ?_, ?_, ?_, ?_⟩
  all_goals
    intro q
    rw [procs_update]
    split <;> simp_all

/-! ## Exiting -/

/-- Among the slots of `l` there is a child of `p` that has exited. -/
def Table.Orphans (t : Table n) (p : Fin n) (l : List (Fin n)) : Prop :=
  ∃ c ∈ l, (t.procs c).parent = some p ∧ (t.procs c).state = .zombie

/-- The table after `reparent` has visited the slots of `l`. -/
structure Passed (t : Table n) (p : Fin n) (l : List (Fin n)) (t' : Table n) : Prop where
  nextpid : t'.nextpid = t.nextpid
  initproc : t'.initproc = t.initproc
  slot : ∀ q, (t'.procs q).pid = (t.procs q).pid ∧ (t'.procs q).np = (t.procs q).np ∧ (t'.procs q).chan = (t.procs q).chan
  parent : ∀ q, (t'.procs q).parent =
    if q ∈ l ∧ (t.procs q).parent = some p then t.initproc else (t.procs q).parent
  kept : ∀ q, (t.procs q).state ≠ .sleeping → (t'.procs q).state = (t.procs q).state
  asleep : ∀ q, (t'.procs q).state = .sleeping → (t.procs q).state = .sleeping ∧
    (t.Orphans p l → (t.procs q).chan ≠ t.initproc.map .proc)
  live : ∀ q, (t.procs q).state.Live → (t'.procs q).state.Live

theorem passed_nil (t : Table n) (p : Fin n) : Passed t p [] t := by
  refine ⟨rfl, rfl, fun _ => ⟨rfl, rfl, rfl⟩, fun q => ?_, fun _ _ => rfl, fun q hq => ⟨hq, ?_⟩, fun _ hq => hq⟩
  · simp
  · rintro ⟨c, hc, -⟩
    cases hc

theorem Passed.trans {t₁ t₂ : Table n} {l : List (Fin n)} (h : Passed t p [c] t₁) (h' : Passed t₁ p l t₂) :
    Passed t p (c :: l) t₂ := by
  refine ⟨h'.nextpid.trans h.nextpid, h'.initproc.trans h.initproc, fun q => ?_, fun q => ?_, fun q hq => ?_,
    fun q hq => ?_, fun q hq => h'.live q (h.live q hq)⟩
  · obtain ⟨h1, h2, h3⟩ := h.slot q
    obtain ⟨h1', h2', h3'⟩ := h'.slot q
    exact ⟨h1'.trans h1, h2'.trans h2, h3'.trans h3⟩
  · rw [h'.parent, h.parent, h.initproc]
    by_cases hqp : (t.procs q).parent = some p
    · by_cases hqc : q = c
      · subst hqc
        simp [hqp]
      · simp [hqp, hqc]
    · simp [hqp]
  · rw [h'.kept q (by rwa [h.kept q hq]), h.kept q hq]
  · obtain ⟨hq₁, hwoken⟩ := h'.asleep q hq
    obtain ⟨hq₀, hwoken₀⟩ := h.asleep q hq₁
    refine ⟨hq₀, ?_⟩
    rw [(h.slot q).2.2, h.initproc] at hwoken
    rintro ⟨d, hd, hparent, hzombie⟩
    by_cases hdc : d = c
    · exact hwoken₀ ⟨d, by simp [hdc], hparent, hzombie⟩
    · have hd : d ∈ l := (List.mem_cons.1 hd).resolve_left hdc
      refine hwoken ⟨d, hd, ?_, ?_⟩
      · rw [h.parent, if_neg (by simp [hdc]), hparent]
      · rw [h.kept d (by rw [hzombie]; decide), hzombie]

/-- A child that has exited wakes init, if that one sleeps in `wait`. -/
theorem passed_slot (hparent : (t.procs c).parent = some p) :
    ((t.procs c).state ≠ .zombie → Passed t p [c] (t.update c fun x => { x with parent := t.initproc })) ∧
      Passed t p [c] ((t.update c fun x => { x with parent := t.initproc }).wakeup1 (t.initproc.map .proc)) := by
  have hslot : ∀ q, (t.update c fun x => { x with parent := t.initproc }).procs q =
      { t.procs q with parent := if q ∈ [c] ∧ (t.procs q).parent = some p then t.initproc else (t.procs q).parent } := by
    intro q
    rw [procs_update]
    split
    · rename_i hq
      simp [hq, hparent]
    · rename_i hq
      simp [hq]
  constructor
  · intro hz
    refine ⟨rfl, rfl, fun q => ?_, fun q => ?_, fun q hq => ?_, fun q hq => ⟨?_, ?_⟩, fun q hq => ?_⟩
    · rw [hslot]
      exact ⟨rfl, rfl, rfl⟩
    · rw [hslot]
    · rw [hslot]
    · rwa [hslot] at hq
    · rintro ⟨d, hd, -, hzombie⟩
      rw [List.mem_singleton.1 hd] at hzombie
      exact absurd hzombie hz
    · rwa [hslot]
  · have hsleeps : ∀ q, (t.update c fun x => { x with parent := t.initproc }).SleepsOn q (t.initproc.map .proc) ↔
        t.SleepsOn q (t.initproc.map .proc) := by
      intro q
      rw [Table.SleepsOn, hslot]
      rfl
    refine ⟨rfl, rfl, fun q => ?_, fun q => ?_, fun q hq => ?_, fun q hq => ?_, fun q hq => ?_⟩
    · rw [wakeup1_slot, hslot]
      exact ⟨rfl, rfl, rfl⟩
    · rw [wakeup1_slot, hslot]
    · rw [state_wakeup1, if_neg fun h => hq ((hsleeps q).1 h).1, hslot]
    · rw [state_wakeup1] at hq
      split at hq
      · cases hq
      · rename_i hnot
        rw [hslot] at hq
        exact ⟨hq, fun _ hchan => hnot ((hsleeps q).2 ⟨hq, hchan⟩)⟩
    · rw [state_wakeup1]
      split
      · exact .inr (.inl rfl)
      · rwa [hslot]

theorem passed_reparent (t : Table n) (p : Fin n) : Passed t p (List.finRange n) (t.reparent p) := by
  unfold Table.reparent
  generalize List.finRange n = l
  induction l generalizing t with
  | nil => exact passed_nil t p
  | cons c l ih =>
    rw [List.foldl_cons]
    refine Passed.trans ?_ (ih _)
    split
    · rename_i hparent
      obtain ⟨hmoved, hwoken⟩ := passed_slot hparent
      dsimp only
      split
      · exact hwoken
      · rename_i hz
        rw [procs_update_self] at hz
        exact hmoved hz
    · rename_i hparent
      refine ⟨rfl, rfl, fun _ => ⟨rfl, rfl, rfl⟩, fun q => ?_, fun _ _ => rfl, fun q hq => ⟨hq, ?_⟩, fun _ hq => hq⟩
      · by_cases hqc : q = c
        · subst hqc
          simp [hparent]
        · simp [hqc]
      · rintro ⟨d, hd, hd', -⟩
        rw [List.mem_singleton.1 hd] at hd'
        exact absurd hd' hparent

/-- The table when `p` has exited, as compared with the one in which its parent is awake. -/
structure Exited (t : Table n) (p : Fin n) (t' : Table n) : Prop where
  nextpid : t'.nextpid = t.nextpid
  initproc : t'.initproc = t.initproc
  slot : ∀ q, (t'.procs q).pid = (t.procs q).pid ∧ (t'.procs q).np = (t.procs q).np ∧ (t'.procs q).chan = (t.procs q).chan
  parent : ∀ q, (t'.procs q).parent = if (t.procs q).parent = some p then t.initproc else (t.procs q).parent
  zombie : (t'.procs p).state = .zombie
  state : ∀ q, q ≠ p → (t.procs q).state.Alike (t'.procs q).state
  asleep : ∀ q, (t'.procs q).state = .sleeping → (t.procs q).state = .sleeping ∧
    ((∃ c, (t.procs c).parent = some p ∧ (t.procs c).state = .zombie) → (t.procs q).chan ≠ t.initproc.map .proc)

theorem exited_reparent (t : Table n) (p : Fin n) :
    Exited t p ((t.reparent p).update p fun x => { x with state := .zombie }) := by
  have hpass := passed_reparent t p
  have hslot : ∀ q, ((t.reparent p).update p fun x => { x with state := .zombie }).procs q =
      { (t.reparent p).procs q with state := if q = p then .zombie else ((t.reparent p).procs q).state } := by
    intro q
    rw [procs_update]
    split
    · rename_i hq
      rw [hq]
    · rfl
  refine ⟨hpass.nextpid, hpass.initproc, fun q => ?_, fun q => ?_, ?_, fun q hq => ?_, fun q hq => ?_⟩
  · rw [hslot]
    exact hpass.slot q
  · rw [hslot, hpass.parent]
    simp
  · rw [hslot]
    exact if_pos rfl
  · rw [hslot]
    dsimp only
    rw [if_neg hq]
    by_cases hsleep : (t.procs q).state = .sleeping
    · exact .inr ⟨.inl hsleep, hpass.live q (.inl hsleep)⟩
    · exact .inl (hpass.kept q hsleep)
  · rw [hslot] at hq
    dsimp only at hq
    split at hq
    · cases hq
    · obtain ⟨hsleep, hwoken⟩ := hpass.asleep q hq
      refine ⟨hsleep, ?_⟩
      rintro ⟨c, hparent, hz⟩
      exact hwoken ⟨c, List.mem_finRange c, hparent, hz⟩

/-! ## All calls -/

/-- What the kernel's code keeps to: only `wait` sleeps on a process, and a process in the middle of `fork`
makes no other call, though it can lose the processor. -/
def Call.Proper (x : Proc n) : Call n → Prop
  | .yield => True
  | .forkEnd => True
  | .forkFail => True
  | .sleep (.proc _) => False
  | _ => x.np = none

instance (x : Proc n) : (c : Call n) → Decidable (c.Proper x)
  | .yield => isTrue trivial
  | .forkEnd => isTrue trivial
  | .forkFail => isTrue trivial
  | .sleep (.proc _) => isFalse id
  | .sleep (.other _) => inferInstanceAs (Decidable (x.np = none))
  | .exit => inferInstanceAs (Decidable (x.np = none))
  | .wait => inferInstanceAs (Decidable (x.np = none))
  | .forkBegin => inferInstanceAs (Decidable (x.np = none))
  | .wakeup _ => inferInstanceAs (Decidable (x.np = none))
  | .kill _ => inferInstanceAs (Decidable (x.np = none))
  | .setpriority _ => inferInstanceAs (Decidable (x.np = none))

/-- The call of the running process is one that it can make. -/
def Proper (k : Kernel n) (e : Event n) : Prop :=
  match k.phase, e with
  | .running p _, .call c => c.Proper (k.table.procs p)
  | _, _ => True

instance : (k : Kernel n) → (e : Event n) → Decidable (Proper k e)
  | ⟨t, .running p _⟩, .call c => inferInstanceAs (Decidable (c.Proper (t.procs p)))
  | ⟨_, .running _ _⟩, .scan => isTrue trivial
  | ⟨_, .running _ _⟩, .visit => isTrue trivial
  | ⟨_, .running _ _⟩, .interrupt _ => isTrue trivial
  | ⟨_, .top⟩, _ => isTrue trivial
  | ⟨_, .second _ _⟩, _ => isTrue trivial

/-- No process begins to sleep on itself, but `p` may, if it has children and none that has exited. -/
def NoNewWait (t : Table n) (p : Fin n) (t' : Table n) : Prop :=
  ∀ q, t'.SleepsOn q (some (.proc q)) → t.SleepsOn q (some (.proc q)) ∨
    q = p ∧ (∃ c, (t.procs c).parent = some p) ∧ ∀ c, (t.procs c).parent = some p → (t.procs c).state ≠ .zombie

/-- What a call of `p` has done. -/
inductive Effect (t : Table n) (p : Fin n) (t' : Table n) : Call n → Prop
  | rescheduled {a : Call n} (h : Rescheduled t t') (hw : NoNewWait t p t') (hfork : a ≠ .forkEnd) (hexit : a ≠ .exit)
    (hwait : a = .wait → ∀ pid ∈ (t.wait p).1, pid = -1) : Effect t p t' a
  | began {c : Fin n} (hfree : (t.procs c).state = .unused) (hnext : t'.nextpid = (t.nextpid + 1).bmod (2 ^ 32))
    (h : Changed t p c .embryo t.nextpid (t.procs c).parent (some c) t') : Effect t p t' .forkBegin
  | forked {c : Fin n} (hnp : (t.procs p).np = some c) (hnext : t'.nextpid = t.nextpid)
    (h : Changed t p c .runnable (t.procs c).pid (some p) none t') : Effect t p t' .forkEnd
  | failed {c : Fin n} (hnp : (t.procs p).np = some c) (hnext : t'.nextpid = t.nextpid)
    (h : Changed t p c .unused (t.procs c).pid (t.procs c).parent none t') : Effect t p t' .forkFail
  | reaped {c : Fin n} (hparent : (t.procs c).parent = some p) (hzombie : (t.procs c).state = .zombie)
    (hpid : (t.wait p).1 = some (t.procs c).pid) (hnext : t'.nextpid = t.nextpid)
    (h : Changed t p c .unused 0 none (t.procs p).np t') : Effect t p t' .wait
  | exited (hinit : t.initproc ≠ some p) (h : Exited (t.wakeup1 ((t.procs p).parent.map .proc)) p t') : Effect t p t' .exit

theorem noNewWait_wakeup1 (t : Table n) (p : Fin n) (chan : Option (Chan n)) : NoNewWait t p (t.wakeup1 chan) := by
  rintro q ⟨hsleep, hchan⟩
  rw [wakeup1_slot] at hchan
  rw [state_wakeup1] at hsleep
  split at hsleep
  · cases hsleep
  · exact .inl ⟨hsleep, hchan⟩

theorem noNewWait_update {f : Proc n → Proc n} (hf : (f (t.procs c)).state = .sleeping →
    (f (t.procs c)).chan = some (.proc c) → t.SleepsOn c (some (.proc c)) ∨
      c = p ∧ (∃ d, (t.procs d).parent = some p) ∧ ∀ d, (t.procs d).parent = some p → (t.procs d).state ≠ .zombie) :
    NoNewWait t p (t.update c f) := by
  rintro q ⟨hsleep, hchan⟩
  rw [procs_update] at hsleep hchan
  split at hsleep
  · rename_i hq
    subst hq
    rw [if_pos rfl] at hchan
    exact hf hsleep hchan
  · rename_i hq
    rw [if_neg hq] at hchan
    exact .inl ⟨hsleep, hchan⟩

/-- A call that changes the slot of a live process. -/
theorem effect_update {a : Call n} {f : Proc n → Proc n}
    (hslot : ∀ x, (f x).pid = x.pid ∧ (f x).parent = x.parent ∧ (f x).np = x.np)
    (hstate : (t.procs c).state.Alike (f (t.procs c)).state)
    (hw : (f (t.procs c)).state = .sleeping → (f (t.procs c)).chan = some (.proc c) → t.SleepsOn c (some (.proc c)))
    (hfork : a ≠ .forkEnd) (hexit : a ≠ .exit) (hwait : a ≠ .wait) : Effect t p (t.update c f) a :=
  .rescheduled (.update hslot hstate) (noNewWait_update fun hs hc => .inl (hw hs hc)) hfork hexit
    fun h => absurd h hwait

theorem effect_same (t : Table n) (p : Fin n) {a : Call n} (hfork : a ≠ .forkEnd) (hexit : a ≠ .exit)
    (hwait : a = .wait → ∀ pid ∈ (t.wait p).1, pid = -1) : Effect t p t a :=
  .rescheduled (.refl t) (fun _ h => .inl h) hfork hexit hwait

theorem effect_kill (t : Table n) (p : Fin n) (pid : Int) : Effect t p (t.kill pid).2 (.kill pid) := by
  refine .rescheduled (rescheduled_kill t pid) ?_ (by simp) (by simp) (by simp)
  unfold Table.kill
  split
  · exact fun _ h => .inl h
  · dsimp only
    refine noNewWait_update fun hsleep _ => ?_
    dsimp only at hsleep
    split at hsleep
    · cases hsleep
    · contradiction

theorem effect_setpriority (hp : (t.procs p).state = .running) (v : Int) :
    Effect t p (t.setpriority p v).2.2 (.setpriority v) := by
  unfold Table.setpriority
  split
  · exact effect_same t p (by simp) (by simp) (by simp)
  · dsimp only
    split
    · have heq : (t.update p fun x => { x with priority := v }).yield p =
          t.update p fun x => { x with priority := v, state := .runnable } := by
        simp [Table.yield, Table.update]
      dsimp only
      rw [heq]
      exact effect_update (f := fun x => { x with priority := v, state := .runnable }) (fun _ => ⟨rfl, rfl, rfl⟩)
        (.inr ⟨.inr (.inr hp), .inr (.inl rfl)⟩) (fun hsleep => by cases hsleep) (by simp) (by simp) (by simp)
    · exact effect_update (f := fun x => { x with priority := v }) (fun _ => ⟨rfl, rfl, rfl⟩) (.inl rfl)
        (fun hsleep hchan => ⟨hsleep, hchan⟩) (by simp) (by simp) (by simp)

theorem effect_forkBegin (t : Table n) (p : Fin n) : Effect t p (t.forkBegin p) .forkBegin := by
  unfold Table.forkBegin
  split
  · exact effect_same t p (by simp) (by simp) (by simp)
  · rename_i c t₁ halloc
    obtain ⟨hfree, rfl⟩ := allocproc_eq halloc
    exact .began hfree rfl ((changed_update (f := fun x => { x with state := .embryo, pid := t.nextpid, priority := 50 })
      fun _ => ⟨rfl, rfl⟩).fork ((t.nextpid + 1).bmod (2 ^ 32)))

theorem effect_wait (hp : (t.procs p).state = .running) : Effect t p (t.wait p).2 .wait := by
  cases hfind : (List.finRange n).find? fun q => (t.procs q).parent = some p ∧ (t.procs q).state = .zombie with
  | some c =>
    have hchild := List.find?_some hfind
    simp only [decide_eq_true_eq] at hchild
    have hwait : t.wait p = (some (t.procs c).pid, t.update c fun x =>
        { x with pid := 0, parent := none, killed := false, state := .unused }) := by
      unfold Table.wait
      rw [hfind]
    rw [hwait]
    exact .reaped hchild.1 hchild.2 (by rw [hwait]) rfl (changed_update
      (f := fun x => { x with pid := 0, parent := none, killed := false, state := .unused }) fun _ => ⟨rfl, rfl⟩)
  | none =>
    have hnone : ∀ q, (t.procs q).parent = some p → (t.procs q).state ≠ .zombie := by
      intro q hq hz
      have := List.find?_eq_none.1 hfind q (List.mem_finRange q)
      simp [hq, hz] at this
    by_cases hback : (¬ ∃ q, (t.procs q).parent = some p) ∨ (t.procs p).killed
    · have hwait : t.wait p = (some (-1), t) := by
        unfold Table.wait
        rw [hfind]
        exact if_pos hback
      rw [hwait]
      refine effect_same t p (by simp) (by simp) fun _ pid hpid => ?_
      rw [hwait] at hpid
      exact (Option.some.inj hpid).symm
    · have hwait : t.wait p = (none, t.sleep p (.proc p)) := by
        unfold Table.wait
        rw [hfind]
        exact if_neg hback
      rw [hwait]
      dsimp only [Table.sleep]
      refine .rescheduled (.update (f := fun x => { x with chan := some (.proc p), state := .sleeping })
        (fun _ => ⟨rfl, rfl, rfl⟩) (.inr ⟨.inr (.inr hp), .inl rfl⟩)) (noNewWait_update fun _ _ => .inr ⟨rfl, ?_, hnone⟩)
        (by simp) (by simp) fun _ pid hpid => ?_
      · rw [not_or, not_not] at hback
        exact hback.1
      · rw [hwait] at hpid
        cases hpid

/-- The calls that the code can make. -/
theorem Table.call_effect {a : Call n} {sched : Bool} (hp : (t.procs p).state = .running) (hproper : a.Proper (t.procs p))
    (h : t.call p a = some (sched, t')) : Effect t p t' a := by
  cases a with
  | yield =>
    cases h
    exact effect_update (f := fun x => { x with state := .runnable }) (fun _ => ⟨rfl, rfl, rfl⟩)
      (.inr ⟨.inr (.inr hp), .inr (.inl rfl)⟩) (fun hsleep => by cases hsleep) (by simp) (by simp) (by simp)
  | sleep chan =>
    cases chan with
    | proc q => exact hproper.elim
    | other address =>
      cases h
      exact effect_update (f := fun x => { x with chan := some (.other address), state := .sleeping })
        (fun _ => ⟨rfl, rfl, rfl⟩) (.inr ⟨.inr (.inr hp), .inl rfl⟩) (fun _ hchan => by cases hchan)
        (by simp) (by simp) (by simp)
  | exit =>
    obtain ⟨t₁, hexit, heq⟩ := Option.map_eq_some_iff.1 h
    cases heq
    unfold Table.exit at hexit
    split at hexit
    · cases hexit
    · rename_i hinit
      cases hexit
      exact .exited hinit (exited_reparent _ p)
  | wait =>
    cases h
    exact effect_wait hp
  | forkBegin =>
    cases h
    exact effect_forkBegin t p
  | forkEnd =>
    obtain ⟨c, hnp, heq⟩ := Option.map_eq_some_iff.1 h
    cases heq
    exact .forked hnp rfl ((changed_update (f := fun x => { x with parent := some p, state := .runnable })
      fun _ => ⟨rfl, rfl⟩).fork t.nextpid)
  | forkFail =>
    obtain ⟨c, hnp, heq⟩ := Option.map_eq_some_iff.1 h
    cases heq
    exact .failed hnp rfl ((changed_update (f := fun x => { x with state := .unused }) fun _ => ⟨rfl, rfl⟩).fork t.nextpid)
  | wakeup chan =>
    cases h
    exact .rescheduled (rescheduled_wakeup1 t _) (noNewWait_wakeup1 t p _) (by simp) (by simp) (by simp)
  | kill pid =>
    cases h
    exact effect_kill t p pid
  | setpriority v =>
    cases h
    exact effect_setpriority hp v

end CS1550.Xv6
