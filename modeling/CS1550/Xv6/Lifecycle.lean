/-
Every process of `lab3/xv6-public/proc.c` goes through `fork`, `exit` and its parent's `wait` once, in this
order: the calls that a run has made account for the processes that are there (`Accounts`). No process is lost,
and none is waited for twice.
-/
import CS1550.Xv6.Family
import Mathlib.Data.List.Nodup

namespace CS1550.Xv6

variable {n : Nat}

/-! ## What a run has returned -/

/-- The `pid` that `fork` returns. -/
def Kernel.forked (k : Kernel n) (e : Event n) : Option Int :=
  match k.phase, e with
  | .running p _, .call .forkEnd => (k.table.procs p).np.map fun np => (k.table.forkEnd p np).1
  | _, _ => none

/-- The `pid` of the process that exits. -/
def Kernel.exited (k : Kernel n) (e : Event n) : Option Int :=
  match k.phase, e with
  | .running p _, .call .exit => some (k.table.procs p).pid
  | _, _ => none

/-- The `pid` that `wait` returns, if it has found a child. -/
def Kernel.reaped (k : Kernel n) (e : Event n) : Option Int :=
  match k.phase, e with
  | .running p _, .call .wait => (k.table.wait p).1.filter (· ≠ -1)
  | _, _ => none

/-- The `pid`s that calls of `fork` have returned. -/
def forks (h : List (Kernel n × Event n)) : List Int := h.filterMap fun x => x.1.forked x.2

/-- The `pid`s of the processes that have exited. -/
def exits (h : List (Kernel n × Event n)) : List Int := h.filterMap fun x => x.1.exited x.2

/-- The `pid`s that calls of `wait` have returned. -/
def reaps (h : List (Kernel n × Event n)) : List Int := h.filterMap fun x => x.1.reaped x.2

/-- The processes of the table are those of the lists; init has the `pid` 1 and comes from no `fork`. -/
structure Accounts (F E R : List Int) (t : Table n) : Prop where
  forks : F.Nodup
  exits : E.Nodup
  reaps : R.Nodup
  exits_forks : ∀ v ∈ E, v ∈ F
  reaps_exits : ∀ v ∈ R, v ∈ E
  live : ∀ v, (∃ p, (t.procs p).state.Live ∧ (t.procs p).pid = v) ↔ (v = 1 ∨ v ∈ F) ∧ v ∉ E
  zombie : ∀ v, (∃ p, (t.procs p).state = .zombie ∧ (t.procs p).pid = v) ↔ v ∈ E ∧ v ∉ R
  /-- A `pid` that no `fork` has returned yet. -/
  embryo : ∀ p, (t.procs p).state = .embryo → (t.procs p).pid ≠ 1 ∧ (t.procs p).pid ∉ F
  bound : ∀ v ∈ F, v < t.nextpid

section Steps

variable {F E R : List Int} {t t' : Table n} {p c : Fin n}

theorem Accounts.rescheduled (ha : Accounts F E R t) (h : Rescheduled t t') : Accounts F E R t' := by
  refine ⟨ha.forks, ha.exits, ha.reaps, ha.exits_forks, ha.reaps_exits, fun v => ?_, fun v => ?_, fun q hq => ?_, ?_⟩
  · rw [← ha.live v]
    simp only [(h.slot _).1, (h.state _).live]
  · rw [← ha.zombie v]
    simp only [(h.slot _).1, (h.state _).eq_iff (show ¬ ProcState.zombie.Live by decide)]
  · rw [(h.state q).eq_iff (by decide)] at hq
    rw [(h.slot q).1]
    exact ha.embryo q hq
  · rw [h.nextpid]
    exact ha.bound

section Changed

variable {s : ProcState} {pid : Int} {parent np : Option (Fin n)} (h : Changed t p c s pid parent np t')

include h

/-- The processes of a kind, where only the slot `c` changes. -/
theorem Changed.exists_iff {K : ProcState → Prop} (hc : ¬ K (t.procs c).state) (hs : ¬ K s) (v : Int) :
    (∃ q, K (t'.procs q).state ∧ (t'.procs q).pid = v) ↔ ∃ q, K (t.procs q).state ∧ (t.procs q).pid = v := by
  constructor
  · rintro ⟨q, hq, hv⟩
    rw [h.state] at hq
    rw [h.pid] at hv
    split at hq
    · exact absurd hq hs
    · rw [if_neg ‹_›] at hv
      exact ⟨q, hq, hv⟩
  · rintro ⟨q, hq, hv⟩
    have hqc : q ≠ c := by
      rintro rfl
      exact hc hq
    exact ⟨q, by rwa [h.state, if_neg hqc], by rwa [h.pid, if_neg hqc]⟩

theorem Changed.exists_born {K : ProcState → Prop} (hc : ¬ K (t.procs c).state) (hs : K s) (v : Int) :
    (∃ q, K (t'.procs q).state ∧ (t'.procs q).pid = v) ↔ (∃ q, K (t.procs q).state ∧ (t.procs q).pid = v) ∨ v = pid := by
  constructor
  · rintro ⟨q, hq, hv⟩
    rw [h.state] at hq
    rw [h.pid] at hv
    split at hq
    · rw [if_pos ‹_›] at hv
      exact .inr hv.symm
    · rw [if_neg ‹_›] at hv
      exact .inl ⟨q, hq, hv⟩
  · rintro (⟨q, hq, hv⟩ | rfl)
    · have hqc : q ≠ c := by
        rintro rfl
        exact hc hq
      exact ⟨q, by rwa [h.state, if_neg hqc], by rwa [h.pid, if_neg hqc]⟩
    · exact ⟨c, by rwa [h.state, if_pos rfl], by rw [h.pid, if_pos rfl]⟩

theorem Changed.embryo (hs : s ≠ .embryo) {q : Fin n} (hq : (t'.procs q).state = .embryo) :
    (t.procs q).state = .embryo ∧ (t'.procs q).pid = (t.procs q).pid ∧ q ≠ c := by
  rw [h.state] at hq
  rw [h.pid]
  split at hq
  · exact absurd hq hs
  · rw [if_neg ‹_›]
    exact ⟨hq, rfl, ‹_›⟩

end Changed

/-- A `fork` that has got a slot. -/
theorem Accounts.began (ha : Accounts F E R t) (hn : Numbered t) (hfree : (t.procs c).state = .unused)
    (hnext : t'.nextpid = t.nextpid + 1) {parent np : Option (Fin n)}
    (h : Changed t p c .embryo t.nextpid parent np t') : Accounts F E R t' := by
  refine ⟨ha.forks, ha.exits, ha.reaps, ha.exits_forks, ha.reaps_exits, fun v => ?_, fun v => ?_, fun q hq => ?_,
    fun v hv => ?_⟩
  · rw [h.exists_iff (by rw [hfree]; decide) (by decide), ha.live]
  · rw [h.exists_iff (K := (· = .zombie)) (by rw [hfree]; decide) (by decide), ha.zombie]
  · rw [h.state] at hq
    rw [h.pid]
    split at hq
    · rw [if_pos ‹_›]
      obtain ⟨i, -, hlive, hpid⟩ := hn.init
      have := (hn.pid i hlive.ne_unused).2
      refine ⟨by omega, fun hmem => ?_⟩
      have := ha.bound _ hmem
      omega
    · rw [if_neg ‹_›]
      exact ha.embryo q hq
  · have := ha.bound v hv
    omega

theorem Accounts.forked (ha : Accounts F E R t) (hn : Numbered t) (hc : (t.procs c).state = .embryo)
    (hnext : t'.nextpid = t.nextpid) {parent np : Option (Fin n)}
    (h : Changed t p c .runnable (t.procs c).pid parent np t') : Accounts (F ++ [(t.procs c).pid]) E R t' := by
  obtain ⟨hone, hnew⟩ := ha.embryo c hc
  have hpid := hn.pid c (by rw [hc]; decide)
  refine ⟨?_, ha.exits, ha.reaps, fun v hv => List.mem_append_left _ (ha.exits_forks v hv), ha.reaps_exits,
    fun v => ?_, fun v => ?_, fun q hq => ?_, fun v hv => ?_⟩
  · simpa using List.Nodup.concat hnew ha.forks
  · rw [h.exists_born (by rw [hc]; decide) (by decide), ha.live, List.mem_append, List.mem_singleton]
    constructor
    · rintro (⟨hv, hE⟩ | rfl)
      · exact ⟨hv.imp_right .inl, hE⟩
      · exact ⟨.inr (.inr rfl), fun hE => hnew (ha.exits_forks _ hE)⟩
    · rintro ⟨hv | hv | rfl, hE⟩
      · exact .inl ⟨.inl hv, hE⟩
      · exact .inl ⟨.inr hv, hE⟩
      · exact .inr rfl
  · rw [h.exists_iff (K := (· = .zombie)) (by rw [hc]; decide) (by decide), ha.zombie]
  · obtain ⟨hold, hpid', hqc⟩ := h.embryo (by decide) hq
    rw [hpid']
    obtain ⟨hq1, hqF⟩ := ha.embryo q hold
    refine ⟨hq1, ?_⟩
    rw [List.mem_append, List.mem_singleton, not_or]
    exact ⟨hqF, fun heq => hqc (hn.distinct q c (by rw [hold]; decide) (by rw [hc]; decide) heq)⟩
  · rw [hnext]
    rcases List.mem_append.1 hv with hv | hv
    · exact ha.bound v hv
    · rw [List.mem_singleton.1 hv]
      exact hpid.2

/-- A `fork` that has given its slot back. -/
theorem Accounts.failed (ha : Accounts F E R t) (hc : (t.procs c).state = .embryo)
    (hnext : t'.nextpid = t.nextpid) {pid : Int} {parent np : Option (Fin n)}
    (h : Changed t p c .unused pid parent np t') : Accounts F E R t' := by
  refine ⟨ha.forks, ha.exits, ha.reaps, ha.exits_forks, ha.reaps_exits, fun v => ?_, fun v => ?_, fun q hq => ?_, ?_⟩
  · rw [h.exists_iff (by rw [hc]; decide) (by decide), ha.live]
  · rw [h.exists_iff (K := (· = .zombie)) (by rw [hc]; decide) (by decide), ha.zombie]
  · obtain ⟨hold, hpid, -⟩ := h.embryo (by decide) hq
    rw [hpid]
    exact ha.embryo q hold
  · rw [hnext]
    exact ha.bound

theorem Accounts.reaped (ha : Accounts F E R t) (hn : Numbered t) (hc : (t.procs c).state = .zombie)
    (hnext : t'.nextpid = t.nextpid) {pid : Int} {parent np : Option (Fin n)}
    (h : Changed t p c .unused pid parent np t') : Accounts F E (R ++ [(t.procs c).pid]) t' := by
  obtain ⟨hE, hR⟩ := (ha.zombie (t.procs c).pid).1 ⟨c, hc, rfl⟩
  refine ⟨ha.forks, ha.exits, ?_, ha.exits_forks, fun v hv => ?_, fun v => ?_, fun v => ?_, fun q hq => ?_, ?_⟩
  · simpa using List.Nodup.concat hR ha.reaps
  · rcases List.mem_append.1 hv with hv | hv
    · exact ha.reaps_exits v hv
    · rwa [List.mem_singleton.1 hv]
  · rw [h.exists_iff (by rw [hc]; decide) (by decide), ha.live]
  · rw [List.mem_append, List.mem_singleton, not_or]
    constructor
    · rintro ⟨q, hq, rfl⟩
      rw [h.state] at hq
      rw [h.pid]
      split at hq
      · cases hq
      · rw [if_neg ‹_›]
        obtain ⟨hqE, hqR⟩ := (ha.zombie _).1 ⟨q, hq, rfl⟩
        refine ⟨hqE, hqR, fun heq => ?_⟩
        exact ‹¬ q = c› (hn.distinct q c (by rw [hq]; decide) (by rw [hc]; decide) heq)
    · rintro ⟨hvE, hvR, hne⟩
      obtain ⟨q, hq, rfl⟩ := (ha.zombie v).2 ⟨hvE, hvR⟩
      have hqc : q ≠ c := by
        rintro rfl
        exact hne rfl
      exact ⟨q, by rwa [h.state, if_neg hqc], by rw [h.pid, if_neg hqc]⟩
  · obtain ⟨hold, hpid, -⟩ := h.embryo (by decide) hq
    rw [hpid]
    exact ha.embryo q hold
  · rw [hnext]
    exact ha.bound

theorem Accounts.exited (ha : Accounts F E R t) (hn : Numbered t) (hp : (t.procs p).state.Live)
    (hinit : t.initproc ≠ some p) (h : Exited t p t') : Accounts F (E ++ [(t.procs p).pid]) R t' := by
  obtain ⟨hF, hE⟩ := (ha.live (t.procs p).pid).1 ⟨p, hp, rfl⟩
  have hne : (t.procs p).pid ≠ 1 := by
    intro hone
    obtain ⟨i, hi, hlive, hpid⟩ := hn.init
    rw [hn.distinct p i hp.ne_unused hlive.ne_unused (hone.trans hpid.symm)] at hinit
    exact hinit hi
  have hF := hF.resolve_left hne
  have hzombie : (t.procs p).state ≠ .zombie := by
    intro hz
    rw [hz] at hp
    exact absurd hp (by decide)
  have hself : ∀ q, (t.procs q).state ≠ .unused → (t.procs q).pid = (t.procs p).pid → q = p :=
    fun q hq heq => hn.distinct q p hq hp.ne_unused heq
  refine ⟨ha.forks, ?_, ha.reaps, fun v hv => ?_, fun v hv => List.mem_append_left _ (ha.reaps_exits v hv),
    fun v => ?_, fun v => ?_, fun q hq => ?_, ?_⟩
  · simpa using List.Nodup.concat hE ha.exits
  · rcases List.mem_append.1 hv with hv | hv
    · exact ha.exits_forks v hv
    · rwa [List.mem_singleton.1 hv]
  · rw [List.mem_append, List.mem_singleton, not_or]
    constructor
    · rintro ⟨q, hq, rfl⟩
      have hqp : q ≠ p := by
        rintro rfl
        rw [h.zombie] at hq
        exact absurd hq (by decide)
      rw [(h.state q hqp).live] at hq
      rw [(h.slot q).1]
      obtain ⟨hqF, hqE⟩ := (ha.live _).1 ⟨q, hq, rfl⟩
      exact ⟨hqF, hqE, fun heq => hqp (hself q hq.ne_unused heq)⟩
    · rintro ⟨hvF, hvE, hvp⟩
      obtain ⟨q, hq, rfl⟩ := (ha.live v).2 ⟨hvF, hvE⟩
      have hqp : q ≠ p := by
        rintro rfl
        exact hvp rfl
      exact ⟨q, (h.state q hqp).live.2 hq, (h.slot q).1⟩
  · rw [List.mem_append, List.mem_singleton]
    constructor
    · rintro ⟨q, hq, rfl⟩
      rw [(h.slot q).1]
      by_cases hqp : q = p
      · subst hqp
        exact ⟨.inr rfl, fun hR => hE (ha.reaps_exits _ hR)⟩
      · rw [(h.state q hqp).eq_iff (by decide)] at hq
        exact ((ha.zombie _).1 ⟨q, hq, rfl⟩).imp_left .inl
    · rintro ⟨hv | rfl, hR⟩
      · obtain ⟨q, hq, rfl⟩ := (ha.zombie v).2 ⟨hv, hR⟩
        have hqp : q ≠ p := by
          rintro rfl
          exact hzombie hq
        exact ⟨q, ((h.state q hqp).eq_iff (by decide)).2 hq, (h.slot q).1⟩
      · exact ⟨p, h.zombie, (h.slot p).1⟩
  · have hqp : q ≠ p := by
      rintro rfl
      rw [h.zombie] at hq
      cases hq
    rw [(h.state q hqp).eq_iff (by decide)] at hq
    rw [(h.slot q).1]
    exact ha.embryo q hq
  · rw [h.nextpid]
    exact ha.bound

end Steps

/-! ## Whole runs -/

section Runs

variable {F E R : List Int} {k k' : Kernel n} {e : Event n}

theorem Accounts.call {t t' : Table n} {p : Fin n} {m : Int} {c : Call n} {sched : Bool} (ha : Accounts F E R t)
    (hn : Numbered t) (hi : Inv ⟨t, .running p m⟩) (hproper : Proper ⟨t, .running p m⟩ (.call c))
    (hroom : Kernel.allocates ⟨t, .running p m⟩ (.call c) = true → t.nextpid + 1 < 2 ^ 31)
    (h : t.call p c = some (sched, t')) :
    Accounts (F ++ (Kernel.forked ⟨t, .running p m⟩ (.call c)).toList)
      (E ++ (Kernel.exited ⟨t, .running p m⟩ (.call c)).toList)
      (R ++ (Kernel.reaped ⟨t, .running p m⟩ (.call c)).toList) t' := by
  have hnil : ∀ l : List Int, l ++ (none : Option Int).toList = l := List.append_nil
  have hp := hi.running p m rfl
  have heffect := Table.call_effect hp hproper h
  cases heffect with
  | rescheduled hr hw hfork hexit hwait =>
    have hnone : Kernel.forked ⟨t, .running p m⟩ (.call c) = none ∧ Kernel.exited ⟨t, .running p m⟩ (.call c) = none ∧
        Kernel.reaped ⟨t, .running p m⟩ (.call c) = none := by
      cases c with
      | forkEnd => exact absurd rfl hfork
      | exit => exact absurd rfl hexit
      | wait =>
        refine ⟨rfl, rfl, Option.filter_eq_none_iff.2 fun pid hpid => ?_⟩
        simp [hwait rfl pid hpid]
      | _ => exact ⟨rfl, rfl, rfl⟩
    rw [hnone.1, hnone.2.1, hnone.2.2, hnil, hnil, hnil]
    exact ha.rescheduled hr
  | began hfree hnext hc =>
    have hpos : 0 ≤ t.nextpid := by
      have hused : (t.procs p).state ≠ .unused := by
        rw [hp]
        decide
      have hpid : 0 < (t.procs p).pid ∧ (t.procs p).pid < t.nextpid := hn.pid p hused
      omega
    rw [nextpid_succ hpos (hroom (allocproc_isSome hfree))] at hnext
    simp only [Kernel.forked, Kernel.exited, Kernel.reaped, hnil]
    exact ha.began hn hfree hnext hc
  | @forked c hnp hnext hc =>
    simp only [Kernel.forked, Kernel.exited, Kernel.reaped, hnil]
    rw [hnp]
    exact ha.forked hn (hi.embryo p c hnp) hnext hc
  | @failed c hnp hnext hc =>
    simp only [Kernel.forked, Kernel.exited, Kernel.reaped, hnil]
    exact ha.failed (hi.embryo p c hnp) hnext hc
  | @reaped c hparent hzombie hpid hnext hc =>
    have hpos : 0 < (t.procs c).pid := (hn.pid c (by show (t.procs c).state ≠ .unused; rw [hzombie]; decide)).1
    have hret : (t.wait p).1.filter (· ≠ -1) = some (t.procs c).pid := by
      rw [hpid]
      refine Option.filter_eq_some_iff.2 ⟨rfl, ?_⟩
      simp only [ne_eq, decide_not, Bool.not_eq_true', decide_eq_false_iff_not]
      omega
    simp only [Kernel.forked, Kernel.exited, Kernel.reaped, hnil, hret]
    exact ha.reaped hn hzombie hnext hc
  | exited hinit hx =>
    have hw := rescheduled_wakeup1 t ((t.procs p).parent.map .proc)
    have hdone := (ha.rescheduled hw).exited (hw.numbered hn)
      ((hw.state p).live.2 (.inr (.inr hp))) hinit hx
    simp only [Kernel.forked, Kernel.exited, Kernel.reaped, hnil]
    rwa [(hw.slot p).1] at hdone

/-- The lists grow by what the step returns. -/
theorem Accounts.step (ha : Accounts F E R k.table) (hn : Numbered k.table) (hi : Inv k) (hproper : Proper k e)
    (hroom : k.allocates e = true → k.table.nextpid + 1 < 2 ^ 31) (hs : Step k e k') :
    Accounts (F ++ (k.forked e).toList) (E ++ (k.exited e).toList) (R ++ (k.reaped e).toList) k'.table := by
  have hnil : ∀ l : List Int, l ++ (none : Option Int).toList = l := List.append_nil
  cases hs.moves with
  | scan => simpa only [Kernel.forked, Kernel.exited, Kernel.reaped, hnil] using ha
  | @switch t i m p hp =>
    have hrun : (t.procs p).state.Live := .inr (.inl (chosen_some hp).2.1)
    simp only [Kernel.forked, Kernel.exited, Kernel.reaped, hnil]
    exact ha.rescheduled (.update (f := fun x => { x with state := .running, chan := none })
      (fun _ => ⟨rfl, rfl, rfl⟩) (.inr ⟨hrun, .inr (.inr rfl)⟩))
  | skip => simpa only [Kernel.forked, Kernel.exited, Kernel.reaped, hnil] using ha
  | finish => simpa only [Kernel.forked, Kernel.exited, Kernel.reaped, hnil] using ha
  | @call t t' p m c sched h =>
    exact ha.call hn hi hproper hroom h
  | interrupt t p m chan =>
    simp only [Kernel.forked, Kernel.exited, Kernel.reaped, hnil]
    exact ha.rescheduled (rescheduled_wakeup1 t _)
  | idle t chan =>
    simp only [Kernel.forked, Kernel.exited, Kernel.reaped, hnil]
    exact ha.rescheduled (rescheduled_wakeup1 t _)

theorem accounts_boot {t : Table n} (h : (Table.zeroed n).userinit = some t) : Accounts [] [] [] t := by
  obtain ⟨i, -, -, hslot⟩ := userinit_eq h
  have hstate : ∀ q, (t.procs q).state = .unused ∨ q = i := by
    intro q
    rw [hslot]
    split
    · exact .inr ‹_›
    · exact .inl rfl
  have hi : (t.procs i).state = .runnable ∧ (t.procs i).pid = 1 := by
    rw [hslot, if_pos rfl]
    exact ⟨rfl, rfl⟩
  refine ⟨List.nodup_nil, List.nodup_nil, List.nodup_nil, by simp, by simp, fun v => ?_, fun v => ?_, fun q hq => ?_, by simp⟩
  · simp only [List.not_mem_nil, or_false, not_false_eq_true, and_true]
    constructor
    · rintro ⟨q, hq, rfl⟩
      rw [(hstate q).resolve_left hq.ne_unused, hi.2]
    · rintro rfl
      exact ⟨i, .inr (.inl hi.1), hi.2⟩
  · simp only [List.not_mem_nil, false_and, iff_false]
    rintro ⟨q, hq, -⟩
    rcases hstate q with hu | rfl
    · rw [hu] at hq
      cases hq
    · rw [hi.1] at hq
      cases hq
  · rcases hstate q with hu | rfl
    · rw [hu] at hq
      cases hq
    · rw [hi.1] at hq
      cases hq

theorem RunsTo.accounts {h : List (Kernel n × Event n)} (hrun : RunsTo h k) (hproper : ∀ x ∈ h, Proper x.1 x.2)
    (hfew : allocs h < 2 ^ 31 - 1) :
    Accounts (forks h) (exits h) (reaps h) k.table := by
  obtain ⟨t, hboot, hp⟩ := hrun
  induction hp with
  | start => exact accounts_boot hboot
  | @step h s s' a hp hs ih =>
    have hok : ∀ x ∈ h, Proper x.1 x.2 := fun x hx => hproper x (List.mem_append_left _ hx)
    rw [allocs_append] at hfew
    obtain ⟨hn, hnext⟩ := RunsTo.numbered ⟨t, hboot, hp⟩ hok (by omega)
    have hroom : s.allocates a = true → s.table.nextpid + 1 < 2 ^ 31 := by
      intro halloc
      rw [if_pos halloc] at hfew
      omega
    have hstep := (ih hok (by omega)).step hn (RunsTo.inv ⟨t, hboot, hp⟩) (hproper (s, a) (by simp)) hroom hs
    have hgrow : ∀ f : Kernel n × Event n → Option Int,
        (h ++ [(s, a)]).filterMap f = h.filterMap f ++ (f (s, a)).toList := by
      intro f
      rw [List.filterMap_append, List.filterMap_cons]
      cases f (s, a) <;> rfl
    simpa only [forks, exits, reaps, hgrow] using hstep

/-- Along every run with less than 2 ^ 31 - 1 calls of `allocproc`, no `pid` is returned twice by `fork` or by
`wait`, and no process exits twice; a `pid` that `wait` returns is that of a process that has exited, and one that
exits was made by `fork`. The processes that are there are exactly those made and not exited, and those exited and
not waited for. -/
theorem lifecycle {h : List (Kernel n × Event n)} (hrun : RunsTo h k) (hproper : ∀ x ∈ h, Proper x.1 x.2)
    (hfew : allocs h < 2 ^ 31 - 1) :
    (forks h).Nodup ∧ (exits h).Nodup ∧ (reaps h).Nodup ∧ reaps h ⊆ exits h ∧ exits h ⊆ forks h ∧
    (∀ pid, (∃ p, (k.table.procs p).state.Live ∧ (k.table.procs p).pid = pid) ↔
      (pid = 1 ∨ pid ∈ forks h) ∧ pid ∉ exits h) ∧
    ∀ pid, (∃ p, (k.table.procs p).state = .zombie ∧ (k.table.procs p).pid = pid) ↔
      pid ∈ exits h ∧ pid ∉ reaps h := by
  have ha := hrun.accounts hproper hfew
  exact ⟨ha.forks, ha.exits, ha.reaps, ha.reaps_exits, ha.exits_forks, ha.live, ha.zombie⟩

/-- The first process makes two children and waits; one of them exits and is waited for. -/
theorem lifecycle_children : ∃ h k, RunsTo (n := 3) h k ∧ forks h = [2, 3] ∧ reaps h = [2] ∧
    (reaps h).Nodup ∧ reaps h ⊆ exits h := by
  obtain ⟨h, k, hrun, hproper, hfew, hforks, hreaps⟩ := exists_runsTo
    [.scan, .visit, .call .forkBegin, .call .forkEnd, .call .forkBegin, .call .forkEnd, .call .wait, .visit, .call .exit,
      .visit, .call .yield, .visit, .scan, .visit, .call .wait]
    (P := fun h _ => (∀ x ∈ h, Proper x.1 x.2) ∧ allocs h < 2 ^ 31 - 1 ∧ forks h = [2, 3] ∧ reaps h = [2]) (by decide +kernel)
  obtain ⟨-, -, hnodup, hsub, -⟩ := lifecycle hrun hproper hfew
  exact ⟨h, k, hrun, hforks, hreaps, hnodup, hsub⟩

end Runs

end CS1550.Xv6
