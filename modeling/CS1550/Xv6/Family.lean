/-
The processes of `lab3/xv6-public/proc.c` as a family, over every run of the kernel: init is there from the
start, and every other process has a parent that has not exited. A process that sleeps in `wait` has a child that it
waits for, and none that has exited: the wakeup in `exit` is never lost. As long as `nextpid` does not overflow, no two
processes have one `pid` and parents are older than their children (`Numbered`), so that all descend from init.
-/
import CS1550.Xv6.Calls

namespace CS1550.Xv6

variable {n : Nat}

/-- `p` has children, and all of them have yet to exit. -/
def Table.Expects (t : Table n) (p : Fin n) : Prop :=
  (∃ q, (t.procs q).parent = some p ∧ (t.procs q).state.Live) ∧
    ∀ q, (t.procs q).parent = some p → (t.procs q).state ≠ .zombie

/-- Who belongs to whom, without the numbers. -/
structure Family (t : Table n) : Prop where
  init : ∃ i, t.initproc = some i ∧ (t.procs i).state.Live ∧ (t.procs i).parent = none
  unborn : ∀ p, (t.procs p).state = .unused ∨ (t.procs p).state = .embryo → (t.procs p).parent = none
  /-- Also a process that has exited has a parent, until that one has waited for it. -/
  parent : ∀ p, (t.procs p).state.Live ∨ (t.procs p).state = .zombie → t.initproc ≠ some p →
    ∃ q, (t.procs p).parent = some q ∧ (t.procs q).state.Live ∧ q ≠ p
  forking : ∀ p c, (t.procs p).np = some c → (t.procs p).state.Live
  waiting : ∀ p, t.SleepsOn p (some (.proc p)) → t.Expects p

section Steps

variable {t t' : Table n} {p q c : Fin n}

/-- A process may only begin to wait with something to wait for. -/
theorem Rescheduled.family (h : Rescheduled t t') (hw : NoNewWait t p t') (hf : Family t) : Family t' := by
  constructor
  · obtain ⟨i, hi, hlive, hparent⟩ := hf.init
    exact ⟨i, h.initproc.trans hi, (h.state i).live.2 hlive, (h.slot i).2.1.trans hparent⟩
  · intro p hp
    rw [(h.state p).eq_iff (by decide), (h.state p).eq_iff (by decide)] at hp
    exact (h.slot p).2.1.trans (hf.unborn p hp)
  · intro p hp hinit
    rw [(h.state p).live, (h.state p).eq_iff (by decide)] at hp
    rw [h.initproc] at hinit
    obtain ⟨q, hq, hlive, hne⟩ := hf.parent p hp hinit
    exact ⟨q, (h.slot p).2.1.trans hq, (h.state q).live.2 hlive, hne⟩
  · intro p c hc
    rw [(h.slot p).2.2] at hc
    exact (h.state p).live.2 (hf.forking p c hc)
  · intro q hq
    have hexpects : t.Expects q := by
      rcases hw q hq with hold | ⟨rfl, ⟨c, hc⟩, hnone⟩
      · exact hf.waiting q hold
      · refine ⟨⟨c, hc, ?_⟩, hnone⟩
        have hborn : ¬ ((t.procs c).state = .unused ∨ (t.procs c).state = .embryo) := by
          intro hu
          rw [hf.unborn c hu] at hc
          cases hc
        have hz := hnone c hc
        revert hborn hz
        cases (t.procs c).state <;> decide
    obtain ⟨⟨c, hc, hlive⟩, hnone⟩ := hexpects
    refine ⟨⟨c, (h.slot c).2.1.trans hc, (h.state c).live.2 hlive⟩, fun d hd hz => ?_⟩
    exact hnone d ((h.slot d).2.1.symm.trans hd) (((h.state d).eq_iff (by decide)).1 hz)

/-- The family after a change of a slot that belongs to no live process, made by a live one. -/
theorem Family.changed {s : ProcState} {pid : Int} {parent np : Option (Fin n)} (hf : Family t)
    (h : Changed t p c s pid parent np t') (hp : (t.procs p).state.Live) (hc : ¬ (t.procs c).state.Live)
    (hx : s ≠ .sleeping ∧ s ≠ .zombie) (hunborn : s = .unused ∨ s = .embryo → parent = none)
    (hborn : s.Live → parent = some p) : Family t' := by
  have hne : ∀ q, (t.procs q).state.Live → q ≠ c := by
    rintro q hq rfl
    exact hc hq
  have hlive : ∀ q, (t.procs q).state.Live → (t'.procs q).state.Live ∧ (t'.procs q).parent = (t.procs q).parent := by
    intro q hq
    rw [h.state, h.parent, if_neg (hne q hq), if_neg (hne q hq)]
    exact ⟨hq, rfl⟩
  constructor
  · obtain ⟨i, hi, hilive, hiparent⟩ := hf.init
    obtain ⟨h1, h2⟩ := hlive i hilive
    exact ⟨i, h.initproc.trans hi, h1, h2.trans hiparent⟩
  · intro q hq
    rw [h.state] at hq
    rw [h.parent]
    split at hq
    · rw [if_pos ‹_›]
      exact hunborn hq
    · rw [if_neg ‹_›]
      exact hf.unborn q hq
  · intro q hq hinit
    rw [h.state] at hq
    rw [h.initproc] at hinit
    rw [h.parent]
    split at hq
    · rename_i hqc
      rw [if_pos hqc]
      exact ⟨p, hborn (hq.resolve_right hx.2), (hlive p hp).1, hqc ▸ hne p hp⟩
    · rw [if_neg ‹_›]
      obtain ⟨r, hr, hrlive, hrq⟩ := hf.parent q hq hinit
      exact ⟨r, hr, (hlive r hrlive).1, hrq⟩
  · intro q c' hq
    rw [h.np] at hq
    split at hq
    · rename_i hqp
      exact (hlive q (hqp ▸ hp)).1
    · exact (hlive q (hf.forking q c' hq)).1
  · rintro q ⟨hsleep, hchan⟩
    rw [h.state] at hsleep
    rw [h.chan] at hchan
    split at hsleep
    · exact absurd hsleep hx.1
    · obtain ⟨⟨r, hr, hrlive⟩, hnone⟩ := hf.waiting q ⟨hsleep, hchan⟩
      obtain ⟨h1, h2⟩ := hlive r hrlive
      refine ⟨⟨r, h2.trans hr, h1⟩, fun r' hr' hz => ?_⟩
      rw [h.state] at hz
      rw [h.parent] at hr'
      split at hz
      · exact hx.2 hz
      · rw [if_neg ‹_›] at hr'
        exact hnone r' hr' hz

theorem Exited.family (h : Exited t p t') (hf : Family t) (hp : (t.procs p).state = .running) (hnp : (t.procs p).np = none)
    (hinit : t.initproc ≠ some p) (hawake : ∀ q, (t.procs p).parent = some q → ¬ t.SleepsOn q (some (.proc q))) :
    Family t' := by
  obtain ⟨i, hi, hilive, hiparent⟩ := hf.init
  have hip : i ≠ p := by
    rintro rfl
    exact hinit hi
  -- the parent of `p` is another process, and it stays its parent
  obtain ⟨r, hr, hrlive, hrp⟩ := hf.parent p (.inl (.inr (.inr hp))) hinit
  have hpparent : (t'.procs p).parent = some r := by
    rw [h.parent, if_neg, hr]
    rw [hr]
    exact fun h => hrp (Option.some.inj h)
  constructor
  · refine ⟨i, h.initproc.trans hi, (h.state i hip).live.2 hilive, ?_⟩
    rw [h.parent, hiparent, if_neg (by simp)]
  · intro q hq
    have hqp : q ≠ p := by
      rintro rfl
      rw [h.zombie] at hq
      exact absurd hq (by decide)
    rw [(h.state q hqp).eq_iff (by decide), (h.state q hqp).eq_iff (by decide)] at hq
    rw [h.parent, hf.unborn q hq, if_neg (by simp)]
  · intro q hq hqinit
    rw [h.initproc] at hqinit
    by_cases hqp : q = p
    · subst hqp
      exact ⟨r, hpparent, (h.state r hrp).live.2 hrlive, hrp⟩
    · rw [(h.state q hqp).live, (h.state q hqp).eq_iff (by decide)] at hq
      obtain ⟨s, hs, hslive, hsq⟩ := hf.parent q hq hqinit
      rw [h.parent]
      split
      · -- an orphan
        refine ⟨i, hi, (h.state i hip).live.2 hilive, ?_⟩
        rintro rfl
        exact hqinit hi
      · rename_i hnot
        have hsp : s ≠ p := by
          rintro rfl
          exact hnot hs
        exact ⟨s, hs, (h.state s hsp).live.2 hslive, hsq⟩
  · intro q c hq
    rw [(h.slot q).2.1] at hq
    have hqp : q ≠ p := by
      rintro rfl
      rw [hnp] at hq
      cases hq
    exact (h.state q hqp).live.2 (hf.forking q c hq)
  · rintro q ⟨hsleep, hchan⟩
    have hqp : q ≠ p := by
      rintro rfl
      rw [h.zombie] at hsleep
      cases hsleep
    obtain ⟨hsleep, hwoken⟩ := h.asleep q hsleep
    rw [(h.slot q).2.2] at hchan
    have hpq : (t.procs p).parent ≠ some q := fun hq => hawake q hq ⟨hsleep, hchan⟩
    obtain ⟨⟨s, hs, hslive⟩, hnone⟩ := hf.waiting q ⟨hsleep, hchan⟩
    have hsp : s ≠ p := by
      rintro rfl
      exact hpq hs
    refine ⟨⟨s, ?_, (h.state s hsp).live.2 hslive⟩, fun z hz hzombie => ?_⟩
    · rw [h.parent, hs, if_neg]
      exact fun h => hqp (Option.some.inj h)
    · by_cases hzp : z = p
      · subst hzp
        rw [hpparent] at hz
        exact hpq (hr.trans hz)
      · rw [(h.state z hzp).eq_iff (by decide)] at hzombie
        rw [h.parent] at hz
        split at hz
        · rename_i horphan
          exact hwoken ⟨z, horphan, hzombie⟩ (by rw [hchan, hz]; rfl)
        · exact hnone z hz hzombie

/-- The wakeup of the parent comes first. -/
theorem Family.exit (hf : Family t) (hp : (t.procs p).state = .running) (hnp : (t.procs p).np = none)
    (hinit : t.initproc ≠ some p) (h : Exited (t.wakeup1 ((t.procs p).parent.map .proc)) p t') : Family t' := by
  have hw := rescheduled_wakeup1 t ((t.procs p).parent.map .proc)
  apply h.family (hw.family (noNewWait_wakeup1 t p _) hf)
  · rw [state_wakeup1, if_neg, hp]
    rintro ⟨hsleep, -⟩
    rw [hp] at hsleep
    cases hsleep
  · rw [(hw.slot p).2.2, hnp]
  · exact hinit
  · rintro q hq ⟨hsleep, hchan⟩
    rw [(hw.slot p).2.1] at hq
    rw [wakeup1_slot] at hchan
    rw [state_wakeup1] at hsleep
    split at hsleep
    · cases hsleep
    · rename_i hnot
      exact hnot ⟨hsleep, by rw [hchan, hq]; rfl⟩

/-! ## Whole runs -/

theorem Family.call {a : Call n} {m : Int} (hf : Family t) (hi : Inv ⟨t, .running p m⟩)
    (hproper : a.Proper (t.procs p)) (h : Effect t p t' a) : Family t' := by
  have hp := hi.running p m rfl
  have hlive : (t.procs p).state.Live := .inr (.inr hp)
  cases h with
  | rescheduled h hw => exact h.family hw hf
  | began hfree hnext h =>
    exact hf.changed h hlive (by rw [hfree]; decide) ⟨by decide, by decide⟩ (fun _ => hf.unborn _ (.inl hfree))
      fun h => absurd h (by decide)
  | @forked c hnp hnext h =>
    exact hf.changed h hlive (by rw [hi.embryo p c hnp]; decide) ⟨by decide, by decide⟩ (fun h => absurd h (by decide))
      fun _ => rfl
  | @failed c hnp hnext h =>
    have hc := hi.embryo p c hnp
    exact hf.changed h hlive (by rw [hc]; decide) ⟨by decide, by decide⟩ (fun _ => hf.unborn c (.inr hc))
      fun h => absurd h (by decide)
  | reaped hparent hzombie hpid hnext h =>
    exact hf.changed h hlive (by rw [hzombie]; decide) ⟨by decide, by decide⟩ (fun _ => rfl)
      fun h => absurd h (by decide)
  | exited hinit h => exact hf.exit hp hproper hinit h

theorem Family.wakeup (hf : Family t) (chan : Chan n) : Family (t.wakeup chan) := by
  obtain ⟨i, -⟩ := hf.init
  exact (rescheduled_wakeup1 t _).family (noNewWait_wakeup1 t i _) hf

theorem Family.step {k k' : Kernel n} {e : Event n} (hf : Family k.table) (hi : Inv k) (hproper : Proper k e)
    (hs : Step k e k') : Family k'.table := by
  cases hs.moves with
  | scan => exact hf
  | @switch t i m p hp =>
    have hrun : (t.procs p).state.Live := .inr (.inl (chosen_some hp).2.1)
    have hw : NoNewWait t p (t.dispatch p) :=
      noNewWait_update (f := fun x => { x with state := .running, chan := none }) fun hsleep => by cases hsleep
    exact Rescheduled.family (.update (f := fun x => { x with state := .running, chan := none })
      (fun _ => ⟨rfl, rfl, rfl⟩) (.inr ⟨hrun, .inr (.inr rfl)⟩)) hw hf
  | skip => exact hf
  | finish => exact hf
  | @call t t' p m c sched h => exact hf.call hi hproper (Table.call_effect (hi.running p m rfl) hproper h)
  | interrupt t p m chan => exact hf.wakeup chan
  | idle t chan => exact hf.wakeup chan

/-- The table with init alone. -/
theorem userinit_eq (h : (Table.zeroed n).userinit = some t) : ∃ i, t.initproc = some i ∧ t.nextpid = 2 ∧
    ∀ q, t.procs q = if q = i then ⟨.runnable, 1, none, none, false, 50, none⟩ else (Table.zeroed n).procs q := by
  obtain ⟨⟨i, t₁⟩, halloc, rfl⟩ := Option.map_eq_some_iff.1 h
  obtain ⟨-, rfl⟩ := allocproc_eq halloc
  refine ⟨i, rfl, rfl, fun q => ?_⟩
  by_cases hq : q = i
  · subst hq
    simp [Table.zeroed]
  · simp [hq]

theorem userinit_used {i : Fin n} (hinit : t.initproc = some i)
    (hslot : ∀ q, t.procs q = if q = i then ⟨.runnable, 1, none, none, false, 50, none⟩ else (Table.zeroed n).procs q)
    (hq : (t.procs q).state ≠ .unused) : t.initproc = some q := by
  rw [hslot] at hq
  split at hq
  · rename_i heq
    rw [heq, hinit]
  · exact absurd rfl hq

theorem family_boot (h : (Table.zeroed n).userinit = some t) : Family t := by
  obtain ⟨i, hinit, -, hslot⟩ := userinit_eq h
  constructor
  · refine ⟨i, hinit, ?_⟩
    rw [hslot, if_pos rfl]
    exact ⟨.inr (.inl rfl), rfl⟩
  · intro p _
    rw [hslot]
    split <;> rfl
  · intro p hp hne
    rw [userinit_used hinit hslot (by rintro hu; rw [hu] at hp; exact absurd hp (by decide))] at hne
    exact absurd rfl hne
  · intro p c hc
    rw [hslot] at hc
    split at hc <;> cases hc
  · rintro p ⟨hsleep, -⟩
    rw [hslot] at hsleep
    split at hsleep <;> cases hsleep

end Steps

theorem RunsTo.family {h : List (Kernel n × Event n)} {k : Kernel n} (hrun : RunsTo h k)
    (hproper : ∀ x ∈ h, Proper x.1 x.2) : ∀ x ∈ Run.visited h k, Family x.table := by
  obtain ⟨t, hboot, hp⟩ := hrun
  refine hp.forall_visited (fun h x hp hok => ?_) hproper
  have hboth := hp.invariant (I := fun k => Inv k ∧ Family k.table) Proper ⟨inv_boot hboot, family_boot hboot⟩
    (fun _ _ _ hi hok hs => ⟨hi.1.step hs, hi.2.step hi.1 hok hs⟩) hok
  exact hboth.2

/-- A process that sleeps in `wait` has a child that has yet to exit, and no child that has exited. -/
theorem wait_not_lost {h : List (Kernel n × Event n)} {k : Kernel n} (hrun : RunsTo h k)
    (hproper : ∀ x ∈ h, Proper x.1 x.2) :
    ∀ x ∈ Run.visited h k, ∀ p, x.table.SleepsOn p (some (.proc p)) → x.table.Expects p := by
  intro x hx p hp
  exact (hrun.family hproper x hx).waiting p hp

theorem wait_not_lost_parent : ∃ h k, RunsTo (n := 3) h k ∧ k.table.SleepsOn 0 (some (.proc 0)) ∧
    ∀ x ∈ Run.visited h k, ∀ p, x.table.SleepsOn p (some (.proc p)) → x.table.Expects p := by
  obtain ⟨h, k, hrun, hproper, hsleeps⟩ := exists_runsTo
    [.scan, .visit, .call .forkBegin, .call .forkEnd, .call .wait]
    (P := fun h k => (∀ x ∈ h, Proper x.1 x.2) ∧ k.table.SleepsOn 0 (some (.proc 0))) (by decide +kernel)
  exact ⟨h, k, hrun, hsleeps, wait_not_lost hrun hproper⟩

/-! ## Numbers -/

/-- The numbers of the processes, as long as `nextpid` has not overflowed: they are distinct, and children have larger
ones than their parents. -/
structure Numbered (t : Table n) : Prop where
  pid : ∀ p, (t.procs p).state ≠ .unused → 0 < (t.procs p).pid ∧ (t.procs p).pid < t.nextpid
  distinct : ∀ p q, (t.procs p).state ≠ .unused → (t.procs q).state ≠ .unused → (t.procs p).pid = (t.procs q).pid → p = q
  init : ∃ i, t.initproc = some i ∧ (t.procs i).state.Live ∧ (t.procs i).pid = 1
  older : ∀ p q, (t.procs p).state.Live ∨ (t.procs p).state = .zombie → (t.procs p).parent = some q →
    (t.procs q).pid < (t.procs p).pid
  forking : ∀ p c, (t.procs p).np = some c → (t.procs p).pid < (t.procs c).pid

section Numbers

variable {t t' : Table n} {p q c : Fin n}

theorem Rescheduled.numbered (h : Rescheduled t t') (hn : Numbered t) : Numbered t' := by
  have hused : ∀ q, (t'.procs q).state ≠ .unused → (t.procs q).state ≠ .unused :=
    fun q hq hu => hq (((h.state q).eq_iff (by decide)).2 hu)
  constructor
  · intro p hp
    rw [(h.slot p).1, h.nextpid]
    exact hn.pid p (hused p hp)
  · intro p q hp hq hpid
    rw [(h.slot p).1, (h.slot q).1] at hpid
    exact hn.distinct p q (hused p hp) (hused q hq) hpid
  · obtain ⟨i, hi, hlive, hpid⟩ := hn.init
    exact ⟨i, h.initproc.trans hi, (h.state i).live.2 hlive, (h.slot i).1.trans hpid⟩
  · intro p q hp hq
    rw [(h.state p).live, (h.state p).eq_iff (by decide)] at hp
    rw [(h.slot p).2.1] at hq
    rw [(h.slot p).1, (h.slot q).1]
    exact hn.older p q hp hq
  · intro p c hc
    rw [(h.slot p).2.2] at hc
    rw [(h.slot p).1, (h.slot c).1]
    exact hn.forking p c hc

/-- The numbers after a change of a slot that belongs to no live process and is nobody's parent. -/
theorem Numbered.changed {s : ProcState} {pid : Int} {parent np : Option (Fin n)} (hn : Numbered t) (hf : Family t)
    (h : Changed t p c s pid parent np t') (hnext : t.nextpid ≤ t'.nextpid) (hp : (t.procs p).state.Live)
    (hc : ¬ (t.procs c).state.Live) (hz : s ≠ .zombie)
    (hpid : s ≠ .unused → (0 < pid ∧ pid < t'.nextpid) ∧
      ∀ q, q ≠ c → (t.procs q).state ≠ .unused → (t.procs q).pid ≠ pid)
    (hborn : s.Live → parent = some p ∧ (t.procs p).pid < pid)
    (hnp : ∀ c', np = some c' → c' = c ∧ (t.procs p).pid < pid) (hother : ∀ q, q ≠ p → (t.procs q).np ≠ some c) :
    Numbered t' := by
  have hne : ∀ q, (t.procs q).state.Live → q ≠ c := by
    rintro q hq rfl
    exact hc hq
  have hlive : ∀ q, (t.procs q).state.Live → (t'.procs q).pid = (t.procs q).pid := by
    intro q hq
    rw [h.pid, if_neg (hne q hq)]
  constructor
  · intro q hq
    rw [h.state] at hq
    rw [h.pid]
    split at hq
    · rw [if_pos ‹_›]
      exact (hpid hq).1
    · rw [if_neg ‹_›]
      obtain ⟨hpos, hlt⟩ := hn.pid q hq
      omega
  · intro q r hq hr heq
    rw [h.state] at hq hr
    rw [h.pid, h.pid] at heq
    split at hq <;> split at hr
    · simp_all
    · rw [if_pos ‹_›, if_neg ‹_›] at heq
      exact absurd heq.symm ((hpid hq).2 r ‹_› hr)
    · rw [if_neg ‹_›, if_pos ‹_›] at heq
      exact absurd heq ((hpid hr).2 q ‹_› hq)
    · rw [if_neg ‹_›, if_neg ‹_›] at heq
      exact hn.distinct q r hq hr heq
  · obtain ⟨i, hi, hilive, hipid⟩ := hn.init
    refine ⟨i, h.initproc.trans hi, ?_, (hlive i hilive).trans hipid⟩
    rwa [h.state, if_neg (hne i hilive)]
  · intro q r hq hr
    rw [h.state] at hq
    rw [h.parent] at hr
    split at hq
    · rename_i hqc
      rw [if_pos hqc] at hr
      obtain ⟨hparent, hlt⟩ := hborn (hq.resolve_right hz)
      obtain rfl : p = r := Option.some.inj (hparent.symm.trans hr)
      rwa [hlive p hp, h.pid, if_pos hqc]
    · rename_i hqc
      rw [if_neg hqc] at hr
      -- a process that is a parent is alive
      have hinit : t.initproc ≠ some q := by
        intro hinit
        obtain ⟨i, hi, -, hiparent⟩ := hf.init
        rw [hi] at hinit
        cases hinit
        rw [hiparent] at hr
        cases hr
      obtain ⟨r', hr', hrlive, -⟩ := hf.parent q hq hinit
      obtain rfl : r' = r := Option.some.inj (hr'.symm.trans hr)
      rw [hlive r' hrlive, h.pid, if_neg hqc]
      exact hn.older q r' hq hr
  · intro q c' hq
    rw [h.np] at hq
    split at hq
    · rename_i hqp
      subst hqp
      obtain ⟨rfl, hlt⟩ := hnp c' hq
      rwa [hlive q hp, h.pid, if_pos rfl]
    · rename_i hqp
      have hc' : c' ≠ c := by
        rintro rfl
        exact hother q hqp hq
      rw [hlive q (hf.forking q c' hq), h.pid, if_neg hc']
      exact hn.forking q c' hq

theorem Exited.numbered (h : Exited t p t') (hn : Numbered t) (hp : (t.procs p).state.Live)
    (hinit : t.initproc ≠ some p) : Numbered t' := by
  have hused : ∀ q, (t'.procs q).state ≠ .unused → (t.procs q).state ≠ .unused := by
    intro q hq hu
    have hqp : q ≠ p := by
      rintro rfl
      exact hp.ne_unused hu
    exact hq (((h.state q hqp).eq_iff (by decide)).2 hu)
  obtain ⟨i, hi, hilive, hipid⟩ := hn.init
  have hip : i ≠ p := by
    rintro rfl
    exact hinit hi
  constructor
  · intro q hq
    rw [(h.slot q).1, h.nextpid]
    exact hn.pid q (hused q hq)
  · intro q q' hq hq' heq
    rw [(h.slot q).1, (h.slot q').1] at heq
    exact hn.distinct q q' (hused q hq) (hused q' hq') heq
  · exact ⟨i, h.initproc.trans hi, (h.state i hip).live.2 hilive, (h.slot i).1.trans hipid⟩
  · intro q r hq hr
    have hq : (t.procs q).state.Live ∨ (t.procs q).state = .zombie := by
      by_cases hqp : q = p
      · exact .inl (hqp ▸ hp)
      · rwa [(h.state q hqp).live, (h.state q hqp).eq_iff (by decide)] at hq
    rw [(h.slot q).1, (h.slot r).1]
    rw [h.parent] at hr
    split at hr
    · -- an orphan had an older parent, and init is older than that one
      rename_i horphan
      rw [hi] at hr
      cases hr
      have hpos := (hn.pid p hp.ne_unused).1
      have := hn.older q p hq horphan
      omega
    · exact hn.older q r hq hr
  · intro q c hq
    rw [(h.slot q).2.1] at hq
    rw [(h.slot q).1, (h.slot c).1]
    exact hn.forking q c hq

theorem Numbered.call {a : Call n} {m : Int} (hn : Numbered t) (hf : Family t) (hi : Inv ⟨t, .running p m⟩)
    (hproper : a.Proper (t.procs p)) (hroom : a = .forkBegin → t.allocproc.isSome → t.nextpid + 1 < 2 ^ 31)
    (h : Effect t p t' a) : Numbered t' := by
  have hp := hi.running p m rfl
  have hlive : (t.procs p).state.Live := .inr (.inr hp)
  have hembryo : ∀ {q c s}, (t.procs c).state = s → s ≠ .embryo → (t.procs q).np ≠ some c :=
    fun hc hs hq => hs (hc.symm.trans (hi.embryo _ _ hq))
  have hpid := hn.pid p hlive.ne_unused
  cases h with
  | rescheduled h hw => exact h.numbered hn
  | began hfree hnext h =>
    rw [nextpid_succ (by omega) (hroom rfl (allocproc_isSome hfree))] at hnext
    refine hn.changed hf h (by omega) hlive (by rw [hfree]; decide) (by decide)
      (fun _ => ⟨by omega, fun q _ hq => by have := hn.pid q hq; omega⟩)
      (fun h => absurd h (by decide)) ?_ (fun q _ => hembryo hfree (by decide))
    rintro c' ⟨⟩
    exact ⟨rfl, hpid.2⟩
  | @forked c hnp hnext h =>
    have hc := hi.embryo p c hnp
    have hused : (t.procs c).state ≠ .unused := by rw [hc]; decide
    exact hn.changed hf h (by omega) hlive (by rw [hc]; decide) (by decide)
      (fun _ => ⟨hnext ▸ hn.pid c hused, fun q hq hq' heq => hq (hn.distinct q c hq' hused heq)⟩)
      (fun _ => ⟨rfl, hn.forking p c hnp⟩) (fun _ h => by cases h)
      fun q hq hqc => hq (hi.apart q p c hqc hnp)
  | @failed c hnp hnext h =>
    have hc := hi.embryo p c hnp
    exact hn.changed hf h (by omega) hlive (by rw [hc]; decide) (by decide) (fun h => absurd rfl h)
      (fun h => absurd h (by decide)) (fun _ h => by cases h)
      fun q hq hqc => hq (hi.apart q p c hqc hnp)
  | reaped hparent hzombie _ hnext h =>
    rw [show (t.procs p).np = none from hproper] at h
    exact hn.changed hf h (by omega) hlive (by rw [hzombie]; decide) (by decide) (fun h => absurd rfl h)
      (fun h => absurd h (by decide)) (fun _ h => by cases h) fun q _ => hembryo hzombie (by decide)
  | exited hinit h =>
    have hw := rescheduled_wakeup1 t ((t.procs p).parent.map .proc)
    exact h.numbered (hw.numbered hn) ((hw.state p).live.2 hlive) hinit

/-- A step in which `allocproc` finds a slot. -/
def Kernel.allocates (k : Kernel n) (e : Event n) : Bool :=
  match k.phase, e with
  | .running _ _, .call .forkBegin => k.table.allocproc.isSome
  | _, _ => false

/-- The calls of `allocproc` that have found a slot; the first one is that of `userinit`. -/
def allocs (h : List (Kernel n × Event n)) : Nat := h.countP (fun x => x.1.allocates x.2) + 1

theorem nextpid_call {a : Call n} {m : Int} (hpos : 0 ≤ t.nextpid)
    (hroom : a = .forkBegin → t.allocproc.isSome → t.nextpid + 1 < 2 ^ 31) (h : Effect t p t' a) :
    t'.nextpid ≤ t.nextpid + if Kernel.allocates ⟨t, .running p m⟩ (.call a) then 1 else 0 := by
  have hzero : ∀ b : Bool, (0 : Int) ≤ if b then 1 else 0 := by decide
  cases h with
  | rescheduled h hw =>
    rw [h.nextpid]
    have := hzero (Kernel.allocates ⟨t, .running p m⟩ (.call a))
    omega
  | began hfree hnext h =>
    have hsome := allocproc_isSome hfree
    have halloc : Kernel.allocates ⟨t, .running p m⟩ (.call .forkBegin) = true := hsome
    rw [hnext, nextpid_succ (by omega) (hroom rfl hsome), if_pos halloc]
  | forked hnp hnext h => simp [hnext, Kernel.allocates]
  | failed hnp hnext h => simp [hnext, Kernel.allocates]
  | reaped hparent hzombie hpid hnext h => simp [hnext, Kernel.allocates]
  | exited hinit h => simp [h.nextpid, Kernel.allocates, Table.wakeup1]

theorem Numbered.step {k k' : Kernel n} {e : Event n} (hn : Numbered k.table) (hf : Family k.table) (hi : Inv k)
    (hproper : Proper k e) (hroom : k.allocates e = true → k.table.nextpid + 1 < 2 ^ 31) (hs : Step k e k') :
    Numbered k'.table ∧ k'.table.nextpid ≤ k.table.nextpid + if k.allocates e then 1 else 0 := by
  have hpos : 0 ≤ k.table.nextpid := by
    obtain ⟨i, -, hlive, -⟩ := hn.init
    have := hn.pid i hlive.ne_unused
    omega
  cases hs.moves with
  | scan => exact ⟨hn, by simp [Kernel.allocates]⟩
  | @switch t i m p hp =>
    have hrun : (t.procs p).state.Live := .inr (.inl (chosen_some hp).2.1)
    exact ⟨Rescheduled.numbered (.update (f := fun x => { x with state := .running, chan := none })
      (fun _ => ⟨rfl, rfl, rfl⟩) (.inr ⟨hrun, .inr (.inr rfl)⟩)) hn, by simp [Kernel.allocates, Table.dispatch, Table.update]⟩
  | skip => exact ⟨hn, by simp [Kernel.allocates]⟩
  | finish => exact ⟨hn, by simp [Kernel.allocates]⟩
  | @call t t' p m c sched h =>
    have heffect := Table.call_effect (hi.running p m rfl) hproper h
    have hroom' : c = .forkBegin → t.allocproc.isSome → t.nextpid + 1 < 2 ^ 31 := by
      rintro rfl hsome
      exact hroom hsome
    exact ⟨hn.call hf hi hproper hroom' heffect, nextpid_call hpos hroom' heffect⟩
  | interrupt t p m chan => exact ⟨(rescheduled_wakeup1 t _).numbered hn, by simp [Kernel.allocates, Table.wakeup, Table.wakeup1]⟩
  | idle t chan => exact ⟨(rescheduled_wakeup1 t _).numbered hn, by simp [Kernel.allocates, Table.wakeup, Table.wakeup1]⟩

theorem numbered_boot (h : (Table.zeroed n).userinit = some t) : Numbered t := by
  obtain ⟨i, hinit, hnext, hslot⟩ := userinit_eq h
  have hused : ∀ q, (t.procs q).state ≠ .unused → q = i := fun q hq =>
    (Option.some.inj (hinit.symm.trans (userinit_used hinit hslot hq))).symm
  constructor
  · intro p hp
    rw [hused p hp, hslot, if_pos rfl, hnext]
    exact ⟨Int.one_pos, by show (1 : Int) < 2; decide⟩
  · intro p q hp hq _
    rw [hused p hp, hused q hq]
  · refine ⟨i, hinit, ?_⟩
    rw [hslot, if_pos rfl]
    exact ⟨.inr (.inl rfl), rfl⟩
  · intro p q _ hq
    rw [hslot] at hq
    split at hq <;> cases hq
  · intro p c hc
    rw [hslot] at hc
    split at hc <;> cases hc

end Numbers

theorem allocs_append (h : List (Kernel n × Event n)) (k : Kernel n) (e : Event n) :
    allocs (h ++ [(k, e)]) = allocs h + if k.allocates e then 1 else 0 := by
  simp only [allocs, List.countP_append, List.countP_singleton]
  omega

theorem allocs_le {h h' : List (Kernel n × Event n)} (hpre : h' <+: h) : allocs h' ≤ allocs h :=
  Nat.add_le_add_right hpre.sublist.countP_le 1

/-- Below 2 ^ 31 - 1 calls of `allocproc` the numbers are in order. -/
theorem RunsTo.numbered {h : List (Kernel n × Event n)} {k : Kernel n} (hrun : RunsTo h k)
    (hproper : ∀ x ∈ h, Proper x.1 x.2) (hfew : allocs h < 2 ^ 31 - 1) :
    Numbered k.table ∧ k.table.nextpid ≤ allocs h + 1 := by
  obtain ⟨t, hboot, hp⟩ := hrun
  induction hp with
  | start =>
    obtain ⟨-, -, hnext, -⟩ := userinit_eq hboot
    exact ⟨numbered_boot hboot, le_of_eq hnext⟩
  | @step h s s' a hp hs ih =>
    have hok : ∀ x ∈ h, Proper x.1 x.2 := fun x hx => hproper x (List.mem_append_left _ hx)
    rw [allocs_append] at hfew ⊢
    obtain ⟨hn, hnext⟩ := ih hok (by omega)
    have hf := RunsTo.family ⟨t, hboot, hp⟩ hok s (by simp [Run.visited])
    have hroom : s.allocates a = true → s.table.nextpid + 1 < 2 ^ 31 := by
      intro halloc
      rw [if_pos halloc] at hfew
      omega
    obtain ⟨hn', hnext'⟩ := hn.step hf (RunsTo.inv ⟨t, hboot, hp⟩) (hproper (s, a) (by simp)) hroom hs
    refine ⟨hn', hnext'.trans ?_⟩
    split <;> push_cast <;> omega

/-! ## The tree of processes -/

/-- The process in a slot, its parent, the parent of that one, and so on. -/
def Table.ancestor (t : Table n) (p : Fin n) : Nat → Option (Fin n)
  | 0 => some p
  | k + 1 => (t.ancestor p k).bind fun q => (t.procs q).parent

theorem ancestor_succ (t : Table n) {p q : Fin n} (hq : (t.procs p).parent = some q) (k : Nat) :
    t.ancestor p (k + 1) = t.ancestor q k := by
  induction k with
  | zero => simp [Table.ancestor, hq]
  | succ k ih => rw [Table.ancestor, ih, Table.ancestor]

/-- Parents are older, so the way up ends, and only init has no parent. -/
theorem Family.descends {t : Table n} (hf : Family t) (hn : Numbered t) {p : Fin n}
    (hp : (t.procs p).state.Live ∨ (t.procs p).state = .zombie) : ∃ k, t.ancestor p k = t.initproc := by
  generalize hm : (t.procs p).pid.toNat = m
  induction m using Nat.strongRecOn generalizing p with
  | ind m ih =>
    by_cases hinit : t.initproc = some p
    · exact ⟨0, hinit.symm⟩
    · obtain ⟨q, hq, hlive, -⟩ := hf.parent p hp hinit
      have hpos := (hn.pid q hlive.ne_unused).1
      have hlt := hn.older p q hp hq
      obtain ⟨k, hk⟩ := ih (t.procs q).pid.toNat (by omega) (.inl hlive) rfl
      exact ⟨k + 1, (ancestor_succ t hq k).trans hk⟩

/-- The processes are a tree with init at its root, and have different `pid`s. -/
structure ProcessTree (t : Table n) : Prop where
  init : ∃ i, t.initproc = some i ∧ (t.procs i).state.Live
  distinct : ∀ p q, (t.procs p).state ≠ .unused → (t.procs q).state ≠ .unused → (t.procs p).pid = (t.procs q).pid → p = q
  descends : ∀ p, (t.procs p).state.Live ∨ (t.procs p).state = .zombie → ∃ m, t.ancestor p m = t.initproc
  parent : ∀ p, (t.procs p).state.Live ∨ (t.procs p).state = .zombie → t.initproc ≠ some p →
    ∃ q, (t.procs p).parent = some q ∧ (t.procs q).state.Live

/-- As long as `allocproc` has been called less than 2 ^ 31 - 1 times: init never goes away, no two processes have one
`pid`, and every other process, also one that has exited, descends from init and has a parent that has not exited. -/
theorem process_tree {h : List (Kernel n × Event n)} {k : Kernel n} (hrun : RunsTo h k)
    (hproper : ∀ x ∈ h, Proper x.1 x.2) (hfew : allocs h < 2 ^ 31 - 1) :
    ∀ x ∈ Run.visited h k, ProcessTree x.table := by
  intro x hx
  have hf := hrun.family hproper x hx
  obtain ⟨t, hboot, hp⟩ := hrun
  obtain ⟨h', hpre, hp'⟩ := hp.visited hx
  obtain ⟨hn, -⟩ := RunsTo.numbered ⟨t, hboot, hp'⟩ (fun y hy => hproper y (hpre.subset hy))
    ((allocs_le hpre).trans_lt hfew)
  obtain ⟨i, hi, hlive, -⟩ := hf.init
  refine ⟨⟨i, hi, hlive⟩, hn.distinct, fun p hp => hf.descends hn hp, fun p hp hinit => ?_⟩
  obtain ⟨q, hq, hqlive, -⟩ := hf.parent p hp hinit
  exact ⟨q, hq, hqlive⟩

/-- The first process makes a child, which makes one of its own and exits. -/
theorem process_tree_orphan : ∃ h k, RunsTo (n := 3) h k ∧ (k.table.procs 1).state = .zombie ∧
    (k.table.procs 2).parent = some 0 ∧ ∀ x ∈ Run.visited h k, ProcessTree x.table := by
  obtain ⟨h, k, hrun, hproper, hfew, hz, ho⟩ := exists_runsTo
    [.scan, .visit, .call .forkBegin, .call .forkEnd, .call .yield, .visit, .call .forkBegin, .call .forkEnd, .call .exit]
    (P := fun h k => (∀ x ∈ h, Proper x.1 x.2) ∧ allocs h < 2 ^ 31 - 1 ∧ (k.table.procs 1).state = .zombie ∧
      (k.table.procs 2).parent = some 0)
    (by decide +kernel)
  exact ⟨h, k, hrun, hz, ho, process_tree hrun hproper hfew⟩

end CS1550.Xv6
