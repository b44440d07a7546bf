/-
What the running process can do to the table: `Table.call_slot` says what a call can make of the state and the
priority of a slot, and `Table.call_np` what it can make of a `fork` in progress. The invariant `Inv` holds in
every state that is reached: the process switched to is RUNNING, and a slot that a `fork` is setting up is an
EMBRYO that no other process touches.
-/
import CS1550.Xv6.Scheduler

namespace CS1550.Xv6

variable {n : Nat}

/-! ## What a call can make of a slot -/

/-- The slot `q` after a call of `p`, where `sched` says whether the process has called `sched`. -/
inductive SlotChange (t : Table n) (p : Fin n) (c : Call n) (sched : Bool) (q : Fin n) (x : Proc n) : Prop
  | same (hstate : x.state = (t.procs q).state) (hprio : x.priority = (t.procs q).priority)
  | ready (hstate : x.state = .runnable) (h : c.Readies t p q) (hprio : x.priority = c.newPriority t q)
  | leave (hq : q = p) (hsched : sched = true) (hstate : x.state = .sleeping ∨ x.state = .zombie)
      (hprio : x.priority = (t.procs q).priority)
  | alloc (hq : (t.procs q).state = .unused) (hstate : x.state = .embryo) (hprio : x.priority = 50)
  | free (hq : (t.procs q).state = .zombie ∨ (t.procs p).np = some q ∧ c = .forkFail) (hstate : x.state = .unused)
  | reprioritise (hq : q = p) (hstate : x.state = (t.procs q).state) (hprio : 0 ≤ x.priority ∧ x.priority ≤ 200)

section Slots

variable {t t' : Table n} {p q c : Fin n} {sched : Bool}

theorem allocproc_some (h : t.allocproc = some (c, t')) :
    (t.procs c).state = .unused ∧ (t'.procs c).state = .embryo ∧ (t'.procs c).priority = 50 ∧
      (t'.procs c).np = (t.procs c).np ∧ ∀ q, q ≠ c → t'.procs q = t.procs q := by
  obtain ⟨c', hc, heq⟩ := Option.map_eq_some_iff.1 h
  obtain ⟨rfl, rfl⟩ := Prod.mk.injEq .. ▸ heq
  have hfree := List.find?_some hc
  refine ⟨by simpa using hfree, ?_, ?_, ?_, fun q hq => ?_⟩
  · simp [Table.update]
  · simp [Table.update]
  · simp [Table.update]
  · simp [Table.update, hq]

theorem slot_forkBegin (t : Table n) (p q : Fin n) :
    SlotChange t p .forkBegin false q ((t.forkBegin p).procs q) := by
  unfold Table.forkBegin
  split
  · exact .same rfl rfl
  · rename_i c t' halloc
    obtain ⟨hfree, hembryo, hprio, -, hother⟩ := allocproc_some halloc
    have hkept : ((t'.update p fun x => { x with np := some c }).procs q).state = (t'.procs q).state ∧
        ((t'.update p fun x => { x with np := some c }).procs q).priority = (t'.procs q).priority := by
      by_cases hq : q = p
      · subst hq
        simp
      · simp [hq]
    by_cases hqc : q = c
    · subst hqc
      exact .alloc hfree (hkept.1.trans hembryo) (hkept.2.trans hprio)
    · rw [hother q hqc] at hkept
      exact .same hkept.1 hkept.2

theorem slot_exit (h : t.exit p = some t') (q : Fin n) : SlotChange t p .exit true q (t'.procs q) := by
  unfold Table.exit at h
  split at h
  · cases h
  · cases h
    have hre := reparented_reparent (t.wakeup1 ((t.procs p).parent.map .proc)) p
    have hprio : (((t.wakeup1 ((t.procs p).parent.map .proc)).reparent p).procs q).priority = (t.procs q).priority := by
      rw [(hre.slot q).1, wakeup1_slot]
    by_cases hqp : q = p
    · subst hqp
      exact .leave rfl rfl (.inr (by simp)) (by simpa using hprio)
    · rw [procs_update_of_ne hqp]
      have hwoken := state_wakeup1 t ((t.procs p).parent.map .proc) q
      rcases hre.state q with heq | ⟨hrun, ⟨hsleep, hchan⟩, c, hc, hz⟩
      · rw [hwoken] at heq
        split at heq
        · rename_i hon
          exact .ready heq (.inl hon) hprio
        · exact .same heq hprio
      · -- the sleepers and the zombies were there before the first `wakeup1`
        rw [hwoken] at hsleep
        rw [wakeup1_slot] at hchan hc
        rw [state_wakeup1] at hz
        split at hsleep
        · cases hsleep
        split at hz
        · cases hz
        exact .ready hrun (.inr ⟨⟨hsleep, hchan⟩, c, hc, hz⟩) hprio

theorem slot_wait (t : Table n) (p q : Fin n) :
    SlotChange t p .wait (t.wait p).1.isNone q ((t.wait p).2.procs q) := by
  unfold Table.wait
  split
  · rename_i c hc
    have hzombie := List.find?_some hc
    simp only [decide_eq_true_eq] at hzombie
    by_cases hqc : q = c
    · subst hqc
      exact .free (.inl hzombie.2) (by simp)
    · exact .same (by simp [hqc]) (by simp [hqc])
  · split
    · exact .same rfl rfl
    · by_cases hqp : q = p
      · subst hqp
        exact .leave rfl rfl (.inl (by simp [Table.sleep])) (by simp [Table.sleep])
      · exact .same (by simp [Table.sleep, hqp]) (by simp [Table.sleep, hqp])

theorem slot_setpriority (t : Table n) (p q : Fin n) (v : Int) :
    SlotChange t p (.setpriority v) (t.setpriority p v).1 q ((t.setpriority p v).2.2.procs q) := by
  unfold Table.setpriority
  split
  · exact .same rfl rfl
  · rename_i hrange
    dsimp only
    split
    · rename_i hlt
      by_cases hqp : q = p
      · subst hqp
        exact .ready (by simp [Table.yield]) ⟨rfl, by omega, by omega, hlt⟩ (by simp [Table.yield, Call.newPriority])
      · exact .same (by simp [Table.yield, hqp]) (by simp [Table.yield, hqp])
    · by_cases hqp : q = p
      · subst hqp
        exact .reprioritise rfl (by simp) ⟨by simp; omega, by simp; omega⟩
      · exact .same (by simp [hqp]) (by simp [hqp])

theorem slot_wakeup (t : Table n) (p q : Fin n) (chan : Chan n) :
    SlotChange t p (.wakeup chan) sched q ((t.wakeup chan).procs q) := by
  have hprio : ((t.wakeup chan).procs q).priority = (t.procs q).priority := by rw [Table.wakeup, wakeup1_slot]
  have hstate := state_wakeup1 t (some chan) q
  split at hstate
  · rename_i hon
    exact .ready hstate hon hprio
  · exact .same hstate hprio

theorem slot_kill (t : Table n) (p q : Fin n) (pid : Int) : SlotChange t p (.kill pid) sched q ((t.kill pid).2.procs q) := by
  unfold Table.kill
  split
  · exact .same rfl rfl
  · rename_i c hc
    by_cases hqc : q = c
    · subst hqc
      by_cases hsleep : (t.procs q).state = .sleeping
      · exact .ready (by simp [hsleep]) ⟨hc, hsleep⟩ (by simp [Call.newPriority])
      · exact .same (by simp [hsleep]) (by simp)
    · exact .same (by simp [hqc]) (by simp [hqc])

/-- The child that `fork` has set up, or could not set up. -/
theorem slot_forked (hnp : (t.procs p).np = some c) :
    SlotChange t p .forkEnd false q ((t.forkEnd p c).2.procs q) ∧
      SlotChange t p .forkFail false q ((t.forkFail p c).procs q) := by
  have hkept : ∀ t' : Table n, ((t'.update p fun x => { x with np := none }).procs q).state = (t'.procs q).state ∧
      ((t'.update p fun x => { x with np := none }).procs q).priority = (t'.procs q).priority := by
    intro t'
    by_cases hq : q = p
    · subst hq
      simp
    · simp [hq]
  obtain ⟨hs₁, hp₁⟩ := hkept (t.update c fun x => { x with parent := some p, state := .runnable })
  obtain ⟨hs₂, hp₂⟩ := hkept (t.update c fun x => { x with state := .unused })
  by_cases hqc : q = c
  · subst hqc
    rw [procs_update_self] at hs₁ hp₁ hs₂
    exact ⟨.ready hs₁ hnp hp₁, .free (.inr ⟨hnp, rfl⟩) hs₂⟩
  · rw [procs_update_of_ne hqc] at hs₁ hp₁ hs₂ hp₂
    exact ⟨.same hs₁ hp₁, .same hs₂ hp₂⟩

theorem Table.call_slot {c : Call n} (h : t.call p c = some (sched, t')) (q : Fin n) :
    SlotChange t p c sched q (t'.procs q) := by
  cases c with
  | yield =>
    cases h
    by_cases hqp : q = p
    · subst hqp
      exact .ready (by simp [Table.yield]) rfl (by simp [Table.yield, Call.newPriority])
    · exact .same (by simp [Table.yield, hqp]) (by simp [Table.yield, hqp])
  | sleep chan =>
    cases h
    by_cases hqp : q = p
    · subst hqp
      exact .leave rfl rfl (.inl (by simp [Table.sleep])) (by simp [Table.sleep])
    · exact .same (by simp [Table.sleep, hqp]) (by simp [Table.sleep, hqp])
  | exit =>
    obtain ⟨t₁, hexit, heq⟩ := Option.map_eq_some_iff.1 h
    cases heq
    exact slot_exit hexit q
  | wait =>
    cases h
    exact slot_wait t p q
  | forkBegin =>
    cases h
    exact slot_forkBegin t p q
  | forkEnd =>
    obtain ⟨c, hnp, heq⟩ := Option.map_eq_some_iff.1 h
    cases heq
    exact (slot_forked hnp).1
  | forkFail =>
    obtain ⟨c, hnp, heq⟩ := Option.map_eq_some_iff.1 h
    cases heq
    exact (slot_forked hnp).2
  | wakeup chan =>
    cases h
    exact slot_wakeup t p q chan
  | kill pid =>
    cases h
    exact slot_kill t p q pid
  | setpriority v =>
    cases h
    exact slot_setpriority t p q v

/-- The local `np` of a process after a call of `p`. -/
inductive NpChange (t : Table n) (p : Fin n) (t' : Table n) (q : Fin n) : Prop
  | same (h : (t'.procs q).np = (t.procs q).np)
  | began (hq : q = p) {c : Fin n} (h : (t'.procs q).np = some c) (hfree : (t.procs c).state = .unused)
      (hembryo : (t'.procs c).state = .embryo)
  | ended (hq : q = p) (h : (t'.procs q).np = none)

theorem np_update {f : Proc n → Proc n} (hf : ∀ x, (f x).np = x.np) : ((t.update p f).procs q).np = (t.procs q).np := by
  by_cases hqp : q = p
  · subst hqp
    rw [procs_update_self, hf]
  · rw [procs_update_of_ne hqp]

theorem np_wakeup1 (t : Table n) (chan : Option (Chan n)) (q : Fin n) :
    ((t.wakeup1 chan).procs q).np = (t.procs q).np := by rw [wakeup1_slot]

theorem npChange_forkBegin (t : Table n) (p q : Fin n) : NpChange t p (t.forkBegin p) q := by
  unfold Table.forkBegin
  split
  · exact .same rfl
  · rename_i c t' halloc
    obtain ⟨hfree, hembryo, -, hnp, hother⟩ := allocproc_some halloc
    by_cases hqp : q = p
    · refine .began hqp (c := c) (by simp [hqp]) hfree ?_
      by_cases hcp : c = p
      · subst hcp
        simpa using hembryo
      · simpa [hcp] using hembryo
    · refine .same ?_
      rw [procs_update_of_ne hqp]
      by_cases hqc : q = c
      · rw [hqc, hnp]
      · rw [hother q hqc]

theorem npChange_ended {f : Proc n → Proc n} (hf : ∀ x, (f x).np = x.np) :
    NpChange t p ((t.update c f).update p fun x => { x with np := none }) q := by
  by_cases hqp : q = p
  · exact .ended hqp (by simp [hqp])
  · refine .same ?_
    rw [procs_update_of_ne hqp, np_update hf]

theorem Table.call_np {c : Call n} (h : t.call p c = some (sched, t')) (q : Fin n) : NpChange t p t' q := by
  cases c with
  | yield =>
    cases h
    exact .same (np_update fun _ => by rfl)
  | sleep chan =>
    cases h
    exact .same (np_update fun _ => by rfl)
  | exit =>
    obtain ⟨t₁, hexit, heq⟩ := Option.map_eq_some_iff.1 h
    cases heq
    unfold Table.exit at hexit
    split at hexit
    · cases hexit
    · cases hexit
      refine .same ((np_update fun _ => by rfl).trans ?_)
      rw [((reparented_reparent _ p).slot q).2.1, np_wakeup1]
  | wait =>
    cases h
    refine .same ?_
    unfold Table.wait
    split
    · dsimp only
      exact np_update fun _ => by rfl
    · split
      · rfl
      · dsimp only [Table.sleep]
        exact np_update fun _ => by rfl
  | forkBegin =>
    cases h
    exact npChange_forkBegin t p q
  | forkEnd =>
    obtain ⟨c, hnp, heq⟩ := Option.map_eq_some_iff.1 h
    cases heq
    exact npChange_ended fun _ => by rfl
  | forkFail =>
    obtain ⟨c, hnp, heq⟩ := Option.map_eq_some_iff.1 h
    cases heq
    exact npChange_ended fun _ => by rfl
  | wakeup chan =>
    cases h
    exact .same (np_wakeup1 t _ q)
  | kill pid =>
    cases h
    refine .same ?_
    unfold Table.kill
    split
    · rfl
    · dsimp only
      exact np_update fun _ => by rfl
  | setpriority v =>
    cases h
    refine .same ?_
    unfold Table.setpriority
    split
    · rfl
    · dsimp only
      split
      · dsimp only [Table.yield]
        rw [np_update fun _ => by rfl, np_update fun _ => by rfl]
      · dsimp only
        exact np_update fun _ => by rfl

end Slots

/-! ## Reachable states -/

/-- The running process is RUNNING, and a child that is being set up is an EMBRYO of one process. -/
structure Inv (k : Kernel n) : Prop where
  running : ∀ p maxPriority, k.phase = .running p maxPriority → (k.table.procs p).state = .running
  embryo : ∀ p c, (k.table.procs p).np = some c → (k.table.procs c).state = .embryo
  apart : ∀ p q c, (k.table.procs p).np = some c → (k.table.procs q).np = some c → p = q

section Inv

variable {t t' : Table n} {p q c : Fin n} {a : Call n} {sched : Bool} {k k' : Kernel n} {e : Event n}

/-- A running process that is RUNNABLE after its call has yielded. -/
theorem Table.call_readies_self (h : t.call p a = some (sched, t')) (hp : (t.procs p).state = .running)
    (hnp : (t.procs p).np ≠ some p) (hr : a.Readies t p p) : sched = true := by
  cases a with
  | yield =>
    cases h
    rfl
  | setpriority v =>
    obtain ⟨-, h0, h200, hlt⟩ := hr
    cases h
    rw [Table.setpriority, if_neg (by omega)]
    dsimp only
    rw [if_pos hlt]
  | forkEnd => exact absurd hr hnp
  | exit =>
    obtain ⟨t₁, -, heq⟩ := Option.map_eq_some_iff.1 h
    cases heq
    rfl
  | wakeup chan => exact absurd (hp.symm.trans hr.1) (by decide)
  | kill pid => exact absurd (hp.symm.trans hr.2) (by decide)
  | sleep chan => exact hr.elim
  | wait => exact hr.elim
  | forkBegin => exact hr.elim
  | forkFail => exact hr.elim

/-- Only a process that is no EMBRYO becomes RUNNABLE, unless it is the one that `p` has set up. -/
theorem Call.Readies.not_embryo (hr : a.Readies t p c) (hp : (t.procs p).state = .running)
    (hc : (t.procs c).state = .embryo) : (t.procs p).np = some c ∧ a = .forkEnd := by
  cases a with
  | yield => exact absurd (hr ▸ hp) (by rw [hc]; decide)
  | setpriority v => exact absurd (hr.1 ▸ hp) (by rw [hc]; decide)
  | forkEnd => exact ⟨hr, rfl⟩
  | exit =>
    rcases hr with hsleeps | ⟨hsleeps, -⟩
    · exact absurd hsleeps.1 (by rw [hc]; decide)
    · exact absurd hsleeps.1 (by rw [hc]; decide)
  | wakeup chan => exact absurd hr.1 (by rw [hc]; decide)
  | kill pid => exact absurd hr.2 (by rw [hc]; decide)
  | sleep chan => exact hr.elim
  | wait => exact hr.elim
  | forkBegin => exact hr.elim
  | forkFail => exact hr.elim

/-- A process that is being set up stays an EMBRYO, unless it is the one that `p` is setting up. -/
theorem Table.call_embryo (h : t.call p a = some (sched, t')) (hp : (t.procs p).state = .running)
    (hc : (t.procs c).state = .embryo) : (t'.procs c).state = .embryo ∨
      (t.procs p).np = some c ∧ (t'.procs p).np = none := by
  have hended : ∀ {a : Call n}, t.call p a = some (sched, t') → a = .forkEnd ∨ a = .forkFail →
      (t'.procs p).np = none := by
    rintro a h (rfl | rfl)
    · obtain ⟨c, -, heq⟩ := Option.map_eq_some_iff.1 h
      cases heq
      simp [Table.forkEnd]
    · obtain ⟨c, -, heq⟩ := Option.map_eq_some_iff.1 h
      cases heq
      simp [Table.forkFail]
  cases Table.call_slot h c with
  | same hstate => exact .inl (hstate.trans hc)
  | ready hstate hr =>
    obtain ⟨hnp, rfl⟩ := hr.not_embryo hp hc
    exact .inr ⟨hnp, hended h (.inl rfl)⟩
  | leave hq => exact absurd (hq ▸ hp) (by rw [hc]; decide)
  | alloc hq => exact absurd hq (by rw [hc]; decide)
  | free hq =>
    rcases hq with hz | ⟨hnp, rfl⟩
    · exact absurd hz (by rw [hc]; decide)
    · exact .inr ⟨hnp, hended h (.inr rfl)⟩
  | reprioritise hq hstate => exact .inl (hstate.trans hc)

/-- A child that is being set up after a call was set up before it, or is one that `p` has just begun with. -/
theorem NpChange.of_some (h : NpChange t p t' q) (hq : (t'.procs q).np = some c) :
    (t.procs q).np = some c ∨ q = p ∧ (t.procs c).state = .unused ∧ (t'.procs c).state = .embryo := by
  cases h with
  | same heq => exact .inl (heq.symm.trans hq)
  | began hqp hnew hfree hembryo =>
    obtain rfl := Option.some.inj (hnew.symm.trans hq)
    exact .inr ⟨hqp, hfree, hembryo⟩
  | ended _ hnone =>
    rw [hnone] at hq
    cases hq

/-- A process that goes on after its call is RUNNING still. -/
theorem Inv.call_running {m : Int} (hi : Inv ⟨t, .running p m⟩) (h : t.call p a = some (false, t')) :
    (t'.procs p).state = .running := by
  have hp := hi.running p m rfl
  have hnp : (t.procs p).np ≠ some p := fun h => absurd (hi.embryo p p h) (by rw [hp]; decide)
  cases Table.call_slot h p with
  | same hstate => exact hstate.trans hp
  | ready hstate hr => cases Table.call_readies_self h hp hnp hr
  | leave hq hsched => cases hsched
  | alloc hq => exact absurd hq (by rw [hp]; decide)
  | free hq =>
    rcases hq with hz | ⟨hself, -⟩
    · exact absurd hz (by rw [hp]; decide)
    · exact absurd hself hnp
  | reprioritise hq hstate => exact hstate.trans hp

/-- The invariant after a call of the running process. -/
theorem Inv.call {m : Int} (hi : Inv ⟨t, .running p m⟩) (h : t.call p a = some (sched, t')) :
    Inv ⟨t', if sched then .second (p + 1) m else .running p m⟩ := by
  have hp := hi.running p m rfl
  -- a slot that `allocproc` has just found is not that of an EMBRYO
  have hfresh : ∀ q c, (t.procs q).np = some c → (t.procs c).state ≠ .unused := by
    intro q c hq hfree
    rw [hi.embryo q c hq] at hfree
    cases hfree
  refine ⟨fun q m' hphase => ?_, fun q c hq => ?_, fun q r c hq hr => ?_⟩
  · cases sched with
    | true => cases hphase
    | false =>
      cases hphase
      exact hi.call_running h
  · rcases (Table.call_np h q).of_some hq with hold | ⟨-, -, hembryo⟩
    · rcases Table.call_embryo h hp (hi.embryo q c hold) with hstill | ⟨hpc, hnone⟩
      · exact hstill
      · obtain rfl := hi.apart q p c hold hpc
        rw [hnone] at hq
        cases hq
    · exact hembryo
  · rcases (Table.call_np h q).of_some hq with hold | ⟨rfl, hfree, -⟩
    · rcases (Table.call_np h r).of_some hr with hold' | ⟨-, hfree, -⟩
      · exact hi.apart q r c hold hold'
      · exact absurd hfree (hfresh q c hold)
    · rcases (Table.call_np h r).of_some hr with hold' | ⟨rfl, -⟩
      · exact absurd hfree (hfresh r c hold')
      · rfl

theorem inv_boot (h : (Table.zeroed n).userinit = some t) : Inv ⟨t, .top⟩ := by
  obtain ⟨⟨p, t₁⟩, halloc, rfl⟩ := Option.map_eq_some_iff.1 h
  obtain ⟨-, -, -, hnp, hother⟩ := allocproc_some halloc
  have hnone : ∀ q, ((t₁.update p fun x => { x with state := .runnable }).procs q).np = none := by
    intro q
    rw [np_update fun _ => by rfl]
    by_cases hqp : q = p
    · rw [hqp, hnp]
      rfl
    · rw [hother q hqp]
      rfl
  refine ⟨fun q m hphase => (by cases hphase), fun q c hq => ?_, fun q r c hq => ?_⟩
  · rw [hnone q] at hq
    cases hq
  · rw [hnone q] at hq
    cases hq

theorem chosen_some {i : Nat} {m : Int} (h : chosen t i m = some p) :
    p = i ∧ (t.procs p).state = .runnable ∧ (t.procs p).priority = m := by
  unfold chosen at h
  split at h
  · split at h
    · rename_i hrun
      cases h
      exact ⟨rfl, hrun⟩
    · cases h
  · cases h

theorem Inv.dispatch {i : Nat} {m : Int} (hi : Inv ⟨t, .second i m⟩) (h : chosen t i m = some p) :
    Inv ⟨t.dispatch p, .running p m⟩ := by
  obtain ⟨-, hrun, -⟩ := chosen_some h
  have hnp : ∀ q, ((t.dispatch p).procs q).np = (t.procs q).np := fun q => np_update fun _ => by rfl
  refine ⟨fun q m' hphase => ?_, fun q c hq => ?_, fun q r c hq hr => ?_⟩
  · cases hphase
    simp [Table.dispatch]
  · rw [hnp] at hq
    have hc := hi.embryo q c hq
    have hcp : c ≠ p := by
      rintro rfl
      rw [hrun] at hc
      cases hc
    simpa [Table.dispatch, hcp] using hc
  · rw [hnp] at hq hr
    exact hi.apart q r c hq hr

/-- The phase alone says little. -/
theorem Inv.phase {phase phase' : Phase n} (hi : Inv ⟨t, phase⟩)
    (h : ∀ p m, phase' = .running p m → phase = .running p m) : Inv ⟨t, phase'⟩ :=
  ⟨fun p m hp => hi.running p m (h p m hp), hi.embryo, hi.apart⟩

theorem Inv.wakeup {phase : Phase n} (hi : Inv ⟨t, phase⟩) (chan : Chan n) : Inv ⟨t.wakeup chan, phase⟩ := by
  have hkept : ∀ q, (t.procs q).state ≠ .sleeping → ((t.wakeup chan).procs q).state = (t.procs q).state := by
    intro q hq
    rw [Table.wakeup, state_wakeup1, if_neg fun h => hq h.1]
  refine ⟨fun p m hp => ?_, fun q c hq => ?_, fun q r c hq hr => ?_⟩
  · have hrunning := hi.running p m hp
    exact (hkept p (by rw [hrunning]; decide)).trans hrunning
  · rw [Table.wakeup, np_wakeup1] at hq
    have hembryo := hi.embryo q c hq
    exact (hkept c (by rw [hembryo]; decide)).trans hembryo
  · rw [Table.wakeup, np_wakeup1] at hq hr
    exact hi.apart q r c hq hr

theorem Inv.step (hi : Inv k) (hs : Step k e k') : Inv k' := by
  cases hs.moves with
  | scan => exact hi.phase fun p m hp => by cases hp
  | switch hp => exact hi.dispatch hp
  | skip => exact hi.phase fun p m hp => by cases hp
  | finish => exact hi.phase fun p m hp => by cases hp
  | call h => exact hi.call h
  | interrupt t p m chan => exact hi.wakeup chan
  | idle t chan => exact hi.wakeup chan

theorem RunsTo.inv {h : List (Kernel n × Event n)} (hp : RunsTo h k) : Inv k := by
  obtain ⟨t, hboot, hp⟩ := hp
  exact hp.always (inv_boot hboot) fun _ _ _ hi hs => hi.step hs

end Inv

end CS1550.Xv6
