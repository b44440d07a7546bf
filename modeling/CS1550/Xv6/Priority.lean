/-
Strict priority at dispatch. The smallest priority number of a pass is computed once, and a process that
becomes RUNNABLE behind the first loop with a smaller number is passed over for the rest of the pass: the second
loop goes on with the old number. Every dispatch is one of a most urgent process in the runs where that does not
happen (`strict_of_calm`).
-/
import CS1550.Xv6.Slots

namespace CS1550.Xv6

variable {n : Nat} {t t' : Table n} {p q : Fin n} {k k' : Kernel n} {e : Event n}

/-- While a pass is in its second loop, no process becomes RUNNABLE with a smaller priority number than that of
the pass. -/
def Calm (k : Kernel n) (e : Event n) : Prop :=
  match k.phase, e with
  | .running p maxPriority, .call c => ∀ q, c.Readies k.table p q → maxPriority ≤ c.newPriority k.table q
  | .running _ maxPriority, .interrupt chan =>
    ∀ q, k.table.SleepsOn q (some chan) → maxPriority ≤ (k.table.procs q).priority
  | _, _ => True

instance : (k : Kernel n) → (e : Event n) → Decidable (Calm k e)
  | ⟨_, .running _ _⟩, .call _ => inferInstanceAs (Decidable (∀ _, _))
  | ⟨_, .running _ _⟩, .interrupt _ => inferInstanceAs (Decidable (∀ _, _))
  | ⟨_, .running _ _⟩, .scan => isTrue trivial
  | ⟨_, .running _ _⟩, .visit => isTrue trivial
  | ⟨_, .top⟩, _ => isTrue trivial
  | ⟨_, .second _ _⟩, _ => isTrue trivial

/-- No process that is RUNNABLE is more urgent than `p`. -/
def MostUrgent (t : Table n) (p : Fin n) : Prop :=
  ∀ q, (t.procs q).state = .runnable → (t.procs p).priority ≤ (t.procs q).priority

/-- The number `m` is not above the priority of any process that is RUNNABLE. -/
def Bounds (m : Int) (t : Table n) : Prop := ∀ q, (t.procs q).state = .runnable → m ≤ (t.procs q).priority

/-- In the second loop the number of the pass bounds the table. -/
def PassBounds (k : Kernel n) : Prop :=
  match k.phase with
  | .top => True
  | .second _ maxPriority => Bounds maxPriority k.table
  | .running _ maxPriority => Bounds maxPriority k.table

/-- The first loop finds a number that bounds the table. -/
theorem bounds_firstLoop (t : Table n) : Bounds (firstLoop t) t := by
  unfold firstLoop
  have hloop : ∀ (l : List (Fin n)) (m : Int),
      let r := l.foldl (fun maxPriority p =>
        if (t.procs p).state ≠ .runnable then maxPriority
        else if (t.procs p).priority < maxPriority then (t.procs p).priority
        else maxPriority) m
      r ≤ m ∧ ∀ q ∈ l, (t.procs q).state = .runnable → r ≤ (t.procs q).priority := by
    intro l
    induction l with
    | nil => exact fun m => ⟨le_refl m, by simp⟩
    | cons p l ih =>
      intro m
      rw [List.foldl_cons]
      obtain ⟨hle, hall⟩ := ih (if (t.procs p).state ≠ .runnable then m
        else if (t.procs p).priority < m then (t.procs p).priority else m)
      refine ⟨hle.trans ?_, fun q hq hrun => ?_⟩
      · split
        · exact le_refl m
        · split <;> omega
      · rcases List.mem_cons.1 hq with rfl | hq
        · refine hle.trans ?_
          rw [if_neg (not_not.2 hrun)]
          split <;> omega
        · exact hall q hq hrun
  intro q hq
  exact (hloop (List.finRange n) 201).2 q (List.mem_finRange q) hq

theorem Bounds.mostUrgent {i : Nat} {m : Int} (hb : Bounds m t) (h : chosen t i m = some p) : MostUrgent t p := by
  intro q hq
  rw [(chosen_some h).2.2]
  exact hb q hq

theorem Bounds.dispatch {m : Int} (hb : Bounds m t) (p : Fin n) : Bounds m (t.dispatch p) := by
  intro q hq
  by_cases hqp : q = p
  · subst hqp
    simp [Table.dispatch] at hq
  · rw [Table.dispatch, procs_update_of_ne hqp] at hq ⊢
    exact hb q hq

/-- A call that readies no more urgent process. -/
theorem Bounds.call {m : Int} {c : Call n} {sched : Bool} (hb : Bounds m t) (hp : (t.procs p).state = .running)
    (h : t.call p c = some (sched, t')) (hcalm : ∀ q, c.Readies t p q → m ≤ c.newPriority t q) :
    Bounds m t' := by
  intro q hq
  cases Table.call_slot h q with
  | same hstate hprio =>
    rw [hprio]
    exact hb q (hstate.symm.trans hq)
  | ready hstate hr hprio =>
    rw [hprio]
    exact hcalm q hr
  | leave _ _ hstate =>
    rw [hq] at hstate
    simp at hstate
  | alloc _ hstate =>
    rw [hq] at hstate
    cases hstate
  | free _ hstate =>
    rw [hq] at hstate
    cases hstate
  | reprioritise hqp hstate =>
    subst hqp
    rw [hq, hp] at hstate
    cases hstate

theorem PassBounds.step (hb : PassBounds k) (hi : Inv k) (hcalm : Calm k e) (hs : Step k e k') : PassBounds k' := by
  cases hs.moves with
  | scan t => exact bounds_firstLoop t
  | switch hp => exact Bounds.dispatch hb _
  | skip => exact hb
  | finish => trivial
  | @call t t' p m c sched h =>
    have hbounds : Bounds m t' := Bounds.call hb (hi.running p m rfl) h hcalm
    cases sched with
    | true => exact hbounds
    | false => exact hbounds
  | interrupt t p m chan =>
    have hwakeup : t.call p (.wakeup chan) = some (false, t.wakeup chan) := rfl
    exact Bounds.call hb (hi.running p m rfl) hwakeup hcalm
  | idle => trivial

/-- In every run in which no process becomes RUNNABLE in the second loop of a pass with a smaller number than
that of the pass, every process that the scheduler switches to is a most urgent one. -/
theorem strict_of_calm {h : List (Kernel n × Event n)} (hrun : RunsTo h k) (hcalm : ∀ x ∈ h, Calm x.1 x.2) :
    ∀ x ∈ h, ∀ p, dispatched x.1 x.2 = some p → MostUrgent x.1.table p := by
  obtain ⟨t₀, hboot, hpath⟩ := hrun
  have hbounds : ∀ x ∈ Run.visited h k, PassBounds x := by
    refine hpath.forall_visited (fun h x hpath hcalm => ?_) hcalm
    have hboth := hpath.invariant (I := fun k => Inv k ∧ PassBounds k) Calm ⟨inv_boot hboot, trivial⟩
      (fun _ _ _ hi hc hs => ⟨hi.1.step hs, hi.2.step hi.1 hc hs⟩) hcalm
    exact hboth.2
  intro x hx p hp
  obtain ⟨i, m, hphase, hchosen⟩ := dispatched_some hp
  have hb := hbounds x.1 (List.mem_append_left _ (List.mem_map_of_mem hx))
  unfold PassBounds at hb
  rw [hphase] at hb
  exact Bounds.mostUrgent hb hchosen

/-- A table of three slots, with the first process in one of them. -/
def started : Kernel 3 := ⟨((Table.zeroed 3).userinit).getD (.zeroed 3), .top⟩

theorem exists_runsTo (es : List (Event 3)) {P : List (Kernel 3 × Event 3) → Kernel 3 → Prop} [∀ h k, Decidable (P h k)]
    (hr : (Run.follow step started es).any (fun r => decide (P r.1 r.2)) = true) : ∃ h k, RunsTo h k ∧ P h k := by
  obtain ⟨h, k, hp, hP⟩ := Run.exists_of_follow step started es hr
  exact ⟨h, k, ⟨_, rfl, hp⟩, hP⟩

/-- The first process makes a child and loses the processor; the child is dispatched in the same pass. -/
theorem strict_of_calm_child : ∃ h k, RunsTo (n := 3) h k ∧ (∃ x ∈ h, dispatched x.1 x.2 = some 1) ∧
    ∀ x ∈ h, ∀ p, dispatched x.1 x.2 = some p → MostUrgent x.1.table p := by
  obtain ⟨h, k, hrun, hcalm, hchild⟩ := exists_runsTo
    [.scan, .visit, .call .forkBegin, .call .forkEnd, .call .yield, .visit]
    (P := fun h _ => (∀ x ∈ h, Calm x.1 x.2) ∧ ∃ x ∈ h, dispatched x.1 x.2 = some 1) (by decide +kernel)
  exact ⟨h, k, hrun, hchild, strict_of_calm hrun hcalm⟩

/-- Of two children the first one takes the priority 10 and yields. The pass goes on with the priority 50 and
dispatches the second one. -/
theorem urgent_child_passed_over : ∃ h k, RunsTo (n := 3) h k ∧
    ∃ x ∈ h, dispatched x.1 x.2 = some 2 ∧ (x.1.table.procs 2).priority = 50 ∧
      (x.1.table.procs 1).state = .runnable ∧ (x.1.table.procs 1).priority = 10 :=
  exists_runsTo [.scan, .visit, .call .forkBegin, .call .forkEnd, .call .forkBegin, .call .forkEnd, .call .yield,
    .visit, .call (.setpriority 10), .call .yield, .visit] (by decide +kernel)

end CS1550.Xv6
