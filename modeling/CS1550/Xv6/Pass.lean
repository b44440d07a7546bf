/-
One pass of the scheduler of `lab3/xv6-public/proc.c`. Every process in use has a priority from 0 to 200
(`RunsTo.ranged`), so the 201 that the first loop starts with stands for an idle table only. The second loop goes
through the slots once, whatever the processes do that it switches to; until it switches to one the table is that
of the first loop (`InPass`).
-/
import CS1550.Xv6.Priority

namespace CS1550.Xv6

variable {n : Nat} {t t' : Table n} {p q : Fin n} {k k' : Kernel n} {e : Event n}

/-! ## The range of the priorities -/

/-- Every process in use has a priority from 0 to 200. -/
def Ranged (t : Table n) : Prop :=
  ∀ q, (t.procs q).state ≠ .unused → 0 ≤ (t.procs q).priority ∧ (t.procs q).priority ≤ 200

/-- A process that a call makes RUNNABLE is in use. -/
theorem Call.Readies.in_use {a : Call n} {m : Int} (hr : a.Readies t p q) (hi : Inv ⟨t, .running p m⟩) :
    (t.procs q).state ≠ .unused := by
  have hp := hi.running p m rfl
  cases a with
  | yield => rw [show q = p from hr, hp]; decide
  | setpriority v => rw [hr.1, hp]; decide
  | forkEnd => rw [hi.embryo p q hr]; decide
  | exit =>
    rcases hr with hsleeps | ⟨hsleeps, -⟩
    · rw [hsleeps.1]; decide
    · rw [hsleeps.1]; decide
  | wakeup chan => rw [hr.1]; decide
  | kill pid => rw [hr.2]; decide
  | sleep chan => exact hr.elim
  | wait => exact hr.elim
  | forkBegin => exact hr.elim
  | forkFail => exact hr.elim

/-- The priority of a process that a call makes RUNNABLE. -/
theorem Ranged.newPriority {a : Call n} {m : Int} (h : Ranged t) (hi : Inv ⟨t, .running p m⟩) (hr : a.Readies t p q) :
    0 ≤ a.newPriority t q ∧ a.newPriority t q ≤ 200 := by
  have hold := h q (hr.in_use hi)
  cases a with
  | setpriority v => exact ⟨hr.2.1, hr.2.2.1⟩
  | _ => exact hold

theorem Ranged.call {a : Call n} {m : Int} {sched : Bool} (h : Ranged t) (hi : Inv ⟨t, .running p m⟩)
    (hcall : t.call p a = some (sched, t')) : Ranged t' := by
  intro q hq
  cases Table.call_slot hcall q with
  | same hstate hprio =>
    rw [hprio]
    exact h q (hstate ▸ hq)
  | ready _ hr hprio =>
    rw [hprio]
    exact h.newPriority hi hr
  | leave hqp _ _ hprio =>
    rw [hprio]
    refine h q ?_
    rw [hqp, hi.running p m rfl]
    decide
  | alloc _ _ hprio =>
    rw [hprio]
    decide
  | free _ hstate => exact absurd hstate hq
  | reprioritise _ _ hprio => exact hprio

theorem Ranged.dispatch (h : Ranged t) (hp : (t.procs p).state = .runnable) : Ranged (t.dispatch p) := by
  intro q hq
  by_cases hqp : q = p
  · subst hqp
    rw [Table.dispatch, procs_update_self]
    refine h q ?_
    rw [hp]
    decide
  · rw [Table.dispatch, procs_update_of_ne hqp] at hq ⊢
    exact h q hq

theorem Ranged.wakeup (h : Ranged t) (chan : Chan n) : Ranged (t.wakeup chan) := by
  intro q hq
  rw [Table.wakeup, state_wakeup1] at hq
  rw [Table.wakeup, wakeup1_slot]
  refine h q fun hunused => ?_
  rw [if_neg fun hsleeps => absurd hsleeps.1 (by rw [hunused]; decide)] at hq
  exact hq hunused

theorem Ranged.step (h : Ranged k.table) (hi : Inv k) (hs : Step k e k') : Ranged k'.table := by
  cases hs.moves with
  | scan => exact h
  | switch hp => exact h.dispatch (chosen_some hp).2.1
  | skip => exact h
  | finish => exact h
  | call hcall => exact h.call hi hcall
  | interrupt t p m chan => exact h.wakeup chan
  | idle t chan => exact h.wakeup chan

theorem ranged_boot (h : (Table.zeroed n).userinit = some t) : Ranged t := by
  obtain ⟨⟨p, t₁⟩, halloc, rfl⟩ := Option.map_eq_some_iff.1 h
  obtain ⟨-, -, hprio, -, hother⟩ := allocproc_some halloc
  intro q hq
  by_cases hqp : q = p
  · subst hqp
    show 0 ≤ ((t₁.update q fun x => { x with state := .runnable }).procs q).priority ∧ _
    rw [procs_update_self]
    show 0 ≤ (t₁.procs q).priority ∧ (t₁.procs q).priority ≤ 200
    rw [hprio]
    decide
  · refine absurd ?_ hq
    show ((t₁.update p fun x => { x with state := .runnable }).procs q).state = .unused
    rw [procs_update_of_ne hqp, hother q hqp]
    rfl

theorem RunsTo.ranged {h : List (Kernel n × Event n)} (hrun : RunsTo h k) : Ranged k.table := by
  obtain ⟨t, hboot, hp⟩ := hrun
  induction hp with
  | start => exact ranged_boot hboot
  | step hp hs ih => exact ih.step (RunsTo.inv ⟨t, hboot, hp⟩) hs

/-! ## The first loop -/

/-- The number of the first loop is that of a process, unless it is the 201 from its start. -/
theorem firstLoop_eq (t : Table n) :
    firstLoop t = 201 ∨ ∃ p, (t.procs p).state = .runnable ∧ (t.procs p).priority = firstLoop t := by
  unfold firstLoop
  generalize (201 : Int) = m
  induction List.finRange n generalizing m with
  | nil => exact .inl rfl
  | cons p l ih =>
    rw [List.foldl_cons]
    split
    · exact ih m
    · rename_i hrun
      split
      · rcases ih (t.procs p).priority with heq | hother
        · rw [heq]
          exact .inr ⟨p, not_not.1 hrun, rfl⟩
        · exact .inr hother
      · exact ih m

theorem Ranged.firstLoop (h : Ranged t) (hq : (t.procs q).state = .runnable) :
    ∃ p, (t.procs p).state = .runnable ∧ (t.procs p).priority = firstLoop t := by
  refine (firstLoop_eq t).resolve_left fun heq => ?_
  have hle := bounds_firstLoop t q hq
  have hrange := (h q (by rw [hq]; decide)).2
  omega

/-! ## The second loop -/

/-- The processes that the scheduler switches to, one after the other. -/
def switched (pass : List (Kernel n × Event n)) : List (Fin n) := pass.filterMap fun x => dispatched x.1 x.2

theorem switched_append (pass : List (Kernel n × Event n)) (k : Kernel n) (e : Event n) :
    switched (pass ++ [(k, e)]) = switched pass ++ (dispatched k e).toList := by
  unfold switched
  rw [List.filterMap_append]
  congr 1

/-- Number of the slots that the second loop has come to. -/
def Phase.reached : Phase n → Nat
  | .top => n
  | .second i _ => i
  | .running p _ => p + 1

/-- The steps of a pass behind the first loop, which has found the table `t`. -/
structure InPass (t : Table n) (pass : List (Kernel n × Event n)) (k : Kernel n) : Prop where
  second : ∀ i m, k.phase = .second i m → m = firstLoop t
  running : ∀ p m, k.phase = .running p m → m = firstLoop t ∧ switched pass ≠ []
  increasing : (switched pass).Pairwise (· < ·)
  below : ∀ p ∈ switched pass, p < k.phase.reached
  visits : ∀ q : Fin n, q < k.phase.reached → ∃ x ∈ pass, x.1.phase = .second q (firstLoop t) ∧ x.2 = .visit
  idle : switched pass = [] → k.table = t ∧ min pass.length n ≤ k.phase.reached ∧
    ∀ q : Fin n, q < k.phase.reached → chosen t q (firstLoop t) = none

section

variable {t₀ : Table n} {pass : List (Kernel n × Event n)} {i : Nat} {m : Int}

theorem switched_skip (pass : List (Kernel n × Event n)) (h : dispatched k e = none) : switched (pass ++ [(k, e)]) = switched pass := by
  rw [switched_append, h]
  exact List.append_nil _

theorem inPass_start (t : Table n) : InPass t [] ⟨t, .second 0 (firstLoop t)⟩ where
  second i m h := by
    cases h
    rfl
  running p m h := by cases h
  increasing := .nil
  below p hp := by cases hp
  visits q hq := absurd hq (Nat.not_lt_zero _)
  idle _ := ⟨rfl, Nat.min_le_left _ _, fun q hq => absurd hq (Nat.not_lt_zero _)⟩

/-- The second loop comes to slot `i`, where there may be a process to switch to. -/
theorem InPass.visits_succ (hi : InPass t₀ pass ⟨t, .second i m⟩) (hq : q < i + 1) :
    ∃ x ∈ pass ++ [(⟨t, .second i m⟩, .visit)], x.1.phase = .second q (firstLoop t₀) ∧ x.2 = .visit := by
  by_cases hlt : q < i
  · obtain ⟨x, hx, hphase⟩ := hi.visits q hlt
    exact ⟨x, List.mem_append_left _ hx, hphase⟩
  · obtain rfl : (q : Nat) = i := by omega
    obtain rfl := hi.second q m rfl
    exact ⟨_, List.mem_append_right _ List.mem_cons_self, rfl, rfl⟩

theorem InPass.switch (hi : InPass t₀ pass ⟨t, .second i m⟩) (hp : chosen t i m = some p) :
    InPass t₀ (pass ++ [(⟨t, .second i m⟩, .visit)]) ⟨t.dispatch p, .running p m⟩ := by
  have hswitched : switched (pass ++ [(⟨t, .second i m⟩, .visit)]) = switched pass ++ [p] := by
    rw [switched_append]
    exact congrArg (switched pass ++ ·.toList) hp
  obtain ⟨rfl, -⟩ := chosen_some hp
  have hne : switched pass ++ [p] ≠ [] := List.append_ne_nil_of_right_ne_nil _ (List.cons_ne_nil _ _)
  refine ⟨fun i m h => (by cases h), fun q m' h => ?_, ?_, fun q hq => ?_, fun q hq => hi.visits_succ hq, fun h => ?_⟩
  · cases h
    rw [hswitched]
    exact ⟨hi.second p m rfl, hne⟩
  · rw [hswitched]
    refine List.pairwise_append.2 ⟨hi.increasing, List.pairwise_singleton _ _, fun a ha b hb => ?_⟩
    rw [List.mem_singleton.1 hb]
    exact hi.below a ha
  · rw [hswitched] at hq
    rcases List.mem_append.1 hq with hq | hq
    · exact (hi.below q hq).trans (Nat.lt_succ_self _)
    · rw [List.mem_singleton.1 hq]
      exact Nat.lt_succ_self _
  · rw [hswitched] at h
    exact absurd h hne

theorem InPass.skip (hi : InPass t₀ pass ⟨t, .second i m⟩) (hp : chosen t i m = none) :
    InPass t₀ (pass ++ [(⟨t, .second i m⟩, .visit)]) ⟨t, .second (i + 1) m⟩ := by
  have hswitched := switched_skip (k := ⟨t, .second i m⟩) (e := .visit) pass hp
  refine ⟨fun j m' h => ?_, fun p m' h => (by cases h), ?_, fun q hq => ?_, fun q hq => hi.visits_succ hq, fun h => ?_⟩
  · cases h
    exact hi.second i m rfl
  · rw [hswitched]
    exact hi.increasing
  · rw [hswitched] at hq
    exact (hi.below q hq).trans (Nat.lt_succ_self _)
  · rw [hswitched] at h
    obtain ⟨rfl, hlen, hnone⟩ := hi.idle h
    refine ⟨rfl, ?_, fun q hq => ?_⟩
    · have hlen : min pass.length n ≤ i := hlen
      show min (pass ++ [_]).length n ≤ i + 1
      rw [List.length_append, List.length_singleton]
      omega
    · have hq : (q : Nat) < i + 1 := hq
      by_cases hlt : (q : Nat) < i
      · exact hnone q hlt
      · obtain rfl : (q : Nat) = i := by omega
        have hm : m = firstLoop t := hi.second q m rfl
        rwa [hm] at hp

theorem InPass.finish (hi : InPass t₀ pass ⟨t, .second i m⟩) (hle : n ≤ i) :
    InPass t₀ (pass ++ [(⟨t, .second i m⟩, .visit)]) ⟨t, .top⟩ := by
  have hnone : dispatched ⟨t, .second i m⟩ .visit = none := dif_neg (Nat.not_lt.2 hle)
  have hswitched := switched_skip pass hnone
  refine ⟨fun i m h => (by cases h), fun p m h => (by cases h), ?_, fun q _ => q.isLt, fun q _ => ?_, fun h => ?_⟩
  · rw [hswitched]
    exact hi.increasing
  · exact hi.visits_succ (Nat.lt_succ_of_lt (q.isLt.trans_le hle))
  · rw [hswitched] at h
    obtain ⟨rfl, -, hnone⟩ := hi.idle h
    exact ⟨rfl, Nat.min_le_right _ _, fun q _ => hnone q (q.isLt.trans_le hle)⟩

/-- What the running process does leaves the second loop at its slot. -/
theorem InPass.run {phase : Phase n} (hi : InPass t₀ pass ⟨t, .running p m⟩)
    (hphase : phase = .second (p + 1) m ∨ phase = .running p m) (e : Event n) :
    InPass t₀ (pass ++ [(⟨t, .running p m⟩, e)]) ⟨t', phase⟩ := by
  obtain ⟨hm, hne⟩ := hi.running p m rfl
  have hswitched := switched_skip (k := ⟨t, .running p m⟩) (e := e) pass (by cases e <;> rfl)
  have hreached : phase.reached = p + 1 := by
    rcases hphase with rfl | rfl <;> rfl
  refine ⟨fun i m' h => ?_, fun q m' h => ?_, ?_, fun q hq => ?_, fun q hq => ?_, fun h => ?_⟩
  · rcases hphase with rfl | rfl
    · cases h
      exact hm
    · cases h
  · rw [hswitched]
    rcases hphase with rfl | rfl
    · cases h
    · cases h
      exact ⟨hm, hne⟩
  · rw [hswitched]
    exact hi.increasing
  · rw [hswitched] at hq
    show (q : Nat) < phase.reached
    rw [hreached]
    exact hi.below q hq
  · have hq : (q : Nat) < phase.reached := hq
    rw [hreached] at hq
    obtain ⟨x, hx, hvisit⟩ := hi.visits q hq
    exact ⟨x, List.mem_append_left _ hx, hvisit⟩
  · rw [hswitched] at h
    exact absurd h hne

theorem InPass.step (hi : InPass t₀ pass k) (hk : k.phase ≠ .top) (hs : Step k e k') :
    InPass t₀ (pass ++ [(k, e)]) k' := by
  cases hs.moves with
  | scan => exact absurd rfl hk
  | switch hp => exact hi.switch hp
  | skip _ hp => exact hi.skip hp
  | finish hle => exact hi.finish hle
  | @call t t' p m c sched h =>
    refine hi.run ?_ (.call c)
    cases sched with
    | true => exact .inl rfl
    | false => exact .inr rfl
  | interrupt t p m chan => exact hi.run (.inr rfl) (.interrupt chan)
  | idle => exact absurd rfl hk

theorem inPass_of_path (hp : Run.Path Step ⟨t, .second 0 (firstLoop t)⟩ pass k) (hpass : ∀ x ∈ pass, x.1.phase ≠ .top) :
    InPass t pass k := by
  induction hp with
  | start => exact inPass_start t
  | @step pass k k' e hp hs ih =>
    have hi := ih fun x hx => hpass x (List.mem_append_left _ hx)
    exact hi.step (hpass (k, e) (List.mem_append_right _ List.mem_cons_self)) hs

end

/-! ## Whole passes -/

theorem chosen_self {m : Int} (hrun : (t.procs q).state = .runnable) (hm : (t.procs q).priority = m) :
    chosen t q m = some q := by
  unfold chosen
  rw [dif_pos q.isLt]
  exact if_pos ⟨hrun, hm⟩

/-- What a pass does that has found the table `t` in its first loop and has come to `k`. -/
structure PassCorrect (t : Table n) (pass : List (Kernel n × Event n)) (k : Kernel n) : Prop where
  /-- At the end of the pass, and at the latest after `n` steps, a process has been switched to. -/
  dispatches : ∀ q, (t.procs q).state = .runnable → k.phase = .top ∨ n ≤ pass.length → switched pass ≠ []
  /-- The first one is most urgent, in the table of the first loop and when it is switched to. -/
  first : ∀ pre x post p, pass = pre ++ x :: post → switched pre = [] → dispatched x.1 x.2 = some p →
    x.1.table = t ∧ (t.procs p).state = .runnable ∧ MostUrgent t p
  once : (switched pass).Nodup
  reaches : k.phase = .top → ∀ q : Fin n, ∃ x ∈ pass, x.1.phase = .second q (firstLoop t) ∧ x.2 = .visit
  serves : ∀ q, (t.procs q).state = .runnable → MostUrgent t q → ∀ x ∈ pass, ∀ m, x.1.phase = .second q m →
    (x.1.table.procs q).state = .runnable → (x.1.table.procs q).priority = (t.procs q).priority → q ∈ switched pass

section

variable {pass : List (Kernel n × Event n)}

theorem InPass.dispatches (hi : InPass t pass k) (hr : Ranged t) (hq : (t.procs q).state = .runnable)
    (hend : k.phase = .top ∨ n ≤ pass.length) : switched pass ≠ [] := by
  intro hnil
  obtain ⟨-, hlen, hnone⟩ := hi.idle hnil
  obtain ⟨p, hrun, hprio⟩ := hr.firstLoop hq
  have hreached : p < k.phase.reached := by
    rcases hend with htop | hlong
    · rw [htop]
      exact p.isLt
    · rw [min_eq_right hlong] at hlen
      exact p.isLt.trans_le hlen
  have hchosen := hnone p hreached
  rw [chosen_self hrun hprio] at hchosen
  cases hchosen

/-- The most urgent processes are those with the number of the first loop. -/
theorem Ranged.priority_eq (hr : Ranged t) (hrun : (t.procs q).state = .runnable) (hq : MostUrgent t q) :
    (t.procs q).priority = Xv6.firstLoop t := by
  obtain ⟨p, hp, hprio⟩ := hr.firstLoop hrun
  have hle := hq p hp
  have hge := bounds_firstLoop t q hrun
  omega

theorem passCorrect_of_path (hr : Ranged t) (hp : Run.Path Step ⟨t, .second 0 (firstLoop t)⟩ pass k)
    (hpass : ∀ x ∈ pass, x.1.phase ≠ .top) : PassCorrect t pass k := by
  have hi := inPass_of_path hp hpass
  -- every point of the pass is one in a pass
  have hat : ∀ {pre x post}, pass = pre ++ x :: post → InPass t pre x.1 ∧ ∃ k', Step x.1 x.2 k' := by
    rintro pre x post rfl
    obtain ⟨hpre, k', hs, -⟩ := hp.cut
    exact ⟨inPass_of_path hpre fun y hy => hpass y (List.mem_append_left _ hy), k', hs⟩
  refine ⟨fun q hq hend => hi.dispatches hr hq hend, ?_, ?_, fun htop q => hi.visits q ?_, ?_⟩
  · intro pre x post p hsplit hnil hdisp
    obtain ⟨hi', -⟩ := hat hsplit
    obtain ⟨htable, -⟩ := hi'.idle hnil
    obtain ⟨i, m, hphase, hchosen⟩ := dispatched_some hdisp
    rw [htable, hi'.second i m hphase] at hchosen
    exact ⟨htable, (chosen_some hchosen).2.1, (bounds_firstLoop t).mostUrgent hchosen⟩
  · exact hi.increasing.imp fun h => ne_of_lt h
  · rw [htop]
    exact q.isLt
  · rintro q hrun hurgent ⟨⟨t', phase⟩, e⟩ hx m rfl hstill hprio
    obtain ⟨pre, post, hsplit⟩ := List.append_of_mem hx
    obtain ⟨hi', k', hs⟩ := hat hsplit
    have hm := hi'.second q m rfl
    have hchosen : chosen t' q m = some q := chosen_self hstill (hprio.trans ((hr.priority_eq hrun hurgent).trans hm.symm))
    refine List.mem_filterMap.2 ⟨_, hx, ?_⟩
    cases hs.moves with
    | switch => exact hchosen
    | skip => exact hchosen
    | finish => exact hchosen

end

/-- In every run, all processes in use have priorities from 0 to 200, and every pass of the scheduler is correct. -/
theorem pass_correct {h pass : List (Kernel n × Event n)} (hrun : RunsTo (h ++ (⟨t, .top⟩, .scan) :: pass) k)
    (hpass : ∀ x ∈ pass, x.1.phase ≠ .top) :
    (∀ x ∈ Run.visited (h ++ (⟨t, .top⟩, .scan) :: pass) k, Ranged x.table) ∧ PassCorrect t pass k := by
  obtain ⟨t₀, hboot, hp⟩ := hrun
  have hranged : ∀ x ∈ Run.visited (h ++ (⟨t, .top⟩, .scan) :: pass) k, Ranged x.table := by
    intro x hx
    obtain ⟨h', -, hp'⟩ := hp.visited hx
    exact RunsTo.ranged ⟨t₀, hboot, hp'⟩
  obtain ⟨hbefore, k', hscan, hafter⟩ := hp.cut
  cases hscan
  exact ⟨hranged, passCorrect_of_path (RunsTo.ranged ⟨t₀, hboot, hbefore⟩) hafter hpass⟩

/-- A pass in which the first process makes a child, and both are switched to. -/
theorem pass_correct_child : ∃ t pass k, RunsTo (n := 3) ([] ++ (⟨t, .top⟩, .scan) :: pass) k ∧ k.phase = .top ∧
    switched pass = [0, 1] ∧ PassCorrect t pass k := by
  obtain ⟨h, k, hrun, hphases, htop, hswitched⟩ := exists_runsTo
    [.scan, .visit, .call .forkBegin, .call .forkEnd, .call .yield, .visit, .call .yield, .visit, .visit]
    (P := fun h k => h.map (fun x => (x.1.phase, x.2)) =
        [(.top, .scan), (.second 0 50, .visit), (.running 0 50, .call .forkBegin), (.running 0 50, .call .forkEnd),
          (.running 0 50, .call .yield), (.second 1 50, .visit), (.running 1 50, .call .yield),
          (.second 2 50, .visit), (.second 3 50, .visit)] ∧
      k.phase = .top ∧ switched h = [0, 1]) (by decide +kernel)
  obtain ⟨⟨⟨t, phase⟩, e⟩, pass, rfl, hfirst, hrest⟩ := List.map_eq_cons_iff.1 hphases
  cases hfirst
  have hpass : ∀ x ∈ pass, x.1.phase ≠ .top := by
    intro x hx
    have hmem := List.mem_map_of_mem (f := fun x => (x.1.phase, x.2)) hx
    rw [hrest] at hmem
    rintro heq
    simp [heq] at hmem
  have hrun : RunsTo ([] ++ (⟨t, .top⟩, .scan) :: pass) k := hrun
  exact ⟨t, pass, k, hrun, htop, hswitched, (pass_correct hrun hpass).2⟩

end CS1550.Xv6
