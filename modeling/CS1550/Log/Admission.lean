/-
How much the operations put into the log of `lab4/xv6-public/log.c`. `begin_op` lets an operation in when LOGSIZE has
room for MAXOPBLOCKS blocks of it and of every other one that is on its way. As long as none of them writes more than
that, LOGSIZE is not exceeded (`Room`). The tests of `log_write` are made without the lock; what they find is still
true when the block is added if no other `log_write` comes between (`Tested`).
-/
import CS1550.Lib.RefCount
import CS1550.Log.Disk

namespace CS1550.Log

variable {n : Nat} {c : Layout} {σ σ' : System n} {p : Fin n} {k : Nat}

/-! ## Counting -/

/-- What the operations have in the whole. -/
def total (f : Option Op → Nat) (ops : Fin n → Option Op) : Nat := ∑ p, f (ops p)

/-- The calls that an operation may still make. -/
def reserve : Option Op → Nat
  | none => 0
  | some op => maxopblocks - op.calls

/-- Whether a process is in an operation. -/
def active : Option Op → Nat
  | none => 0
  | some _ => 1

/-- Whether an operation holds the buffer of block `b`. -/
def holds (b : Nat) (o : Option Op) : Nat := if o.bind Op.writing = some b then 1 else 0

theorem total_update (f : Option Op → Nat) (ops : Fin n → Option Op) (p : Fin n) (o : Option Op) :
    total f (Function.update ops p o) + f (ops p) = total f ops + f o := by
  have hsum := RefCount.sum_update (f ∘ ops) p (f o)
  rw [← Function.comp_update] at hsum
  exact hsum

theorem total_none (f : Option Op → Nat) (hf : f none = 0) : total f (fun _ : Fin n => none) = 0 := by
  simp [total, hf]

theorem le_total (f : Option Op → Nat) (ops : Fin n → Option Op) (p : Fin n) : f (ops p) ≤ total f ops :=
  Finset.single_le_sum (f := fun q => f (ops q)) (fun _ _ => Nat.zero_le _) (Finset.mem_univ p)

theorem reserve_le (ops : Fin n → Option Op) : total reserve ops ≤ total active ops * maxopblocks := by
  unfold total
  rw [Finset.sum_mul]
  refine Finset.sum_le_sum fun p _ => ?_
  cases ops p with
  | none => exact Nat.zero_le _
  | some op =>
    show maxopblocks - op.calls ≤ 1 * maxopblocks
    omega

/-- Of an operation that goes on, what stays the same counts the same. -/
theorem total_same {f : Option Op → Nat} {ops : Fin n → Option Op} {o : Option Op} (h : f o = f (ops p)) :
    total f (Function.update ops p o) = total f ops := by
  have hsum := total_update f ops p o
  omega

/-- `log.outstanding` counts the operations, and `refcnt` of a buffer those that hold it. The log is empty when there
is no operation, but for a commit. -/
structure Counted (c : Layout) (σ : System n) : Prop where
  count : σ.log.outstanding = total active σ.ops
  held : ∀ b, σ.log.io.refcnt b = total (holds b) σ.ops
  outside : ∀ p op b, σ.ops p = some op → op.writing = some b → c.Home b ∧ b < 2 ^ 32
  quiet : σ.log.phase ≠ .up → σ.log.outstanding = 0
  idle : σ.log.phase = .ending ∨ σ.log.phase = .up ∧ σ.log.outstanding = 0 → σ.log.lh = []

theorem Counted.pos (h : Counted c σ) {op : Op} (hp : σ.ops p = some op) : 0 < σ.log.outstanding := by
  have hle := le_total active σ.ops p
  rw [hp] at hle
  have hle : 1 ≤ total active σ.ops := hle
  have hcount := h.count
  omega

theorem Counted.up (h : Counted c σ) {op : Op} (hp : σ.ops p = some op) : σ.log.phase = .up := by
  by_contra hne
  have hzero := h.quiet hne
  have hpos := h.pos hp
  omega

theorem Counted.ops_none (hσ : Counted c σ) (hzero : σ.log.outstanding = 0) (p : Fin n) : σ.ops p = none := by
  cases hp : σ.ops p with
  | none => rfl
  | some op =>
    have hpos := hσ.pos hp
    omega

/-- The buffer that `log_write` changes is in use. -/
theorem Counted.holding (hσ : Counted c σ) {b : Nat} (hp : σ.ops p = some ⟨k, some b⟩) : σ.log.io.refcnt b ≠ 0 := by
  have hle := le_total (holds b) σ.ops p
  rw [hp, ← hσ.held b] at hle
  have hle : 1 ≤ σ.log.io.refcnt b := (if_pos rfl : holds b (some ⟨k, some b⟩) = 1) ▸ hle
  omega

/-! ## Operations on their way -/

/-- What the log does by itself. -/
theorem Counted.of_log {s : State} (h : Counted c σ) (hout : s.outstanding = σ.log.outstanding)
    (hrefcnt : s.io.refcnt = σ.log.io.refcnt) (hphase : s.phase ≠ .up → σ.log.phase ≠ .up)
    (hidle : s.phase = .ending ∨ s.phase = .up ∧ s.outstanding = 0 → s.lh = []) : Counted c { σ with log := s } :=
  ⟨hout.trans h.count, fun b => (congrFun hrefcnt b).trans (h.held b), h.outside,
    fun hne => hout.trans (h.quiet (hphase hne)), hidle⟩

/-- What an operation writes is outside of the log, if it was so before. -/
theorem Counted.outside_update {o : Option Op} (h : Counted c σ)
    (ho : ∀ op b, o = some op → op.writing = some b → c.Home b ∧ b < 2 ^ 32) :
    ∀ q op b, Function.update σ.ops p o q = some op → op.writing = some b → c.Home b ∧ b < 2 ^ 32 := by
  intro q op b hq hb
  by_cases hqp : q = p
  · subst hqp
    rw [Function.update_self] at hq
    exact ho op b hq hb
  · rw [Function.update_of_ne hqp] at hq
    exact h.outside q op b hq hb

/-- What an operation on its way does. -/
theorem Counted.of_op {s : State} {op op' : Op} (h : Counted c σ) (hp : σ.ops p = some op)
    (hout : s.outstanding = σ.log.outstanding) (hphase : s.phase = σ.log.phase)
    (hheld : ∀ b, s.io.refcnt b + holds b (some op) = σ.log.io.refcnt b + holds b (some op'))
    (hb : ∀ b, op'.writing = some b → c.Home b ∧ b < 2 ^ 32) :
    Counted c ⟨s, Function.update σ.ops p (some op')⟩ := by
  have hup := h.up hp
  have hpos := h.pos hp
  refine ⟨?_, fun b => ?_, h.outside_update fun _ b heq => ?_, fun hne => absurd (hphase.trans hup) hne, ?_⟩
  · show s.outstanding = total active (Function.update σ.ops p (some op'))
    rw [total_same (by rw [hp]; rfl), hout]
    exact h.count
  · show s.io.refcnt b = total (holds b) (Function.update σ.ops p (some op'))
    have hsum := total_update (holds b) σ.ops p (some op')
    rw [hp, ← h.held b] at hsum
    have hb := hheld b
    omega
  · cases heq
    exact hb b
  · rintro (hending | ⟨-, hzero⟩)
    · exact absurd ((hphase.trans hup).symm.trans hending) (by simp)
    · have hzero : s.outstanding = 0 := hzero
      omega

theorem Counted.begin {s : State} (h : Counted c σ) (hp : σ.ops p = none) (hs : σ.log.beginOp = some s) :
    Counted c ⟨s, Function.update σ.ops p (some ⟨0, none⟩)⟩ := by
  obtain ⟨hup, -, rfl⟩ := beginOp_eq hs
  have hcount := h.count
  have hactive := total_update active σ.ops p (some ⟨0, none⟩)
  rw [hp] at hactive
  have hactive : total active (Function.update σ.ops p (some ⟨0, none⟩)) = total active σ.ops + 1 := hactive
  refine ⟨?_, fun b => ?_, h.outside_update fun op b heq hb => ?_, fun hne => absurd hup hne, ?_⟩
  · show σ.log.outstanding + 1 = total active (Function.update σ.ops p (some ⟨0, none⟩))
    omega
  · show σ.log.io.refcnt b = total (holds b) (Function.update σ.ops p (some ⟨0, none⟩))
    rw [total_same (by rw [hp]; rfl)]
    exact h.held b
  · cases heq
    cases hb
  · rintro (hending | ⟨-, hzero⟩)
    · exact absurd (hup.symm.trans hending) (by simp)
    · have hzero : σ.log.outstanding + 1 = 0 := hzero
      omega

theorem Counted.end {s : State} (h : Counted c σ) (hp : σ.ops p = some ⟨k, none⟩) (hs : σ.log.endOp = .ok s) :
    Counted c ⟨s, Function.update σ.ops p none⟩ := by
  obtain ⟨-, hout, -, hio, hquiet, hidle⟩ := endOp_eq hs
  have hcount := h.count
  have hactive := total_update active σ.ops p none
  rw [hp] at hactive
  have hactive : total active (Function.update σ.ops p none) + 1 = total active σ.ops := hactive
  refine ⟨?_, fun b => ?_, h.outside_update (by simp), hquiet, hidle⟩
  · show s.outstanding = total active (Function.update σ.ops p none)
    omega
  · show s.io.refcnt b = total (holds b) (Function.update σ.ops p none)
    rw [total_same (by rw [hp]; rfl), hio]
    exact h.held b

theorem refcnt_start (disk : Nat → Bytes.Mem) (b : Nat) : Cache.refcnt ⟨disk, ∅⟩ b = 0 := view_none (AList.lookup_empty b)

theorem counted_start (disk : Nat → Bytes.Mem) : Counted c (System.start disk : System n) := by
  refine ⟨?_, fun b => ?_, fun p op b hp => (by cases hp), fun _ => rfl, fun _ => rfl⟩
  · show (0 : Int) = (total active fun _ : Fin n => none : Nat)
    rw [total_none _ rfl]
    rfl
  · show Cache.refcnt ⟨disk, ∅⟩ b = total (holds b) fun _ : Fin n => none
    rw [total_none _ rfl, refcnt_start]

/-- The buffer that `log_write` has changed is still in use. -/
theorem refcnt_logAppend (s : State) (b : Nat) (data : Bytes.Mem) : (s.logAppend b data).io.refcnt = s.io.refcnt :=
  view_modify_same fun _ => rfl

theorem Step.counted {a : Event n} (hs : Step c σ a σ') (hc : σ.log.io.Coherent) (h : Counted c σ) : Counted c σ' := by
  cases hs with
  | begin hp hs => exact h.begin hp hs
  | @test p k b m hp hb hb32 _ hm _ =>
    refine h.of_op hp rfl rfl (fun b' => ?_) fun b' heq => by
      cases heq
      exact ⟨hb, hb32⟩
    show m.refcnt b' + holds b' (some ⟨k, none⟩) = σ.log.io.refcnt b' + holds b' (some ⟨k, some b⟩)
    rw [(bread_got hm).refcnt]
    by_cases hb : b' = b
    · subst hb
      simp [holds]
    · simp [holds, Function.update_of_ne hb, Ne.symm hb]
  | @write p k b data hp =>
    refine h.of_op hp rfl rfl (fun b' => ?_) (by simp)
    have hpos := h.holding hp
    show Cache.refcnt (Cache.brelse _ b) b' + _ = _
    rw [refcnt_brelse, refcnt_logAppend]
    by_cases hb : b' = b
    · subst hb
      simp only [holds, Function.update_self, Option.bind_some, if_true, reduceCtorEq, if_false]
      omega
    · simp [holds, Function.update_of_ne hb, Ne.symm hb]
  | «end» hp hs => exact h.end hp hs
  | @read b m _ hm => exact h.of_log rfl (bread_got hm).brelse id h.idle
  | log hphase _ hm => exact h.of_log rfl (wrote_writeLog hc hm).refcnt (fun _ => by simp [hphase]) (by simp)
  | commit hphase hm => exact h.of_log rfl (wrote_writeHead hc hm).refcnt (fun _ => by simp [hphase]) (by simp)
  | install hphase _ hm => exact h.of_log rfl (wrote_installTrans hc hm).refcnt (fun _ => by simp [hphase]) (by simp)
  | clear hphase hm => exact h.of_log rfl (wrote_writeHead hc hm).refcnt (fun _ => by simp [hphase]) fun _ => rfl
  | done hphase => exact h.of_log rfl rfl (fun hne => absurd rfl hne) fun _ => h.idle (.inl hphase)
  | crash => exact counted_start σ.log.io.disk
  | recover hphase hm =>
    exact h.of_log rfl (readHead_eq hc hm).2.2.2.2 (fun _ => by simp [hphase]) (by simp)

/-! ## Room for what they write -/

/-- What the operations may still put into the log fits. -/
def Room (σ : System n) : Prop := σ.log.lh.length + total reserve σ.ops ≤ logsize

/-- An operation goes through `log_write` at most MAXOPBLOCKS times. -/
def Within (σ : System n) : Event n → Prop
  | .write p _ _ => ∀ op, σ.ops p = some op → op.calls < maxopblocks
  | _ => True

theorem room_start (disk : Nat → Bytes.Mem) : Room (System.start disk : System n) := by
  show 0 + (total reserve fun _ : Fin n => none) ≤ logsize
  rw [total_none _ rfl]
  exact Nat.zero_le _

theorem Room.of_log {s : State} (h : Room σ) (hlh : s.lh.length ≤ σ.log.lh.length) : Room { σ with log := s } := by
  have h : σ.log.lh.length + total reserve σ.ops ≤ logsize := h
  show s.lh.length + total reserve σ.ops ≤ logsize
  omega

theorem Room.begin {s : State} (hσ : Counted c σ) (hp : σ.ops p = none) (hs : σ.log.beginOp = some s) :
    Room ⟨s, Function.update σ.ops p (some ⟨0, none⟩)⟩ := by
  obtain ⟨-, hfits, rfl⟩ := beginOp_eq hs
  have hactive := total_update active σ.ops p (some ⟨0, none⟩)
  rw [hp] at hactive
  have hactive : total active (Function.update σ.ops p (some ⟨0, none⟩)) = total active σ.ops + 1 := hactive
  have hle := reserve_le (Function.update σ.ops p (some ⟨0, none⟩))
  rw [hactive] at hle
  rw [hσ.count] at hfits
  unfold maxopblocks at hle hfits
  show σ.log.lh.length + total reserve (Function.update σ.ops p (some ⟨0, none⟩)) ≤ logsize
  omega

/-- An operation that may still call `log_write` has a block to spare. -/
theorem Room.lt (h : Room σ) {op : Op} (hp : σ.ops p = some op) (hk : op.calls < maxopblocks) :
    σ.log.lh.length < logsize := by
  have hle := le_total reserve σ.ops p
  rw [hp] at hle
  have hle : maxopblocks - op.calls ≤ total reserve σ.ops := hle
  have h : σ.log.lh.length + total reserve σ.ops ≤ logsize := h
  omega

theorem length_logAppend (s : State) (b : Nat) (data : Bytes.Mem) : (s.logAppend b data).lh.length ≤ s.lh.length + 1 := by
  unfold State.logAppend
  dsimp only
  split
  · exact Nat.le_succ _
  · rw [List.length_append, List.length_singleton]

theorem Room.write {b : Nat} {data : Bytes.Mem} (h : Room σ) (hp : σ.ops p = some ⟨k, some b⟩)
    (hk : k < maxopblocks) :
    Room ⟨(σ.log.logAppend b data).brelse b, Function.update σ.ops p (some ⟨k + 1, none⟩)⟩ := by
  have hreserve := total_update reserve σ.ops p (some ⟨k + 1, none⟩)
  rw [hp] at hreserve
  have hreserve : total reserve (Function.update σ.ops p (some ⟨k + 1, none⟩)) + (maxopblocks - k) =
      total reserve σ.ops + (maxopblocks - (k + 1)) := hreserve
  have h : σ.log.lh.length + total reserve σ.ops ≤ logsize := h
  have hlen := length_logAppend σ.log b data
  show (σ.log.logAppend b data).lh.length + total reserve (Function.update σ.ops p (some ⟨k + 1, none⟩)) ≤ logsize
  omega

theorem Room.end {s : State} (h : Room σ) (hs : σ.log.endOp = .ok s) : Room ⟨s, Function.update σ.ops p none⟩ := by
  obtain ⟨-, -, hlh, -⟩ := endOp_eq hs
  have hreserve := total_update reserve σ.ops p none
  have hreserve : total reserve (Function.update σ.ops p none) + reserve (σ.ops p) = total reserve σ.ops := hreserve
  have h : σ.log.lh.length + total reserve σ.ops ≤ logsize := h
  show s.lh.length + total reserve (Function.update σ.ops p none) ≤ logsize
  rw [hlh]
  omega

/-- The recovery takes the log from the disk, with no operation on its way. -/
theorem Room.recover {s : State} (hσ : Counted c σ) (hphase : σ.log.phase = .booting) (hlh : s.lh.length ≤ logsize) :
    Room { σ with log := s } := by
  have hzero := hσ.quiet (by simp [hphase])
  show s.lh.length + total reserve σ.ops ≤ logsize
  rw [show σ.ops = fun _ => none from funext (hσ.ops_none hzero), total_none _ rfl]
  exact hlh

theorem Step.room {a : Event n} (hs : Step c σ a σ') (hc : σ.log.io.Coherent) (hσ : Counted c σ) (h : Room σ)
    (ha : Within σ a) (hhead : σ.log.phase = .booting → (getHead (σ.log.io.read c.start)).length ≤ logsize) : Room σ' := by
  cases hs with
  | begin hp hs => exact .begin hσ hp hs
  | @test p k b m hp _ _ _ _ _ =>
    show σ.log.lh.length + total reserve (Function.update σ.ops p (some ⟨k, some b⟩)) ≤ logsize
    rw [total_same (by rw [hp]; rfl)]
    exact h
  | write _ hp => exact h.write hp (ha _ hp)
  | «end» hp hs => exact h.end hs
  | read | log | commit | install | done => exact h
  | clear _ _ => exact h.of_log (Nat.zero_le _)
  | crash => exact room_start σ.log.io.disk
  | recover hphase hm =>
    refine .recover hσ hphase ?_
    rw [(readHead_eq hc hm).1]
    exact hhead hphase

/-! ## One `log_write` at a time -/

/-- No `log_write` begins while another one is between its tests and the lock. -/
def Alone (σ : System n) : Event n → Prop
  | .test _ _ => ∀ q op, σ.ops q = some op → op.writing = none
  | _ => True

/-- At most one operation is in `log_write`, and there is room for its block. -/
structure Tested (c : Layout) (σ : System n) : Prop where
  room : ∀ p k b, σ.ops p = some ⟨k, some b⟩ → σ.log.lh.length < logsize ∧ σ.log.lh.length + 1 < c.size
  one : ∀ p q k l b d, σ.ops p = some ⟨k, some b⟩ → σ.ops q = some ⟨l, some d⟩ → p = q

theorem Tested.of_none (h : ∀ p k b, σ.ops p ≠ some ⟨k, some b⟩) : Tested c σ :=
  ⟨fun p k b hp => absurd hp (h p k b), fun p _ k _ b _ hp => absurd hp (h p k b)⟩

theorem tested_start (disk : Nat → Bytes.Mem) : Tested c (System.start disk : System n) :=
  .of_none fun _ _ _ h => nomatch h

/-- An operation that comes or goes is in no `log_write`. -/
theorem Tested.update {s : State} {o : Option Op} (h : Tested c σ) (ho : o.bind Op.writing = none)
    (hlh : s.lh.length = σ.log.lh.length) : Tested c ⟨s, Function.update σ.ops p o⟩ := by
  have hkept : ∀ q k b, Function.update σ.ops p o q = some ⟨k, some b⟩ → σ.ops q = some ⟨k, some b⟩ := by
    intro q k b hq
    by_cases hqp : q = p
    · subst hqp
      rw [Function.update_self] at hq
      rw [hq] at ho
      cases ho
    · rwa [Function.update_of_ne hqp] at hq
  refine ⟨fun q k b hq => ?_, fun q r k l b d hq hr => h.one q r k l b d (hkept q k b hq) (hkept r l d hr)⟩
  rw [hlh]
  exact h.room q k b (hkept q k b hq)

/-- What the log does by itself it does with no operation on its way. -/
theorem Tested.of_quiet {s : State} (hσ : Counted c σ) (hphase : σ.log.phase ≠ .up) : Tested c { σ with log := s } :=
  .of_none fun p _ _ hp => by
    rw [hσ.ops_none (hσ.quiet hphase) p] at hp
    cases hp

theorem Step.tested {a : Event n} (hs : Step c σ a σ') (hσ : Counted c σ) (h : Tested c σ) (ha : Alone σ a) :
    Tested c σ' := by
  cases hs with
  | begin hp hs =>
    obtain ⟨-, -, rfl⟩ := beginOp_eq hs
    exact h.update rfl rfl
  | @test p k b m hp _ _ _ _ ht =>
    obtain ⟨hfits, hinside, -⟩ := logTest_iff.1 ht
    refine ⟨fun _ _ _ _ => ⟨hfits, hinside⟩, fun q r l l' b' d hq hr => ?_⟩
    -- the others are not in `log_write`
    have hp' : ∀ q l d, Function.update σ.ops p (some ⟨k, some b⟩) q = some ⟨l, some d⟩ → q = p := by
      intro q l d hq
      by_contra hne
      rw [Function.update_of_ne hne] at hq
      cases ha q _ hq
    rw [hp' q l b' hq, hp' r l' d hr]
  | @write p k b data hp =>
    -- it was the only one
    refine .of_none fun q l d hq => ?_
    replace hq : Function.update σ.ops p (some ⟨k + 1, none⟩) q = some ⟨l, some d⟩ := hq
    by_cases hqp : q = p
    · subst hqp
      rw [Function.update_self] at hq
      cases hq
    · rw [Function.update_of_ne hqp] at hq
      exact hqp (h.one q p l k d b hq hp)
  | «end» hp hs => exact h.update rfl (congrArg List.length (endOp_eq hs).2.2.1)
  | read => exact ⟨h.room, h.one⟩
  | log hphase | commit hphase | install hphase | clear hphase | done hphase | recover hphase =>
    exact .of_quiet hσ (by simp [hphase])
  | crash => exact tested_start σ.log.io.disk

end CS1550.Log
