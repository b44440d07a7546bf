/-
The log of `lab4/xv6-public/log.c` over the buffer cache. The processes change blocks between `begin_op` and `end_op`;
the last `end_op` commits what all of them have changed. `log_write` tests whether there is room before it takes the
lock, so other processes can come between its tests and what it does. A block is one sector, so a write of it is there
or not. The machine can stop at every point, and then only the disk is left, from which `initlog` goes on.
-/
import CS1550.Lib.Run
import CS1550.Log.Cache

namespace CS1550.Log

/-- `LOGSIZE` -/
def logsize : Nat := maxopblocks * 3

/-- Where the log is, from the superblock: its header at `start`, and the blocks behind it. -/
structure Layout where
  start : Nat
  size : Nat
  pos : 0 < size

/-- The blocks that are not in the log. -/
def Layout.Home (c : Layout) (b : Nat) : Prop := b < c.start ∨ c.start + c.size ≤ b

instance (c : Layout) (b : Nat) : Decidable (c.Home b) := inferInstanceAs (Decidable (_ ∨ _))

/-- The log that `mkfs.c` makes: `nlog` is LOGSIZE, with the header among these blocks. -/
def mkfsLayout : Layout := ⟨2, logsize, by decide⟩

/-! ## The header -/

/-- The words of `struct logheader` as `write_head` writes them. What is behind them in the block stays. -/
def putHead (buf : Bytes.Mem) (lh : List Nat) : Bytes.Mem := Bytes.put buf 0 ((lh.length :: lh).flatMap (Bytes.le 4))

/-- What `read_head` takes from the block. -/
@[irreducible] def getHead (buf : Bytes.Mem) : List Nat := Bytes.getWords buf 4 (Bytes.getInt buf 0 4).toNat

/-- `mkfs.c` leaves nothing but zeros in the log. -/
def mkfsDisk : Nat → Bytes.Mem := fun _ _ => 0

theorem getHead_mkfsDisk : getHead (mkfsDisk mkfsLayout.start) = [] := by
  unfold getHead
  rfl

/-! ## The log -/

/-- Where a commit is, or the recovery. With `up`, `log.committing` is 0. -/
inductive Phase
  | up
  | logging (tail : Nat)
  | installing (tail : Nat) (recovering : Bool)
  | ending
  | booting
  deriving DecidableEq

/-- The cache with `struct log`. -/
structure State where
  io : Cache
  lh : List Nat
  outstanding : Int
  phase : Phase

variable (c : Layout)

/-- Writes the blocks `lh` to the header. -/
def Cache.writeHead (m : Cache) (lh : List Nat) : Except Panic Cache := do
  let m ← m.bread c.start
  let m := m.bwrite c.start (putHead (m.read c.start) lh)
  pure (m.brelse c.start)

/-- Takes the blocks from the header. -/
def Cache.readHead (m : Cache) : Except Panic (List Nat × Cache) := do
  let m ← m.bread c.start
  pure (getHead (m.read c.start), m.brelse c.start)

/-- A turn of the loop of `write_log`, for the block `b` at `tail`. -/
def Cache.writeLog (m : Cache) (tail b : Nat) : Except Panic Cache := do
  let m ← m.bread (c.start + tail + 1)
  let m ← m.bread b
  let m := m.bwrite (c.start + tail + 1) (m.read b)
  pure ((m.brelse b).brelse (c.start + tail + 1))

/-- A turn of the loop of `install_trans`. -/
def Cache.installTrans (m : Cache) (tail b : Nat) : Except Panic Cache := do
  let m ← m.bread (c.start + tail + 1)
  let m ← m.bread b
  let m := m.bwrite b (m.read (c.start + tail + 1))
  pure ((m.brelse b).brelse (c.start + tail + 1))

/-- The tests of `log_write`, made without the lock. -/
def State.logTest (s : State) : Except Panic Unit :=
  if s.lh.length ≥ logsize ∨ s.lh.length ≥ c.size - 1 then .error .tooBig
  else if s.outstanding < 1 then .error .outsideOfTrans
  else .ok ()

/-- What `log_write` does with the lock, to a buffer with new contents. A block that is in the log already is not added
again. -/
def State.logAppend (s : State) (b : Nat) (data : Bytes.Mem) : State :=
  { s with
    lh := if b ∈ s.lh then s.lh else s.lh ++ [b]
    io := s.io.modify b fun x => { x with data, dirty := true } }

/-- The buffer of a block given back. -/
def State.brelse (s : State) (b : Nat) : State := { s with io := s.io.brelse b }

/-- `begin_op`, where it does not sleep. -/
def State.beginOp (s : State) : Option State :=
  if s.phase ≠ .up then none
  else if s.lh.length + (s.outstanding + 1) * maxopblocks > logsize then none
  else some { s with outstanding := s.outstanding + 1 }

/-- `end_op`. The last one goes on to commit, if there is anything to commit. -/
def State.endOp (s : State) : Except Panic State :=
  let s := { s with outstanding := s.outstanding - 1 }
  if s.phase ≠ .up then .error .committing
  else if s.outstanding = 0 then .ok { s with phase := if s.lh.length > 0 then .logging 0 else .ending }
  else .ok s

/-! ## What the functions do -/

variable {c} {s s' : State} {m m' : Cache} {b : Nat} {data : Bytes.Mem}

theorem wrote_writeHead {lh : List Nat} (hc : m.Coherent) (h : m.writeHead c lh = .ok m') :
    Wrote m c.start (putHead (m.read c.start) lh) m' := by
  obtain ⟨m₁, hread, hrest⟩ := bind_ok.1 h
  have hgot := bread_got hread
  rw [← pure_ok.1 hrest, ← hgot.read hc]
  exact hgot.wrote hc (wrote_bwrite _ _ _)

theorem wrote_writeLog {tail : Nat} (hc : m.Coherent) (h : m.writeLog c tail b = .ok m') :
    Wrote m (c.start + tail + 1) (m.read b) m' := by
  obtain ⟨m₁, hto, h⟩ := bind_ok.1 h
  obtain ⟨m₂, hfrom, hrest⟩ := bind_ok.1 h
  have hgot := bread_got hto
  have hgot' := bread_got hfrom
  have hc₁ := hgot.coherent hc
  rw [← pure_ok.1 hrest, ← hgot.read hc, ← hgot'.read hc₁]
  exact hgot.wrote hc (hgot'.wrote hc₁ (wrote_bwrite _ _ _))

theorem wrote_installTrans {tail : Nat} (hc : m.Coherent) (h : m.installTrans c tail b = .ok m') :
    Wrote m b (m.read (c.start + tail + 1)) m' := by
  obtain ⟨m₁, hfrom, h⟩ := bind_ok.1 h
  obtain ⟨m₂, hto, hrest⟩ := bind_ok.1 h
  have hgot := bread_got hfrom
  have hgot' := bread_got hto
  have hc₁ := hgot.coherent hc
  rw [← pure_ok.1 hrest, ← hgot.read hc, ← hgot'.read hc₁]
  exact hgot.wrote hc (hgot'.wrote hc₁ (wrote_bwrite _ _ _))

/-- A buffer that is taken and given back. -/
theorem Got.brelse (h : Got m b m') : (m'.brelse b).refcnt = m.refcnt := by
  rw [refcnt_brelse, h.refcnt]
  simp

theorem readHead_eq {lh : List Nat} (hc : m.Coherent) (h : m.readHead c = .ok (lh, m')) :
    lh = getHead (m.read c.start) ∧ m'.disk = m.disk ∧ m'.read = m.read ∧ m'.dirty = m.dirty ∧ m'.refcnt = m.refcnt := by
  obtain ⟨m₁, hread, hrest⟩ := bind_ok.1 h
  have hgot := bread_got hread
  obtain ⟨rfl, rfl⟩ := Prod.mk.inj (pure_ok.1 hrest)
  rw [disk_brelse, read_brelse, dirty_brelse, hgot.read hc]
  exact ⟨rfl, hgot.disk, rfl, hgot.dirty, hgot.brelse⟩

theorem beginOp_eq (h : s.beginOp = some s') : s.phase = .up ∧
    s.lh.length + (s.outstanding + 1) * maxopblocks ≤ logsize ∧ s' = { s with outstanding := s.outstanding + 1 } := by
  unfold State.beginOp at h
  split at h
  · cases h
  split at h
  · cases h
  cases h
  exact ⟨by simpa using ‹¬s.phase ≠ .up›, by omega, rfl⟩

theorem logTest_iff : s.logTest c = .ok () ↔ s.lh.length < logsize ∧ s.lh.length + 1 < c.size ∧ 0 < s.outstanding := by
  unfold State.logTest
  split
  · simp only [reduceCtorEq, false_iff]
    omega
  · split
    · simp only [reduceCtorEq, false_iff]
      omega
    · simp only [true_iff]
      omega

theorem endOp_eq (h : s.endOp = .ok s') : s.phase = .up ∧ s'.outstanding = s.outstanding - 1 ∧ s'.lh = s.lh ∧
    s'.io = s.io ∧ (s'.phase ≠ .up → s'.outstanding = 0) ∧
    (s'.phase = .ending ∨ s'.phase = .up ∧ s'.outstanding = 0 → s'.lh = []) := by
  unfold State.endOp at h
  dsimp only at h
  split at h
  · cases h
  rename_i hup
  have hup : s.phase = .up := by simpa using hup
  split at h
  · rename_i hzero
    cases h
    refine ⟨hup, rfl, rfl, rfl, fun _ => hzero, ?_⟩
    dsimp only
    split
    · simp
    · rename_i hlen
      exact fun _ => List.length_eq_zero_iff.1 (by omega)
  · rename_i hpos
    cases h
    refine ⟨hup, rfl, rfl, rfl, fun hne => absurd hup hne, ?_⟩
    rintro (hending | ⟨-, hzero⟩)
    · exact absurd (hup.symm.trans hending) (by simp)
    · exact absurd hzero hpos

/-! ## Runs -/

/-- What happens. A `log_write` of process `p` for block `b` is two events, its tests and its change. -/
inductive Event (n : Nat)
  | begin (p : Fin n)
  | test (p : Fin n) (b : Nat)
  | write (p : Fin n) (b : Nat) (data : Bytes.Mem)
  | end (p : Fin n)
  | read (b : Nat)
  | log
  | commit
  | install
  | clear
  | done
  | crash
  | recover

/-- A process between `begin_op` and `end_op`. -/
structure Op where
  /-- How often it has been through `log_write`. -/
  calls : Nat
  /-- The block whose buffer it holds, if its `log_write` has made its tests and does not have the lock yet. -/
  writing : Option Nat

/-- The log, and the operations on their way. -/
structure System (n : Nat) where
  log : State
  ops : Fin n → Option Op

variable (c) {n : Nat}

/-- An operation writes blocks outside of the log, with a `log_write` for each of its changes. For a buffer that
another process holds it waits. -/
inductive Step (σ : System n) : Event n → System n → Prop
  | begin {p : Fin n} {s : State} (hp : σ.ops p = none) (h : σ.log.beginOp = some s) :
    Step σ (.begin p) ⟨s, Function.update σ.ops p (some ⟨0, none⟩)⟩
  | test {p : Fin n} {k b : Nat} {m : Cache} (hp : σ.ops p = some ⟨k, none⟩) (hb : c.Home b) (hb32 : b < 2 ^ 32)
    (hfree : σ.log.io.refcnt b = 0) (hm : σ.log.io.bread b = .ok m) (h : σ.log.logTest c = .ok ()) :
    Step σ (.test p b) ⟨{ σ.log with io := m }, Function.update σ.ops p (some ⟨k, some b⟩)⟩
  | write {p : Fin n} {k b : Nat} (data : Bytes.Mem) (hp : σ.ops p = some ⟨k, some b⟩) :
    Step σ (.write p b data) ⟨(σ.log.logAppend b data).brelse b, Function.update σ.ops p (some ⟨k + 1, none⟩)⟩
  | end {p : Fin n} {k : Nat} {s : State} (hp : σ.ops p = some ⟨k, none⟩) (h : σ.log.endOp = .ok s) :
    Step σ (.end p) ⟨s, Function.update σ.ops p none⟩
  | read {b : Nat} {m : Cache} (hfree : σ.log.io.refcnt b = 0) (hm : σ.log.io.bread b = .ok m) :
    Step σ (.read b) { σ with log.io := m.brelse b }
  | log {tail b : Nat} {m : Cache} (hphase : σ.log.phase = .logging tail) (hb : σ.log.lh[tail]? = some b)
    (hm : σ.log.io.writeLog c tail b = .ok m) :
    Step σ .log { σ with log := { σ.log with io := m, phase := .logging (tail + 1) } }
  | commit {m : Cache} (hphase : σ.log.phase = .logging σ.log.lh.length) (hm : σ.log.io.writeHead c σ.log.lh = .ok m) :
    Step σ .commit { σ with log := { σ.log with io := m, phase := .installing 0 false } }
  | install {tail b : Nat} {r : Bool} {m : Cache} (hphase : σ.log.phase = .installing tail r)
    (hb : σ.log.lh[tail]? = some b) (hm : σ.log.io.installTrans c tail b = .ok m) :
    Step σ .install { σ with log := { σ.log with io := m, phase := .installing (tail + 1) r } }
  | clear {r : Bool} {m : Cache} (hphase : σ.log.phase = .installing σ.log.lh.length r)
    (hm : σ.log.io.writeHead c [] = .ok m) :
    Step σ .clear { σ with log := { σ.log with io := m, lh := [], phase := if r then .up else .ending } }
  | done (hphase : σ.log.phase = .ending) : Step σ .done { σ with log.phase := .up }
  | crash : Step σ .crash ⟨⟨⟨σ.log.io.disk, ∅⟩, [], 0, .booting⟩, fun _ => none⟩
  | recover {lh : List Nat} {m : Cache} (hphase : σ.log.phase = .booting) (hm : σ.log.io.readHead c = .ok (lh, m)) :
    Step σ .recover { σ with log := { σ.log with io := m, lh, phase := .installing 0 true } }

/-- The machine is switched on. -/
def System.start (disk : Nat → Bytes.Mem) : System n := ⟨⟨⟨disk, ∅⟩, [], 0, .booting⟩, fun _ => none⟩

end CS1550.Log
