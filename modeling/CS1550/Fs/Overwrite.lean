/-
What a write does to the bytes that were there before. `cs1550_write` always makes the file end behind the
bytes written, and where they do not fit into the block they start in it links a fresh block behind it, even
if the chain goes on. So a write is an overwrite in place just where it reaches the end of the file and does
not cross a block boundary on the way to exactly that end, and the bytes from its third block on repeat
(`overwritten_iff`).
-/
import CS1550.Fs.Contents

namespace CS1550.Fs

open Bytes

variable {N : Nat} {v v' : Volume} {t : Tree} {d : Disk} {h : List (Volume × Request)}

/-! ## The bytes of a file on the image -/

/-- The block at a position in the chain of the file of that name. -/
def Disk.fileBlock (d : Disk) (names : Names) (n : Nat) : Option Int :=
  d.blockAt (.data (d.lookup names).1 (d.lookup names).2 n)

/-- The byte of that file at a position. -/
def Disk.byteOf (d : Disk) (names : Names) (p : Nat) : Option UInt8 :=
  (d.fileBlock names (p / maxDataInBlock)).map fun b => d.block b.toNat (p % maxDataInBlock)

/-- What an overwrite of a file of `fsize` bytes asks of the image after it. -/
structure Overwritten (v v' : Volume) (names : Names) (fsize : Nat) (buf : List UInt8) (offset : Nat) : Prop where
  size : v'.disk.sizeOf names = some (max fsize (offset + buf.length))
  before : ∀ p < offset, v'.disk.byteOf names p = v.disk.byteOf names p
  inside : ∀ p < buf.length, v'.disk.byteOf names (offset + p) = buf[p]?
  behind : ∀ p < fsize, offset + buf.length ≤ p → v'.disk.byteOf names p = v.disk.byteOf names p
  /-- Within the old size no block is handed out, and the chain stays as it is. -/
  inPlace : offset + buf.length ≤ fsize → v'.cursor = v.cursor ∧ (∀ b, v'.disk.taken b = v.disk.taken b) ∧
    ∀ n, v'.disk.fileBlock names n = v.disk.fileBlock names n

section Found

variable {names : Names} {f : File}

theorem Rep.fileBlock_eq (hr : Rep N v t) (hf : t.find names = some f) (n : Nat) :
    v.disk.fileBlock names n = f.chain[n]?.map fun b : Nat => (b : Int) := by
  obtain ⟨D, hD, hfile⟩ := Tree.find_some hf
  rw [Disk.fileBlock, hr.listed.lookup_eq hD, hr.blockAt_eq, Tree.blockAt, hD, Option.bind_some, hfile,
    Option.bind_some]

theorem Rep.byteOf_eq (hr : Rep N v t) (hf : t.find names = some f) {p : Nat} (hp : p < f.contents.length) :
    v.disk.byteOf names p = f.contents[p]? := by
  obtain ⟨D, hD, hfile⟩ := Tree.find_some hf
  have hx := List.getElem?_eq_getElem hp
  obtain ⟨b, hb, hbyte⟩ := (hr.file _ D _ f hD hfile).data p _ hx
  rw [Disk.byteOf, hr.fileBlock_eq hf, hb, hx, ← hbyte]
  rfl

/-- Where only the links are known. -/
theorem Listed.fileBlock_eq (hl : Listed d t) (hf : t.find names = some f) {blocks : Nat → Nat} {n : Nat}
    (hth : Threaded d blocks n) (hstart : blocks 0 = f.chain.headD 0) {k : Nat} (hk : k ≤ n) :
    d.fileBlock names k = some ((blocks k : Nat) : Int) := by
  obtain ⟨D, hD, hfile⟩ := Tree.find_some hf
  rw [Disk.fileBlock, hl.lookup_eq hD, Disk.blockAt, hl.fileStart_eq, hD, Option.bind_some, hfile, Option.map_some,
    Option.bind_some, ← hstart, hth.follow_eq k hk]

theorem Listed.byteOf_eq (hl : Listed d t) (hf : t.find names = some f) {blocks : Nat → Nat} {n : Nat}
    (hth : Threaded d blocks n) (hstart : blocks 0 = f.chain.headD 0) {p : Nat} (hp : p < maxDataInBlock * (n + 1)) :
    d.byteOf names p = some (dataAt d blocks p) := by
  rw [Disk.byteOf, hl.fileBlock_eq hf hth hstart (Nat.le_of_lt_succ (Nat.div_lt_of_lt_mul hp))]
  rfl

end Found

/-! ## Writes -/

section Write

variable {names : Names} {f : File} {buf : List UInt8} {offset : Nat}

/-- A write that keeps what the file had is one that reaches its end. -/
theorem Overwritten.reaches {fsize : Nat} (ho : Overwritten v v' names fsize buf offset)
    (hsize : v'.disk.sizeOf names = some (offset + buf.length)) : fsize ≤ offset + buf.length := by
  have heq := ho.size.symm.trans hsize
  rw [Option.some.injEq] at heq
  omega

/-- A chain that goes on in a block handed out by the write is not the one that was there. -/
theorem Overwritten.fits (hr : Rep N v t) (hf : t.find names = some f)
    (ho : Overwritten v v' names f.contents.length buf offset) {n b : Nat} (hb : t.used < b)
    (hnew : v'.disk.fileBlock names n = some (b : Int)) : ¬ offset + buf.length ≤ f.contents.length := by
  intro hle
  obtain ⟨D, hD, hfile⟩ := Tree.find_some hf
  have hold := (ho.inPlace hle).2.2 n
  rw [hnew, hr.fileBlock_eq hf] at hold
  obtain ⟨c, hc, hcb⟩ := Option.map_eq_some_iff.1 hold.symm
  obtain ⟨-, -, -, hused⟩ := hr.chain_block hD hfile (List.mem_of_getElem? hc)
  omega

/-- The image after a short write to the file. -/
theorem Rep.overwritten_short (hr : Rep N v t) {t' : Tree} (hr' : Rep N v' t') (hf : t.find names = some f)
    (hf' : t'.find names = some (f.write (t.used + 1) buf offset)) (hused : t'.used = t.usedBy buf offset)
    (hoff : offset ≤ f.contents.length) :
    Overwritten v v' names f.contents.length buf offset ↔ f.contents.length ≤ offset + buf.length ∧
      (offset + buf.length = f.contents.length → adjusted offset + buf.length ≤ maxDataInBlock) := by
  have hlen : (f.write (t.used + 1) buf offset).contents.length = offset + buf.length := length_contents_write hoff
  have hsize : v'.disk.sizeOf names = some (offset + buf.length) := by
    rw [hr'.listed.sizeOf_eq, hf', Option.map_some, hlen]
  have htake : (f.contents.take offset).length = offset := by
    rw [List.length_take]
    omega
  constructor
  · intro ho
    refine ⟨ho.reaches hsize, fun hend => ?_⟩
    by_contra hover
    refine Overwritten.fits hr hf ho (n := startBlock offset + 1) (b := t.used + 1) (by omega) ?_ (le_of_eq hend)
    obtain ⟨D, hD, hfile⟩ := Tree.find_some hf
    have hstart := startBlock_lt (hr.file _ D _ f hD hfile) hoff
    have hlast : (f.write (t.used + 1) buf offset).chain[startBlock offset + 1]? = some (t.used + 1) := by
      rw [File.write]
      dsimp only
      rw [if_neg hover, List.getElem?_append_right (by rw [List.length_take]; omega), List.length_take,
        Nat.min_eq_left hstart, Nat.sub_self]
      rfl
    rw [hr'.fileBlock_eq hf', hlast]
    rfl
  · rintro ⟨hend, hfit⟩
    refine ⟨?_, fun p hp => ?_, fun p hp => ?_, fun p hp hp' => by omega, fun hle => ?_⟩
    · rw [hsize, max_eq_right hend]
    · rw [hr'.byteOf_eq hf' (by omega), hr.byteOf_eq hf (by omega), File.write, List.getElem?_append_left (by omega),
        List.getElem?_take_of_lt hp]
    · rw [hr'.byteOf_eq hf' (by omega), File.write, List.getElem?_append_right (by omega), htake,
        Nat.add_sub_cancel_left]
    · have hwithin := hfit (le_antisymm hle hend)
      have hsame : t'.used = t.used := hused.trans (if_pos hwithin)
      refine ⟨by rw [hr'.cursor, hr.cursor, hsame], fun b => by rw [hr'.taken, hr.taken, hsame], fun n => ?_⟩
      rw [hr'.fileBlock_eq hf', hr.fileBlock_eq hf, File.write]
      dsimp only
      rw [if_pos hwithin]

/-- The image after a write that needed a third block. -/
theorem Rep.overwritten_long (hr : Rep N v t) {t' : Tree} (hf : t.find names = some f)
    (ho : Overrun t f offset buf v'.disk)
    (hbefore : ∀ p x, p < offset → f.contents[p]? = some x → dataAt v'.disk (f.overrun offset t.used) p = x)
    (hl : Listed v'.disk t') (hf' : t'.find names = some (f.resize (offset + buf.length)))
    (hoff : offset ≤ f.contents.length) :
    Overwritten v v' names f.contents.length buf offset ↔ f.contents.length < offset + buf.length ∧
      RepeatsFrom (2 * maxDataInBlock - adjusted offset) buf := by
  have hsize : v'.disk.sizeOf names = some (offset + buf.length) := by
    rw [hl.sizeOf_eq, hf', Option.map_some, File.length_resize]
  have hstart : f.overrun offset t.used 0 = (f.resize (offset + buf.length)).chain.headD 0 := by
    rw [File.overrun_le (Nat.zero_le _), File.blockOf_zero]
    rfl
  obtain ⟨n, hth, hn⟩ := ho.threaded_upTo
  have hbytes : ∀ p < offset + buf.length,
      v'.disk.byteOf names p = some (dataAt v'.disk (f.overrun offset t.used) p) := fun p hp =>
    hl.byteOf_eq hf' hth hstart (lt_of_lt_of_le hp hn)
  -- the bytes of the buffer are those that a read would give
  have hinside : (∀ p < buf.length, v'.disk.byteOf names (offset + p) = buf[p]?) ↔
      RepeatsFrom (2 * maxDataInBlock - adjusted offset) buf := by
    rw [← ho.bytesFrom_iff, bytesFrom_eq_iff]
    constructor
    · intro hall p x hx
      have hlt := (List.getElem?_eq_some_iff.1 hx).1
      have hp := hall p hlt
      rw [hbytes _ (by omega), hx] at hp
      exact Option.some.inj hp
    · intro hall p hp
      rw [hbytes _ (by omega), List.getElem?_eq_getElem hp, hall p _ (List.getElem?_eq_getElem hp)]
  constructor
  · intro hw
    refine ⟨?_, hinside.1 hw.inside⟩
    have hne := Overwritten.fits hr hf hw (n := startBlock offset + 1) (b := t.used + 1) (by omega)
      (by rw [hl.fileBlock_eq hf' ho.threaded hstart (by omega), File.overrun_one])
    omega
  · rintro ⟨hlt, hrep⟩
    refine ⟨?_, fun p hp => ?_, hinside.2 hrep, fun p hp hp' => by omega, fun hle => by omega⟩
    · rw [hsize, max_eq_right (by omega)]
    · have hx := List.getElem?_eq_getElem (l := f.contents) (i := p) (by omega)
      rw [hbytes p (by omega), hr.byteOf_eq hf (by omega), hx, hbefore p _ hp hx]

end Write

/-- In a run of short writes a write to an existing file, with blocks enough for it, returns its size, and it
is an overwrite in place if and only if it reaches the end of the file, does not cross a block boundary when it
ends exactly there, and its bytes from the third block on repeat block by block. -/
theorem overwritten_iff (hp : RunFrom N h v) (hfront : ∀ x ∈ Run.visited h v, InFront N x.cursor)
    (hfiles : ∀ x ∈ Run.visited h v, FilesWithin x) (hshort : ∀ x ∈ h, x.2.Short x.1) (mem : Memory)
    (path : CString) (buf : List UInt8) (offset : Int) (names : Names) (fsize : Nat)
    (hscan : sscanf path mem.names = (3, names)) (hfile : v.disk.sizeOf names = some fsize) (hpos : 1 ≤ buf.length)
    (hsize : buf.length < 2 ^ 31) (hoff : asSize offset ≤ fsize)
    (hfree : InFront N (v.cursor + blocksTaken (asSize offset) buf.length)) :
    (serve (cs1550Write mem path buf offset) v).1 = buf.length ∧
      (Overwritten v (serve (cs1550Write mem path buf offset) v).2 names fsize buf (asSize offset) ↔
        fsize ≤ asSize offset + buf.length ∧
        (asSize offset + buf.length = fsize → adjusted (asSize offset) + buf.length ≤ maxDataInBlock) ∧
        RepeatsFrom (2 * maxDataInBlock - adjusted (asSize offset)) buf) := by
  have hmax : maxDataInBlock = 504 := rfl
  have hadj := adjusted_le (asSize offset)
  have hr := rep_treeAfter hp hfront hfiles hshort
  generalize treeAfter h = t at hr
  rw [hr.listed.sizeOf_eq] at hfile
  obtain ⟨f, hfind, rfl⟩ := Option.map_eq_some_iff.1 hfile
  obtain ⟨D, hD, hf⟩ := Tree.find_some hfind
  rw [hr.cursor, ← Nat.cast_add] at hfree
  rcases Nat.lt_or_ge (2 * maxDataInBlock) (adjusted (asSize offset) + buf.length) with hlong | hfit
  · have hblocks : 2 ≤ blocksTaken (asSize offset) buf.length := by
      simp only [blocksTaken, hmax] at hlong ⊢
      omega
    obtain ⟨v', t', hy, ho, hbefore, hl, hfind'⟩ := hr.write_long mem hscan hD hf hsize hoff hlong
      (hfree.mono (by omega))
    rw [serve_of_yields hy]
    dsimp only
    refine ⟨asInt_of_lt hsize, ?_⟩
    rw [hr.overwritten_long hfind ho hbefore hl hfind' hoff]
    constructor
    · rintro ⟨hlt, hrep⟩
      exact ⟨by omega, fun hend => by omega, hrep⟩
    · rintro ⟨hle, hend, hrep⟩
      exact ⟨lt_of_le_of_ne hle fun heq => by have := hend heq.symm; omega, hrep⟩
  · have hblocks : t.usedBy buf (asSize offset) ≤ t.used + blocksTaken (asSize offset) buf.length := by
      simp only [Tree.usedBy, blocksTaken, hmax]
      split <;> omega
    obtain ⟨v', t', hy, hr', hused, hfind'⟩ := hr.write_short mem hscan hD hf hpos hoff hfit (hfree.mono (by omega))
    rw [serve_of_yields hy]
    dsimp only
    refine ⟨asInt_of_lt hsize, ?_⟩
    rw [hr.overwritten_short hr' hfind hfind' hused hoff]
    constructor
    · rintro ⟨hle, hend⟩
      exact ⟨hle, hend, fun p hp hlt => by omega⟩
    · rintro ⟨hle, hend, -⟩
      exact ⟨hle, hend⟩

/-- Two bytes from the last one of a file of three on. -/
theorem overwritten_last_byte :
    Overwritten (serveAll (zeroed 10240) (writeOnce [1, 2, 3] 0)).2
      (serve (cs1550Write blank filePath [8, 9] 2) (serveAll (zeroed 10240) (writeOnce [1, 2, 3] 0)).2).2
      (sscanf filePath blank.names).2 3 [8, 9] 2 := by
  have hlength : ([8, 9] : List UInt8).length = 2 := rfl
  have hmax : maxDataInBlock = 504 := rfl
  exact (overwritten_iff (run_serveAll 10240 (writeOnce [1, 2, 3] 0)) (by decide +kernel) (by decide +kernel)
    (by decide +kernel) blank filePath [8, 9] 2 (sscanf filePath blank.names).2 3 (by decide +kernel)
    (by decide +kernel) (by decide) (by decide) (by decide) (by decide +kernel)).2.2
    ⟨by decide, by decide, fun p _ hlt => by omega⟩

/-- One byte at the front, and the other two are cut off. -/
theorem file_truncated :
    ∃ h v names, RunFrom 10240 h v ∧ (∀ x ∈ Run.visited h v, InFront 10240 x.cursor) ∧
      (∀ x ∈ Run.visited h v, FilesWithin x) ∧ (∀ x ∈ h, x.2.Short x.1) ∧
      sscanf filePath blank.names = (3, names) ∧ v.disk.sizeOf names = some 3 ∧
      (serve (cs1550Write blank filePath [9] 0) v).1 = 1 ∧
      (serve (cs1550Write blank filePath [9] 0) v).2.disk.sizeOf names = some 1 ∧
      ¬ Overwritten v (serve (cs1550Write blank filePath [9] 0) v).2 names 3 [9] 0 := by
  have hsize : (serve (cs1550Write blank filePath [9] 0)
      (serveAll (zeroed 10240) (writeOnce [1, 2, 3] 0)).2).2.disk.sizeOf (sscanf filePath blank.names).2 = some 1 := by
    decide +kernel
  refine ⟨_, _, (sscanf filePath blank.names).2, run_serveAll 10240 (writeOnce [1, 2, 3] 0), by decide +kernel,
    by decide +kernel, by decide +kernel, by decide +kernel, by decide +kernel, by decide +kernel, hsize, fun ho => ?_⟩
  have hkept := ho.size
  rw [hsize] at hkept
  cases hkept

end CS1550.Fs
