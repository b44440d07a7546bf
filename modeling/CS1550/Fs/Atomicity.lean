/-
What a request leaves behind, on any image whatever. A request that returns an error has written nothing
(`undoes_handler`): the one thing that can fail after the lookups is the allocator, and it fails without
moving the cursor. A request that makes a directory or a file has changed one block and the bit of the
block it was given (`mkdir_differs`, `mknod_differs`).
-/
import CS1550.Fs.Allocator
import CS1550.Fs.LongWrite

namespace CS1550.Fs

open Bytes

variable {N : Nat} {v : Volume} {d : Disk}

/-! ## Reads -/

theorem leaves_openBlock (heap : Mem) (index : Int) : machine.Leaves (openBlock heap index) :=
  .bind (fun _ _ => rfl) fun _ => .pure _

theorem leaves_readByte (position : Int) : machine.Leaves (readByte position) := by
  intro pos v
  simp only [readByte, Prog.perform, machine, Machine.run, exec]
  split <;> rfl

/-! ## Errors -/

/-- The loop of the allocator fails without a trace. -/
theorem undoes_findFrom {I : Volume → Prop} : ∀ (turns : Nat) (i : Int), 0 ≤ i →
    machine.Undoes I (0 ≤ ·) (findFrom turns i)
  | 0, _, _ => .pure _
  | turns + 1, i, hi => by
    refine .bind (leaves_readByte _) fun byte => ?_
    split
    · intro pos v _
      exact .inl hi
    · exact undoes_findFrom turns (i + 1) (by omega)

theorem Past.start_eq (hv : Past 1 v) : ∃ c : Nat, v.start = c ∧ v.cursor = c ∧ 1 ≤ c ∧ (c : Int) < totalBlocks := by
  obtain ⟨c, hc⟩ := Int.eq_ofNat_of_zero_le (show 0 ≤ v.cursor by have := hv.1; omega)
  have hend : totalBlocks = 1048573 := rfl
  have hpos := hv.1
  have hlt := hv.2
  exact ⟨c, start_of_lt hc (by omega), hc, by omega, by omega⟩

theorem undoes_findNextFreeBlockIndex : machine.Undoes (Past 1) (0 ≤ ·) findNextFreeBlockIndex := by
  intro pos v hv
  obtain ⟨c, hstart, -⟩ := hv.start_eq
  have hrun : machine.run findNextFreeBlockIndex pos v =
      machine.run (findFrom (totalBlocks - v.start).toNat v.start) pos v := rfl
  rw [hrun, hstart]
  exact undoes_findFrom _ _ (Int.natCast_nonneg c) pos v hv

/-- What `cs1550_mkdir` and `cs1550_mknod` end with: a block is handed out and marked, and the block with the new
entry is written. -/
def takeBlock (stack : UInt8) (index e : Int) (entry : Int → Mem) : Req Int := do
  let nextOpenBlock ← findNextFreeBlockIndex
  if nextOpenBlock < 0 then pure e
  else do
    let _ ← setBitmap stack nextOpenBlock 1
    writeBlock index (entry nextOpenBlock)
    pure 0

theorem undoes_takeBlock (stack : UInt8) (index e : Int) (entry : Int → Mem) :
    machine.Undoes (Past 1) (0 ≤ ·) (takeBlock stack index e entry) := by
  refine undoes_findNextFreeBlockIndex.then (le_refl 0) (fun b hb => ?_) fun b hb => ?_
  · rw [if_neg (by omega)]
    exact .bind fun _ => .bind fun _ => .pure 0
  · rw [if_pos (by omega)]
    exact .pure _

theorem undoes_withDirectory (mem : Memory) (directory : CString) (notFound : Int) {k : Int → Mem → Req Int}
    (hk : ∀ b dir, machine.Undoes (Past 1) (0 ≤ ·) (k b dir)) :
    machine.Undoes (Past 1) (0 ≤ ·) (withDirectory mem directory notFound k) := by
  refine .bind (leaves_openBlock _ _) fun root => ?_
  dsimp only
  split
  · exact .pure _
  · exact .bind (leaves_openBlock _ _) fun dir => hk _ dir

theorem undoes_mkdir (mem : Memory) (path : CString) : machine.Undoes (Past 1) (0 ≤ ·) (cs1550Mkdir mem path) := by
  unfold cs1550Mkdir
  dsimp only
  split
  · exact .pure _
  split
  · exact .pure _
  refine .bind (leaves_openBlock _ _) fun root => ?_
  split
  · exact .pure _
  split
  · exact .pure _
  · exact undoes_takeBlock _ _ _ _

theorem undoes_mknod (mem : Memory) (path : CString) : machine.Undoes (Past 1) (0 ≤ ·) (cs1550Mknod mem path) := by
  unfold cs1550Mknod
  dsimp only
  split
  · exact .pure _
  split
  · exact .pure _
  refine undoes_withDirectory _ _ _ fun dirBlock dir => ?_
  split
  · exact .pure _
  split
  · exact .pure _
  · exact undoes_takeBlock _ _ _ _

/-- Once `cs1550_write` has begun to write it returns the size. -/
theorem undoes_write (mem : Memory) (path : CString) {buf : List UInt8} (offset : Int) (hlen : buf.length < 2 ^ 31) :
    machine.Undoes (Past 1) (0 ≤ ·) (cs1550Write mem path buf offset) := by
  unfold cs1550Write
  dsimp only
  split
  · exact .pure _
  split
  · exact .pure _
  refine undoes_withDirectory _ _ _ fun dirBlock dir => ?_
  dsimp only
  split
  · exact .pure _
  unfold writeFile
  split
  · exact .pure _
  have hret : 0 ≤ asInt buf.length := by
    rw [asInt_of_lt hlen]
    omega
  exact Machine.Returns.undoes (.bind fun _ => .bind fun _ => .bind fun _ => .pure _) hret

/-- The size of a write fits into an `int`. -/
def Request.Fits (r : Request) : Prop :=
  match r.call with
  | .write _ buf _ => buf.length < 2 ^ 31
  | _ => True

theorem undoes_handler {r : Request} (hfits : r.Fits) : machine.Undoes (Past 1) (0 ≤ ·) r.handler := by
  obtain ⟨mem, call⟩ := r
  cases call with
  | mkdir path => exact undoes_mkdir mem path
  | mknod path => exact undoes_mknod mem path
  | write path buf offset => exact undoes_write mem path offset hfits

/-! ## The cursor -/

/-- No request moves the cursor back. -/
theorem past_handler {c : Nat} (r : Request) : machine.Maintains (Past c) r.handler := by
  obtain ⟨mem, call⟩ := r
  cases call with
  | mkdir path => exact ((rules_past c).mkdir mem path).maintains
  | mknod path => exact ((rules_past c).mknod mem path).maintains
  | write path buf offset => exact ((rules_past c).write mem path buf offset).maintains

theorem past_serve (r : Request) (hv : Past 1 v) : Past 1 (r.serve v).2 := past_handler r 0 v hv

theorem past_zeroed (N : Nat) : Past 1 (zeroed N) := by
  constructor
  · exact le_refl 1
  · exact show (1 : Int) < totalBlocks by decide

/-! ## What a new directory or file changes -/

/-- Position `p` of the image is in block `c`. -/
def InBlock (c p : Nat) : Prop := blockSize * c ≤ p ∧ p < blockSize * (c + 1)

/-- The images are the same but for block `c` and the bit of block `b`, which is set. -/
structure Disk.DiffersAt (d d' : Disk) (c b : Nat) : Prop where
  size : d'.size = d.size
  bytes : ∀ p, p + bitmapBytes < d.size → ¬ InBlock c p → d'.byte p = d.byte p
  bits : ∀ j < bitmapBits, ¬ InBlock c (d.bitmapByte j) → d'.bit j = (decide (j = b) || d.bit j)

theorem differsAt_mark {stack : UInt8} {c b : Nat} (block : Mem) (hb : b < bitmapBits) (hd : bitmapBytes ≤ d.size)
    (hc : blockSize * (c + 1) ≤ d.size) : d.DiffersAt ((d.mark stack b).writeBlock c block) c b := by
  have hmark : (d.mark stack b).size = d.size := size_mark hb hd
  have hsize : ((d.mark stack b).writeBlock c block).size = d.size := (size_writeBlock (by rwa [hmark])).trans hmark
  have houtside : ∀ p, ¬ InBlock c p → ((d.mark stack b).writeBlock c block).byte p = (d.mark stack b).byte p := by
    intro p hp
    unfold InBlock at hp
    simp only [Disk.writeBlock, Disk.write, blockSize] at hp ⊢
    exact splice_outside (by omega)
  refine ⟨hsize, fun p hfront hp => ?_, fun j hj hp => ?_⟩
  · rw [houtside p hp, Disk.mark, if_pos (bitmapByte_lt hb hd)]
    simp only [Disk.write, Disk.bitmapByte]
    exact splice_outside (by omega)
  · have hpos : ((d.mark stack b).writeBlock c block).bitmapByte j = d.bitmapByte j := by
      rw [Disk.bitmapByte, hsize, Disk.bitmapByte]
    have hmarked : (d.mark stack b).bitmapByte j = d.bitmapByte j := by rw [Disk.bitmapByte, hmark, Disk.bitmapByte]
    have hbit : (d.mark stack b).bit j = (decide (j = b) || d.bit j) := bit_mark hb hd
    rw [← hbit, Disk.bit, hpos, houtside _ hp, Disk.bit, hmarked]

/-- The request fails and changes nothing, or marks the block that is free next and writes block `c`. -/
def Makes (stack : UInt8) (v : Volume) (c : Nat) (p : Req Int) : Prop :=
  (∃ e, e < 0 ∧ machine.Yields p v e v) ∨
    ∃ (n : Nat) (block : Mem), machine.Yields p v 0 ⟨(v.disk.mark stack n).writeBlock c block, n⟩

section Makes

variable {stack : UInt8} {c : Nat}

theorem makes_pure {e : Int} (he : e < 0) : Makes stack v c (pure e) := .inl ⟨e, he, .pure _ _⟩

theorem Makes.of_becomes {p q : Req Int} (hq : Makes stack v c q) (hp : machine.Becomes p v q v) : Makes stack v c p := by
  rcases hq with ⟨e, he, hy⟩ | ⟨n, block, hy⟩
  · exact .inl ⟨e, he, hp.yields hy⟩
  · exact .inr ⟨n, block, hp.yields hy⟩

theorem makes_takeBlock (hd : bitmapBytes ≤ v.disk.size) (hv : Past 1 v) (e : Int) (entry : Int → Mem) :
    Makes stack v c (takeBlock stack c e entry) := by
  obtain ⟨b, hstart, -, -, hlt⟩ := hv.start_eq
  obtain ⟨n, hfind, -⟩ := find_of_start hd hstart hlt
  refine .inr ⟨n, entry n, hfind.bind ?_⟩
  rw [if_neg (by omega)]
  have hset := setBitmap_yields (v := { v with cursor := (n : Int) }) stack n hd
  exact hset.bind ((writeBlock_yields c _ _).bind (.pure _ _))

/-- What the request did, seen from its result. -/
theorem Makes.differsAt {p : Req Int} (h : Makes stack v c p) (hd : bitmapBytes ≤ v.disk.size)
    (hc : blockSize * (c + 1) ≤ v.disk.size) (h0 : (serve p v).1 = 0) (hin : InFront N (serve p v).2.cursor) :
    v.disk.DiffersAt (serve p v).2.disk c (serve p v).2.cursor.toNat := by
  rcases h with ⟨e, he, hy⟩ | ⟨n, block, hy⟩
  · rw [serve_of_yields hy] at h0
    exact absurd h0 (by omega)
  · rw [serve_of_yields hy] at hin ⊢
    have hbit : (n : Int) < bitmapBits := hin.bit
    exact differsAt_mark block (by exact_mod_cast hbit) hd hc

theorem makes_mkdir (hd : bitmapBytes ≤ v.disk.size) (hv : Past 1 v) (mem : Memory) (path : CString) :
    Makes mem.stack v 0 (cs1550Mkdir mem path) := by
  unfold cs1550Mkdir
  dsimp only
  split
  · exact makes_pure (by decide)
  split
  · exact makes_pure (by decide)
  refine Makes.of_becomes ?_ (openRoot_yields mem v).becomes
  split
  · exact makes_pure (by decide)
  split
  · exact makes_pure (by decide)
  · exact makes_takeBlock hd hv _ _

/-- The block of the directory that the loop over the root ends with. -/
def dirBlockOf (v : Volume) (mem : Memory) (path : CString) : Int :=
  let root := onHeap mem.heap (v.disk.block 0)
  dirStartBlock root (findDirectory root (sscanf path mem.names).2.directory.1)

theorem makes_mknod (hd : bitmapBytes ≤ v.disk.size) (hv : Past 1 v) (mem : Memory) (path : CString)
    (hc : dirBlockOf v mem path = c) : Makes mem.stack v c (cs1550Mknod mem path) := by
  unfold dirBlockOf at hc
  unfold cs1550Mknod withDirectory
  dsimp only at hc ⊢
  split
  · exact makes_pure (by decide)
  split
  · exact makes_pure (by decide)
  refine Makes.of_becomes ?_ (openRoot_yields mem v).becomes
  split
  · exact makes_pure (by decide)
  rw [hc]
  refine Makes.of_becomes ?_ (openDir_yields mem c v).becomes
  split
  · exact makes_pure (by decide)
  split
  · exact makes_pure (by decide)
  · exact makes_takeBlock hd hv _ _

end Makes

/-- On every image, with every value that the cursor can have: a request that returns an error has changed
nothing, and one that made a directory or a file has changed block 0 or the block of its directory, and the
bit of the block handed out. -/
theorem atomic_and_framed (hv : Past 1 v) (hd : v.disk.size = blockSize * N) (r : Request) (hfits : r.Fits) :
    ((r.serve v).1 < 0 → (r.serve v).2 = v) ∧
    ((r.serve v).1 = 0 → InFront N (r.serve v).2.cursor →
      (∀ path, r.call = .mkdir path → v.disk.DiffersAt (r.serve v).2.disk 0 (r.serve v).2.cursor.toNat) ∧
      ∀ path (c : Nat), r.call = .mknod path → dirBlockOf v r.mem path = c → c < N →
        v.disk.DiffersAt (r.serve v).2.disk c (r.serve v).2.cursor.toNat) := by
  constructor
  · intro hneg
    rcases undoes_handler hfits 0 v hv with hret | hsame
    · exact absurd hneg (not_lt.2 hret)
    · exact hsame
  · intro h0 hin
    have hbitmap : bitmapBytes ≤ v.disk.size := by
      have hpos := (past_serve r hv).1
      have hbelow := hin.below
      rw [hd]
      simp only [bitmapBytes, blockSize, bitmapSizeInBlocks] at hbelow ⊢
      omega
    have hblock : ∀ c, c < N → blockSize * (c + 1) ≤ v.disk.size := by
      intro c hc
      rw [hd]
      exact Nat.mul_le_mul_left _ hc
    obtain ⟨mem, call⟩ := r
    constructor
    · rintro path rfl
      refine (makes_mkdir hbitmap hv mem path).differsAt hbitmap ?_ h0 hin
      exact hblock 0 (by simp only [hd, bitmapBytes, blockSize, bitmapSizeInBlocks] at hbitmap; omega)
    · rintro path c rfl hc hcN
      exact (makes_mknod hbitmap hv mem path hc).differsAt hbitmap (hblock c hcN) h0 hin

/-- A file in a directory. -/
theorem atomic_and_framed_file :
    (zeroed 10240).disk.size = blockSize * 10240 ∧
    (Request.serve ⟨blank, .mknod filePath⟩ (serveAll (zeroed 10240) [⟨blank, .mkdir dirPath⟩]).2).1 = 0 ∧
    (serveAll (zeroed 10240) [⟨blank, .mkdir dirPath⟩]).2.disk.DiffersAt
      (Request.serve ⟨blank, .mknod filePath⟩ (serveAll (zeroed 10240) [⟨blank, .mkdir dirPath⟩]).2).2.disk 1 2 := by
  have h0 : (Request.serve ⟨blank, .mknod filePath⟩ (serveAll (zeroed 10240) [⟨blank, .mkdir dirPath⟩]).2).1 = 0 := by
    decide +kernel
  have hframe := (atomic_and_framed (N := 10240) (past_serve ⟨blank, .mkdir dirPath⟩ (past_zeroed 10240))
    (by decide +kernel) ⟨blank, .mknod filePath⟩ trivial).2 h0 (by decide +kernel)
  exact ⟨rfl, h0, hframe.2 filePath 1 rfl (by decide +kernel) (by decide)⟩

end CS1550.Fs
