/-
The image as blocks and bits: what each access does to the blocks in front of the bitmap and to the
bits of it. `mark` is the effect of `set_bitmap`, and `findNextFreeBlockIndex_yields` says which index
the allocator returns.
-/
import CS1550.Lib.TwoRuns
import CS1550.Fs.Disk
import Mathlib.Data.Nat.Bitwise

namespace CS1550.Fs

open Bytes

variable {d : Disk} {v : Volume}

/-- The length of the bitmap in bytes. -/
def bitmapBytes : Nat := blockSize * bitmapSizeInBlocks

/-- The number of blocks with a bit in the bitmap. -/
def bitmapBits : Nat := 8 * bitmapBytes

/-- The byte of the image with the bit of block `i`. -/
def Disk.bitmapByte (d : Disk) (i : Nat) : Nat := d.size - bitmapBytes + i / 8

/-- The bit of block `i`. -/
def Disk.bit (d : Disk) (i : Nat) : Bool := (d.byte (d.bitmapByte i)).toNat.testBit (7 - i % 8)

/-- Block `i` has a bit in the bitmap, and it is set. -/
def Disk.taken (d : Disk) (i : Nat) : Bool := decide (i < bitmapBits) && d.bit i

/-- A block written in its place. -/
def Disk.writeBlock (d : Disk) (b : Nat) (block : Mem) : Disk := d.write (blockSize * b) blockSize block

/-- The effect of `set_bitmap(disk, n, 1)`. Behind the bitmap nothing is read, and the step back before
the write lands on the byte in front. -/
def Disk.mark (d : Disk) (stack : UInt8) (n : Nat) : Disk :=
  if d.bitmapByte n < d.size then
    d.write (d.bitmapByte n) 1 fun _ => setIthBit (d.byte (d.bitmapByte n)) (n % 8 : Nat) 1
  else d.write (d.bitmapByte n - 1) 1 fun _ => setIthBit stack (n % 8 : Nat) 1

/-- The image with the bit of a block written. -/
def Disk.setBit (d : Disk) (n val : Nat) : Disk :=
  d.write (d.bitmapByte n) 1 fun _ => setIthBit (d.byte (d.bitmapByte n)) (n % 8 : Nat) val

/-! ## Bytes with one bit changed -/

theorem getIthBit_eq (byte : UInt8) {n : Nat} (hn : n < 8) :
    getIthBit byte n = (byte.toNat.testBit (7 - n)).toNat := by
  have hpos : (8 - (n : Int) - 1).toNat = 7 - n := by omega
  rw [getIthBit, hpos, Nat.toNat_testBit, Nat.and_one_is_mod, Nat.shiftRight_eq_div_pow]

theorem getIthBit_eq_zero {byte : UInt8} {n : Nat} (hn : n < 8) :
    getIthBit byte n = 0 ↔ byte.toNat.testBit (7 - n) = false := by
  rw [getIthBit_eq byte hn]
  cases byte.toNat.testBit (7 - n) <;> simp

/-- Of the eight bits only the one at the position is written. -/
theorem testBit_setIthBit (byte : UInt8) (val : Nat) {n k : Nat} (hn : n < 8) (hk : k < 8) :
    (setIthBit byte n val).toNat.testBit (7 - k) = if k = n then decide (val = 1) else byte.toNat.testBit (7 - k) := by
  have hpos : (8 - (n : Int) - 1).toNat = 7 - n := by omega
  have hmask : (1 <<< (7 - n)).testBit (7 - k) = decide (k = n) := by
    rw [Nat.one_shiftLeft, Nat.testBit_two_pow]
    congr 1
    apply propext
    omega
  have h8 : decide (7 - k < 8) = true := by simp; omega
  unfold setIthBit
  rw [hpos]
  by_cases hval : val = 1
  · rw [if_pos hval, UInt8.toNat_ofNat', Nat.testBit_mod_two_pow, Nat.testBit_or, hmask, h8, Bool.true_and]
    by_cases hkn : k = n
    · simp [hkn, hval]
    · simp [hkn]
  · have hlt : (UInt8.ofNat (1 <<< (7 - n))).toNat < 2 ^ 8 := UInt8.toNat_lt _
    rw [if_neg hval, UInt8.toNat_and, UInt8.toNat_not, Nat.testBit_and]
    rw [show UInt8.size - 1 - (UInt8.ofNat (1 <<< (7 - n))).toNat = 2 ^ 8 - ((UInt8.ofNat (1 <<< (7 - n))).toNat + 1) by
      simp only [UInt8.size]; omega, Nat.testBit_two_pow_sub_succ hlt, UInt8.toNat_ofNat', Nat.testBit_mod_two_pow, hmask, h8]
    by_cases hkn : k = n
    · simp [hkn, hval]
    · simp [hkn]

/-! ## Writes -/

theorem size_writeBlock {b : Nat} {block : Mem} (h : blockSize * (b + 1) ≤ d.size) :
    (d.writeBlock b block).size = d.size := by
  simp only [Disk.writeBlock, Disk.write, blockSize] at h ⊢
  omega

theorem block_writeBlock_self {b i : Nat} {block : Mem} (hi : i < blockSize) :
    (d.writeBlock b block).block b i = block i := by
  simp only [Disk.writeBlock, Disk.write, Disk.block, shift]
  rw [splice_inside (by omega) (by omega), Nat.add_sub_cancel_left]

theorem block_writeBlock_ne {b c i : Nat} {block : Mem} (hbc : b ≠ c) (hi : i < blockSize) :
    (d.writeBlock c block).block b i = d.block b i := by
  simp only [Disk.writeBlock, Disk.write, Disk.block, shift, blockSize] at hi ⊢
  exact splice_outside (by omega)

/-- Writing in front of the bitmap leaves the bits as they are. -/
theorem bit_write {pos n i : Nat} {f : Mem} (h : pos + n + bitmapBytes ≤ d.size) : (d.write pos n f).bit i = d.bit i := by
  have hsize : (d.write pos n f).size = d.size := max_eq_left (by omega)
  have hbyte : (d.write pos n f).byte (d.bitmapByte i) = d.byte (d.bitmapByte i) := by
    simp only [Disk.write, Disk.bitmapByte]
    exact splice_outside (by omega)
  have hpos : (d.write pos n f).bitmapByte i = d.bitmapByte i := by rw [Disk.bitmapByte, hsize, Disk.bitmapByte]
  rw [Disk.bit, hpos, hbyte, Disk.bit]

theorem bit_writeBlock {b i : Nat} {block : Mem} (h : blockSize * (b + 1) + bitmapBytes ≤ d.size) :
    (d.writeBlock b block).bit i = d.bit i := bit_write (by omega)

theorem bitmapByte_lt {n : Nat} (hn : n < bitmapBits) (hd : bitmapBytes ≤ d.size) : d.bitmapByte n < d.size := by
  simp only [Disk.bitmapByte, bitmapBits] at hn ⊢
  omega

theorem size_setBit {n : Nat} (val : Nat) (hn : n < bitmapBits) (hd : bitmapBytes ≤ d.size) :
    (d.setBit n val).size = d.size := by
  have hlt := bitmapByte_lt hn hd
  simp only [Disk.setBit, Disk.write]
  omega

theorem bitmapByte_setBit {n : Nat} (val i : Nat) (hn : n < bitmapBits) (hd : bitmapBytes ≤ d.size) :
    (d.setBit n val).bitmapByte i = d.bitmapByte i := by
  rw [Disk.bitmapByte, size_setBit val hn hd, Disk.bitmapByte]

/-- Writing a bit changes one byte. -/
theorem byte_setBit (d : Disk) (n val k : Nat) :
    (d.setBit n val).byte k = if k = d.bitmapByte n then setIthBit (d.byte k) (n % 8 : Nat) val else d.byte k := by
  simp only [Disk.setBit, Disk.write]
  by_cases hk : k = d.bitmapByte n
  · rw [if_pos hk, splice_inside (by omega) (by omega), hk]
  · rw [if_neg hk, splice_outside (by omega)]

/-- Writing a bit leaves the bytes outside of the bitmap as they are. -/
theorem byte_setBit_outside {n val k : Nat} (hn : n < bitmapBits) (hd : bitmapBytes ≤ d.size)
    (hk : k < d.size - bitmapBytes ∨ d.size ≤ k) : (d.setBit n val).byte k = d.byte k := by
  have hlt := bitmapByte_lt hn hd
  rw [byte_setBit, if_neg]
  rintro rfl
  simp only [Disk.bitmapByte] at hk hlt
  omega

theorem bit_setBit {n val i : Nat} (hn : n < bitmapBits) (hd : bitmapBytes ≤ d.size) :
    (d.setBit n val).bit i = if i = n then decide (val = 1) else d.bit i := by
  rw [Disk.bit, bitmapByte_setBit val i hn hd, byte_setBit]
  by_cases hi : i / 8 = n / 8
  · -- the same byte: bits of one byte are told apart by the position in it
    have hsame : i % 8 = n % 8 ↔ i = n := by omega
    rw [if_pos (by rw [Disk.bitmapByte, hi, Disk.bitmapByte]), testBit_setIthBit _ _ (by omega) (by omega), Disk.bit]
    simp only [hsame]
  · have hne : ¬ i = n := fun h => hi (by rw [h])
    rw [if_neg (by simp only [Disk.bitmapByte]; omega), if_neg hne, Disk.bit]

/-- Where the bitmap has a bit for the block, marking it is writing the bit. -/
theorem mark_eq {n : Nat} (stack : UInt8) (hn : n < bitmapBits) (hd : bitmapBytes ≤ d.size) :
    d.mark stack n = d.setBit n 1 := if_pos (bitmapByte_lt hn hd)

theorem size_mark {stack : UInt8} {n : Nat} (hn : n < bitmapBits) (hd : bitmapBytes ≤ d.size) :
    (d.mark stack n).size = d.size := by
  rw [mark_eq stack hn hd, size_setBit 1 hn hd]

/-- Marking a block leaves the blocks in front of the bitmap as they are. -/
theorem block_mark {stack : UInt8} {n b i : Nat} (hn : n < bitmapBits) (h : blockSize * (b + 1) + bitmapBytes ≤ d.size)
    (hi : i < blockSize) : (d.mark stack n).block b i = d.block b i := by
  have hd : bitmapBytes ≤ d.size := by omega
  rw [mark_eq stack hn hd]
  refine byte_setBit_outside hn hd (.inl ?_)
  simp only [blockSize] at h hi ⊢
  omega

theorem bit_mark {stack : UInt8} {n i : Nat} (hn : n < bitmapBits) (hd : bitmapBytes ≤ d.size) :
    (d.mark stack n).bit i = (decide (i = n) || d.bit i) := by
  rw [mark_eq stack hn hd, bit_setBit hn hd]
  by_cases hi : i = n
  · simp [hi]
  · simp [hi]

/-! ## Accesses -/

theorem serve_of_yields {α : Type} {p : Req α} {a : α} {v' : Volume} (h : machine.Yields p v a v') : serve p v = (a, v') :=
  Prod.ext (h.run_eq 0).1 (h.run_eq 0).2

theorem readBlock_yields (b : Nat) (v : Volume) : machine.Yields (readBlock b) v (blockOnly (v.disk.block b)) v := by
  refine .perform fun pos => ?_
  simp only [machine, exec, seekSet, if_pos (Int.natCast_nonneg b), Int.toNat_natCast]
  exact ⟨_, rfl⟩

theorem onHeap_blockOnly (heap m : Mem) : onHeap heap (blockOnly m) = onHeap heap m := by
  funext i
  unfold onHeap blockOnly
  split <;> rfl

theorem openBlock_yields (heap : Mem) (b : Nat) (v : Volume) :
    machine.Yields (openBlock heap b) v (onHeap heap (v.disk.block b)) v := by
  rw [← onHeap_blockOnly]
  exact (readBlock_yields b v).bind (.pure _ _)

/-- The same from any position, for any index. -/
theorem openBlock_run (heap : Mem) (index : Int) (pos : Nat) (v : Volume) :
    machine.run (openBlock heap index) pos v = (onHeap heap (shift v.disk.byte (seekSet index pos)),
      max (seekSet index pos) (min (seekSet index pos + blockSize) v.disk.size), v) := by
  rw [← onHeap_blockOnly]
  rfl

theorem writeBlock_yields (b : Nat) (block : Mem) (v : Volume) :
    machine.Yields (writeBlock b block) v () { v with disk := v.disk.writeBlock b block } := by
  refine .perform fun pos => ?_
  simp only [machine, exec, seekSet, if_pos (Int.natCast_nonneg b), Int.toNat_natCast]
  exact ⟨_, rfl⟩

theorem loadCursor_yields (v : Volume) : machine.Yields loadCursor v v.cursor v := .perform fun pos => ⟨pos, rfl⟩

theorem seekEnd_bitmapPosition (n pos : Nat) (hd : bitmapBytes ≤ d.size) :
    seekEnd d (bitmapPosition n) pos = d.bitmapByte n := by
  have hdiv : (n : Int).tdiv 8 = (n / 8 : Nat) := rfl
  simp only [seekEnd, bitmapPosition, Disk.bitmapByte, hdiv, bitmapBytes, blockSize, bitmapSizeInBlocks] at hd ⊢
  rw [if_pos (by omega)]
  omega

/-- Where the stream is after the byte with the bit of a block was read. -/
def Disk.behindByte (d : Disk) (n : Nat) : Nat := if d.bitmapByte n < d.size then d.bitmapByte n + 1 else d.bitmapByte n

/-- The byte with the bit of a block, where the bitmap has one. -/
theorem readByte_run (n pos : Nat) (hd : bitmapBytes ≤ v.disk.size) :
    machine.run (readByte (bitmapPosition n)) pos v =
      (if v.disk.bitmapByte n < v.disk.size then some (v.disk.byte (v.disk.bitmapByte n)) else none,
        v.disk.behindByte n, v) := by
  simp only [readByte, Prog.perform, Machine.run, machine, exec, seekEnd_bitmapPosition n pos hd, Disk.behindByte]
  split <;> rfl

theorem bitmapByte_lt_iff (n : Nat) (hd : bitmapBytes ≤ d.size) : d.bitmapByte n < d.size ↔ n < bitmapBits := by
  simp only [Disk.bitmapByte, bitmapBits, bitmapBytes] at hd ⊢
  omega

theorem setBitmap_run (stack : UInt8) (n pos : Nat) (hd : bitmapBytes ≤ v.disk.size) :
    machine.run (setBitmap stack n 1) pos v =
      (-1, v.disk.behindByte n - 1 + 1, { v with disk := v.disk.mark stack n }) := by
  have hmod : (n : Int).tmod 8 = (n % 8 : Nat) := rfl
  rw [setBitmap, Machine.run_bind, readByte_run n pos hd, hmod, Disk.mark, Disk.behindByte]
  split <;> rfl

theorem setBitmap_yields (stack : UInt8) (n : Nat) (hd : bitmapBytes ≤ v.disk.size) :
    machine.Yields (setBitmap stack n 1) v (-1) { v with disk := v.disk.mark stack n } := fun pos =>
  ⟨_, setBitmap_run stack n pos hd⟩

/-! ## The allocator -/

/-- The index that an access hands out. -/
def handedOut : Op → Option Int
  | .storeCursor i => some i
  | _ => none

/-- The search of the allocator from the state `v` finds block `n`: it hands out that one index, before that it
changes nothing, and it leaves the stream behind the byte with the bit of the block. -/
structure Finds (p : Req Int) (pos : Nat) (v : Volume) (n : Nat) : Prop where
  run : machine.run p pos v = ((n : Int), v.disk.behindByte n, { v with cursor := n })
  handed : (machine.trace p pos v).filterMap (fun x => handedOut x.1) = [(n : Int)]
  states : ∀ x ∈ machine.trace p pos v, x.2.2 = v ∨ x.2.2 = { v with cursor := n }
  stores : ∃ pos', (Op.storeCursor n, pos', v) ∈ machine.trace p pos v

/-- An access in front that neither changes nor hands out anything. -/
theorem Finds.cons {op : Op} {k : Res op → Req Int} {pos n : Nat} (hstate : (exec op pos v).2.2 = v)
    (hop : handedOut op = none) (h : Finds (k (exec op pos v).1) (exec op pos v).2.1 v n) :
    Finds (Prog.perform op >>= k) pos v n := by
  have hrun : machine.run (Prog.perform op >>= k) pos v = machine.run (k (exec op pos v).1) (exec op pos v).2.1 v := by
    rw [Machine.run_bind]
    change machine.run (k (exec op pos v).1) (exec op pos v).2.1 (exec op pos v).2.2 = _
    rw [hstate]
  have htrace : machine.trace (Prog.perform op >>= k) pos v =
      (op, pos, v) :: machine.trace (k (exec op pos v).1) (exec op pos v).2.1 v := by
    rw [Machine.trace_bind]
    change (op, pos, v) :: machine.trace (k (exec op pos v).1) (exec op pos v).2.1 (exec op pos v).2.2 = _
    rw [hstate]
  refine ⟨hrun.trans h.run, ?_, ?_, ?_⟩
  · simp only [htrace, List.filterMap_cons, hop]
    exact h.handed
  · rw [htrace]
    intro x hx
    rcases List.mem_cons.1 hx with rfl | hx
    · exact .inl rfl
    · exact h.states x hx
  · obtain ⟨pos', hstore⟩ := h.stores
    rw [htrace]
    exact ⟨pos', List.mem_cons_of_mem _ hstore⟩

/-- The loop passes over taken blocks and returns the first one that is not. -/
theorem findFrom_finds (hd : bitmapBytes ≤ v.disk.size) : ∀ (turns i n pos : Nat), i ≤ n → n < i + turns →
    (∀ j, i ≤ j → j < n → v.disk.taken j = true) → v.disk.taken n = false → Finds (findFrom turns i) pos v n
  | 0, i, n, _, hin, hturns, _, _ => by omega
  | turns + 1, i, n, pos, hin, hturns, hbefore, hn => by
    have hmod : (i : Int).tmod 8 = (i % 8 : Nat) := rfl
    have hbit : getIthBit ((if v.disk.bitmapByte i < v.disk.size then some (v.disk.byte (v.disk.bitmapByte i))
        else none).getD 0) ((i : Int).tmod 8) = 0 ↔ v.disk.taken i = false := by
      rw [hmod, getIthBit_eq_zero (by omega)]
      by_cases hi : i < bitmapBits
      · simp [Disk.taken, hi, (bitmapByte_lt_iff i hd).2 hi, Disk.bit]
      · simp [Disk.taken, hi, bitmapByte_lt_iff i hd]
    have hread : exec (.readByte (bitmapPosition i)) pos v = _ := readByte_run i pos hd
    refine Finds.cons (by rw [hread]) rfl ?_
    rw [hread]
    dsimp only
    by_cases heq : i = n
    · subst heq
      rw [if_pos (hbit.2 hn)]
      exact ⟨rfl, rfl, by simp [storeCursor, loadCursor, Prog.perform, bind, Prog.bind, Machine.trace, machine, exec],
        _, List.mem_cons_self ..⟩
    · rw [if_neg fun h0 => by simp [hbefore i (le_refl i) (by omega)] at hbit; exact hbit h0]
      have ih := findFrom_finds hd turns (i + 1) n (v.disk.behindByte i) (by omega) (by omega)
        (fun j hj => hbefore j (by omega)) hn
      exact_mod_cast ih

theorem findFrom_yields (hd : bitmapBytes ≤ v.disk.size) (turns i n : Nat) (hin : i ≤ n) (hturns : n < i + turns)
    (hbefore : ∀ j, i ≤ j → j < n → v.disk.taken j = true) (hn : v.disk.taken n = false) :
    machine.Yields (findFrom turns i) v n { v with cursor := n } := fun pos =>
  ⟨_, (findFrom_finds hd turns i n pos hin hturns hbefore hn).run⟩

/-- The allocator returns the first block from the cursor on that is not taken, and leaves the cursor
there. -/
theorem findNextFreeBlockIndex_yields {c n : Nat} (hd : bitmapBytes ≤ v.disk.size) (hc : v.cursor = c) (hcn : c ≤ n)
    (hn : (n : Int) < totalBlocks) (hbefore : ∀ j, c ≤ j → j < n → v.disk.taken j = true)
    (hfree : v.disk.taken n = false) :
    machine.Yields findNextFreeBlockIndex v n { v with cursor := n } := by
  have hlt : (n : Int) < 1048573 := hn
  refine (loadCursor_yields v).bind ?_
  have hint : v.cursor.bmod (2 ^ 32) = (c : Int) := by
    rw [hc]
    exact bmod_natCast_of_lt (by omega)
  simp only [hint]
  exact findFrom_yields hd _ c n hcn (by simp only [totalBlocks]; omega) hbefore hfree

/-! ## The cursor -/

/-- The cursor is at `c` or behind it, and in front of the end of the allocator's loop. -/
def Past (c : Nat) (v : Volume) : Prop := (c : Int) ≤ v.cursor ∧ v.cursor < totalBlocks

section Past

variable {c : Nat}

theorem past_openBlock (heap : Mem) (index : Int) : machine.Maintains (Past c) (openBlock heap index) :=
  .bind (.perform fun _ _ hv => hv) fun _ => .pure _

theorem past_writeBlock (index : Int) (block : Mem) : machine.Maintains (Past c) (writeBlock index block) :=
  .perform fun _ _ hv => hv

theorem past_setBitmap (stack : UInt8) (index : Int) (isTaken : Nat) :
    machine.Maintains (Past c) (setBitmap stack index isTaken) := by
  refine .bind (.perform fun pos v hv => ?_) fun _ => .bind (.perform fun _ _ hv => hv) fun _ => .pure _
  simp only [machine, exec]
  split <;> exact hv

theorem past_findFrom : ∀ (turns : Nat) (i : Int), c ≤ i → i + turns ≤ totalBlocks →
    machine.Maintains (Past c) (findFrom turns i)
  | 0, _, _, _ => .pure _
  | turns + 1, i, hi, hturns => by
    refine .bind (.perform fun pos v hv => ?_) fun byte => ?_
    · simp only [machine, exec]
      split <;> exact hv
    · split
      · exact .bind (.perform fun _ _ _ => ⟨hi, show i < totalBlocks by omega⟩) fun _ => .perform fun _ _ hv => hv
      · exact past_findFrom turns (i + 1) (by omega) (by omega)

/-- The allocator does not move the cursor back. -/
theorem past_findNextFreeBlockIndex : machine.Maintains (Past c) findNextFreeBlockIndex := by
  intro pos v hv
  have hend : totalBlocks = 1048573 := rfl
  have hint : v.cursor.bmod (2 ^ 32) = v.cursor := by
    obtain ⟨n, hn⟩ := Int.eq_ofNat_of_zero_le (show 0 ≤ v.cursor by have := hv.1; omega)
    have hlt := hv.2
    rw [hn] at hlt ⊢
    exact bmod_natCast_of_lt (by omega)
  refine (loadCursor_yields v).becomes.maintains ?_ hv pos
  dsimp only
  rw [hint]
  exact past_findFrom _ _ hv.1 (by have := hv.2; omega)

end Past

end CS1550.Fs
