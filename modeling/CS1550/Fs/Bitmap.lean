/-
The bitmap as its reader and its writer see it. `find_next_free_block_index` and `set_bitmap` compute the byte and
the position in it each for itself, and the writer goes back by one byte before it writes. The bit that the one
tests is the bit that the other has set, for every pair of indices, and the rest of the image is left alone
(`bitmap_consistent`).
-/
import CS1550.Fs.Blocks

namespace CS1550.Fs

open Bytes

variable {d : Disk} {v : Volume} {i j : Nat}

/-- The bit that `find_next_free_block_index` tests for an index. -/
def testedBit (i : Int) : Req Nat := do
  let byte ← readByte (bitmapPosition i)
  pure (getIthBit (byte.getD 0) (i.tmod 8))

/-- A turn of the allocator's loop is a test of the bit. -/
theorem findFrom_succ (turns : Nat) (i : Int) : findFrom (turns + 1) i = (do
    let bit ← testedBit i
    if bit = 0 then do
      storeCursor i
      loadCursor
    else findFrom turns (i + 1)) := rfl

theorem testedBit_yields (hj : j < bitmapBits) (hd : bitmapBytes ≤ v.disk.size) :
    machine.Yields (testedBit j) v (v.disk.bit j).toNat v := by
  have hmod : (j : Int).tmod 8 = (j % 8 : Nat) := rfl
  have hread : machine.Yields (readByte (bitmapPosition j)) v (some (v.disk.byte (v.disk.bitmapByte j))) v := by
    intro pos
    rw [readByte_run j pos hd, if_pos (bitmapByte_lt hj hd)]
    exact ⟨_, rfl⟩
  rw [Disk.bit, ← getIthBit_eq _ (by omega), ← hmod]
  exact hread.bind (.pure _ _)

theorem setBitmap_setBit (stack : UInt8) (val : Nat) (hi : i < bitmapBits) (hd : bitmapBytes ≤ v.disk.size) :
    machine.Yields (setBitmap stack i val) v (-1) { v with disk := v.disk.setBit i val } := by
  intro pos
  have hmod : (i : Int).tmod 8 = (i % 8 : Nat) := rfl
  have hlt := bitmapByte_lt hi hd
  rw [setBitmap, Machine.run_bind, readByte_run i pos hd, hmod, Disk.behindByte, if_pos hlt, if_pos hlt]
  exact ⟨_, rfl⟩

/-! ## Two bits -/

theorem setIthBit_comm (byte : UInt8) (a b : Nat) {n k : Nat} (hn : n < 8) (hk : k < 8) (hne : n ≠ k) :
    setIthBit (setIthBit byte n a) k b = setIthBit (setIthBit byte k b) n a := by
  refine UInt8.toNat_inj.1 (Nat.eq_of_testBit_eq fun p => ?_)
  by_cases hp : p < 8
  · obtain ⟨q, hq, rfl⟩ : ∃ q < 8, p = 7 - q := ⟨7 - p, by omega, by omega⟩
    simp only [testBit_setIthBit _ _ hn hq, testBit_setIthBit _ _ hk hq]
    split_ifs <;> first | rfl | omega
  · have hhigh : ∀ x : UInt8, x.toNat.testBit p = false := fun x =>
      Nat.testBit_lt_two_pow (x.toNat_lt.trans_le (Nat.pow_le_pow_right (by decide) (by omega)))
    rw [hhigh, hhigh]

theorem setBit_comm (a b : Nat) (hi : i < bitmapBits) (hj : j < bitmapBits) (hd : bitmapBytes ≤ d.size) (hne : i ≠ j) :
    (d.setBit i a).setBit j b = (d.setBit j b).setBit i a := by
  have hsi := size_setBit a hi hd
  have hsj := size_setBit b hj hd
  refine Disk.ext ?_ (funext fun k => ?_)
  · rw [size_setBit b hj (hsi ▸ hd), hsi, size_setBit a hi (hsj ▸ hd), hsj]
  · simp only [byte_setBit, bitmapByte_setBit a j hi hd, bitmapByte_setBit b i hj hd]
    by_cases hki : k = d.bitmapByte i
    · by_cases hkj : k = d.bitmapByte j
      · -- two bits of one byte
        have hpos : i % 8 ≠ j % 8 := by
          simp only [Disk.bitmapByte] at hki hkj
          omega
        simp only [if_pos hki, if_pos hkj]
        exact setIthBit_comm _ a b (by omega) (by omega) hpos
      · simp only [if_pos hki, if_neg hkj]
    · simp only [if_neg hki]

/-- Reader and writer of the bitmap agree: on an image of at least the three blocks of the bitmap, from any position
of the stream, `set_bitmap` of index `i` makes the bit that is tested for `i` the value that was given, leaves
the bits that are tested for the other indices and every byte outside of the bitmap, and calls for two indices
may be swapped. -/
theorem bitmap_consistent (v : Volume) (hd : blockSize * bitmapSizeInBlocks ≤ v.disk.size) (stack : UInt8) (i j val : Nat)
    (hi : i < 8 * 512 * bitmapSizeInBlocks) (hj : j < 8 * 512 * bitmapSizeInBlocks) (hval : val ≤ 1) :
    ∃ d, machine.Yields (setBitmap stack i val) v (-1) { v with disk := d } ∧
      (∃ bit, machine.Yields (testedBit j) v bit v ∧
        machine.Yields (testedBit j) { v with disk := d } (if j = i then val else bit) { v with disk := d }) ∧
      d.size = v.disk.size ∧
      (∀ k, k < v.disk.size - blockSize * bitmapSizeInBlocks ∨ v.disk.size ≤ k → d.byte k = v.disk.byte k) ∧
      (i ≠ j → ∀ stack' val', val' ≤ 1 → ∃ d',
        machine.Yields (do let _ ← setBitmap stack i val; setBitmap stack' j val') v (-1) { v with disk := d' } ∧
        machine.Yields (do let _ ← setBitmap stack' j val'; setBitmap stack i val) v (-1) { v with disk := d' }) := by
  have hsize := size_setBit (d := v.disk) val hi hd
  have hd' : bitmapBytes ≤ (v.disk.setBit i val).size := by rw [hsize]; exact hd
  refine ⟨v.disk.setBit i val, setBitmap_setBit stack val hi hd, ⟨_, testedBit_yields hj hd, ?_⟩, hsize,
    fun k hk => byte_setBit_outside hi hd hk, fun hne stack' val' _ => ⟨(v.disk.setBit i val).setBit j val', ?_, ?_⟩⟩
  · have hbit : (if j = i then val else (v.disk.bit j).toNat) = ((v.disk.setBit i val).bit j).toNat := by
      rw [bit_setBit hi hd]
      by_cases hji : j = i
      · rw [if_pos hji, if_pos hji]
        obtain rfl | rfl : val = 0 ∨ val = 1 := by omega
        · rfl
        · rfl
      · rw [if_neg hji, if_neg hji]
    rw [hbit]
    exact testedBit_yields (v := { v with disk := v.disk.setBit i val }) hj hd'
  · exact (setBitmap_setBit stack val hi hd).bind
      (setBitmap_setBit (v := { v with disk := v.disk.setBit i val }) stack' val' hj hd')
  · rw [setBit_comm val val' hi hj hd hne]
    have hdj : bitmapBytes ≤ (v.disk.setBit j val').size := by rw [size_setBit val' hj hd]; exact hd
    exact (setBitmap_setBit stack' val' hj hd).bind
      (setBitmap_setBit (v := { v with disk := v.disk.setBit j val' }) stack val hi hdj)

/-- Two neighbours in the first byte of the bitmap: setting one leaves the other. -/
theorem bitmap_consistent_neighbours : ∃ v : Volume, v.disk.size = 1536 ∧
    machine.Yields (testedBit (1 : Nat)) v 0 v ∧
    ∃ d, machine.Yields (setBitmap 0 (0 : Nat) 1) v (-1) { v with disk := d } ∧
      machine.Yields (testedBit (1 : Nat)) { v with disk := d } 0 { v with disk := d } := by
  let v : Volume := ⟨⟨1536, fun _ => 0, fun _ _ => rfl⟩, 1⟩
  have hbit : (v.disk.bit 1).toNat = 0 := by decide
  have hzero : machine.Yields (testedBit (1 : Nat)) v 0 v := hbit ▸ testedBit_yields (v := v) (by decide) (by decide)
  obtain ⟨d, hset, ⟨bit, hbefore, hafter⟩, -⟩ :=
    bitmap_consistent v (by decide) 0 0 1 1 (by decide) (by decide) (by decide)
  obtain rfl : bit = 0 := (hbefore.run_eq 0).1.symm.trans (hzero.run_eq 0).1
  exact ⟨v, rfl, hzero, d, hset, hafter⟩

end CS1550.Fs
