/-
The range of `find_next_free_block_index`. The loop is bounded by `TOTAL_BLOCKS`, which is far behind the
end of the disk, and behind the end of the bitmap nothing is read and every block looks free. So it
returns what an allocator should return if and only if there is a free block between the cursor and the
bitmap, or its loop has nothing to search (`allocates_iff`).
-/
import CS1550.Fs.Runs

namespace CS1550.Fs

variable {N : Nat} {v : Volume} {d : Disk}

/-- Block `b` is free, at the cursor or behind it, and in front of the bitmap. -/
def Volume.Free (v : Volume) (N b : Nat) : Prop :=
  v.cursor ≤ b ∧ b + bitmapSizeInBlocks < N ∧ v.disk.bit b = false

/-- What an allocator should return: the first free block from the cursor on, or -1 if there is none. -/
def Allocates (N : Nat) (v : Volume) (r : Int) : Prop :=
  (∃ b : Nat, r = b ∧ v.Free N b ∧ ∀ j : Nat, v.cursor ≤ j → j < b → v.disk.bit j = true) ∨
    r = -1 ∧ ∀ b, ¬ v.Free N b

/-- The `int` that the loop starts with. -/
def Volume.start (v : Volume) : Int := v.cursor.bmod (2 ^ 32)

theorem start_of_lt {c : Nat} (hc : v.cursor = c) (hlt : c < 2 ^ 31) : v.start = c := by
  rw [Volume.start, hc]
  exact Bytes.bmod_natCast_of_lt (by omega)

/-- Behind the bitmap every block looks free, so a search comes to an end. -/
theorem exists_first_free (d : Disk) (c : Nat) :
    ∃ n, c ≤ n ∧ n ≤ max c bitmapBits ∧ d.taken n = false ∧ ∀ j, c ≤ j → j < n → d.taken j = true := by
  have hend : c ≤ max c bitmapBits ∧ d.taken (max c bitmapBits) = false := by
    refine ⟨le_max_left _ _, ?_⟩
    rw [Disk.taken, decide_eq_false (by omega), Bool.false_and]
  have hex : ∃ n, c ≤ n ∧ d.taken n = false := ⟨_, hend⟩
  classical
  refine ⟨Nat.find hex, (Nat.find_spec hex).1, Nat.find_min' hex hend, (Nat.find_spec hex).2, fun j hj hlt => ?_⟩
  by_contra hfree
  exact Nat.find_min hex hlt ⟨hj, Bool.eq_false_of_not_eq_true hfree⟩

/-! ## A cursor that is not negative as an `int` -/

/-- The search finds the first block from the cursor on that is not marked. -/
theorem find_of_start {c : Nat} (hd : bitmapBytes ≤ v.disk.size) (hc : v.start = c) (hlt : (c : Int) < totalBlocks) :
    ∃ n : Nat, machine.Yields findNextFreeBlockIndex v n { v with cursor := n } ∧ c ≤ n ∧ v.disk.taken n = false ∧
      ∀ j, c ≤ j → j < n → v.disk.taken j = true := by
  obtain ⟨n, hcn, hn, hfree, hbefore⟩ := exists_first_free v.disk c
  have hbits : bitmapBits = 12288 := rfl
  have hend : totalBlocks = 1048573 := rfl
  refine ⟨n, (loadCursor_yields v).bind ?_, hcn, hfree, hbefore⟩
  simp only [show v.cursor.bmod (2 ^ 32) = (c : Int) from hc]
  exact findFrom_yields hd _ c n hcn (by omega) hbefore hfree

theorem find_of_start_ge (hc : totalBlocks ≤ v.start) : (serve findNextFreeBlockIndex v).1 = -1 := by
  have hy : machine.Yields findNextFreeBlockIndex v (-1) v := by
    refine (loadCursor_yields v).bind ?_
    have hturns : (totalBlocks - v.cursor.bmod (2 ^ 32)).toNat = 0 := by
      change totalBlocks ≤ v.cursor.bmod (2 ^ 32) at hc
      omega
    simp only [hturns]
    exact .pure _ _
  rw [serve_of_yields hy]

/-! ## A cursor that is negative as an `int` -/

theorem tmod_of_neg {i : Int} (hi : i ≤ 0) : i.tmod 8 = -(-i % 8) := by
  rw [← Int.tmod_eq_emod_of_nonneg (by omega), Int.neg_tmod, Int.neg_neg]

/-- The shift is then past the byte. -/
theorem getIthBit_of_neg (byte : UInt8) {position : Int} (h : position < 0) : getIthBit byte position = 0 := by
  have hshift : byte.toNat >>> (8 - position - 1).toNat = 0 := by
    rw [Nat.shiftRight_eq_div_pow]
    refine Nat.div_eq_of_lt (lt_of_lt_of_le byte.toNat_lt ?_)
    exact Nat.pow_le_pow_right (by decide) (by omega)
  rw [getIthBit, hshift, Nat.zero_and]

/-- The loop ends at the first index that is no multiple of 8. -/
theorem findFrom_of_neg (turns pos : Nat) {i : Int} (hi : i.tmod 8 < 0) :
    (machine.run (findFrom (turns + 1) i) pos v).1 = i := by
  rw [findFrom]
  simp only [Machine.run_bind, readByte]
  rw [if_pos (getIthBit_of_neg _ hi)]
  rfl

theorem find_of_start_neg (hneg : v.start < 0) :
    (serve findNextFreeBlockIndex v).1 = v.start ∨
      (serve findNextFreeBlockIndex v).1 = v.start + 1 ∧ v.start.tmod 8 = 0 := by
  have hend : totalBlocks = 1048573 := rfl
  obtain ⟨turns, hturns⟩ : ∃ turns, (totalBlocks - v.start).toNat = turns + 2 :=
    ⟨(totalBlocks - v.start).toNat - 2, by omega⟩
  have hrun : (serve findNextFreeBlockIndex v).1 = (machine.run (findFrom (turns + 2) v.start) 0 v).1 := by
    rw [← hturns]
    rfl
  rw [hrun]
  have hstart := tmod_of_neg (i := v.start) (by omega)
  by_cases hmod : v.start.tmod 8 < 0
  · exact .inl (findFrom_of_neg _ _ hmod)
  · have hzero : v.start.tmod 8 = 0 := by omega
    have hnext : (v.start + 1).tmod 8 < 0 := by
      rw [tmod_of_neg (by omega)]
      omega
    rw [findFrom]
    simp only [Machine.run_bind]
    split
    · exact .inl rfl
    · exact .inr ⟨findFrom_of_neg _ _ hnext, hzero⟩

/-! ## The range -/

/-- On the disk of 5 MiB the allocator does what it should if and only if there is a free block between
the cursor and the bitmap, or the loop starts at its end or at -1. -/
theorem allocates_iff (hd : v.disk.size = blockSize * 10240) (hc : 1 ≤ v.cursor) :
    Allocates 10240 v (serve findNextFreeBlockIndex v).1 ↔
      (∃ b, v.Free 10240 b) ∨ totalBlocks ≤ v.start ∨ v.start = -1 := by
  have hbits : bitmapBits = 12288 := rfl
  have hend : totalBlocks = 1048573 := rfl
  have hthree : bitmapSizeInBlocks = 3 := rfl
  have hbitmap : bitmapBytes ≤ v.disk.size := by rw [hd]; decide
  have htaken : ∀ j, j < bitmapBits → v.disk.taken j = v.disk.bit j := fun j hj => by
    rw [Disk.taken, decide_eq_true hj, Bool.true_and]
  constructor
  · intro hall
    by_contra hno
    obtain ⟨hfree, hge, hone⟩ : (¬ ∃ b, v.Free 10240 b) ∧ ¬ totalBlocks ≤ v.start ∧ ¬ v.start = -1 := by
      rwa [not_or, not_or] at hno
    rcases hall with ⟨b, -, hb, -⟩ | ⟨hr, -⟩
    · exact hfree ⟨b, hb⟩
    · rcases lt_or_ge v.start 0 with hneg | hpos
      · have hmod := tmod_of_neg (i := v.start) (by omega)
        rcases find_of_start_neg hneg with heq | ⟨heq, hzero⟩
        · omega
        · omega
      · obtain ⟨c, hstart⟩ := Int.eq_ofNat_of_zero_le hpos
        obtain ⟨n, hn, -⟩ := find_of_start hbitmap hstart (by omega)
        rw [serve_of_yields hn] at hr
        omega
  · intro hcond
    by_cases hex : ∃ b, v.Free 10240 b
    · obtain ⟨b, hcb, hb, hbit⟩ := hex
      obtain ⟨c, hcur⟩ := Int.eq_ofNat_of_zero_le (show 0 ≤ v.cursor by omega)
      obtain ⟨n, hn, hcn, hfree, hbefore⟩ := find_of_start hbitmap (start_of_lt hcur (by omega)) (by omega)
      rw [serve_of_yields hn]
      -- the first free block is not behind `b`
      have hnb : n ≤ b := by
        by_contra hlt
        have hmarked := hbefore b (by omega) (by omega)
        rw [htaken b (by omega), hbit] at hmarked
        cases hmarked
      refine .inl ⟨n, rfl, ⟨by omega, by omega, ?_⟩, fun j hj hjn => ?_⟩
      · rw [← htaken n (by omega)]
        exact hfree
      · rw [← htaken j (by omega)]
        exact hbefore j (by omega) hjn
    · refine .inr ⟨?_, fun b hb => hex ⟨b, hb⟩⟩
      rcases hcond with hfree | hge | hone
      · exact absurd hfree hex
      · exact find_of_start_ge hge
      · rcases find_of_start_neg (v := v) (by omega) with heq | ⟨-, hmod⟩
        · rw [heq, hone]
        · rw [hone] at hmod
          cases hmod

theorem allocates_zeroed : (zeroed 10240).Free 10240 1 ∧ Allocates 10240 (zeroed 10240)
    (serve findNextFreeBlockIndex (zeroed 10240)).1 := by
  have hfree : (zeroed 10240).Free 10240 1 := ⟨by decide, by decide, by decide +kernel⟩
  exact ⟨hfree, (allocates_iff rfl (by decide)).2 (.inl ⟨1, hfree⟩)⟩

/-- With the cursor behind the last data block the first block of the bitmap is handed out. -/
theorem bitmap_block_allocated : ∃ v : Volume, v.disk.size = blockSize * 10240 ∧ 1 ≤ v.cursor ∧
    (serve findNextFreeBlockIndex v).1 = 10237 ∧ ¬ Allocates 10240 v (serve findNextFreeBlockIndex v).1 := by
  have hr : (serve findNextFreeBlockIndex { zeroed 10240 with cursor := 10237 }).1 = 10237 := by decide +kernel
  refine ⟨{ zeroed 10240 with cursor := 10237 }, rfl, by decide, hr, ?_⟩
  rw [hr]
  rintro (⟨b, hb, ⟨-, hlt, -⟩, -⟩ | ⟨hone, -⟩)
  · simp only [bitmapSizeInBlocks] at hlt
    omega
  · cases hone

end CS1550.Fs
