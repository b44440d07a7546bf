/-
A register of `w + 1` bits that is shifted to the right, with a new bit coming in at the top each time. It starts
with its top bit set. After `m` shifts it holds the last `w + 1` of the bits that came in, the latest one on top,
and the start bit as long as that has not been shifted out (`after_eq`).
-/
import Mathlib.Algebra.BigOperators.Group.Finset.Basic
import Mathlib.Algebra.BigOperators.Ring.Finset
import Mathlib.Data.Nat.Bitwise

namespace CS1550.ShiftRegister

/-- One shift, with `b` coming in at the top. -/
def shiftIn (w x : ℕ) (b : Bool) : ℕ := if b then x >>> 1 ||| 2 ^ w else x >>> 1

/-- The register after `m` shifts; `b q` comes in at shift `q`. -/
def after (w : ℕ) (b : ℕ → Bool) : ℕ → ℕ
  | 0 => 2 ^ w
  | m + 1 => shiftIn w (after w b m) (b m)

variable {w x m : ℕ} {b b' : ℕ → Bool}

/-- What comes in is added: the shift has freed the top bit. -/
theorem shiftIn_eq (hx : x < 2 ^ (w + 1)) (c : Bool) : shiftIn w x c = x / 2 + c.toNat * 2 ^ w := by
  have hlt : x / 2 < 2 ^ w := by
    rw [Nat.pow_succ] at hx
    omega
  unfold shiftIn
  cases c with
  | false => simp [Nat.shiftRight_eq_div_pow]
  | true =>
    have hor := Nat.two_pow_add_eq_or_of_lt hlt 1
    rw [Nat.mul_one, Nat.or_comm] at hor
    rw [if_pos rfl, Nat.shiftRight_eq_div_pow, Nat.pow_one, ← hor, Bool.toNat_true]
    omega

theorem after_lt (w : ℕ) (b : ℕ → Bool) : ∀ m, after w b m < 2 ^ (w + 1)
  | 0 => Nat.pow_lt_pow_right (by decide) (Nat.lt_succ_self w)
  | m + 1 => by
    have hm := after_lt w b m
    rw [after, shiftIn_eq hm]
    rw [Nat.pow_succ] at hm ⊢
    cases b m with
    | false => simp; omega
    | true => simp; omega

/-- Only the bits that have come in matter. -/
theorem after_congr (h : ∀ q < m, b q = b' q) : after w b m = after w b' m := by
  induction m with
  | zero => rfl
  | succ m ih => rw [after, after, ih fun q hq => h q (by omega), h m (Nat.lt_succ_self m)]

/-- Bits above the lowest place are twice what they are one place further down. -/
theorem sum_down (c : ℕ → ℕ) {k : ℕ} (hk : k ≤ w) :
    ∑ j ∈ Finset.range k, c j * 2 ^ (w - j) = 2 * ∑ j ∈ Finset.range k, c j * 2 ^ (w - (j + 1)) := by
  rw [Finset.mul_sum]
  refine Finset.sum_congr rfl fun j hj => ?_
  have hlt := Finset.mem_range.1 hj
  rw [show w - j = w - (j + 1) + 1 by omega, Nat.pow_succ, Nat.mul_comm _ 2, Nat.mul_left_comm]

/-- The bits of the register, from the top: those that came in last, and the start bit behind them. -/
theorem after_eq (w : ℕ) (b : ℕ → Bool) (m : ℕ) :
    after w b m = 2 ^ w >>> m + ∑ j ∈ Finset.range (min m (w + 1)), (b (m - j - 1)).toNat * 2 ^ (w - j) := by
  induction m with
  | zero => simp [after]
  | succ m ih =>
    -- what was there before the shift, one place further down
    have hdown : after w b m / 2 =
        2 ^ w >>> (m + 1) + ∑ j ∈ Finset.range (min m w), (b (m - j - 1)).toNat * 2 ^ (w - (j + 1)) := by
      rw [ih, Nat.shiftRight_succ]
      rcases Nat.lt_or_ge w m with hwm | hwm
      · -- the lowest bit drops out
        have hzero : 2 ^ w >>> m = 0 := by
          rw [Nat.shiftRight_eq_div_pow]
          exact Nat.div_eq_of_lt (Nat.pow_lt_pow_right (by decide) hwm)
        have hbit := Bool.toNat_le (b (m - w - 1))
        rw [Nat.min_eq_right (by omega), Nat.min_eq_right hwm.le, Finset.sum_range_succ, sum_down _ (le_refl w), hzero,
          Nat.sub_self, Nat.pow_zero]
        omega
      · rw [Nat.min_eq_left (by omega), Nat.min_eq_left hwm, sum_down _ hwm]
        omega
    rw [after, shiftIn_eq (after_lt w b m), hdown, Nat.add_min_add_right, Finset.sum_range_succ', Nat.add_assoc]
    congr 2
    refine Finset.sum_congr rfl fun j _ => ?_
    rw [show m + 1 - (j + 1) - 1 = m - j - 1 by omega]

end CS1550.ShiftRegister
