/-
A circular buffer of `C` places whose two counters count on for ever, modulo the size of a machine word. As `C` divides
that size, the counters can pass it, and the place of an item is still the rest of its number. The buffer carries that
it holds at most `C` items; what it holds is a list (`items`), `push` appends to it and `pop` takes its first item.
-/
import Mathlib.Data.BitVec
import Mathlib.Logic.Function.Basic
import Mathlib.Tactic.Ring

namespace CS1550

/-- A buffer of `C` slots. The numbers of elements read and written are counters of `b` bits that run on. -/
structure Circular (b C : ℕ) (α : Type) where
  data : ℕ → α
  nread : BitVec b
  nwrite : BitVec b
  dvd : C ∣ 2 ^ b
  lt : C < 2 ^ b
  used_le : (nwrite - nread).toNat ≤ C

namespace Circular

variable {b C : ℕ} {α : Type} (q : Circular b C α)

/-! ## What it holds -/

/-- How many slots are in use. -/
def used : ℕ := (q.nwrite - q.nread).toNat

/-- Everything that was written has been read. -/
def Empty : Prop := q.nread = q.nwrite

/-- The writer is a whole turn in front of the reader. -/
def Full : Prop := q.nwrite = q.nread + BitVec.ofNat b C

instance : Decidable q.Empty := inferInstanceAs (Decidable (_ = _))

instance : Decidable q.Full := inferInstanceAs (Decidable (_ = _))

/-- What is in the buffer, the oldest first. -/
def items : List α := (List.range q.used).map fun i => q.data ((q.nread.toNat + i) % C)

theorem length_items : q.items.length = q.used := by simp [items]

theorem length_items_le : q.items.length ≤ C := by
  rw [length_items]
  exact q.used_le

theorem empty_iff : q.Empty ↔ q.items = [] := by
  rw [← List.length_eq_zero_iff, length_items, used, Empty]
  constructor
  · intro h
    rw [h, BitVec.sub_self]
    rfl
  · intro h
    have hzero : q.nwrite - q.nread = 0#b := BitVec.eq_of_toNat_eq (by simpa using h)
    rw [BitVec.sub_eq_iff_eq_add, BitVec.zero_add] at hzero
    exact hzero.symm

theorem full_iff : q.Full ↔ q.items.length = C := by
  have hC : (BitVec.ofNat b C).toNat = C := by rw [BitVec.toNat_ofNat, Nat.mod_eq_of_lt q.lt]
  rw [length_items, used, Full]
  constructor
  · intro h
    rw [h, BitVec.add_comm, BitVec.add_sub_cancel, hC]
  · intro h
    have hdiff : q.nwrite - q.nread = BitVec.ofNat b C := BitVec.eq_of_toNat_eq (h.trans hC.symm)
    rw [BitVec.sub_eq_iff_eq_add] at hdiff
    rw [hdiff, BitVec.add_comm]

/-- Counting modulo the size of the word does not change the places. -/
theorem toNat_add_mod (hC : C ∣ 2 ^ b) (x y : BitVec b) : (x + y).toNat % C = (x.toNat + y.toNat) % C := by
  rw [BitVec.toNat_add, Nat.mod_mod_of_dvd _ hC]

theorem toNat_succ_mod (hC : C ∣ 2 ^ b) (x : BitVec b) : (x + 1#b).toNat % C = (x.toNat + 1) % C := by
  rw [toNat_add_mod hC, BitVec.toNat_ofNat, Nat.add_mod, Nat.mod_mod_of_dvd _ hC, ← Nat.add_mod]

theorem nwrite_mod : q.nwrite.toNat % C = (q.nread.toNat + q.used) % C := by
  rw [used, ← toNat_add_mod q.dvd, BitVec.add_comm, BitVec.sub_add_cancel]

/-! ## Appending -/

variable {q}

theorem used_lt (h : ¬ q.Full) : q.used < C := by
  have hle := q.length_items_le
  rw [full_iff] at h
  rw [length_items] at h hle
  omega

theorem used_succ (h : ¬ q.Full) : (q.nwrite + 1#b - q.nread).toNat = q.used + 1 := by
  have hroom := used_lt h
  have hlt := q.lt
  have hone : (1#b).toNat = 1 := by rw [BitVec.toNat_ofNat, Nat.mod_eq_of_lt (by omega)]
  rw [show q.nwrite + 1#b - q.nread = q.nwrite - q.nread + 1#b by ring, BitVec.toNat_add, hone]
  exact Nat.mod_eq_of_lt (by unfold used at hroom; omega)

/-- An element written into a buffer that is not full. -/
def push (q : Circular b C α) (x : α) (h : ¬ q.Full) : Circular b C α where
  data := Function.update q.data (q.nwrite.toNat % C) x
  nread := q.nread
  nwrite := q.nwrite + 1#b
  dvd := q.dvd
  lt := q.lt
  used_le := by
    rw [used_succ h]
    exact used_lt h

theorem items_push (x : α) (h : ¬ q.Full) : (q.push x h).items = q.items ++ [x] := by
  have hroom := used_lt h
  have hused : (q.push x h).used = q.used + 1 := used_succ h
  have hdata : (q.push x h).data = Function.update q.data ((q.nread.toNat + q.used) % C) x := by
    rw [← nwrite_mod]
    rfl
  have hread : (q.push x h).nread = q.nread := rfl
  unfold items
  rw [hused, hdata, hread, List.range_succ, List.map_append, List.map_singleton, Function.update_self]
  congr 1
  refine List.map_congr_left fun i hi => Function.update_of_ne (fun heq => ?_) _ _
  rw [List.mem_range] at hi
  have hmod : i % C = q.used % C := Nat.ModEq.add_left_cancel' q.nread.toNat heq
  rw [Nat.mod_eq_of_lt (by omega), Nat.mod_eq_of_lt hroom] at hmod
  omega

/-! ## Taking the first item -/

theorem used_pred (h : ¬ q.Empty) : (q.nwrite - (q.nread + 1#b)).toNat + 1 = q.used := by
  rw [empty_iff, ← List.length_eq_zero_iff, length_items] at h
  have hlt := (q.nwrite - q.nread).isLt
  have hone : (1#b).toNat = 1 := by
    rw [BitVec.toNat_ofNat, Nat.mod_eq_of_lt (by unfold used at h; omega)]
  rw [show q.nwrite - (q.nread + 1#b) = q.nwrite - q.nread - 1#b by ring, BitVec.toNat_sub, hone]
  unfold used at h ⊢
  rw [show 2 ^ b - 1 + (q.nwrite - q.nread).toNat = 2 ^ b + ((q.nwrite - q.nread).toNat - 1) by omega,
    Nat.add_mod_left, Nat.mod_eq_of_lt (by omega)]
  omega

/-- The oldest element. -/
def first (q : Circular b C α) : α := q.data (q.nread.toNat % C)

/-- The oldest element read from a buffer that is not empty. -/
def pop (q : Circular b C α) (h : ¬ q.Empty) : Circular b C α where
  data := q.data
  nread := q.nread + 1#b
  nwrite := q.nwrite
  dvd := q.dvd
  lt := q.lt
  used_le := by
    have hle : q.used ≤ C := q.used_le
    have hpred := used_pred h
    omega

theorem items_pop (h : ¬ q.Empty) : q.items = q.first :: (q.pop h).items := by
  have hused : (q.pop h).used + 1 = q.used := used_pred h
  unfold items
  rw [← hused, List.range_succ_eq_map, List.map_cons, List.map_map]
  congr 1
  refine List.map_congr_left fun i _ => ?_
  show q.data ((q.nread.toNat + (i + 1)) % C) = q.data (((q.nread + 1#b).toNat + i) % C)
  rw [Nat.add_mod (q.nread + 1#b).toNat, toNat_succ_mod q.dvd, ← Nat.add_mod, Nat.add_assoc, Nat.add_comm 1]

end Circular

end CS1550
