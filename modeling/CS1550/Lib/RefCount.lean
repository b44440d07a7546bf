/-
Reference counting: things with a counter each, and holders that have references to them. The counters are right when
each of them is the number of references that all holders have to the thing together (`Counts`).
-/
import Mathlib.Algebra.BigOperators.Fin
import Mathlib.Algebra.Order.BigOperators.Group.Finset

namespace CS1550.RefCount

variable {ι X : Type} [Fintype ι]

theorem sum_update [DecidableEq ι] (own : ι → ℕ) (i : ι) (c : ℕ) :
    ∑ j, Function.update own i c j + own i = ∑ j, own j + c := by
  rw [Finset.sum_update_of_mem (Finset.mem_univ i), Finset.sdiff_singleton_eq_erase,
    ← Finset.add_sum_erase _ own (Finset.mem_univ i)]
  omega

/-- The counters `ref` are right, where `own i x` is the number of references that `i` has to `x`. -/
def Counts (ref : X → ℤ) (own : ι → X → ℕ) : Prop := ∀ x, ref x = (∑ i, own i x : ℕ)

variable {ref ref' : X → ℤ} {own : ι → X → ℕ} {i j : ι} {x : X}

theorem counts_zero (href : ∀ x, ref x = 0) (hown : ∀ i x, own i x = 0) : Counts ref own := by
  intro x
  rw [href x, Finset.sum_eq_zero fun i _ => hown i x, Nat.cast_zero]

/-- One holder gets and gives up references. -/
theorem Counts.update [DecidableEq ι] (h : Counts ref own) (ref' : X → ℤ) (i : ι) (c : X → ℕ)
    (hc : ∀ x, ref' x + own i x = ref x + c x) :
    Counts ref' (Function.update own i c) := by
  intro x
  have hsum := sum_update (fun j => own j x) i (c x)
  have happly : (fun j => Function.update own i c j x) = Function.update (fun j => own j x) i (c x) := by
    funext j
    by_cases hj : j = i
    · subst hj
      rw [Function.update_self, Function.update_self]
    · rw [Function.update_of_ne hj, Function.update_of_ne hj]
  have hx := h x
  have hcx := hc x
  rw [← happly] at hsum
  dsimp only at hsum
  omega

/-- One holder hands references to another one. -/
theorem Counts.transfer [DecidableEq ι] (h : Counts ref own) (hij : j ≠ i) (c d : X → ℕ)
    (hcd : ∀ x, c x + d x = own i x + own j x) : Counts ref (Function.update (Function.update own i c) j d) := by
  refine (h.update (fun x => ref x + c x - own i x) i c fun x => by omega).update ref j d fun x => ?_
  have hx := hcd x
  rw [Function.update_of_ne hij]
  omega

theorem Counts.nonneg (h : Counts ref own) (x : X) : 0 ≤ ref x := by
  rw [h x]
  exact Int.natCast_nonneg _

theorem Counts.le (h : Counts ref own) (i : ι) (x : X) : (own i x : ℤ) ≤ ref x := by
  rw [h x]
  exact_mod_cast Finset.single_le_sum (f := fun j => own j x) (fun _ _ => Nat.zero_le _) (Finset.mem_univ i)

theorem Counts.le_two [DecidableEq ι] (h : Counts ref own) (hij : i ≠ j) (x : X) : (own i x : ℤ) + own j x ≤ ref x := by
  have hle := Finset.sum_le_sum_of_subset (f := fun k => own k x) (Finset.subset_univ ({i, j} : Finset ι))
  rw [Finset.sum_pair hij] at hle
  rw [h x]
  exact_mod_cast hle

/-- A thing that is counted has a holder. -/
theorem Counts.exists_own (h : Counts ref own) (hx : 0 < ref x) : ∃ i, 0 < own i x := by
  by_contra hnone
  push Not at hnone
  have hzero : ∑ i, own i x = 0 := Finset.sum_eq_zero fun i _ => Nat.le_zero.1 (hnone i)
  rw [h x, hzero] at hx
  exact absurd hx (lt_irrefl _)

end CS1550.RefCount
