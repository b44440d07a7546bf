/-
Items with contents that go from a free list to owners and back. A transfer is what one owner may do at a time:
it takes items from the list or gives some back, and changes the contents of no item but its own and the free
ones. Owners that make nothing but transfers never come to own one item together, and none of them sees a
change in an item of another (`Transfer.kept`).
-/
import Mathlib.Algebra.BigOperators.Fin
import Mathlib.Algebra.Order.Group.Multiset
import Mathlib.Data.Multiset.UnionInter
import Mathlib.Tactic.Abel

namespace CS1550.Region

variable {P β ι : Type}

/-- The owner of the items `A` becomes that of `A'`. Items may get lost. -/
structure Transfer (free : List P) (contents : P → β) (A : Multiset P) (free' : List P) (contents' : P → β)
    (A' : Multiset P) : Prop where
  items : (free' : Multiset P) + A' ≤ free + A
  contents : ∀ p ∉ (free + A : Multiset P), contents' p = contents p

section Transfer

variable {free free' free'' : List P} {c c' c'' : P → β} {A A' A'' : Multiset P}

theorem Transfer.refl (free : List P) (c : P → β) (A : Multiset P) : Transfer free c A free c A :=
  ⟨le_refl _, fun _ _ => rfl⟩

theorem Transfer.trans (h : Transfer free c A free' c' A') (h' : Transfer free' c' A' free'' c'' A'') :
    Transfer free c A free'' c'' A'' :=
  ⟨h'.items.trans h.items, fun p hp =>
    (h'.contents p fun hmem => hp (Multiset.mem_of_le h.items hmem)).trans (h.contents p hp)⟩

/-- What the owner has besides. -/
theorem Transfer.frame (h : Transfer free c A free' c' A') (R : Multiset P) :
    Transfer free c (A + R) free' c' (A' + R) := by
  refine ⟨?_, fun p hp => h.contents p fun hmem => hp ?_⟩
  · rw [← add_assoc, ← add_assoc]
    exact Multiset.add_le_add_right h.items
  · rw [← add_assoc]
    exact Multiset.mem_add.2 (.inl hmem)

/-- An owner may forget items. -/
theorem Transfer.forget (h : Transfer free c A free' c' A') (hle : A'' ≤ A') : Transfer free c A free' c' A'' :=
  ⟨(Multiset.add_le_add_left hle).trans h.items, h.contents⟩

/-- New contents for some of the owner's items. -/
theorem Transfer.change (h : ∀ p, c' p ≠ c p → p ∈ A) : Transfer free c A free c' A := by
  refine ⟨le_refl _, fun p hp => ?_⟩
  by_contra hne
  exact hp (Multiset.mem_add.2 (.inr (h p hne)))

end Transfer

/-! ## Several owners -/

variable [Fintype ι] [DecidableEq ι]

/-- All items that are free or owned. -/
def total (free : List P) (own : ι → Multiset P) : Multiset P := free + ∑ i, own i

theorem total_update (free : List P) (own : ι → Multiset P) (i : ι) (A : Multiset P) :
    total free (Function.update own i A) + own i = free + A + ∑ j, own j := by
  unfold total
  rw [Finset.sum_update_of_mem (Finset.mem_univ i), ← Finset.add_sum_erase _ _ (Finset.mem_univ i),
    Finset.sdiff_singleton_eq_erase]
  abel

section Owners

variable {free free' : List P} {c c' : P → β} {own : ι → Multiset P} {A : Multiset P} {i j : ι} {U : Multiset P} {p : P}

/-- No new items come up. -/
theorem Transfer.total_le (h : Transfer free c (own i) free' c' A) :
    total free' (Function.update own i A) ≤ total free own := by
  have hupdate := total_update free' own i A
  have hitems : (free' : Multiset P) + A + ∑ j, own j ≤ free + own i + ∑ j, own j :=
    Multiset.add_le_add_right h.items
  rw [← hupdate] at hitems
  have hsum : (free : Multiset P) + own i + ∑ j, own j = total free own + own i := by
    unfold total
    abel
  rw [hsum] at hitems
  exact Multiset.add_le_add_iff_right.1 hitems

theorem own_le_total (free : List P) (own : ι → Multiset P) (i : ι) : (free : Multiset P) + own i ≤ total free own := by
  unfold total
  rw [← Finset.add_sum_erase _ _ (Finset.mem_univ i), ← add_assoc]
  exact Multiset.le_add_right _ _

/-- Two owners have no item together, and none that is free. -/
theorem total_apart (hU : U.Nodup) (h : total free own ≤ U) (hij : i ≠ j) (hi : p ∈ own i) : p ∉ (free + own j : Multiset P) := by
  have hle : own i + (free + own j) ≤ total free own := by
    unfold total
    rw [← Finset.add_sum_erase _ _ (Finset.mem_univ i),
      ← Finset.add_sum_erase _ _ (Finset.mem_erase.2 ⟨hij.symm, Finset.mem_univ j⟩)]
    have hsplit : own i + ((free : Multiset P) + own j) + ∑ x ∈ (Finset.univ.erase i).erase j, own x =
        free + (own i + (own j + ∑ x ∈ (Finset.univ.erase i).erase j, own x)) := by abel
    rw [← hsplit]
    exact Multiset.le_add_right _ _
  have hnodup := Multiset.nodup_of_le (hle.trans h) hU
  exact Multiset.disjoint_left.1 ((Multiset.nodup_add.1 hnodup).2.2) hi

/-- What one owner does makes no difference to the items of another. -/
theorem Transfer.kept (h : Transfer free c (own i) free' c' A) (hU : U.Nodup) (hle : total free own ≤ U) (hij : j ≠ i)
    (hp : p ∈ own j) : c' p = c p :=
  h.contents p (total_apart hU hle hij hp)

end Owners

end CS1550.Region
