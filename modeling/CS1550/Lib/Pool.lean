/-
A pool of items: a list of free ones, and holders that each hold at most one item. Nothing is free twice, held
by two holders, or free and held at once (`Accounted`). Items move between the list and the holders one at a
time, so what the holders have together (`stock`) changes by one item at a time.
-/
import Mathlib.Data.List.Nodup
import Mathlib.Data.Multiset.AddSub
import Mathlib.Logic.Function.Basic

namespace CS1550.Pool

variable {P ι : Type} {V : P → Prop} {free : List P} {held : ι → Option P} {p : P} {x : ι}

/-- Every item is in one place only, and all of them meet `V`. -/
structure Accounted (V : P → Prop) (free : List P) (held : ι → Option P) : Prop where
  nodup : free.Nodup
  valid_free : ∀ p ∈ free, V p
  valid_held : ∀ x p, held x = some p → V p
  apart : ∀ x p, held x = some p → p ∉ free
  inj : ∀ x y p, held x = some p → held y = some p → x = y

/-- The first free item is taken, and nobody holds it. -/
theorem Accounted.drop (h : Accounted V (p :: free) held) : Accounted V free held where
  nodup := (List.nodup_cons.1 h.nodup).2
  valid_free q hq := h.valid_free q (List.mem_cons_of_mem _ hq)
  valid_held := h.valid_held
  apart y q hy hq := h.apart y q hy (List.mem_cons_of_mem _ hq)
  inj := h.inj

theorem Accounted.not_held (h : Accounted V (p :: free) held) (y : ι) : held y ≠ some p :=
  fun hy => h.apart y p hy List.mem_cons_self

variable [DecidableEq ι]

/-- An item that is in no place goes to a holder. -/
theorem Accounted.hold (h : Accounted V free held) (hv : V p) (hfree : p ∉ free) (hheld : ∀ y, held y ≠ some p) :
    Accounted V free (Function.update held x (some p)) := by
  have hcases : ∀ {y q}, Function.update held x (some p) y = some q → y = x ∧ q = p ∨ y ≠ x ∧ held y = some q := by
    intro y q hy
    by_cases hyx : y = x
    · subst hyx
      rw [Function.update_self] at hy
      exact .inl ⟨rfl, (Option.some.inj hy).symm⟩
    · rw [Function.update_of_ne hyx] at hy
      exact .inr ⟨hyx, hy⟩
  refine ⟨h.nodup, h.valid_free, ?_, ?_, ?_⟩
  · intro y q hy
    obtain ⟨-, rfl⟩ | ⟨-, hy⟩ := hcases hy
    · exact hv
    · exact h.valid_held y q hy
  · intro y q hy
    obtain ⟨-, rfl⟩ | ⟨-, hy⟩ := hcases hy
    · exact hfree
    · exact h.apart y q hy
  · intro y z q hy hz
    obtain ⟨rfl, rfl⟩ | ⟨-, hy'⟩ := hcases hy
    · obtain ⟨rfl, -⟩ | ⟨-, hz'⟩ := hcases hz
      · rfl
      · exact absurd hz' (hheld z)
    · obtain ⟨-, rfl⟩ | ⟨-, hz'⟩ := hcases hz
      · exact absurd hy' (hheld y)
      · exact h.inj y z q hy' hz'

/-- The first free item goes to a holder. -/
theorem Accounted.take (h : Accounted V (p :: free) held) (x : ι) :
    Accounted V free (Function.update held x (some p)) :=
  h.drop.hold (h.valid_free p List.mem_cons_self) (List.nodup_cons.1 h.nodup).1 h.not_held

/-- A holder gives up what it holds; the item is in no place then. -/
theorem Accounted.forget (h : Accounted V free held) (x : ι) : Accounted V free (Function.update held x none) := by
  have hold : ∀ {y q}, Function.update held x none y = some q → held y = some q := by
    intro y q hy
    by_cases hyx : y = x
    · subst hyx
      simp at hy
    · rwa [Function.update_of_ne hyx] at hy
  exact ⟨h.nodup, h.valid_free, fun y q hy => h.valid_held y q (hold hy), fun y q hy => h.apart y q (hold hy),
    fun y z q hy hz => h.inj y z q (hold hy) (hold hz)⟩

/-- A holder gives its item back. -/
theorem Accounted.give (h : Accounted V free held) (hx : held x = some p) :
    Accounted V (p :: free) (Function.update held x none) := by
  have hf := h.forget x
  refine ⟨List.nodup_cons.2 ⟨h.apart x p hx, h.nodup⟩, ?_, hf.valid_held, ?_, hf.inj⟩
  · intro q hq
    rcases List.mem_cons.1 hq with rfl | hq
    · exact h.valid_held x q hx
    · exact h.valid_free q hq
  · intro y q hy hq
    rcases List.mem_cons.1 hq with rfl | hq
    · -- Nobody but `x` holds what `x` gives back.
      by_cases hyx : y = x
      · subst hyx
        simp at hy
      · rw [Function.update_of_ne hyx] at hy
        exact hyx (h.inj y x q hy hx)
    · exact hf.apart y q hy hq

/-! ## What the holders have together -/

/-- The items that the holders in `S` hold. -/
def stock (S : List ι) (held : ι → Option P) : Multiset P := S.filterMap held

variable {S : List ι}

/-- A holder among the others. -/
theorem stock_update (held : ι → Option P) (hS : S.Nodup) (hx : x ∈ S) (o : Option P) :
    stock S (Function.update held x o) = (o.toList : Multiset P) + stock (S.erase x) held := by
  obtain ⟨l₁, l₂, hnot, rfl, herase⟩ := List.exists_erase_eq hx
  rw [herase]
  have hnot₂ : x ∉ l₂ := (List.nodup_cons.1 (List.nodup_append.1 hS).2.1).1
  have hsame : ∀ l : List ι, x ∉ l → l.filterMap (Function.update held x o) = l.filterMap held := by
    intro l hl
    refine List.filterMap_congr fun y hy => ?_
    rw [Function.update_of_ne]
    rintro rfl
    exact hl hy
  unfold stock
  rw [List.filterMap_append, List.filterMap_cons, Function.update_self, hsame l₁ hnot, hsame l₂ hnot₂,
    List.filterMap_append]
  cases o with
  | none => simp
  | some p =>
    simp only [Option.toList_some, Multiset.coe_add, Multiset.coe_eq_coe]
    exact List.perm_middle

theorem stock_hold (hS : S.Nodup) (hx : x ∈ S) (h : held x = none) :
    stock S (Function.update held x (some p)) = p ::ₘ stock S held := by
  have hsame := stock_update held hS hx none
  rw [← h, Function.update_eq_self, h] at hsame
  rw [stock_update held hS hx, hsame]
  simp

theorem stock_give (hS : S.Nodup) (hx : x ∈ S) (h : held x = some p) :
    p ::ₘ stock S (Function.update held x none) = stock S held := by
  have hhold := stock_hold (p := p) hS hx (Function.update_self x none held)
  rw [Function.update_idem, ← h, Function.update_eq_self] at hhold
  exact hhold.symm

/-- Where nothing is held twice, an item tells its holder. -/
theorem stock_inj {y : ι} (hS : S.Nodup) (hn : (stock S held).Nodup) (hx : x ∈ S) (hy : y ∈ S) (h : held x = some p)
    (h' : held y = some p) : y = x := by
  by_contra hne
  rw [← stock_give hS hx h] at hn
  refine (Multiset.nodup_cons.1 hn).1 (List.mem_filterMap.2 ⟨y, hy, ?_⟩)
  rwa [Function.update_of_ne hne]

end CS1550.Pool
