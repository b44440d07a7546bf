/-
A redo log. Some blocks of a state are copied to a log first, and then put to their places one by one. As long as
the log is kept, the state can be had again from any point of that, by putting all blocks to their places once
more: `Holds` with nothing counted as done (`Holds.forget`).
-/
import Mathlib.Data.List.Nodup
import Mathlib.Logic.Function.Basic

namespace CS1550.Redo

variable {B V : Type} {home : B → Prop} {L : List B} {k : Nat} {copy : Nat → V} {place C : B → V}

/-- The log has the blocks `L` of the state `C`. Of these the first `k`, and all blocks that are not in the log, are
in their places. -/
structure Holds (home : B → Prop) (L : List B) (k : Nat) (copy : Nat → V) (place C : B → V) : Prop where
  copies : ∀ i b, L[i]? = some b → copy i = C b
  placed : ∀ b, home b → b ∉ L.drop k → place b = C b

/-- Where nothing is logged, everything is in place. -/
theorem holds_nil : Holds home [] k copy place C ↔ ∀ b, home b → place b = C b := by
  constructor
  · intro h b hb
    exact h.placed b hb (by simp)
  · intro h
    exact ⟨by simp, fun b hb _ => h b hb⟩

/-- After an interruption it starts again. -/
theorem Holds.forget (h : Holds home L k copy place C) : Holds home L 0 copy place C := by
  refine ⟨h.copies, fun b hb hnot => h.placed b hb fun hmem => hnot ?_⟩
  rw [List.drop_zero]
  exact List.mem_of_mem_drop hmem

/-- When all of them are there, the log may go. -/
theorem Holds.done (h : Holds home L k copy place C) (hk : L.length ≤ k) : ∀ b, home b → place b = C b := by
  intro b hb
  refine h.placed b hb ?_
  rw [List.drop_eq_nil_of_le hk]
  exact List.not_mem_nil

/-- Blocks that are neither logged nor in the log may change, and copies that are not in use. -/
theorem Holds.congr {copy' : Nat → V} {place' : B → V} (h : Holds home L k copy place C)
    (hcopy : ∀ i < L.length, copy' i = copy i) (hplace : ∀ b, home b → place' b = place b) :
    Holds home L k copy' place' C := by
  refine ⟨fun i b hi => ?_, fun b hb hnot => ?_⟩
  · rw [hcopy i (List.getElem?_eq_some_iff.1 hi).1]
    exact h.copies i b hi
  · rw [hplace b hb]
    exact h.placed b hb hnot

/-- One block goes to its place. -/
theorem Holds.install [DecidableEq B] {b : B} (h : Holds home L k copy place C) (hk : L[k]? = some b) :
    Holds home L (k + 1) copy (Function.update place b (copy k)) C := by
  refine ⟨h.copies, fun b' hb' hnot => ?_⟩
  by_cases heq : b' = b
  · subst heq
    rw [Function.update_self]
    exact h.copies k b' hk
  · rw [Function.update_of_ne heq]
    refine h.placed b' hb' fun hmem => ?_
    obtain ⟨hlt, hget⟩ := List.getElem?_eq_some_iff.1 hk
    rw [List.drop_eq_getElem_cons hlt, hget, List.mem_cons] at hmem
    rcases hmem with hmem | hmem
    · exact heq hmem
    · exact hnot hmem

end CS1550.Redo
