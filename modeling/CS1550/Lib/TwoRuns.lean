/-
One program run from two shared states. `trace` lists the accesses of a run with the states they are made in.
A program is `Steady` for a relation on shared states if from related states, as long as the accesses of the
second run are allowed, both runs return the same, make the same accesses among those watched, end with the
same private state and in related states again.
-/
import CS1550.Lib.Prog

namespace CS1550.Machine

variable {Op : Type} {Res : Op → Type} {L S α β : Type} (M : Machine Op Res L S)

/-- The accesses of a program run alone, each with the private and the shared state it is made in. -/
def trace : Prog Op Res α → L → S → List (Op × L × S)
  | .ret _, _, _ => []
  | .call op k, l, s => (op, l, s) :: trace (k (M.exec op l s).1) (M.exec op l s).2.1 (M.exec op l s).2.2

theorem trace_bind (p : Prog Op Res α) (f : α → Prog Op Res β) (l : L) (s : S) :
    M.trace (p >>= f) l s = M.trace p l s ++ M.trace (f (M.run p l s).1) (M.run p l s).2.1 (M.run p l s).2.2 := by
  induction p generalizing l s with
  | ret a => rfl
  | call op k ih => exact congrArg _ (ih _ _ _)

/-- What two runs are compared by: the relation on the shared states, the accesses allowed, what is to hold of
the states they are made in, and what is watched of them. -/
structure Pairing (Op L S O : Type) where
  related : S → S → Prop
  allowed : Op → L → S → Prop
  holds : S → Prop
  watch : Op → Option O

variable {M} {O : Type} {C : Pairing Op L S O}

/-- What is watched of the accesses of a run. -/
def Pairing.watched (C : Pairing Op L S O) (tr : List (Op × L × S)) : List O := tr.filterMap fun x => C.watch x.1

theorem Pairing.watched_append (tr tr' : List (Op × L × S)) : C.watched (tr ++ tr') = C.watched tr ++ C.watched tr' :=
  List.filterMap_append

/-- The runs of the program from `s` and from `t`, where `Q` holds of what it returns. -/
structure Agree (M : Machine Op Res L S) (C : Pairing Op L S O) (Q : α → Prop) (p : Prog Op Res α) (l : L) (s t : S) :
    Prop where
  result : (M.run p l s).1 = (M.run p l t).1
  position : (M.run p l s).2.1 = (M.run p l t).2.1
  related : C.related (M.run p l s).2.2 (M.run p l t).2.2
  watched : C.watched (M.trace p l s) = C.watched (M.trace p l t)
  holds : ∀ x ∈ M.trace p l t, C.holds x.2.2
  post : Q (M.run p l t).1

/-- From related states the program does the same, if its accesses are allowed. -/
def Steady (M : Machine Op Res L S) (C : Pairing Op L S O) (Q : α → Prop) (p : Prog Op Res α) : Prop :=
  ∀ l s t, C.related s t → (∀ x ∈ M.trace p l t, C.allowed x.1 x.2.1 x.2.2) → M.Agree C Q p l s t

theorem Steady.pure {Q : α → Prop} {a : α} (h : Q a) : M.Steady C Q (pure a) := by
  intro l s t hst _
  exact ⟨rfl, rfl, hst, rfl, by rintro x ⟨⟩, h⟩

theorem Steady.bind {P : α → Prop} {Q : β → Prop} {p : Prog Op Res α} {f : α → Prog Op Res β} (hp : M.Steady C P p)
    (hf : ∀ a, P a → M.Steady C Q (f a)) : M.Steady C Q (p >>= f) := by
  intro l s t hst hallowed
  rw [trace_bind] at hallowed
  have h₁ := hp l s t hst fun x hx => hallowed x (List.mem_append_left _ hx)
  have h₂ := hf _ h₁.post _ _ _ h₁.related fun x hx => hallowed x (List.mem_append_right _ hx)
  refine ⟨?_, ?_, ?_, ?_, ?_, ?_⟩
  · rw [run_bind, run_bind, h₁.result, h₁.position, h₂.result]
  · rw [run_bind, run_bind, h₁.result, h₁.position, h₂.position]
  · rw [run_bind, run_bind, h₁.result, h₁.position]
    exact h₂.related
  · rw [trace_bind, trace_bind, C.watched_append, C.watched_append, h₁.watched, h₁.result, h₁.position, h₂.watched]
  · intro x hx
    rw [trace_bind] at hx
    rcases List.mem_append.1 hx with hx | hx
    · exact h₁.holds x hx
    · exact h₂.holds x hx
  · rw [run_bind]
    exact h₂.post

/-- A single access. -/
theorem Steady.perform {op : Op} (hholds : ∀ s t, C.related s t → C.holds t)
    (h : ∀ l s t, C.related s t → C.allowed op l t → (M.exec op l s).1 = (M.exec op l t).1 ∧
      (M.exec op l s).2.1 = (M.exec op l t).2.1 ∧ C.related (M.exec op l s).2.2 (M.exec op l t).2.2) :
    M.Steady C (fun _ => True) (Prog.perform op) := by
  intro l s t hst hallowed
  obtain ⟨hres, hpos, hrel⟩ := h l s t hst (hallowed (op, l, t) (List.mem_singleton.2 rfl))
  refine ⟨hres, hpos, hrel, rfl, fun x hx => ?_, trivial⟩
  obtain rfl := List.mem_singleton.1 hx
  exact hholds s t hst

end CS1550.Machine
