/-
Programs as trees of calls to a machine: each call is one atomic access, with a result that the rest of
the program depends on. A machine executes a call on a state that is shared and on one that is private
to the program. `Yields` is the big-step judgement: from a shared state, whatever the private one, the
program returns a value and leaves a shared state.
-/
import Mathlib.Logic.Basic

namespace CS1550

/-- A program over the calls `Op`, where `op` returns a `Res op`. -/
inductive Prog (Op : Type) (Res : Op → Type) (α : Type)
  | ret (a : α)
  | call (op : Op) (k : Res op → Prog Op Res α)

namespace Prog

variable {Op : Type} {Res : Op → Type} {α β γ : Type}

/-- One program after another. -/
protected def bind : Prog Op Res α → (α → Prog Op Res β) → Prog Op Res β
  | .ret a, f => f a
  | .call op k, f => .call op fun r => (k r).bind f

instance : Monad (Prog Op Res) where
  pure := .ret
  bind := Prog.bind

/-- A single call. -/
def perform (op : Op) : Prog Op Res (Res op) := .call op .ret

end Prog

/-- How calls act on the shared state `S` and the private state `L` of the program that makes them. -/
structure Machine (Op : Type) (Res : Op → Type) (L S : Type) where
  exec : (op : Op) → L → S → Res op × L × S

namespace Machine

variable {Op : Type} {Res : Op → Type} {L S α β : Type} (M : Machine Op Res L S)

/-- A program run alone. -/
def run : Prog Op Res α → L → S → α × L × S
  | .ret a, l, s => (a, l, s)
  | .call op k, l, s => run (k (M.exec op l s).1) (M.exec op l s).2.1 (M.exec op l s).2.2

theorem run_bind (p : Prog Op Res α) (f : α → Prog Op Res β) (l : L) (s : S) :
    M.run (p >>= f) l s = M.run (f (M.run p l s).1) (M.run p l s).2.1 (M.run p l s).2.2 := by
  induction p generalizing l s with
  | ret a => rfl
  | call op k ih => exact ih _ _ _

/-- From `s` the program returns `a` and leaves `s'`. -/
def Yields (p : Prog Op Res α) (s : S) (a : α) (s' : S) : Prop := ∀ l, ∃ l', M.run p l s = (a, l', s')

variable {M}

theorem Yields.pure (a : α) (s : S) : M.Yields (pure a) s a s := fun l => ⟨l, rfl⟩

theorem Yields.bind {p : Prog Op Res α} {f : α → Prog Op Res β} {s s' s'' : S} {a : α} {b : β}
    (hp : M.Yields p s a s') (hf : M.Yields (f a) s' b s'') : M.Yields (p >>= f) s b s'' := by
  intro l
  obtain ⟨l', h⟩ := hp l
  obtain ⟨l'', h'⟩ := hf l'
  refine ⟨l'', ?_⟩
  rw [run_bind, h]
  exact h'

theorem Yields.perform {op : Op} {s s' : S} {a : Res op} (h : ∀ l, ∃ l', M.exec op l s = (a, l', s')) :
    M.Yields (Prog.perform op) s a s' := by
  intro l
  obtain ⟨l', h⟩ := h l
  exact ⟨l', by rw [Prog.perform, run, h]; rfl⟩

/-- From `s` the program goes on as `q` from `s'`. -/
def Becomes (M : Machine Op Res L S) (p : Prog Op Res α) (s : S) (q : Prog Op Res α) (s' : S) : Prop :=
  ∀ l, ∃ l', M.run p l s = M.run q l' s'

theorem Becomes.trans {p q r : Prog Op Res α} {s s' s'' : S} (h : M.Becomes p s q s') (h' : M.Becomes q s' r s'') :
    M.Becomes p s r s'' := by
  intro l
  obtain ⟨l', hl⟩ := h l
  obtain ⟨l'', hl'⟩ := h' l'
  exact ⟨l'', hl.trans hl'⟩

theorem Becomes.refl (p : Prog Op Res α) (s : S) : M.Becomes p s p s := fun l => ⟨l, rfl⟩

theorem Yields.becomes {p : Prog Op Res α} {f : α → Prog Op Res β} {s s' : S} {a : α} (hp : M.Yields p s a s') :
    M.Becomes (p >>= f) s (f a) s' := by
  intro l
  obtain ⟨l', h⟩ := hp l
  exact ⟨l', by rw [run_bind, h]⟩

theorem Becomes.yields {p q : Prog Op Res α} {s s' s'' : S} {a : α} (h : M.Becomes p s q s') (hq : M.Yields q s' a s'') :
    M.Yields p s a s'' := by
  intro l
  obtain ⟨l', hl⟩ := h l
  obtain ⟨l'', hl'⟩ := hq l'
  exact ⟨l'', hl.trans hl'⟩

theorem Becomes.bind {p q : Prog Op Res α} {s s' : S} (h : M.Becomes p s q s') (f : α → Prog Op Res β) :
    M.Becomes (p >>= f) s (q >>= f) s' := by
  intro l
  obtain ⟨l', hl⟩ := h l
  exact ⟨l', by rw [run_bind, run_bind, hl]⟩

/-- The program keeps what holds of the shared state. -/
def Maintains (M : Machine Op Res L S) (I : S → Prop) (p : Prog Op Res α) : Prop := ∀ l s, I s → I (M.run p l s).2.2

section Maintains

variable {I : S → Prop}

theorem Maintains.pure (a : α) : M.Maintains I (pure a) := fun _ _ hs => hs

theorem Maintains.bind {p : Prog Op Res α} {f : α → Prog Op Res β} (hp : M.Maintains I p)
    (hf : ∀ a, M.Maintains I (f a)) : M.Maintains I (p >>= f) := by
  intro l s hs
  rw [run_bind]
  exact hf _ _ _ (hp l s hs)

theorem Maintains.perform {op : Op} (h : ∀ l s, I s → I (M.exec op l s).2.2) : M.Maintains I (Prog.perform op) := h

theorem Becomes.maintains {p q : Prog Op Res α} {s s' : S} (h : M.Becomes p s q s') (hq : M.Maintains I q) (hs : I s')
    (l : L) : I (M.run p l s).2.2 := by
  obtain ⟨l', hl⟩ := h l
  rw [hl]
  exact hq l' s' hs

end Maintains

/-- From the states of `I` the program returns a `Q` and leaves a state of `I`. -/
def Ensures (M : Machine Op Res L S) (I : S → Prop) (Q : α → Prop) (p : Prog Op Res α) : Prop :=
  ∀ l s, I s → Q (M.run p l s).1 ∧ I (M.run p l s).2.2

section Ensures

variable {I : S → Prop}

theorem Ensures.pure {Q : α → Prop} {a : α} (h : Q a) : M.Ensures I Q (pure a) := fun _ _ hs => ⟨h, hs⟩

theorem Ensures.bind {P : α → Prop} {Q : β → Prop} {p : Prog Op Res α} {f : α → Prog Op Res β} (hp : M.Ensures I P p)
    (hf : ∀ a, P a → M.Ensures I Q (f a)) : M.Ensures I Q (p >>= f) := by
  intro l s hs
  obtain ⟨ha, hs'⟩ := hp l s hs
  rw [run_bind]
  exact hf _ ha _ _ hs'

theorem Ensures.maintains {Q : α → Prop} {p : Prog Op Res α} (h : M.Ensures I Q p) : M.Maintains I p :=
  fun l s hs => (h l s hs).2

theorem Maintains.ensures {p : Prog Op Res α} (h : M.Maintains I p) : M.Ensures I (fun _ => True) p :=
  fun l s hs => ⟨trivial, h l s hs⟩

end Ensures

/-- The program leaves the shared state as it is. -/
def Leaves (M : Machine Op Res L S) (p : Prog Op Res α) : Prop := ∀ l s, (M.run p l s).2.2 = s

theorem Leaves.pure (a : α) : M.Leaves (pure a) := fun _ _ => rfl

theorem Leaves.bind {p : Prog Op Res α} {f : α → Prog Op Res β} (hp : M.Leaves p) (hf : ∀ a, M.Leaves (f a)) :
    M.Leaves (p >>= f) := by
  intro l s
  rw [run_bind, hf, hp]

/-- The program returns `a` in every state. -/
def Returns (M : Machine Op Res L S) (p : Prog Op Res α) (a : α) : Prop := ∀ l s, (M.run p l s).1 = a

theorem Returns.pure (a : α) : M.Returns (pure a) a := fun _ _ => rfl

theorem Returns.bind {p : Prog Op Res α} {f : α → Prog Op Res β} {b : β} (hf : ∀ a, M.Returns (f a) b) :
    M.Returns (p >>= f) b := by
  intro l s
  rw [run_bind]
  exact hf _ _ _

/-- From the states of `I`, a program that does not return a `Q` leaves the shared state as it is. -/
def Undoes (M : Machine Op Res L S) (I : S → Prop) (Q : α → Prop) (p : Prog Op Res α) : Prop :=
  ∀ l s, I s → Q (M.run p l s).1 ∨ (M.run p l s).2.2 = s

section Undoes

variable {I : S → Prop} {Q : β → Prop}

theorem Undoes.pure (b : β) : M.Undoes I Q (pure b) := fun _ _ _ => .inr rfl

theorem Undoes.bind {p : Prog Op Res α} {f : α → Prog Op Res β} (hp : M.Leaves p) (hf : ∀ a, M.Undoes I Q (f a)) :
    M.Undoes I Q (p >>= f) := by
  intro l s hs
  have hkept := hp l s
  rw [run_bind]
  rcases hf (M.run p l s).1 (M.run p l s).2.1 (M.run p l s).2.2 (by rwa [hkept]) with hq | hleft
  · exact .inl hq
  · exact .inr (hleft.trans hkept)

theorem Returns.undoes {p : Prog Op Res β} {b : β} (hp : M.Returns p b) (hb : Q b) : M.Undoes I Q p := fun l s _ => by
  rw [hp l s]
  exact .inl hb

/-- A program that does not go on after what it undid. -/
theorem Undoes.then {P : α → Prop} {p : Prog Op Res α} {f : α → Prog Op Res β} {b : β} (hp : M.Undoes I P p) (hb : Q b)
    (hf : ∀ a, P a → M.Returns (f a) b) (hstop : ∀ a, ¬ P a → M.Leaves (f a)) : M.Undoes I Q (p >>= f) := by
  intro l s hs
  rw [run_bind]
  by_cases hP : P (M.run p l s).1
  · rw [hf _ hP]
    exact .inl hb
  · refine .inr ((hstop _ hP _ _).trans ?_)
    exact (hp l s hs).resolve_left hP

end Undoes

theorem Yields.run_eq {p : Prog Op Res α} {s s' : S} {a : α} (h : M.Yields p s a s') (l : L) :
    (M.run p l s).1 = a ∧ (M.run p l s).2.2 = s' := by
  obtain ⟨l', hl⟩ := h l
  rw [hl]
  exact ⟨rfl, rfl⟩

end Machine

end CS1550
