/-
Which cells of the shared state the accesses of a program touch. An access that touches `R` and `W` does
the same in states that agree on `R`, and changes nothing outside `W`; so does a program all of whose
accesses do (`run_touches`). Of two programs neither of which reads what the other one changes, each
returns the same behind the other as alone, and together they leave what each has changed
(`Merged.run_run`).
-/
import CS1550.Lib.Prog
import Mathlib.Data.Set.Function

namespace CS1550.Machine

variable {Op : Type} {Res : Op → Type} {L S A V α β : Type} (M : Machine Op Res L S)

/-- An access: the call and the private state it is made from. -/
abbrev Access (Op L : Type) := Op × L

/-- The accesses of a program run alone. -/
def accesses : Prog Op Res α → L → S → List (Access Op L)
  | .ret _, _, _ => []
  | .call op k, l, s => (op, l) :: accesses (k (M.exec op l s).1) (M.exec op l s).2.1 (M.exec op l s).2.2

theorem accesses_bind (p : Prog Op Res α) (f : α → Prog Op Res β) (l : L) (s : S) :
    M.accesses (p >>= f) l s =
      M.accesses p l s ++ M.accesses (f (M.run p l s).1) (M.run p l s).2.1 (M.run p l s).2.2 := by
  induction p generalizing l s with
  | ret a => rfl
  | call op k ih => exact congrArg (List.cons (op, l)) (ih _ _ _)

/-! ## Programs with accesses of one kind -/

/-- From `s` the program makes accesses of `P` only. -/
def Confined (P : Access Op L → Prop) (p : Prog Op Res α) (s : S) : Prop := ∀ l, ∀ x ∈ M.accesses p l s, P x

variable {M}

section Confined

variable {P : Access Op L → Prop}

theorem Confined.pure (a : α) (s : S) : M.Confined P (pure a) s := fun _ x hx => by cases hx

theorem Confined.perform {op : Op} {s : S} (h : ∀ l, P (op, l)) : M.Confined P (Prog.perform op) s := by
  intro l x hx
  obtain rfl := List.mem_singleton.1 hx
  exact h l

theorem Confined.bind {p : Prog Op Res α} {f : α → Prog Op Res β} {s s' : S} {a : α} (hp : M.Confined P p s)
    (hy : M.Yields p s a s') (hf : M.Confined P (f a) s') : M.Confined P (p >>= f) s := by
  intro l x hx
  obtain ⟨l', hl⟩ := hy l
  rw [accesses_bind, hl, List.mem_append] at hx
  exact hx.elim (hp l x) (hf l' x)

/-- The same for a program of which only the accesses are known. -/
theorem Confined.bind_all {p : Prog Op Res α} {f : α → Prog Op Res β} {s : S} (hp : M.Confined P p s)
    (hf : ∀ a s', M.Confined P (f a) s') : M.Confined P (p >>= f) s := by
  intro l x hx
  rw [accesses_bind, List.mem_append] at hx
  exact hx.elim (hp l x) (hf _ _ _ x)

end Confined

/-! ## Cells -/

variable (get : S → A → V) (I : S → Prop) (R W : Set A)

/-- In the states of `I` the access depends on the cells `R`, and changes cells of `W`. -/
structure Touches (M : Machine Op Res L S) (x : Access Op L) : Prop where
  keeps : ∀ s, I s → I (M.exec x.1 x.2 s).2.2
  result : ∀ s s', I s → I s' → R.EqOn (get s) (get s') → (M.exec x.1 x.2 s).1 = (M.exec x.1 x.2 s').1 ∧
    (M.exec x.1 x.2 s).2.1 = (M.exec x.1 x.2 s').2.1
  effect : ∀ s s', I s → I s' → R.EqOn (get s) (get s') →
    R.EqOn (get (M.exec x.1 x.2 s).2.2) (get (M.exec x.1 x.2 s').2.2)
  frame : ∀ s, I s → Wᶜ.EqOn (get (M.exec x.1 x.2 s).2.2) (get s)

variable {get I R W} {s s' : S}

/-- A program whose accesses touch `R` and `W`, from states that agree on `R`. -/
theorem run_touches (p : Prog Op Res α) {l : L} (hp : ∀ x ∈ M.accesses p l s, Touches get I R W M x) (hs : I s)
    (hs' : I s') (heq : R.EqOn (get s) (get s')) :
    (M.run p l s).1 = (M.run p l s').1 ∧ I (M.run p l s').2.2 ∧
      R.EqOn (get (M.run p l s).2.2) (get (M.run p l s').2.2) ∧ Wᶜ.EqOn (get (M.run p l s').2.2) (get s') := by
  induction p generalizing l s s' with
  | ret a => exact ⟨rfl, hs', heq, fun _ _ => rfl⟩
  | call op k ih =>
    have hx := hp (op, l) (List.mem_cons_self ..)
    obtain ⟨hres, hpriv⟩ := hx.result s s' hs hs' heq
    dsimp only at hres hpriv
    obtain ⟨hret, hI, hR, hW⟩ := ih _ (fun x hx => hp x (List.mem_cons_of_mem _ hx)) (hx.keeps s hs) (hx.keeps s' hs')
      (hx.effect s s' hs hs' heq)
    simp only [run, ← hres, ← hpriv]
    exact ⟨hret, hI, hR, hW.trans (hx.frame s' hs')⟩

/-! ## Two programs -/

/-- What one program changed and what the other one changed, from the same state. -/
structure Merged (get : S → A → V) (W₁ W₂ : Set A) (s s₁ s₂ s' : S) : Prop where
  fst : W₁.EqOn (get s') (get s₁)
  snd : W₂.EqOn (get s') (get s₂)
  rest : (W₁ ∪ W₂)ᶜ.EqOn (get s') (get s)

theorem Merged.symm {W₁ W₂ : Set A} {s₁ s₂ : S} (h : Merged get W₁ W₂ s s₁ s₂ s') : Merged get W₂ W₁ s s₂ s₁ s' :=
  ⟨h.snd, h.fst, Set.union_comm W₁ W₂ ▸ h.rest⟩

/-- One program behind another that does not change what it reads. -/
theorem Merged.run_run {R₁ R₂ W₁ W₂ : Set A} {p : Prog Op Res α} {q : Prog Op Res β} {l l' : L}
    (hp : ∀ x ∈ M.accesses p l s, Touches get I R₁ W₁ M x) (hq : ∀ x ∈ M.accesses q l' s, Touches get I R₂ W₂ M x)
    (hsub : W₂ ⊆ R₂) (hdis : ∀ a ∈ W₁, a ∉ R₂) (hs : I s)
    (h : Merged get W₁ W₂ s (M.run p l s).2.2 (M.run q l' s).2.2 s') :
    (M.run q l' (M.run p l s).2.2).1 = (M.run q l' s).1 ∧ I (M.run q l' (M.run p l s).2.2).2.2 ∧
      get s' = get (M.run q l' (M.run p l s).2.2).2.2 := by
  obtain ⟨-, hI, -, hframe⟩ := run_touches p hp hs hs fun _ _ => rfl
  have heq : R₂.EqOn (get s) (get (M.run p l s).2.2) := fun a ha =>
    (hframe fun hW => hdis a hW ha).symm
  obtain ⟨hret, hI', hR, hW⟩ := run_touches q hq hs hI heq
  refine ⟨hret.symm, hI', funext fun a => ?_⟩
  by_cases h2 : a ∈ W₂
  · rw [h.snd h2, hR (hsub h2)]
  rw [hW h2]
  by_cases h1 : a ∈ W₁
  · exact h.fst h1
  · rw [h.rest (by simp [h1, h2]), hframe h1]

end CS1550.Machine
