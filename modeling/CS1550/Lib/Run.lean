/-
Runs of a transition system with labelled steps, kept with their history: which label was taken in
which state. An invariant may assume a condition on the steps taken (`Path.invariant`), and what is
proved of the last state of a run holds of every state it visits (`Path.visited`).
-/
import Mathlib.Data.List.Induction

namespace CS1550.Run

variable {S A : Type}

/-- A run from `s₀` with its history, the steps taken so far with the states they were taken in. -/
inductive Path (step : S → A → S → Prop) (s₀ : S) : List (S × A) → S → Prop
  | start : Path step s₀ [] s₀
  | step {h : List (S × A)} {s s' : S} {a : A} : Path step s₀ h s → step s a s' → Path step s₀ (h ++ [(s, a)]) s'

/-- The states of a run. -/
def visited (h : List (S × A)) (s : S) : List S := h.map Prod.fst ++ [s]

variable {step : S → A → S → Prop} {s₀ : S}

theorem mem_visited_append {h : List (S × A)} {s s' x : S} {a : A} :
    x ∈ visited (h ++ [(s, a)]) s' ↔ x ∈ visited h s ∨ x = s' := by
  simp [visited, or_assoc]

theorem Path.start_mem {h : List (S × A)} {s : S} (hp : Path step s₀ h s) : s₀ ∈ Run.visited h s := by
  induction hp with
  | start => simp [Run.visited]
  | step hp hs ih => exact mem_visited_append.2 (.inl ih)

/-- The invariant rule: what holds at the start and is kept by every step that meets `ok` holds
after every run whose steps all meet `ok`. -/
theorem Path.invariant {I : S → Prop} (ok : S → A → Prop) (h0 : I s₀)
    (hstep : ∀ s a s', I s → ok s a → step s a s' → I s') {h : List (S × A)} {s : S} (hp : Path step s₀ h s)
    (hok : ∀ x ∈ h, ok x.1 x.2) : I s := by
  induction hp with
  | start => exact h0
  | @step h s s' a hp hs ih =>
    refine hstep s a s' (ih fun x hx => hok x (List.mem_append_left _ hx)) (hok (s, a) ?_) hs
    simp

/-- The invariant rule without a condition on the steps. -/
theorem Path.always {I : S → Prop} (h0 : I s₀) (hstep : ∀ s a s', I s → step s a s' → I s') {h : List (S × A)}
    {s : S} (hp : Path step s₀ h s) : I s :=
  hp.invariant (fun _ _ => True) h0 (fun s a s' hi _ hs => hstep s a s' hi hs) fun _ _ => trivial

/-- The simulation rule: an abstract state that follows the labels of a run represents the state of the
run, where every step meets `ok` and leads to a state that meets `good`. -/
theorem Path.simulate {T : Type} {R : S → T → Prop} (f : T → A → T) {t₀ : T} (ok : S → A → Prop) (good : S → Prop)
    (h0 : R s₀ t₀) (hstep : ∀ s a s' t, R s t → ok s a → good s' → step s a s' → R s' (f t a)) {h : List (S × A)}
    {s : S} (hp : Path step s₀ h s) (hok : ∀ x ∈ h, ok x.1 x.2) (hgood : ∀ x ∈ visited h s, good x) :
    R s (h.foldl (fun t x => f t x.2) t₀) := by
  induction hp with
  | start => exact h0
  | @step h s s' a hp hs ih =>
    rw [List.foldl_append]
    refine hstep s a s' _ (ih (fun x hx => hok x (List.mem_append_left _ hx)) fun x hx => ?_) (hok (s, a) (by simp))
      (hgood s' (mem_visited_append.2 (.inr rfl))) hs
    exact hgood x (mem_visited_append.2 (.inl hx))

/-- Every visited state is the end of a run that is a prefix of this one. -/
theorem Path.visited {h : List (S × A)} {s x : S} (hp : Path step s₀ h s) (hx : x ∈ visited h s) :
    ∃ h', h' <+: h ∧ Path step s₀ h' x := by
  induction hp with
  | start =>
    simp only [Run.visited, List.map_nil, List.nil_append, List.mem_singleton] at hx
    subst hx
    exact ⟨[], List.prefix_refl _, .start⟩
  | @step h s s' a hp hs ih =>
    rcases mem_visited_append.1 hx with hx | rfl
    · obtain ⟨h', hpre, hp'⟩ := ih hx
      exact ⟨h', hpre.trans (List.prefix_append _ _), hp'⟩
    · exact ⟨_, List.prefix_refl _, .step hp hs⟩

theorem Path.of_concat {h : List (S × A)} {s x : S} {a : A} (hp : Path step s₀ (h ++ [(x, a)]) s) :
    Path step s₀ h x ∧ step x a s := by
  generalize hh : h ++ [(x, a)] = h' at hp
  cases hp with
  | start => simp at hh
  | step hp hs =>
    obtain ⟨rfl, hxa⟩ := List.append_inj' hh rfl
    cases hxa
    exact ⟨hp, hs⟩

/-- The run up to a point of its history. -/
theorem Path.take {h h' : List (S × A)} {s : S} (hp : Path step s₀ (h ++ h') s) : ∃ x, Path step s₀ h x := by
  induction h' using List.reverseRecOn generalizing s with
  | nil => exact ⟨s, by simpa using hp⟩
  | append_singleton h' x ih =>
    rw [← List.append_assoc] at hp
    exact ih hp.of_concat.1

/-- A run cut at one of its steps: the run up to it, the step, and the run from there on. -/
theorem Path.cut {h h' : List (S × A)} {s x : S} {a : A} (hp : Path step s₀ (h ++ (x, a) :: h') s) :
    Path step s₀ h x ∧ ∃ x', step x a x' ∧ Path step x' h' s := by
  induction h' using List.reverseRecOn generalizing s with
  | nil =>
    obtain ⟨hp, hs⟩ := hp.of_concat
    exact ⟨hp, s, hs, .start⟩
  | append_singleton h' y ih =>
    obtain ⟨y, b⟩ := y
    rw [← List.cons_append, ← List.append_assoc] at hp
    obtain ⟨hp, hs⟩ := hp.of_concat
    obtain ⟨hx, x', hstep, hrest⟩ := ih hp
    exact ⟨hx, x', hstep, hrest.step hs⟩

/-- A property that holds after every run whose steps meet `ok` holds in all states of such a run. -/
theorem Path.forall_visited {P : S → Prop} {ok : S → A → Prop}
    (hP : ∀ h s, Path step s₀ h s → (∀ x ∈ h, ok x.1 x.2) → P s) {h : List (S × A)} {s : S} (hp : Path step s₀ h s)
    (hok : ∀ x ∈ h, ok x.1 x.2) : ∀ x ∈ Run.visited h s, P x := by
  intro x hx
  obtain ⟨h', hpre, hp'⟩ := hp.visited hx
  exact hP h' x hp' fun y hy => hok y (hpre.subset hy)

/-- The states before and after a step of a run, with the run up to it. -/
theorem Path.split {h : List (S × A)} {s : S} (hp : Path step s₀ h s) {x : S} {a : A} (hx : (x, a) ∈ h) :
    ∃ h' x', Path step s₀ h' x ∧ step x a x' ∧ x ∈ Run.visited h s ∧ x' ∈ Run.visited h s := by
  induction hp with
  | start => simp at hx
  | @step h s s' b hp hs ih =>
    rcases List.mem_append.1 hx with hx | hx
    · obtain ⟨h', x', h1, h2, h3, h4⟩ := ih hx
      exact ⟨h', x', h1, h2, mem_visited_append.2 (.inl h3), mem_visited_append.2 (.inl h4)⟩
    · rw [List.mem_singleton, Prod.mk.injEq] at hx
      obtain ⟨rfl, rfl⟩ := hx
      refine ⟨h, s', hp, hs, mem_visited_append.2 (.inl ?_), mem_visited_append.2 (.inr rfl)⟩
      simp [Run.visited]

/-! ## Runs that are computed -/

/-- The run of a deterministic system along given labels, as long as none of them blocks: its history and its
last state. -/
def follow (next : S → A → Option S) : S → List A → Option (List (S × A) × S)
  | s, [] => some ([], s)
  | s, a :: as => (next s a).bind fun s' => (follow next s' as).map fun r => ((s, a) :: r.1, r.2)

variable {next : S → A → Option S}

/-- Labels that do not block extend a run. -/
theorem Path.follow {h h' : List (S × A)} {s s' : S} {as : List A} (hp : Path (fun s a s' => next s a = some s') s₀ h s)
    (hr : Run.follow next s as = some (h', s')) : Path (fun s a s' => next s a = some s') s₀ (h ++ h') s' := by
  induction as generalizing h h' s with
  | nil =>
    cases hr
    simpa using hp
  | cons a as ih =>
    obtain ⟨s₁, hs, hr⟩ := Option.bind_eq_some_iff.1 hr
    obtain ⟨r, hrest, he⟩ := Option.map_eq_some_iff.1 hr
    cases he
    have hrest := ih (hp.step hs) hrest
    rwa [List.append_assoc] at hrest

theorem Path.mono {step' : S → A → S → Prop} (hstep : ∀ s a s', step s a s' → step' s a s') {h : List (S × A)} {s : S}
    (hp : Path step s₀ h s) : Path step' s₀ h s := by
  induction hp with
  | start => exact .start
  | step _ hs ih => exact ih.step (hstep _ _ _ hs)

/-- A decidable property of a run can be looked for by computing one. -/
theorem exists_of_follow (next : S → A → Option S) (s₀ : S) (as : List A) {P : List (S × A) → S → Prop}
    [∀ h s, Decidable (P h s)] (hr : (follow next s₀ as).any (fun r => decide (P r.1 r.2)) = true) :
    ∃ h s, Path (fun s a s' => next s a = some s') s₀ h s ∧ P h s := by
  rw [Option.any_eq_true] at hr
  obtain ⟨⟨h, s⟩, hrun, hP⟩ := hr
  have hp := Path.follow .start hrun
  exact ⟨h, s, by simpa using hp, of_decide_eq_true hP⟩

/-! ## Systems with outputs -/

section Outputs

variable {T E O : Type} {next : S → A → Except E (O × S)} {next' : T → A → Except E (O × T)}

/-- What a system answers to one label after the other, until it stops. -/
def transcript (next : S → A → Except E (O × S)) : S → List A → List (Except E O)
  | _, [] => []
  | s, a :: as =>
    match next s a with
    | .error e => [.error e]
    | .ok (o, s') => .ok o :: transcript next s' as

/-- The labels that are answered, with the states they come in. -/
def history (next : S → A → Except E (O × S)) : S → List A → List (S × A)
  | _, [] => []
  | s, a :: as =>
    (s, a) :: match next s a with
      | .error _ => []
      | .ok (_, s') => history next s' as

/-- Two systems that answer alike, and move to related states, as long as the labels are allowed. -/
theorem transcript_eq {R : S → T → Prop} (ok : S → A → Prop) (ok' : T → A → Prop)
    (hstep : ∀ s t a, R s t → ok s a → ok' t a → ∃ o s' t', next s a = .ok (o, s') ∧ next' t a = .ok (o, t') ∧ R s' t')
    {s : S} {t : T} (hR : R s t) (as : List A) (hok : ∀ x ∈ history next s as, ok x.1 x.2)
    (hok' : ∀ x ∈ history next' t as, ok' x.1 x.2) : transcript next s as = transcript next' t as := by
  induction as generalizing s t with
  | nil => rfl
  | cons a as ih =>
    obtain ⟨o, s', t', hs, ht, hR'⟩ := hstep s t a hR (hok (s, a) List.mem_cons_self) (hok' (t, a) List.mem_cons_self)
    simp only [history, hs, ht, List.mem_cons, forall_eq_or_imp] at hok hok'
    simp only [transcript, hs, ht, ih hR' hok.2 hok'.2]

end Outputs

end CS1550.Run
