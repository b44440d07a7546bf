/-
What a system can still come to. From a state with an invariant, as long as the aim is not reached there is a step
that brings the measure down (`leads_of_measure`); steps that are not allowed, such as faults, take no part.
-/
import CS1550.Lib.Run

namespace CS1550.Run

variable {S A : Type} {step : S → A → S → Prop} {ok ok' : S → A → Prop} {P Q : S → Prop} {s s' : S} {a : A}
  {h h' : List (S × A)}

theorem Path.trans {t : S} (hp : Path step s h s') (hp' : Path step s' h' t) : Path step s (h ++ h') t := by
  induction hp' with
  | start => simpa using hp
  | step _ hlast ih =>
    rw [← List.append_assoc]
    exact ih.step hlast

/-- A run with allowed steps leads from `s` to a state with `P`. -/
def Leads (step : S → A → S → Prop) (ok : S → A → Prop) (s : S) (P : S → Prop) : Prop :=
  ∃ h s', Path step s h s' ∧ (∀ x ∈ h, ok x.1 x.2) ∧ P s'

theorem Leads.here (h : P s) : Leads step ok s P := ⟨[], s, .start, by simp, h⟩

theorem Leads.one (hs : step s a s') (ha : ok s a) (hP : P s') : Leads step ok s P :=
  ⟨[(s, a)], s', Path.step .start hs, by simpa using ha, hP⟩

theorem Leads.trans (h : Leads step ok s P) (hQ : ∀ s', P s' → Leads step ok s' Q) : Leads step ok s Q := by
  obtain ⟨h, s', hp, hok, hP⟩ := h
  obtain ⟨h', t, hp', hok', ht⟩ := hQ s' hP
  refine ⟨h ++ h', t, hp.trans hp', ?_, ht⟩
  rintro x hx
  rcases List.mem_append.1 hx with hx | hx
  · exact hok x hx
  · exact hok' x hx

theorem Leads.mono (h : Leads step ok s P) (hok : ∀ s a, ok s a → ok' s a) : Leads step ok' s P := by
  obtain ⟨h, s', hp, hall, hP⟩ := h
  exact ⟨h, s', hp, fun x hx => hok _ _ (hall x hx), hP⟩

theorem leads_of_measure {I : S → Prop} (m : S → Nat) {s : S}
    (hstep : ∀ s, I s → ¬ P s → ∃ a s', step s a s' ∧ ok s a ∧ I s' ∧ m s' < m s) (hs : I s) :
    Leads step ok s fun s' => I s' ∧ P s' := by
  by_cases hP : P s
  · exact .here ⟨hs, hP⟩
  · obtain ⟨a, s', hs', ha, hI, hlt⟩ := hstep s hs hP
    exact (Leads.one (P := (· = s')) hs' ha rfl).trans fun _ h => h ▸ leads_of_measure m hstep hI
termination_by m s

/-- One stage after the other. -/
theorem leads_of_stages {I : Nat → S → Prop} {k : Nat}
    (hstep : ∀ i < k, ∀ s, I i s → Leads step ok s (I (i + 1))) (hs : I 0 s) : Leads step ok s (I k) := by
  induction k with
  | zero => exact .here hs
  | succ k ih => exact (ih fun i hi => hstep i (Nat.lt_succ_of_lt hi)).trans (hstep k (Nat.lt_succ_self k))

end CS1550.Run
