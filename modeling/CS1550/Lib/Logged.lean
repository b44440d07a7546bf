/-
Programs that keep a log: next to its value a program returns what it has recorded on the way. `Logs` says
what a program is without its log, and what the log has to do with the value; it has a rule for each way to
put a program together.
-/
import CS1550.Lib.Prog
import Mathlib.Data.List.Basic

namespace CS1550

/-- A program over the calls `Op` that records `W`s. -/
structure Logged (W : Type) (Op : Type) (Res : Op → Type) (α : Type) where
  prog : Prog Op Res (List W × α)

namespace Logged

variable {W Op : Type} {Res : Op → Type} {L S α β : Type}

instance : Monad (Logged W Op Res) where
  pure a := ⟨pure ([], a)⟩
  bind p f := ⟨p.prog >>= fun r => (f r.2).prog >>= fun r' => pure (r.1 ++ r'.1, r'.2)⟩

/-- A program that records nothing. -/
def lift (p : Prog Op Res α) : Logged W Op Res α := ⟨p >>= fun a => pure ([], a)⟩

/-- Entries put into the log. -/
def record (ws : List W) : Logged W Op Res Unit := ⟨pure (ws, ())⟩

/-- The program run on a machine: the log, the value, and the states left. -/
def run (M : Machine Op Res L S) (p : Logged W Op Res α) (l : L) (s : S) : (List W × α) × L × S := M.run p.prog l s

theorem run_bind (M : Machine Op Res L S) (p : Logged W Op Res α) (f : α → Logged W Op Res β) (l : L) (s : S) :
    (p >>= f).run M l s =
      let r := p.run M l s
      let r' := (f r.1.2).run M r.2.1 r.2.2
      ((r.1.1 ++ r'.1.1, r'.1.2), r'.2) := by
  unfold run
  change M.run (p.prog >>= fun r => (f r.2).prog >>= fun r' => pure (r.1 ++ r'.1, r'.2)) l s = _
  rw [Machine.run_bind, Machine.run_bind]
  rfl

end Logged

namespace Machine

variable {W Op : Type} {Res : Op → Type} {L S α β : Type}

/-- Without its log `p` is `q`, and the log and the value are a `Q`. -/
def Logs (M : Machine Op Res L S) (p : Logged W Op Res α) (q : Prog Op Res α) (Q : List W → α → Prop) : Prop :=
  ∀ l s, ∃ log, p.run M l s = ((log, (M.run q l s).1), (M.run q l s).2) ∧ Q log (M.run q l s).1

variable {M : Machine Op Res L S} {p : Logged W Op Res α} {q : Prog Op Res α} {P : List W → α → Prop}
  {Q : List W → β → Prop} {f : α → Logged W Op Res β}

theorem Logs.imp {P' : List W → α → Prop} (h : M.Logs p q P) (himp : ∀ log a, P log a → P' log a) : M.Logs p q P' := by
  intro l s
  obtain ⟨log, hrun, hP⟩ := h l s
  exact ⟨log, hrun, himp _ _ hP⟩

theorem Logs.pure {a : α} (h : P [] a) : M.Logs (pure a) (pure a) P := fun _ _ => ⟨[], rfl, h⟩

theorem Logs.ite {c : Prop} [Decidable c] {p' : Logged W Op Res α} {q' : Prog Op Res α} (hpos : c → M.Logs p q P)
    (hneg : ¬ c → M.Logs p' q' P) : M.Logs (if c then p else p') (if c then q else q') P := by
  by_cases hc : c
  · rw [if_pos hc, if_pos hc]
    exact hpos hc
  · rw [if_neg hc, if_neg hc]
    exact hneg hc

theorem Logs.record (ws : List W) : M.Logs (.record ws) (Pure.pure ()) fun log _ => log = ws := fun _ _ => ⟨ws, rfl, rfl⟩

theorem Logs.bind {g : α → Prog Op Res β} (hp : M.Logs p q P)
    (hf : ∀ log a, P log a → M.Logs (f a) (g a) fun log' b => Q (log ++ log') b) : M.Logs (p >>= f) (q >>= g) Q := by
  intro l s
  obtain ⟨log, hrun, hP⟩ := hp l s
  obtain ⟨log', hrun', hQ⟩ := hf log _ hP (M.run q l s).2.1 (M.run q l s).2.2
  rw [run_bind, Logged.run_bind, hrun]
  dsimp only
  rw [hrun']
  exact ⟨log ++ log', rfl, hQ⟩

/-- A part of the program that only records. -/
theorem Logs.pure_bind {a : α} {q : Prog Op Res β} (hp : M.Logs p (Pure.pure a) P)
    (hf : ∀ log, P log a → M.Logs (f a) q fun log' b => Q (log ++ log') b) : M.Logs (p >>= f) q Q := by
  intro l s
  obtain ⟨log, hrun, hP⟩ := hp l s
  obtain ⟨log', hrun', hQ⟩ := hf log hP l s
  rw [Logged.run_bind, hrun]
  refine ⟨log ++ log', ?_, hQ⟩
  change ((log ++ ((f a).run M l s).1.1, ((f a).run M l s).1.2), ((f a).run M l s).2) = _
  rw [hrun']

theorem Logs.lift (q : Prog Op Res α) : M.Logs (.lift q) q fun log (_ : α) => log = ([] : List W) := by
  intro l s
  refine ⟨[], ?_, rfl⟩
  rw [Logged.run, Logged.lift, run_bind]
  rfl

/-- A part of the program that records nothing. -/
theorem Logs.lift_bind {g : α → Prog Op Res β} (hf : ∀ a, M.Logs (f a) (g a) Q) : M.Logs (.lift q >>= f) (q >>= g) Q := by
  refine (Logs.lift q).bind fun log a hlog => ?_
  rw [hlog]
  exact hf a

end Machine

end CS1550
