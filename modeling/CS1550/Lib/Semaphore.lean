/-
Processes that share counting semaphores and integer variables: each process runs its own code, one
atomic instruction (a down, an up, a load, a store, a jump) at a time, in any interleaving.

Four rules carry invariants over such systems for any number of processes. `sum_step` and
`balanced_step`: a weight on the locations that every instruction balances against the semaphores it
moves gives an invariant sum. `atMostOne`: a sum that equals one is mutual exclusion. `asserts_step`:
an assertion at the locations that exclude each other, about variables stored to only there, is kept
by the other processes. `held_eq` reads a weight as what the process has done so far.
-/
import CS1550.Lib.Run
import Mathlib.Algebra.BigOperators.Fin
import Mathlib.Algebra.Order.BigOperators.Group.Finset
import Mathlib.Tactic.Linarith
import Mathlib.Tactic.Ring

namespace CS1550.Semaphore

/-- The instruction at a location, with the location that follows. -/
inductive Instr (Sem Var Loc : Type)
  | down (s : Sem) (next : Loc)
  | up (s : Sem) (next : Loc)
  | load (x : Var) (next : Int → Loc)
  | store (x : Var) (v : Int) (next : Loc)
  | jump (next : Loc)
  | halt

/-- The semaphores and the variables. -/
structure Shared (Sem Var : Type) where
  sem : Sem → Nat
  var : Var → Int

/-- What is shared, and where every process is. -/
structure Config (ι Sem Var Loc : Type) where
  shared : Shared Sem Var
  loc : ι → Loc

variable {ι Sem Var Loc : Type} [DecidableEq ι] [DecidableEq Sem] [DecidableEq Var]

/-- One atomic instruction; a down on a semaphore that is not positive blocks. -/
def Instr.exec : Instr Sem Var Loc → Shared Sem Var → Option (Loc × Shared Sem Var)
  | .down s next, sh =>
    if 0 < sh.sem s then some (next, { sh with sem := Function.update sh.sem s (sh.sem s - 1) }) else none
  | .up s next, sh => some (next, { sh with sem := Function.update sh.sem s (sh.sem s + 1) })
  | .load x next, sh => some (next (sh.var x), sh)
  | .store x v next, sh => some (next, { sh with var := Function.update sh.var x v })
  | .jump next, sh => some (next, sh)
  | .halt, _ => none

/-- Process `i` executes its next instruction. -/
def move (code : ι → Loc → Instr Sem Var Loc) (c : Config ι Sem Var Loc) (i : ι) : Option (Config ι Sem Var Loc) :=
  ((code i (c.loc i)).exec c.shared).map fun r => ⟨r.2, Function.update c.loc i r.1⟩

/-- The processes in the order given by a schedule, as long as none of them blocks: the history of
the run and its last state. -/
def runSchedule (code : ι → Loc → Instr Sem Var Loc) :
    Config ι Sem Var Loc → List ι → Option (List (Config ι Sem Var Loc × ι) × Config ι Sem Var Loc)
  | c, [] => some ([], c)
  | c, i :: is => (move code c i).bind fun c' => (runSchedule code c' is).map fun r => ((c, i) :: r.1, r.2)

variable {code : ι → Loc → Instr Sem Var Loc} {c c' : Config ι Sem Var Loc} {i : ι}

theorem move_some : move code c i = some c' ↔
    ∃ l sh, (code i (c.loc i)).exec c.shared = some (l, sh) ∧ c' = ⟨sh, Function.update c.loc i l⟩ := by
  unfold move
  rw [Option.map_eq_some_iff]
  constructor
  · rintro ⟨⟨l, sh⟩, h, rfl⟩; exact ⟨l, sh, h, rfl⟩
  · rintro ⟨l, sh, h, rfl⟩; exact ⟨(l, sh), h, rfl⟩

/-- The location of the process that moves, and the untouched ones. -/
theorem move_loc (h : move code c i = some c') :
    ∃ l sh, (code i (c.loc i)).exec c.shared = some (l, sh) ∧ c'.shared = sh ∧ c'.loc i = l ∧
      ∀ j, j ≠ i → c'.loc j = c.loc j := by
  obtain ⟨l, sh, he, rfl⟩ := move_some.1 h
  exact ⟨l, sh, he, rfl, by simp, fun j hj => by simp [hj]⟩

theorem runSchedule_eq_follow (code : ι → Loc → Instr Sem Var Loc) (is : List ι) (c : Config ι Sem Var Loc) :
    runSchedule code c is = Run.follow (move code) c is := by
  induction is generalizing c with
  | nil => rfl
  | cons i is ih => simp only [runSchedule, Run.follow, ih]

/-- A decidable property of a run can be looked for with a schedule. -/
theorem exists_of_runSchedule (code : ι → Loc → Instr Sem Var Loc) (c₀ : Config ι Sem Var Loc) (is : List ι)
    {P : List (Config ι Sem Var Loc × ι) → Config ι Sem Var Loc → Prop} [∀ h c, Decidable (P h c)]
    (hr : (runSchedule code c₀ is).any (fun r => decide (P r.1 r.2)) = true) :
    ∃ h c, Run.Path (fun s i s' => move code s i = some s') c₀ h c ∧ P h c := by
  rw [runSchedule_eq_follow] at hr
  exact Run.exists_of_follow (move code) c₀ is hr

/-- Only a store changes a variable. -/
theorem exec_var_eq {p : Instr Sem Var Loc} {sh sh' : Shared Sem Var} {l : Loc} (h : p.exec sh = some (l, sh'))
    (hst : ∀ x v next, p ≠ .store x v next) : sh'.var = sh.var := by
  cases p with
  | down s next =>
    simp only [Instr.exec] at h
    split at h
    · cases h; rfl
    · cases h
  | up s next => simp only [Instr.exec] at h; cases h; rfl
  | load x next => simp only [Instr.exec] at h; cases h; rfl
  | store x v next => exact absurd rfl (hst x v next)
  | jump next => simp only [Instr.exec] at h; cases h; rfl
  | halt => cases h

/-! ## Sums over the processes -/

theorem sum_update [Fintype ι] (w : Loc → Int) (f : ι → Loc) (i : ι) (l : Loc) :
    ∑ j, w (Function.update f i l j) + w (f i) = ∑ j, w (f j) + w l := by
  have hsplit : ∀ g : ι → Loc, ∑ j, w (g j) = w (g i) + ∑ j ∈ Finset.univ.erase i, w (g j) :=
    fun g => (Finset.add_sum_erase _ _ (Finset.mem_univ i)).symm
  rw [hsplit, hsplit f, Function.update_self]
  have hrest : ∑ j ∈ Finset.univ.erase i, w (Function.update f i l j) = ∑ j ∈ Finset.univ.erase i, w (f j) :=
    Finset.sum_congr rfl fun j hj => by rw [Function.update_of_ne (Finset.ne_of_mem_erase hj)]
  rw [hrest]
  omega

/-- A value of the shared state plus a weight of the locations is kept by a step that balances
them. -/
theorem sum_step [Fintype ι] (V : Shared Sem Var → Int) (w : Loc → Int) (h : move code c i = some c')
    (hbal : ∀ l sh, (code i (c.loc i)).exec c.shared = some (l, sh) → V sh + w l = V c.shared + w (c.loc i)) :
    V c'.shared + ∑ j, w (c'.loc j) = V c.shared + ∑ j, w (c.loc j) := by
  obtain ⟨l, sh, he, rfl⟩ := move_some.1 h
  have h1 := hbal l sh he
  have h2 := sum_update w c.loc i l
  simp only
  omega

/-- The value of a list of semaphores. -/
def tokens (ss : List Sem) (sh : Shared Sem Var) : Int := (ss.map fun s => (sh.sem s : Int)).sum

theorem tokens_update (ss : List Sem) (f : Sem → Nat) (s : Sem) (v : Nat) :
    (ss.map fun t => ((Function.update f s v t : Nat) : Int)).sum =
      (ss.map fun t => (f t : Int)).sum + ss.count s * ((v : Int) - f s) := by
  induction ss with
  | nil => simp
  | cons t ss ih =>
    rw [List.map_cons, List.sum_cons, ih, List.map_cons, List.sum_cons, List.count_cons]
    by_cases hts : t = s
    · subst hts
      simp only [Function.update_self, beq_self_eq_true, if_true]
      push_cast
      ring
    · simp only [Function.update_of_ne hts, beq_iff_eq, hts, if_false, Nat.add_zero]
      ring

/-- The instruction at `l` moves the weight `w` exactly as it moves the semaphores `ss`. -/
def Weighed (ss : List Sem) (w : Loc → Int) (l : Loc) : Instr Sem Var Loc → Prop
  | .down s next => w next = w l + ss.count s
  | .up s next => w next + ss.count s = w l
  | .load _ next => ∀ v, w (next v) = w l
  | .store _ _ next => w next = w l
  | .jump next => w next = w l
  | .halt => True

theorem Weighed.exec {ss : List Sem} {w : Loc → Int} {l l' : Loc} {p : Instr Sem Var Loc} {sh sh' : Shared Sem Var}
    (hb : Weighed ss w l p) (h : p.exec sh = some (l', sh')) : tokens ss sh' + w l' = tokens ss sh + w l := by
  unfold tokens
  cases p with
  | down s next =>
    simp only [Instr.exec] at h
    split at h
    · rename_i hpos
      cases h
      simp only [Weighed] at hb
      rw [tokens_update, hb]
      have hv : ((sh.sem s - 1 : Nat) : Int) - sh.sem s = -1 := by omega
      rw [hv]; ring
    · cases h
  | up s next =>
    simp only [Instr.exec] at h
    cases h
    simp only [Weighed] at hb
    rw [tokens_update]
    push_cast
    linarith
  | load x next => simp only [Instr.exec] at h; cases h; rw [hb]
  | store x v next => simp only [Instr.exec] at h; cases h; rw [show w l' = w l from hb]
  | jump next => simp only [Instr.exec] at h; cases h; rw [show w l' = w l from hb]
  | halt => cases h

/-- Where every location of every process is balanced, the semaphores and the weights keep their
sum. -/
theorem balanced_step [Fintype ι] {ss : List Sem} {w : Loc → Int} (hb : ∀ i l, Weighed ss w l (code i l))
    (h : move code c i = some c') :
    tokens ss c'.shared + ∑ j, w (c'.loc j) = tokens ss c.shared + ∑ j, w (c.loc j) :=
  sum_step (tokens ss) w h fun _ _ he => (hb i (c.loc i)).exec he

/-! ## Mutual exclusion -/

omit [DecidableEq Sem] [DecidableEq Var] in
/-- A sum of non-negative weights that is at most one excludes two processes of positive weight. -/
theorem atMostOne [Fintype ι] {w : Loc → Int} (hw : ∀ l, 0 ≤ w l) (hsum : ∑ j, w (c.loc j) ≤ 1) {i j : ι}
    (hi : 1 ≤ w (c.loc i)) (hj : 1 ≤ w (c.loc j)) : i = j := by
  by_contra hne
  have hpair : ∑ x ∈ {i, j}, w (c.loc x) ≤ ∑ x, w (c.loc x) :=
    Finset.sum_le_sum_of_subset_of_nonneg (Finset.subset_univ _) fun x _ _ => hw _
  rw [Finset.sum_pair hne] at hpair
  omega

omit [DecidableEq ι] [DecidableEq Sem] [DecidableEq Var] in
theorem le_sum [Fintype ι] {w : Loc → Int} (hw : ∀ l, 0 ≤ w l) (i : ι) : w (c.loc i) ≤ ∑ j, w (c.loc j) :=
  Finset.single_le_sum (f := fun j => w (c.loc j)) (fun _ _ => hw _) (Finset.mem_univ i)

/-- Assertions about the variables at locations that exclude each other: if only those locations
store and each process keeps its own, a step keeps all of them. -/
theorem asserts_step (hold : Loc → Prop) {P : Loc → (Var → Int) → Prop}
    (hexcl : ∀ i j, hold (c.loc i) → hold (c.loc j) → i = j)
    (hstore : ∀ i l x v next, code i l = .store x v next → hold l)
    (hfree : ∀ l vars, ¬ hold l → P l vars)
    (hown : ∀ i l sh l' sh', P l sh.var → (code i l).exec sh = some (l', sh') → P l' sh'.var)
    (h : move code c i = some c') (hP : ∀ j, P (c.loc j) c.shared.var) : ∀ j, P (c'.loc j) c'.shared.var := by
  obtain ⟨l, sh, he, hsh, hl, hother⟩ := move_loc h
  intro j
  by_cases hj : j = i
  · subst hj
    rw [hsh, hl]
    exact hown _ _ _ _ _ (hP j) he
  · rw [hother j hj, hsh]
    by_cases hst : ∃ x v next, code i (c.loc i) = .store x v next
    · obtain ⟨x, v, next, hcode⟩ := hst
      exact hfree _ _ fun hh => hj (hexcl j i hh (hstore _ _ _ _ _ hcode))
    · rw [exec_var_eq he fun x v next hc => hst ⟨x, v, next, hc⟩]
      exact hP j

/-! ## What a process has done -/

/-- What an instruction takes from a semaphore. -/
def Instr.taken (s : Sem) : Instr Sem Var Loc → Int
  | .down t _ => if t = s then 1 else 0
  | .up t _ => if t = s then -1 else 0
  | _ => 0

/-- The downs on `s` that process `i` has executed in a history, less its ups. -/
def held (code : ι → Loc → Instr Sem Var Loc) (s : Sem) (i : ι) (h : List (Config ι Sem Var Loc × ι)) : Int :=
  (h.map fun x => if x.2 = i then (code i (x.1.loc i)).taken s else 0).sum

omit [DecidableEq Var] in
theorem held_concat (s : Sem) (i j : ι) (h : List (Config ι Sem Var Loc × ι)) :
    held code s i (h ++ [(c, j)]) = held code s i h + if j = i then (code i (c.loc i)).taken s else 0 := by
  simp [held]

theorem Weighed.taken {s : Sem} {w : Loc → Int} {l l' : Loc} {p : Instr Sem Var Loc} {sh sh' : Shared Sem Var}
    (hb : Weighed [s] w l p) (h : p.exec sh = some (l', sh')) : w l' = w l + p.taken s := by
  have hcount : ∀ t, (([s].count t : Nat) : Int) = if t = s then 1 else 0 := by
    intro t
    by_cases hts : t = s
    · simp [hts]
    · simp [hts, Ne.symm hts]
  cases p with
  | down t next =>
    simp only [Instr.exec] at h
    split at h
    · cases h
      rw [show w l' = w l + _ from hb, hcount]
      rfl
    · cases h
  | up t next =>
    simp only [Instr.exec] at h
    cases h
    have hb : w l' + _ = w l := hb
    rw [hcount] at hb
    simp only [Instr.taken]
    split at hb <;> simp_all
    omega
  | load x next => simp only [Instr.exec] at h; cases h; simpa [Instr.taken] using hb _
  | store x v next => simp only [Instr.exec] at h; cases h; simpa [Instr.taken, Weighed] using hb
  | jump next => simp only [Instr.exec] at h; cases h; simpa [Instr.taken, Weighed] using hb
  | halt => cases h

/-- A weight that every instruction moves as it moves `s` tells at each location what the process there
holds of `s`. -/
theorem held_eq {s : Sem} {w : Loc → Int} {c₀ : Config ι Sem Var Loc} {h : List (Config ι Sem Var Loc × ι)}
    (hb : ∀ i l, Weighed [s] w l (code i l)) (h0 : ∀ i, w (c₀.loc i) = 0)
    (hp : Run.Path (fun s i s' => move code s i = some s') c₀ h c) (i : ι) : held code s i h = w (c.loc i) := by
  induction hp with
  | start => exact (h0 i).symm
  | @step h c c' j hp hs ih =>
    obtain ⟨l, sh, he, -, hl, hother⟩ := move_loc hs
    rw [held_concat, ih]
    by_cases hij : j = i
    · subst hij
      rw [if_pos rfl, hl]
      exact ((hb j _).taken he).symm
    · rw [if_neg hij, hother i (Ne.symm hij), Int.add_zero]

end CS1550.Semaphore
