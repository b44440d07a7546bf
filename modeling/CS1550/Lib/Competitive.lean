/-
First in, first out against any other rule, over the same requests. The pages of a queue that the other memory does
not hold are weighed by their ranks, 1 for the oldest one (`weight`). An eviction of the other memory adds at most
`n`, one of the queue takes `n - h + 1` away, and so the queue with `n` frames evicts at most `n / (n - h + 1)` times
as often as any rule with `h` (`Queue.Run.evictions_le`).
-/
import CS1550.Lib.Paging

namespace CS1550.Paging

variable {Page : Type}

namespace Queue

/-! ## Runs -/

/-- A request for `x` in a queue of at most `n` pages, the oldest one first: the number of evictions and the queue
afterwards. -/
inductive Access (n : ℕ) (q : List Page) (x : Page) : ℕ → List Page → Prop
  | hit : x ∈ q → Access n q x 0 q
  | fill : x ∉ q → q.length < n → Access n q x 0 (q ++ [x])
  | evict {p : Page} {q' : List Page} : x ∉ q → q = p :: q' → q.length = n → Access n q x 1 (q' ++ [x])

/-- Requests one after the other: the number of evictions and the queue afterwards. -/
inductive Run (n : ℕ) : List Page → List Page → ℕ → List Page → Prop
  | nil (q : List Page) : Run n q [] 0 q
  | cons {q q' q'' : List Page} {x : Page} {rest : List Page} {e e' : ℕ} :
      Access n q x e q' → Run n q' rest e' q'' → Run n q (x :: rest) (e + e') q''

theorem Access.nodup {n e : ℕ} {q q' : List Page} {x : Page} (h : Access n q x e q') (hq : q.Nodup) : q'.Nodup := by
  cases h with
  | hit _ => exact hq
  | fill hx _ => exact List.nodup_append.2 ⟨hq, List.nodup_singleton x, by rintro a ha b hb rfl; simp_all⟩
  | @evict p q' hx hcons _ =>
    subst hcons
    have hx' : x ∉ q' := fun hmem => hx (List.mem_cons_of_mem _ hmem)
    refine List.nodup_append.2 ⟨(List.nodup_cons.1 hq).2, List.nodup_singleton x, ?_⟩
    rintro a ha b hb rfl
    exact hx' (List.mem_singleton.1 hb ▸ ha)

theorem Access.length_le {n e : ℕ} {q q' : List Page} {x : Page} (h : Access n q x e q') (hq : q.length ≤ n) :
    q'.length ≤ n := by
  cases h with
  | hit _ => exact hq
  | fill _ hlt =>
    rw [List.length_append, List.length_singleton]
    exact hlt
  | evict _ hcons hlen =>
    subst hcons
    rw [List.length_append, List.length_singleton]
    exact hlen.le

/-! ## The weight of a queue -/

variable [DecidableEq Page]

/-- The pages of the queue that are not in `R`. -/
def outside (R : Finset Page) (q : List Page) : ℕ := q.countP (· ∉ R)

/-- Their ranks, the first page of the queue having rank `j + 1`. -/
def weight (R : Finset Page) : ℕ → List Page → ℕ
  | _, [] => 0
  | j, p :: q => (if p ∈ R then 0 else j + 1) + weight R (j + 1) q

theorem outside_cons (R : Finset Page) (p : Page) (q : List Page) :
    outside R (p :: q) = outside R q + if p ∈ R then 0 else 1 := by
  by_cases hp : p ∈ R <;> simp [outside, hp]

theorem weight_succ (R : Finset Page) (j : ℕ) (q : List Page) : weight R (j + 1) q = weight R j q + outside R q := by
  induction q generalizing j with
  | nil => rfl
  | cons p q ih =>
    rw [weight, weight, ih (j + 1), outside_cons]
    split <;> omega

/-- When the oldest page leaves, all the others move up by one rank. -/
theorem weight_cons (R : Finset Page) (p : Page) (q : List Page) :
    weight R 0 (p :: q) = weight R 0 q + outside R (p :: q) := by
  rw [weight, weight_succ, outside_cons]
  split <;> omega

/-- A page that the other memory holds weighs nothing. -/
theorem weight_concat {R : Finset Page} {x : Page} (hx : x ∈ R) (j : ℕ) (q : List Page) :
    weight R j (q ++ [x]) = weight R j q := by
  induction q generalizing j with
  | nil => simp [weight, hx]
  | cons p q ih =>
    rw [List.cons_append, weight, weight, ih]

theorem weight_anti {R R' : Finset Page} (h : R ⊆ R') (j : ℕ) (q : List Page) : weight R' j q ≤ weight R j q := by
  induction q generalizing j with
  | nil => exact le_refl _
  | cons p q ih =>
    have hq := ih (j + 1)
    unfold weight
    by_cases hp : p ∈ R
    · rw [if_pos hp, if_pos (h hp)]
      omega
    · rw [if_neg hp]
      split <;> omega

theorem weight_erase_of_not_mem {R : Finset Page} {y : Page} {q : List Page} (hy : y ∉ q) (j : ℕ) :
    weight (R.erase y) j q = weight R j q := by
  induction q generalizing j with
  | nil => rfl
  | cons p q ih =>
    rw [List.mem_cons, not_or] at hy
    unfold weight
    rw [ih hy.2]
    simp [Ne.symm hy.1]

/-- A page that the other memory gives up counts with its rank. -/
theorem weight_erase_le {R : Finset Page} {q : List Page} (hq : q.Nodup) (y : Page) (j : ℕ) :
    weight (R.erase y) j q ≤ weight R j q + (j + q.length) := by
  induction q generalizing j with
  | nil => exact Nat.zero_le _
  | cons p q ih =>
    rw [List.nodup_cons] at hq
    have hrest := ih hq.2 (j + 1)
    unfold weight
    rw [List.length_cons]
    by_cases hp : p = y
    · subst hp
      rw [weight_erase_of_not_mem hq.1]
      simp only [Finset.mem_erase, ne_eq, not_true_eq_false, false_and, if_false]
      omega
    · simp only [Finset.mem_erase, ne_eq, hp, not_false_eq_true, true_and]
      omega

/-- The other memory holds the page that is asked for, and few of the others. -/
theorem le_outside {R : Finset Page} {q : List Page} {x : Page} {h : ℕ} (hq : q.Nodup) (hR : R.card ≤ h) (hx : x ∈ R)
    (hnot : x ∉ q) : q.length + 1 ≤ outside R q + h := by
  have hinside : (q.filter (· ∈ R)).length + 1 ≤ R.card := by
    have hsub : (q.filter (· ∈ R)).toFinset ⊆ R.erase x := by
      intro p hp
      rw [List.mem_toFinset, List.mem_filter] at hp
      refine Finset.mem_erase.2 ⟨?_, by simpa using hp.2⟩
      rintro rfl
      exact hnot hp.1
    have hcard := Finset.card_le_card hsub
    rw [List.toFinset_card_of_nodup (hq.filter _), Finset.card_erase_of_mem hx] at hcard
    have hpos := Finset.card_pos.2 ⟨x, hx⟩
    omega
  have hsplit := List.length_eq_countP_add_countP (fun p => decide (p ∈ R)) (l := q)
  rw [← List.countP_eq_length_filter] at hinside
  simp only [decide_eq_true_eq] at hsplit
  unfold outside
  omega

/-! ## One request -/

section Step

variable {E : Finset Page → List Page → Page → Prop} {n h e k : ℕ} {q q' : List Page} {R R' : Finset Page} {x : Page}
  {rest : List Page}

/-- The other memory alone. -/
theorem weight_access (hq : q.Nodup) (hlen : q.length ≤ n) (hP : Paging.Access E h R x rest k R') :
    weight R' 0 q + n * R'.card ≤ weight R 0 q + n * (k + R.card) := by
  cases hP with
  | hit _ =>
    rw [Nat.zero_add]
  | fill hx _ =>
    have hle := weight_anti (Finset.subset_insert x R) 0 q
    rw [Finset.card_insert_of_notMem hx, Nat.add_comm 1]
    omega
  | evict y hx _ hy _ =>
    have hle := weight_anti (Finset.subset_insert x (R.erase y)) 0 q
    have herase := weight_erase_le hq y 0 (R := R)
    rw [Finset.card_insert_of_notMem fun hmem => hx (Finset.mem_of_mem_erase hmem), Finset.card_erase_add_one hy,
      Nat.mul_add n 1]
    omega

theorem weight_step (hq : q.Nodup) (hlen : q.length ≤ n) (hR : R.card ≤ h) (hF : Access n q x e q')
    (hP : Paging.Access E h R x rest k R') :
    (n + 1 - h) * e + weight R' 0 q' + n * R'.card ≤ weight R 0 q + n * (k + R.card) := by
  have hother := weight_access hq hlen hP
  cases hF with
  | hit _ =>
    rw [Nat.mul_zero]
    omega
  | fill _ _ =>
    rw [weight_concat hP.mem, Nat.mul_zero]
    omega
  | @evict p q' hx hcons hfull =>
    have hout := le_outside hq (hP.card_le hR) hP.mem hx
    subst hcons
    rw [weight_cons] at hother
    rw [weight_concat hP.mem, Nat.mul_one]
    omega

end Step

/-! ## Whole runs -/

section Run

variable {E : Finset Page → List Page → Page → Prop} {n h e k : ℕ} {q q' : List Page} {R R' : Finset Page}
  {xs : List Page}

theorem Run.weight_le (hF : Run n q xs e q') (hP : Paging.Run E h R xs k R') (hq : q.Nodup) (hlen : q.length ≤ n)
    (hR : R.card ≤ h) : (n + 1 - h) * e + weight R' 0 q' + n * R'.card ≤ weight R 0 q + n * (k + R.card) := by
  induction hF generalizing R k with
  | nil q =>
    cases hP
    rw [Nat.mul_zero, Nat.zero_add, Nat.zero_add]
  | @cons q q₁ q₂ x rest e₁ e₂ hstep _ ih =>
    cases hP with
    | @cons _ R₁ _ _ _ k₁ k₂ hother hrest =>
      have hone := weight_step hq hlen hR hstep hother
      have hmore := ih hrest (hstep.nodup hq) (hstep.length_le hlen) (hother.card_le hR)
      rw [Nat.mul_add n] at hone hmore
      rw [Nat.add_assoc k₁, Nat.mul_add, Nat.mul_add n, Nat.mul_add n]
      omega

/-- From empty memories. What an other memory has brought in and does not hold any more, it has evicted. -/
theorem Run.evictions_le (hF : Run n [] xs e q') (hP : Paging.Run E h ∅ xs k R') :
    (n + 1 - h) * e ≤ n * (k - R'.card) := by
  have hle := hF.weight_le hP List.nodup_nil (Nat.zero_le n) (Nat.zero_le h)
  rw [weight, Finset.card_empty, Nat.add_zero k, Nat.zero_add] at hle
  rw [Nat.mul_sub]
  omega

end Run

end Queue

/-! ## The frames in use -/

section Together

variable [DecidableEq Page] {E E' : Finset Page → List Page → Page → Prop} {n k k' : ℕ} {R R' S S' : Finset Page} {x : Page}
  {rest xs : List Page}

theorem Access.card_le_add (h : Access E n R x rest k R') : R'.card ≤ R.card + k := by
  cases h with
  | hit _ => exact le_refl _
  | fill hx _ => rw [Finset.card_insert_of_notMem hx]
  | evict q hx _ hq _ =>
    rw [Finset.card_insert_of_notMem fun hmem => hx (Finset.mem_of_mem_erase hmem), Finset.card_erase_add_one hq]
    exact Nat.le_succ _

theorem Run.card_le_add (h : Run E n R xs k R') : R'.card ≤ R.card + k := by
  induction h with
  | nil R => exact le_refl _
  | cons hfirst _ ih =>
    have hle := hfirst.card_le_add
    omega

/-- Two memories of one size that use equally many frames, and hold the same pages as long as some are free. -/
def Together (n : ℕ) (R S : Finset Page) : Prop := R.card = S.card ∧ R.card ≤ n ∧ (R.card < n → R = S)

theorem Access.full (h : Access E n R x rest k R') (hR : R.card = n) : R'.card = n := by
  cases h with
  | hit _ => exact hR
  | fill _ hlt => omega
  | evict q hx _ hq _ =>
    rw [Finset.card_insert_of_notMem fun hmem => hx (Finset.mem_of_mem_erase hmem), Finset.card_erase_add_one hq]
    exact hR

theorem Access.free (h : Access E n R x rest k R') (hR : R.card < n) : R' = insert x R := by
  cases h with
  | hit hx => exact (Finset.insert_eq_of_mem hx).symm
  | fill _ _ => rfl
  | evict q _ hfull _ _ => omega

theorem Together.access (h : Together n R S) (hR : Access E n R x rest k R') (hS : Access E' n S x rest k' S') :
    Together n R' S' := by
  obtain ⟨hcard, hle, hsame⟩ := h
  rcases Nat.lt_or_ge R.card n with hlt | hge
  · obtain rfl := hsame hlt
    obtain rfl := hR.free hlt
    obtain rfl := hS.free hlt
    exact ⟨rfl, hR.card_le hle, fun _ => rfl⟩
  · have hR' := hR.full (by omega)
    have hS' := hS.full (by omega)
    exact ⟨by omega, by omega, fun hlt => by omega⟩

/-- How many frames come into use does not depend on the rule. -/
theorem Together.run (hR : Run E n R xs k R') (hS : Run E' n S xs k' S') (h : Together n R S) : Together n R' S' := by
  induction hR generalizing S k' with
  | nil R =>
    cases hS
    exact h
  | cons hfirst _ ih =>
    cases hS with
    | cons hother hrest => exact ih hrest (h.access hfirst hother)

end Together

end CS1550.Paging
