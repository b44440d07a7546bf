/-
Demand paging over an arbitrary type of pages: a memory of `n` frames seen as the finite set of
its resident pages, runs of it over a sequence of requests under any rule for evictions, and the
optimality of evicting a page whose next use is furthest away. The comparison also allows the
other memory fewer frames.

The proof is one counting invariant (`Ahead`) between two memories over the same requests: for
every `t`, the pages requested within the next `t` requests that the other memory holds are at
most those the furthest-use memory holds, plus the faults it has saved so far.
-/
import Mathlib.Data.Finset.Card
import Mathlib.Data.Finset.Insert
import Mathlib.Tactic.SplitIfs

namespace CS1550.Paging

variable {Page : Type} [DecidableEq Page]

/-! ## Runs -/

/-- One request for `x` in a memory of `n` frames holding `R`, before the requests `rest`: the
number of faults (0 or 1) and the pages held afterwards. A page leaves only on a fault with all
frames taken, and only as the rule `E` allows. -/
inductive Access (E : Finset Page → List Page → Page → Prop) (n : ℕ) (R : Finset Page) (x : Page)
    (rest : List Page) : ℕ → Finset Page → Prop
  | hit : x ∈ R → Access E n R x rest 0 R
  | fill : x ∉ R → R.card < n → Access E n R x rest 1 (insert x R)
  | evict (q : Page) : x ∉ R → R.card = n → q ∈ R → E R rest q →
      Access E n R x rest 1 (insert x (R.erase q))

/-- A run over a sequence of requests, with its number of faults. -/
inductive Run (E : Finset Page → List Page → Page → Prop) (n : ℕ) :
    Finset Page → List Page → ℕ → Finset Page → Prop
  | nil (R : Finset Page) : Run E n R [] 0 R
  | cons {R R' R'' : Finset Page} {x : Page} {rest : List Page} {k m : ℕ} :
      Access E n R x rest k R' → Run E n R' rest m R'' → Run E n R (x :: rest) (k + m) R''

/-- `q` has the furthest next use among `R`: whenever `q` is requested within the next `t`
requests, so is every page of `R`. -/
def Furthest (R : Finset Page) (rest : List Page) (q : Page) : Prop :=
  ∀ p ∈ R, ∀ t, q ∈ rest.take t → p ∈ rest.take t

/-! ## Counting the pages needed soon -/

/-- The number of pages of `R` requested within the next `t` requests. -/
def soon (xs : List Page) (t : ℕ) (R : Finset Page) : ℕ := (R.filter (· ∈ xs.take t)).card

theorem soon_le_card (xs : List Page) (t : ℕ) (R : Finset Page) : soon xs t R ≤ R.card :=
  Finset.card_filter_le _ _

theorem soon_mono (xs : List Page) (t : ℕ) {R S : Finset Page} (h : R ⊆ S) : soon xs t R ≤ soon xs t S :=
  Finset.card_le_card (Finset.filter_subset_filter _ h)

theorem soon_eq_card {xs : List Page} {t : ℕ} {R : Finset Page} (h : ∀ p ∈ R, p ∈ xs.take t) :
    soon xs t R = R.card := by
  unfold soon; rw [Finset.filter_true_of_mem h]

theorem soon_erase_of_not_mem {xs : List Page} {t : ℕ} (R : Finset Page) {q : Page} (h : q ∉ xs.take t) :
    soon xs t (R.erase q) = soon xs t R := by
  unfold soon
  congr 1
  ext p
  simp only [Finset.mem_filter, Finset.mem_erase]
  constructor
  · rintro ⟨⟨-, h1⟩, h2⟩; exact ⟨h1, h2⟩
  · rintro ⟨h1, h2⟩; exact ⟨⟨fun e => h (e ▸ h2), h1⟩, h2⟩

/-- Splitting off the page `x` itself. -/
theorem soon_erase_add (xs : List Page) (t : ℕ) (R : Finset Page) (x : Page) :
    soon xs t R = soon xs t (R.erase x) + if x ∈ R ∧ x ∈ xs.take t then 1 else 0 := by
  unfold soon
  rw [Finset.filter_erase]
  split_ifs with h
  · rw [Finset.card_erase_add_one (Finset.mem_filter.2 h)]
  · rw [Finset.erase_eq_of_notMem (fun hm => h (Finset.mem_filter.1 hm))]; rfl

/-- The count one request earlier: the requested page itself, and the others as counted after it. -/
theorem soon_cons (x : Page) (xs : List Page) (t : ℕ) (R : Finset Page) :
    soon (x :: xs) (t + 1) R = soon xs t (R.erase x) + if x ∈ R then 1 else 0 := by
  rw [soon_erase_add (x :: xs) (t + 1) R x]
  have hsame : soon (x :: xs) (t + 1) (R.erase x) = soon xs t (R.erase x) := by
    unfold soon
    congr 1
    refine Finset.filter_congr fun p hp => ?_
    have hne := (Finset.mem_erase.1 hp).1
    simp [hne]
  rw [hsame]
  simp

/-! ## One request -/

/-- What any rule does with the other pages on a request: a hit keeps them; a fault keeps at most
them, and fewer than `n`. -/
theorem Access.others {E : Finset Page → List Page → Page → Prop} {n k : ℕ} {R R' : Finset Page}
    {x : Page} {rest : List Page} (h : Access E n R x rest k R') (t : ℕ) :
    (x ∈ R ∧ k = 0 ∧ soon rest t (R'.erase x) = soon rest t (R.erase x)) ∨
    (x ∉ R ∧ k = 1 ∧ soon rest t (R'.erase x) ≤ soon rest t (R.erase x) ∧ soon rest t (R'.erase x) < n) := by
  cases h with
  | hit hx => exact .inl ⟨hx, rfl, rfl⟩
  | fill hx hn =>
    refine .inr ⟨hx, rfl, ?_, ?_⟩
    · rw [Finset.erase_insert hx, Finset.erase_eq_of_notMem hx]
    · rw [Finset.erase_insert hx]; exact lt_of_le_of_lt (soon_le_card _ _ _) hn
  | evict q hx hn hq _ =>
    have hxq : x ∉ R.erase q := fun hm => hx (Finset.mem_of_mem_erase hm)
    refine .inr ⟨hx, rfl, ?_, ?_⟩
    · rw [Finset.erase_insert hxq, Finset.erase_eq_of_notMem hx]
      exact soon_mono _ _ (Finset.erase_subset _ _)
    · rw [Finset.erase_insert hxq]
      have hlt := Finset.card_erase_lt_of_mem hq
      have := soon_le_card rest t (R.erase q)
      omega

/-- What a furthest-use eviction keeps: every other page that is needed soon, unless all `n` pages
are and one has to go. -/
theorem Access.furthest_others {n k : ℕ} {R R' : Finset Page} {x : Page} {rest : List Page}
    (h : Access Furthest n R x rest k R') (t : ℕ) :
    (x ∈ R ∧ k = 0 ∧ soon rest t (R'.erase x) = soon rest t (R.erase x)) ∨
    (x ∉ R ∧ k = 1 ∧ (soon rest t (R'.erase x) = soon rest t (R.erase x) ∨ n ≤ soon rest t (R'.erase x) + 1)) := by
  cases h with
  | hit hx => exact .inl ⟨hx, rfl, rfl⟩
  | fill hx hn =>
    refine .inr ⟨hx, rfl, .inl ?_⟩
    rw [Finset.erase_insert hx, Finset.erase_eq_of_notMem hx]
  | evict q hx hn hq hfar =>
    have hxq : x ∉ R.erase q := fun hm => hx (Finset.mem_of_mem_erase hm)
    refine .inr ⟨hx, rfl, ?_⟩
    rw [Finset.erase_insert hxq, Finset.erase_eq_of_notMem hx]
    by_cases hqt : q ∈ rest.take t
    · right
      rw [soon_eq_card fun p hp => hfar p (Finset.mem_of_mem_erase hp) t hqt, Finset.card_erase_add_one hq, hn]
    · exact .inl (soon_erase_of_not_mem R hqt)

theorem Access.mem {E : Finset Page → List Page → Page → Prop} {n k : ℕ} {R R' : Finset Page}
    {x : Page} {rest : List Page} (h : Access E n R x rest k R') : x ∈ R' := by
  cases h with
  | hit hx => exact hx
  | fill _ _ => exact Finset.mem_insert_self _ _
  | evict _ _ _ _ _ => exact Finset.mem_insert_self _ _

theorem Access.card_le {E : Finset Page → List Page → Page → Prop} {n k : ℕ} {R R' : Finset Page}
    {x : Page} {rest : List Page} (h : Access E n R x rest k R') (hR : R.card ≤ n) : R'.card ≤ n := by
  cases h with
  | hit _ => exact hR
  | fill hx hn => rw [Finset.card_insert_of_notMem hx]; exact hn
  | evict q hx hn hq _ =>
    rw [Finset.card_insert_of_notMem (fun hm => hx (Finset.mem_of_mem_erase hm)), Finset.card_erase_add_one hq]
    exact hn.le

/-! ## The comparison -/

/-- `O` is at most `d` pages behind `P` on the requests `xs`: for every `t`, of the pages requested
within the next `t` requests `P` holds at most `d` more than `O`. -/
def Ahead (xs : List Page) (O P : Finset Page) (d : ℕ) : Prop := ∀ t, soon xs t P ≤ soon xs t O + d

theorem ahead_refl (xs : List Page) (R : Finset Page) : Ahead xs R R 0 := fun _ => le_refl _

/-- One request: the furthest-use memory with `N ≥ n` frames stays at most `d'` behind, where `d'`
is `d` corrected by the faults of the two memories on this request. -/
theorem ahead_step {E : Finset Page → List Page → Page → Prop} {n N a b d : ℕ} {O O' P P' : Finset Page}
    {x : Page} {rest : List Page} (hnN : n ≤ N) (hP : P.card ≤ n) (h : Ahead (x :: rest) O P d)
    (hO' : Access Furthest N O x rest a O') (hP' : Access E n P x rest b P') :
    ∃ d', d' + a = d + b ∧ Ahead rest O' P' d' := by
  have hhere := h 1
  rw [soon_cons, soon_cons] at hhere
  simp only [soon, List.take_zero, List.not_mem_nil, Finset.filter_false, Finset.card_empty, Nat.zero_add] at hhere
  have hab : a ≤ d + b := by
    rcases hO'.others 0 with ⟨ho, rfl, -⟩ | ⟨ho, rfl, -⟩ <;> rcases hP'.others 0 with ⟨hp, rfl, -⟩ | ⟨hp, rfl, -⟩
    all_goals simp only [ho, hp, if_true, if_false] at hhere; omega
  refine ⟨d + b - a, by omega, fun t => ?_⟩
  have ht := h (t + 1)
  rw [soon_cons, soon_cons] at ht
  rw [soon_erase_add rest t P' x, soon_erase_add rest t O' x]
  simp only [hP'.mem, hO'.mem, true_and]
  -- the accessed page counts alike on both sides; the others are compared by the kind of request
  suffices hothers : soon rest t (P'.erase x) ≤ soon rest t (O'.erase x) + (d + b - a) by omega
  rcases hP'.others t with ⟨hp, rfl, hpe⟩ | ⟨hp, rfl, hple, hpn⟩ <;>
    rcases hO'.furthest_others t with ⟨ho, rfl, hoe⟩ | ⟨ho, rfl, hoe⟩ <;>
    simp only [ho, hp, if_true, if_false] at ht hhere
  · omega
  · -- `P` hits and `O` faults: `O` was behind by at least this page
    have hlt := Finset.card_erase_lt_of_mem hp
    have := soon_le_card rest t (P.erase x)
    omega
  · omega
  · omega

/-- Belady's theorem with a head start: on the same requests, evicting a page with the furthest
next use and having at least as many frames, a memory at most `d` pages behind another one has at
most `d` more faults, whatever the rule the other one evicts by. -/
theorem Run.furthest_le_add {E : Finset Page → List Page → Page → Prop} {n N : ℕ} (hnN : n ≤ N) :
    ∀ {xs : List Page} {O O' P P' : Finset Page} {k m d : ℕ}, P.card ≤ n → Ahead xs O P d →
      Run Furthest N O xs k O' → Run E n P xs m P' → k ≤ m + d
  | [], _, _, _, _, _, _, _, _, _, .nil _, .nil _ => Nat.zero_le _
  | _ :: _, _, _, _, _, _, _, _, hP, h, .cons hO hO's, .cons hA hA's => by
    obtain ⟨d', hd, h'⟩ := ahead_step hnN hP h hO hA
    have := Run.furthest_le_add hnN (hA.card_le hP) h' hO's hA's
    omega

/-- Belady's theorem: from the same pages, the furthest-use rule with `N ≥ n` frames has at most as
many faults as any rule with `n` frames. -/
theorem Run.furthest_le {E : Finset Page → List Page → Page → Prop} {n N : ℕ} (hnN : n ≤ N)
    {xs : List Page} {R O' P' : Finset Page} {k m : ℕ} (hR : R.card ≤ n)
    (hO : Run Furthest N R xs k O') (hP : Run E n R xs m P') : k ≤ m :=
  Run.furthest_le_add hnN hR (ahead_refl xs R) hO hP

end CS1550.Paging
