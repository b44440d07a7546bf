/-
Demand paging with write-back, over an arbitrary type of pages: a memory is the set of the pages held and of
those of them that were stored to, and a page that leaves dirty is written. Runs are functions of time.

What the counters of a run mean over its history is read off the intervals during which a page is held
(`Since`, `Residency`): a page is dirty exactly when it was stored to in its interval, and the writes are the
completed intervals with a store. Two runs that both give up a page with the furthest next use differ only in
pages that are not requested again (`Matched`), and giving up clean ones of these first writes least.
-/
import CS1550.Lib.Paging
import Mathlib.Algebra.BigOperators.Group.Finset.Basic
import Mathlib.Data.Finset.Dedup
import Mathlib.Data.Set.Card

namespace CS1550.Writeback

variable {Page : Type}

/-! ## Memories -/

/-- The pages held, and those of them that were stored to. -/
@[ext] structure Memory (Page : Type) where
  held : Finset Page
  dirty : Finset Page
  sub : dirty ⊆ held

/-- The memory at first. -/
protected def Memory.empty : Memory Page := ⟨∅, ∅, Finset.Subset.refl _⟩

@[simp] theorem Memory.mem_held_empty (p : Page) : p ∉ (Memory.empty : Memory Page).held := Finset.notMem_empty p

/-! ## Histories -/

variable {xs : List (Page × Bool)} {mem : ℕ → Memory Page} {p q x : Page} {i j t : ℕ}

/-- Request `i` loads `p`. -/
def Loaded (xs : List (Page × Bool)) (mem : ℕ → Memory Page) (p : Page) (i : ℕ) : Prop :=
  (∃ store, xs[i]? = some (p, store)) ∧ p ∉ (mem i).held

/-- At time `t` the page is held, and its most recent load was by request `i`. -/
structure Since (xs : List (Page × Bool)) (mem : ℕ → Memory Page) (p : Page) (i t : ℕ) : Prop where
  loaded : Loaded xs mem p i
  lt : i < t
  kept : ∀ k, i < k → k ≤ t → p ∈ (mem k).held

/-- A completed residency: loaded by request `i`, given up at request `j`. -/
structure Residency (xs : List (Page × Bool)) (mem : ℕ → Memory Page) (p : Page) (i j : ℕ) : Prop
    extends Since xs mem p i j where
  left : p ∉ (mem (j + 1)).held

/-- There is a store to `p` from request `i` on and before request `t`. -/
def Stored (xs : List (Page × Bool)) (p : Page) (i t : ℕ) : Prop := ∃ k, i ≤ k ∧ k < t ∧ xs[k]? = some (p, true)

theorem Since.unique (h : Since xs mem p i t) (h' : Since xs mem p j t) : i = j := by
  rcases lt_trichotomy i j with hij | hij | hij
  · exact absurd (h.kept j hij h'.lt.le) h'.loaded.2
  · exact hij
  · exact absurd (h'.kept i hij h.lt.le) h.loaded.2

theorem Since.extend (h : Since xs mem p i t) (hp : p ∈ (mem (t + 1)).held) : Since xs mem p i (t + 1) := by
  refine ⟨h.loaded, h.lt.trans (Nat.lt_succ_self t), fun k hk hkt => ?_⟩
  rcases Nat.lt_or_eq_of_le hkt with hlt | rfl
  · exact h.kept k hk (by omega)
  · exact hp

theorem stored_succ {y : Page × Bool} (h : xs[t]? = some y) (hi : i ≤ t) :
    Stored xs p i (t + 1) ↔ Stored xs p i t ∨ y = (p, true) := by
  constructor
  · rintro ⟨k, hik, hkt, hk⟩
    rcases Nat.lt_or_eq_of_le (Nat.le_of_lt_succ hkt) with hlt | rfl
    · exact .inl ⟨k, hik, hlt, hk⟩
    · rw [h] at hk
      exact .inr (Option.some.inj hk)
  · rintro (⟨k, hik, hkt, hk⟩ | rfl)
    · exact ⟨k, hik, hkt.trans (Nat.lt_succ_self t), hk⟩
    · exact ⟨t, hi, Nat.lt_succ_self t, h⟩

theorem not_stored_self : ¬ Stored xs p t t := fun ⟨_, hik, hkt, _⟩ => by omega

/-- What holds at the start and is kept by every access holds at every time. -/
theorem at_every_time {P : ℕ → Prop} (h0 : P 0) (hstep : ∀ t x store, xs[t]? = some (x, store) → P t → P (t + 1)) :
    ∀ t ≤ xs.length, P t
  | 0, _ => h0
  | t + 1, ht => by
    have hget : xs[t]? = some (xs[t].1, xs[t].2) := List.getElem?_eq_getElem ht
    exact hstep t _ _ hget (at_every_time h0 hstep t (by omega))

/-! ## Accesses -/

variable [DecidableEq Page]

namespace Memory

/-- The memory without a page. -/
def drop (S : Memory Page) (q : Page) : Memory Page where
  held := S.held.erase q
  dirty := S.dirty.erase q
  sub := Finset.erase_subset_erase q S.sub

/-- The memory after an access of `x`, a store or not. -/
def touch (S : Memory Page) (x : Page) (store : Bool) : Memory Page where
  held := insert x S.held
  dirty := if store then insert x S.dirty else S.dirty
  sub := by
    split
    · exact Finset.insert_subset_insert x S.sub
    · exact S.sub.trans (Finset.subset_insert x S.held)

variable {S : Memory Page} {store : Bool}

@[simp] theorem mem_held_drop : p ∈ (S.drop q).held ↔ p ≠ q ∧ p ∈ S.held := Finset.mem_erase

@[simp] theorem mem_dirty_drop : p ∈ (S.drop q).dirty ↔ p ≠ q ∧ p ∈ S.dirty := Finset.mem_erase

@[simp] theorem mem_held_touch : p ∈ (S.touch x store).held ↔ p = x ∨ p ∈ S.held := Finset.mem_insert

@[simp] theorem mem_dirty_touch : p ∈ (S.touch x store).dirty ↔ p = x ∧ store = true ∨ p ∈ S.dirty := by
  unfold touch
  cases store <;> simp

theorem card_drop (h : q ∈ S.held) : (S.drop q).held.card + 1 = S.held.card := Finset.card_erase_add_one h

theorem card_touch (h : x ∉ S.held) : (S.touch x store).held.card = S.held.card + 1 := Finset.card_insert_of_notMem h

theorem touch_held (h : x ∈ S.held) : (S.touch x store).held = S.held := Finset.insert_eq_of_mem h

end Memory

/-! ## Runs -/

/-- One access of `x` in a memory of `n` frames, with its faults and writes. A page leaves only on a fault with
all frames taken, and only as the rule `E` allows. -/
inductive Step (E : Page → Prop) (n : ℕ) (S : Memory Page) (x : Page) (store : Bool) : ℕ → ℕ → Memory Page → Prop
  | hit : x ∈ S.held → Step E n S x store 0 0 (S.touch x store)
  | fill : x ∉ S.held → S.held.card < n → Step E n S x store 1 0 (S.touch x store)
  | evict (q : Page) : x ∉ S.held → S.held.card = n → q ∈ S.held → E q →
      Step E n S x store 1 (if q ∈ S.dirty then 1 else 0) ((S.drop q).touch x store)

/-- The pages requested after time `t`. -/
def after (xs : List (Page × Bool)) (t : ℕ) : List Page := (xs.drop (t + 1)).map Prod.fst

/-- A run over the accesses `xs` from the empty memory: the memory, the faults and the writes before each
access, and after the last one. The rule for evictions sees the pages still to come. -/
structure Run (E : Memory Page → List Page → Page → Prop) (n : ℕ) (xs : List (Page × Bool)) (mem : ℕ → Memory Page)
    (faults writes : ℕ → ℕ) : Prop where
  empty : mem 0 = Memory.empty
  noFaults : faults 0 = 0
  noWrites : writes 0 = 0
  step : ∀ {t x store}, xs[t]? = some (x, store) → ∃ f w, Step (E (mem t) (after xs t)) n (mem t) x store f w (mem (t + 1)) ∧
    faults (t + 1) = faults t + f ∧ writes (t + 1) = writes t + w

variable {E : Memory Page → List Page → Page → Prop} {n : ℕ} {faults writes : ℕ → ℕ}

/-- What an access does to the memory: nothing leaves, or the page that is given up does. -/
theorem Step.left {E : Page → Prop} {S S' : Memory Page} {store : Bool} {f w : ℕ} (h : Step E n S x store f w S') :
    (S.held \ S'.held = ∅ ∧ S'.held.card = S.held.card + f ∧ w = 0) ∨
      ∃ q, E q ∧ S.held \ S'.held = {q} ∧ q ∈ S.held ∧ S.held.card = n ∧ x ∉ S.held ∧ S'.held.card = S.held.card ∧ f = 1 ∧
        w = if q ∈ S.dirty then 1 else 0 := by
  cases h with
  | hit hx => exact .inl ⟨by rw [Memory.touch_held hx, Finset.sdiff_self], by rw [Memory.touch_held hx, Nat.add_zero], rfl⟩
  | fill hx hn =>
    exact .inl ⟨Finset.sdiff_eq_empty_iff_subset.2 (Finset.subset_insert x S.held), Memory.card_touch hx, rfl⟩
  | evict q hx hn hq hE =>
    refine .inr ⟨q, hE, ?_, hq, hn, hx, ?_, rfl, rfl⟩
    · ext p
      simp only [Finset.mem_sdiff, Memory.mem_held_touch, Memory.mem_held_drop, Finset.mem_singleton]
      constructor
      · rintro ⟨hp, hnot⟩
        by_contra hpq
        exact hnot (.inr ⟨hpq, hp⟩)
      · rintro rfl
        refine ⟨hq, ?_⟩
        rintro (rfl | ⟨hne, -⟩)
        · exact hx hq
        · exact hne rfl
    · rw [Memory.card_touch (fun h => hx (Memory.mem_held_drop.1 h).2), Memory.card_drop hq]

/-- The accessed page afterwards. -/
theorem Step.accessed {E : Page → Prop} {S S' : Memory Page} {store : Bool} {f w : ℕ} (h : Step E n S x store f w S') :
    x ∈ S'.held ∧ (x ∈ S'.dirty ↔ store = true ∨ x ∈ S.dirty) := by
  cases h with
  | hit hx => simp
  | fill hx hn => simp
  | evict q hx hn hq hE =>
    have hxq : x ≠ q := fun h => hx (h ▸ hq)
    simp [hxq]

/-- Every other page of the memory afterwards was there before, as it is. -/
theorem Step.others {E : Page → Prop} {S S' : Memory Page} {store : Bool} {f w : ℕ} (h : Step E n S x store f w S')
    (hne : p ≠ x) (hp : p ∈ S'.held) : p ∈ S.held ∧ (p ∈ S'.dirty ↔ p ∈ S.dirty) := by
  cases h with
  | hit hx => simpa [hne] using hp
  | fill hx hn => simpa [hne] using hp
  | evict q hx hn hq hE =>
    have hpq : p ≠ q ∧ p ∈ S.held := by simpa [hne] using hp
    simp [hne, hpq.1, hpq.2]

/-- The rule for evictions matters only for the page that leaves. -/
theorem Step.imp {E E' : Page → Prop} {S S' : Memory Page} {store : Bool} {f w : ℕ} (h : Step E n S x store f w S')
    (hE : ∀ q, x ∉ S.held → S.held.card = n → q ∉ S'.held → E q → E' q) : Step E' n S x store f w S' := by
  cases h with
  | hit hx => exact .hit hx
  | fill hx hn => exact .fill hx hn
  | evict q hx hn hq hEq =>
    have hqx : q ≠ x := fun h => hx (h ▸ hq)
    exact .evict q hx hn hq (hE q hx hn (by simp [hqx]) hEq)

/-- An access faults exactly on a page that is not held. -/
theorem Step.faults_eq {E : Page → Prop} {S S' : Memory Page} {store : Bool} {f w : ℕ} (h : Step E n S x store f w S') :
    f = if x ∈ S.held then 0 else 1 := by
  cases h with
  | hit hx => rw [if_pos hx]
  | fill hx hn => rw [if_neg hx]
  | evict q hx hn hq hE => rw [if_neg hx]

/-! ## What the counters mean -/

/-- The number of times a page was given up before time `t`. -/
def evictions (mem : ℕ → Memory Page) (t : ℕ) : ℕ := ∑ k ∈ Finset.range t, ((mem k).held \ (mem (k + 1)).held).card

/-- The distinct pages requested before time `t`. -/
def requested (xs : List (Page × Bool)) (t : ℕ) : Finset Page := ((xs.take t).map Prod.fst).toFinset

theorem requested_succ {store : Bool} (h : xs[t]? = some (x, store)) : requested xs (t + 1) = insert x (requested xs t) := by
  ext p
  simp [requested, List.take_add_one, h]

theorem requested_mono (h : i ≤ j) : requested xs i ⊆ requested xs j := by
  intro p hp
  simp only [requested, List.mem_toFinset, List.mem_map] at hp ⊢
  obtain ⟨y, hy, rfl⟩ := hp
  exact ⟨y, (List.take_subset_take_left xs h) hy, rfl⟩

/-- Every held page has a most recent load, and is dirty exactly if it was stored to since. -/
theorem Run.since (h : Run E n xs mem faults writes) : ∀ t ≤ xs.length, ∀ p ∈ (mem t).held,
    ∃ i, Since xs mem p i t ∧ (p ∈ (mem t).dirty ↔ Stored xs p i t) := by
  refine at_every_time (fun p hp => absurd hp (by rw [h.empty]; simp)) fun t x store hx ih p hp => ?_
  obtain ⟨f, w, hstep, -, -⟩ := h.step hx
  by_cases hpx : p = x
  · subst hpx
    rw [hstep.accessed.2]
    by_cases hheld : p ∈ (mem t).held
    · obtain ⟨i, hsince, hdirty⟩ := ih p hheld
      refine ⟨i, hsince.extend hp, ?_⟩
      rw [stored_succ hx hsince.lt.le, hdirty, or_comm]
      simp
    · -- the page is loaded by this very access
      refine ⟨t, ⟨⟨⟨store, hx⟩, hheld⟩, Nat.lt_succ_self t, fun k hk hkt => ?_⟩, ?_⟩
      · obtain rfl : k = t + 1 := by omega
        exact hp
      · have hclean : p ∉ (mem t).dirty := fun hd => hheld ((mem t).sub hd)
        simp [stored_succ hx (le_refl t), not_stored_self, hclean]
  · obtain ⟨hheld, hsame⟩ := hstep.others hpx hp
    obtain ⟨i, hsince, hdirty⟩ := ih p hheld
    refine ⟨i, hsince.extend hp, ?_⟩
    rw [stored_succ hx hsince.lt.le, hsame, hdirty]
    simp [Ne.symm hpx]

/-- A residency that ends at `t` is the one of the page given up there. -/
theorem residency_at {i₀ : ℕ} (hleft : (mem t).held \ (mem (t + 1)).held = {q}) (hq : Since xs mem q i₀ t) :
    Residency xs mem p i t ↔ p = q ∧ i = i₀ := by
  have hgone : q ∈ (mem t).held \ (mem (t + 1)).held := by rw [hleft]; exact Finset.mem_singleton_self q
  constructor
  · intro h
    have hp : p ∈ (mem t).held \ (mem (t + 1)).held := Finset.mem_sdiff.2 ⟨h.kept t h.lt (le_refl t), h.left⟩
    rw [hleft, Finset.mem_singleton] at hp
    subst hp
    exact ⟨rfl, h.toSince.unique hq⟩
  · rintro ⟨rfl, rfl⟩
    exact ⟨hq, (Finset.mem_sdiff.1 hgone).2⟩

/-- The completed residencies with a store, counted. -/
theorem Run.writes_eq (h : Run E n xs mem faults writes) : ∀ t ≤ xs.length,
    ∃ F : Finset (Page × ℕ × ℕ), (∀ p i j, (p, i, j) ∈ F ↔ j < t ∧ Residency xs mem p i j ∧ Stored xs p i j) ∧
      F.card = writes t := by
  have hsince := h.since
  refine at_every_time ⟨∅, by simp, by simp [h.noWrites]⟩ fun t x store hx ⟨F, hF, hcard⟩ => ?_
  have htl : t ≤ xs.length := (List.getElem?_eq_some_iff.1 hx).1.le
  obtain ⟨f, w, hstep, -, hw⟩ := h.step hx
  -- the intervals that end at `t` are split off from the earlier ones
  have hsplit : ∀ {p i j}, j < t + 1 ∧ Residency xs mem p i j ∧ Stored xs p i j ↔
      (p, i, j) ∈ F ∨ j = t ∧ Residency xs mem p i t ∧ Stored xs p i t := by
    intro p i j
    rw [hF, Nat.lt_succ_iff_lt_or_eq]
    constructor
    · rintro ⟨hj | rfl, hr⟩
      · exact .inl ⟨hj, hr⟩
      · exact .inr ⟨rfl, hr⟩
    · rintro (⟨hj, hr⟩ | ⟨rfl, hr⟩)
      · exact ⟨.inl hj, hr⟩
      · exact ⟨.inr rfl, hr⟩
  rcases hstep.left with ⟨hnone, -, rfl⟩ | ⟨q, -, hleft, hq, -, -, -, -, rfl⟩
  · refine ⟨F, fun p i j => ?_, by rw [hcard, hw, Nat.add_zero]⟩
    rw [hsplit]
    refine ⟨.inl, ?_⟩
    rintro (hmem | ⟨-, hr, -⟩)
    · exact hmem
    · have hp : p ∈ (mem t).held \ (mem (t + 1)).held := Finset.mem_sdiff.2 ⟨hr.kept t hr.lt (le_refl t), hr.left⟩
      rw [hnone] at hp
      exact absurd hp (Finset.notMem_empty p)
  · obtain ⟨i₀, hs, hdirty⟩ := hsince t htl q hq
    by_cases hd : q ∈ (mem t).dirty
    · have hnew : (q, i₀, t) ∉ F := fun hmem => absurd ((hF _ _ _).1 hmem).1 (lt_irrefl t)
      refine ⟨insert (q, i₀, t) F, fun p i j => ?_, by rw [Finset.card_insert_of_notMem hnew, hcard, hw, if_pos hd]⟩
      rw [hsplit, residency_at hleft hs, Finset.mem_insert, Prod.mk.injEq, Prod.mk.injEq, or_comm]
      refine or_congr_right ⟨?_, ?_⟩
      · rintro ⟨rfl, rfl, rfl⟩
        exact ⟨rfl, ⟨rfl, rfl⟩, hdirty.1 hd⟩
      · rintro ⟨rfl, ⟨rfl, rfl⟩, -⟩
        exact ⟨rfl, rfl, rfl⟩
    · refine ⟨F, fun p i j => ?_, by rw [hcard, hw, if_neg hd, Nat.add_zero]⟩
      rw [hsplit, residency_at hleft hs]
      refine ⟨.inl, ?_⟩
      rintro (hmem | ⟨-, ⟨rfl, rfl⟩, hst⟩)
      · exact hmem
      · exact absurd (hdirty.2 hst) hd

/-- The writes are the completed residencies with a store. -/
theorem Run.writes_ncard (h : Run E n xs mem faults writes) (ht : t ≤ xs.length) :
    writes t = {r : Page × ℕ × ℕ | r.2.2 < t ∧ Residency xs mem r.1 r.2.1 r.2.2 ∧ Stored xs r.1 r.2.1 r.2.2}.ncard := by
  obtain ⟨F, hF, hcard⟩ := h.writes_eq t ht
  rw [← hcard, ← Set.ncard_coe_finset]
  congr 1
  ext ⟨p, i, j⟩
  exact hF p i j

/-- Every fault takes a new frame or another page's. -/
theorem Run.faults_eq (h : Run E n xs mem faults writes) : ∀ t ≤ xs.length,
    evictions mem t + (mem t).held.card = faults t := by
  refine at_every_time (by simp [evictions, h.empty, h.noFaults, Memory.empty]) fun t x store hx ih => ?_
  obtain ⟨f, w, hstep, hf, -⟩ := h.step hx
  rw [evictions, Finset.sum_range_succ, hf, ← ih, evictions]
  rcases hstep.left with ⟨hnone, hcard, -⟩ | ⟨q, -, hleft, -, -, -, hcard, rfl, -⟩
  · rw [hnone, hcard, Finset.card_empty]
    omega
  · rw [hleft, hcard, Finset.card_singleton]
    omega

/-- Only requested pages are held. -/
theorem Run.held_subset (h : Run E n xs mem faults writes) : ∀ t ≤ xs.length, (mem t).held ⊆ requested xs t := by
  refine at_every_time (fun p hp => absurd hp (by rw [h.empty]; simp)) fun t x store hx ih p hp => ?_
  obtain ⟨f, w, hstep, -, -⟩ := h.step hx
  rw [requested_succ hx, Finset.mem_insert]
  by_cases hpx : p = x
  · exact .inl hpx
  · exact .inr (ih (hstep.others hpx hp).1)

/-- Every distinct page costs a fault. -/
theorem Run.requested_le (h : Run E n xs mem faults writes) : ∀ t ≤ xs.length, (requested xs t).card ≤ faults t := by
  refine at_every_time (by simp [requested]) fun t x store hx ih => ?_
  have htl : t ≤ xs.length := (List.getElem?_eq_some_iff.1 hx).1.le
  obtain ⟨f, w, hstep, hf, -⟩ := h.step hx
  rw [requested_succ hx, hf, hstep.faults_eq]
  split
  · rename_i hheld
    rw [Finset.insert_eq_of_mem (h.held_subset t htl hheld)]
    exact ih
  · exact (Finset.card_insert_le x _).trans (Nat.succ_le_succ ih)

/-- With a frame for every distinct page nothing is given up. -/
theorem Run.nothing_left (h : Run E n xs mem faults writes) (ht : t ≤ xs.length) (hd : (requested xs t).card ≤ n)
    {k : ℕ} (hk : k < t) : (mem k).held \ (mem (k + 1)).held = ∅ := by
  have hx : xs[k]? = some (xs[k].1, xs[k].2) := List.getElem?_eq_getElem (by omega)
  obtain ⟨f, w, hstep, -, -⟩ := h.step hx
  rcases hstep.left with ⟨hnone, -⟩ | ⟨q, -, -, -, hn, hnot, -⟩
  · exact hnone
  · -- the pages held and the requested one would be more than there are
    have hsub : insert xs[k].1 (mem k).held ⊆ requested xs t := by
      refine Finset.Subset.trans ?_ (requested_mono (Nat.succ_le_of_lt hk))
      rw [requested_succ hx]
      exact Finset.insert_subset_insert _ (h.held_subset k (by omega))
    have hcard := Finset.card_le_card hsub
    rw [Finset.card_insert_of_notMem hnot] at hcard
    omega

theorem Run.few (h : Run E n xs mem faults writes) (ht : t ≤ xs.length) (hd : (requested xs t).card ≤ n) :
    faults t = (requested xs t).card ∧ writes t = 0 := by
  constructor
  · have hev : evictions mem t = 0 :=
      Finset.sum_eq_zero fun k hk => by rw [h.nothing_left ht hd (Finset.mem_range.1 hk), Finset.card_empty]
    have hfaults := h.faults_eq t ht
    have hle := h.requested_le t ht
    have hsub := Finset.card_le_card (h.held_subset t ht)
    omega
  · obtain ⟨F, hF, hcard⟩ := h.writes_eq t ht
    rw [← hcard, Finset.card_eq_zero, Finset.eq_empty_iff_forall_notMem]
    rintro ⟨p, i, j⟩ hmem
    obtain ⟨hj, hr, -⟩ := (hF p i j).1 hmem
    have hp : p ∈ (mem j).held \ (mem (j + 1)).held := Finset.mem_sdiff.2 ⟨hr.kept j hr.lt (le_refl j), hr.left⟩
    rw [h.nothing_left ht hd hj] at hp
    exact Finset.notMem_empty p hp

/-! ## Ties between pages that are not requested again -/

/-- A dirty page is given up only if every page that is not requested again is dirty. -/
def CleanFirst (S : Memory Page) (rest : List Page) (q : Page) : Prop :=
  q ∈ S.dirty → ∀ p ∈ S.held, p ∉ rest → p ∈ S.dirty

/-- The pages of `R` that are not requested again. -/
def dead (rest : List Page) (R : Finset Page) : Finset Page := R.filter (· ∉ rest)

/-- Two memories before the requests `rest`, and what they have written: they agree on the pages that are
requested again, and the writes that the first one has saved wait in its other pages. -/
structure Matched (rest : List Page) (O P : Memory Page) (w w' : ℕ) : Prop where
  held : ∀ p ∈ rest, (p ∈ O.held ↔ p ∈ P.held)
  dirty : ∀ p ∈ rest, (p ∈ O.dirty ↔ p ∈ P.dirty)
  card : O.held.card = P.held.card
  total : w + (dead rest O.dirty).card = w' + (dead rest P.dirty).card
  le : w ≤ w'

variable {rest : List Page} {O P : Memory Page} {w w' : ℕ} {q' : Page}

theorem mem_dead {R : Finset Page} : p ∈ dead rest R ↔ p ∈ R ∧ p ∉ rest := Finset.mem_filter

theorem dead_cons {R : Finset Page} (hx : x ∉ R) : dead (x :: rest) R = dead rest R := by
  ext p
  simp only [mem_dead, List.mem_cons, not_or]
  constructor
  · rintro ⟨hp, -, hr⟩
    exact ⟨hp, hr⟩
  · rintro ⟨hp, hr⟩
    exact ⟨hp, fun h => hx (h ▸ hp), hr⟩

/-- A request for a page that neither memory holds. -/
theorem matched_cons (hO : x ∉ O.held) (hP : x ∉ P.held) : Matched (x :: rest) O P w w' ↔ Matched rest O P w w' := by
  have hO' : x ∉ O.dirty := fun h => hO (O.sub h)
  have hP' : x ∉ P.dirty := fun h => hP (P.sub h)
  constructor
  · rintro ⟨hheld, hdirty, hcard, htotal, hle⟩
    rw [dead_cons hO', dead_cons hP'] at htotal
    exact ⟨fun p hp => hheld p (List.mem_cons_of_mem x hp), fun p hp => hdirty p (List.mem_cons_of_mem x hp), hcard,
      htotal, hle⟩
  · rintro ⟨hheld, hdirty, hcard, htotal, hle⟩
    refine ⟨?_, ?_, hcard, by rw [dead_cons hO', dead_cons hP']; exact htotal, hle⟩
    · simp only [List.mem_cons, forall_eq_or_imp, hO, hP, true_and]
      exact hheld
    · simp only [List.mem_cons, forall_eq_or_imp, hO', hP', true_and]
      exact hdirty

theorem dead_touch (S : Memory Page) (store : Bool) : (dead rest (S.touch x store).dirty).card =
    (dead (x :: rest) S.dirty).card + if x ∉ rest ∧ (store = true ∨ x ∈ S.dirty) then 1 else 0 := by
  split
  · rename_i hx
    rw [← Finset.card_insert_of_notMem (a := x) (s := dead (x :: rest) S.dirty) (by simp [mem_dead])]
    congr 1
    ext p
    simp only [mem_dead, Memory.mem_dirty_touch, Finset.mem_insert, List.mem_cons, not_or]
    by_cases hp : p = x
    · subst hp
      simp [hx.1, hx.2]
    · simp [hp]
  · rename_i hx
    rw [Nat.add_zero]
    congr 1
    ext p
    simp only [mem_dead, Memory.mem_dirty_touch, List.mem_cons, not_or]
    by_cases hp : p = x
    · subst hp
      simp only [true_and, not_true_eq_false, false_and, and_false, iff_false]
      exact fun h => hx ⟨h.2, h.1⟩
    · simp [hp]

theorem Matched.touch (h : Matched (x :: rest) O P w w') (store : Bool) :
    Matched rest (O.touch x store) (P.touch x store) w w' := by
  have hheld := h.held x List.mem_cons_self
  have hdirty := h.dirty x List.mem_cons_self
  refine ⟨fun p hp => ?_, fun p hp => ?_, ?_, ?_, h.le⟩
  · rw [Memory.mem_held_touch, Memory.mem_held_touch, h.held p (List.mem_cons_of_mem x hp)]
  · rw [Memory.mem_dirty_touch, Memory.mem_dirty_touch, h.dirty p (List.mem_cons_of_mem x hp)]
  · by_cases hx : x ∈ O.held
    · rw [Memory.touch_held hx, Memory.touch_held (hheld.1 hx), h.card]
    · rw [Memory.card_touch hx, Memory.card_touch (fun hP => hx (hheld.2 hP)), h.card]
  · have htotal := h.total
    rw [dead_touch, dead_touch]
    simp only [hdirty]
    omega

/-- The two memories hold equally many pages that are not requested again. -/
theorem Matched.dead_card (h : Matched rest O P w w') : (dead rest O.held).card = (dead rest P.held).card := by
  have hlive : O.held.filter (· ∈ rest) = P.held.filter (· ∈ rest) := by
    ext p
    simp only [Finset.mem_filter]
    exact and_congr_left fun hp => h.held p hp
  have hO := Finset.card_filter_add_card_filter_not (s := O.held) (· ∈ rest)
  have hP := Finset.card_filter_add_card_filter_not (s := P.held) (· ∈ rest)
  have hcard := h.card
  rw [hlive] at hO
  unfold dead
  omega

/-- While the memory holds a page that is not requested again, such a page has the furthest next use. -/
theorem furthest_not_mem {R : Finset Page} (hq : Paging.Furthest R rest q) (hp : p ∈ dead rest R) : q ∉ rest := by
  obtain ⟨hpR, hp⟩ := mem_dead.1 hp
  intro hmem
  have := hq p hpR rest.length (by rwa [List.take_length])
  rw [List.take_length] at this
  exact hp this

/-- Pages that are requested again have different next requests. -/
theorem eq_of_take_iff : ∀ {rest : List Page}, q ∈ rest → (∀ t, q ∈ rest.take t ↔ q' ∈ rest.take t) → q = q'
  | [], hq, _ => absurd hq (List.not_mem_nil)
  | y :: rest, hq, h => by
    have h1 := h 1
    simp only [List.take_succ_cons, List.take_zero, List.mem_singleton] at h1
    by_cases hqy : q = y
    · rw [hqy, h1.1 hqy]
    · have hqy' : q' ≠ y := fun e => hqy (h1.2 e)
      refine eq_of_take_iff (List.mem_of_ne_of_mem hqy hq) fun t => ?_
      simpa [hqy, hqy'] using h (t + 1)

theorem dead_drop (S : Memory Page) (hq : q ∉ rest) :
    (dead rest (S.drop q).dirty).card + (if q ∈ S.dirty then 1 else 0) = (dead rest S.dirty).card := by
  have herase : dead rest (S.drop q).dirty = (dead rest S.dirty).erase q := Finset.filter_erase ..
  rw [herase]
  split
  · rename_i hd
    exact Finset.card_erase_add_one (mem_dead.2 ⟨hd, hq⟩)
  · rename_i hd
    rw [Finset.erase_eq_of_notMem fun h => hd (mem_dead.1 h).1, Nat.add_zero]

/-- Both give up a page that is not requested again: the first writes only if it has no clean one. -/
theorem Matched.drop_dead (h : Matched rest O P w w') (hq : q ∈ O.held) (hq' : q' ∈ P.held) (hdead : q ∉ rest)
    (hdead' : q' ∉ rest) (hclean : CleanFirst O rest q) : Matched rest (O.drop q) (P.drop q')
      (w + if q ∈ O.dirty then 1 else 0) (w' + if q' ∈ P.dirty then 1 else 0) := by
  have hne : ∀ p ∈ rest, p ≠ q ∧ p ≠ q' := fun p hp => ⟨fun e => hdead (e ▸ hp), fun e => hdead' (e ▸ hp)⟩
  have htotal := h.total
  have hO := dead_drop O hdead
  have hP := dead_drop P hdead'
  refine ⟨fun p hp => ?_, fun p hp => ?_, ?_, by omega, ?_⟩
  · simp [hne p hp, h.held p hp]
  · simp [hne p hp, h.dirty p hp]
  · have := Memory.card_drop hq
    have := Memory.card_drop hq'
    have := h.card
    omega
  · by_cases hd : q ∈ O.dirty
    · -- all of them are dirty, so the first memory has at least as many dirty ones as the second
      have hall : dead rest O.dirty = dead rest O.held := by
        ext p
        rw [mem_dead, mem_dead]
        exact and_congr_left fun hp => ⟨fun hpd => O.sub hpd, fun hph => hclean hd p hph hp⟩
      have hcard := h.dead_card
      have hsub : (dead rest (P.drop q').dirty).card < (dead rest P.held).card := by
        refine Finset.card_lt_card (Finset.ssubset_iff_of_subset ?_ |>.2 ⟨q', mem_dead.2 ⟨hq', hdead'⟩, ?_⟩)
        · exact fun p hp => mem_dead.2 ⟨P.sub (Memory.mem_dirty_drop.1 (mem_dead.1 hp).1).2, (mem_dead.1 hp).2⟩
        · exact fun hp => (Memory.mem_dirty_drop.1 (mem_dead.1 hp).1).1 rfl
      rw [hall] at htotal
      rw [if_pos hd]
      omega
    · have := h.le
      rw [if_neg hd]
      omega

/-- Both give up a page with the furthest next use, the first one a clean page if it can. -/
theorem Matched.drop (h : Matched rest O P w w') (hq : q ∈ O.held) (hfar : Paging.Furthest O.held rest q)
    (hclean : CleanFirst O rest q) (hq' : q' ∈ P.held) (hfar' : Paging.Furthest P.held rest q') :
    Matched rest (O.drop q) (P.drop q') (w + if q ∈ O.dirty then 1 else 0) (w' + if q' ∈ P.dirty then 1 else 0) := by
  have hcard := h.dead_card
  by_cases hdead : q ∈ rest
  · -- every page is requested again: the two memories are the same, and so are the pages given up
    have hnone : dead rest O.held = ∅ := by
      rw [Finset.eq_empty_iff_forall_notMem]
      exact fun p hp => furthest_not_mem hfar hp hdead
    have hnone' : dead rest P.held = ∅ := by rw [← Finset.card_eq_zero, ← hcard, hnone, Finset.card_empty]
    have hlive' : ∀ p ∈ P.held, p ∈ rest := by
      intro p hp
      by_contra hnot
      have : p ∈ dead rest P.held := mem_dead.2 ⟨hp, hnot⟩
      rw [hnone'] at this
      exact Finset.notMem_empty p this
    have hdead' : q' ∈ rest := hlive' q' hq'
    obtain rfl : q = q' := eq_of_take_iff hdead fun t =>
      ⟨hfar q' ((h.held q' hdead').2 hq') t, hfar' q ((h.held q hdead).1 hq) t⟩
    have hnodirty : ∀ {S : Memory Page}, dead rest S.held = ∅ → ∀ R ⊆ S.dirty, dead rest R = ∅ := by
      intro S hS R hR
      rw [Finset.eq_empty_iff_forall_notMem] at hS ⊢
      exact fun p hp => hS p (mem_dead.2 ⟨S.sub (hR (mem_dead.1 hp).1), (mem_dead.1 hp).2⟩)
    have htotal := h.total
    rw [hnodirty hnone _ (Finset.Subset.refl _), hnodirty hnone' _ (Finset.Subset.refl _)] at htotal
    refine ⟨fun p hp => ?_, fun p hp => ?_, ?_, ?_, ?_⟩
    · simp [h.held p hp]
    · simp [h.dirty p hp]
    · have := Memory.card_drop hq
      have := Memory.card_drop hq'
      have := h.card
      omega
    · rw [hnodirty hnone (O.drop q).dirty (Finset.erase_subset _ _),
        hnodirty hnone' (P.drop q).dirty (Finset.erase_subset _ _)]
      simp only [h.dirty q hdead]
      omega
    · simp only [h.dirty q hdead]
      exact Nat.add_le_add_right h.le _
  · have hpos : 0 < (dead rest P.held).card := hcard ▸ Finset.card_pos.2 ⟨q, mem_dead.2 ⟨hq, hdead⟩⟩
    obtain ⟨p, hp⟩ := Finset.card_pos.1 hpos
    exact h.drop_dead hq hq' hdead (furthest_not_mem hfar' hp) hclean

/-- One access of matched memories: a hit in both or a fault in both. -/
theorem Matched.step {store : Bool} {f f' d d' : ℕ} {O' P' : Memory Page} (h : Matched (x :: rest) O P w w')
    (hO : Step (fun q => Paging.Furthest O.held rest q ∧ CleanFirst O rest q) n O x store f d O')
    (hP : Step (Paging.Furthest P.held rest) n P x store f' d' P') :
    Matched rest O' P' (w + d) (w' + d') ∧ f = f' := by
  have hheld := h.held x List.mem_cons_self
  have hcard := h.card
  cases hO with
  | hit hx =>
    cases hP with
    | hit => exact ⟨h.touch store, rfl⟩
    | fill hx' => exact absurd (hheld.1 hx) hx'
    | evict _ hx' => exact absurd (hheld.1 hx) hx'
  | fill hx hn =>
    cases hP with
    | hit hx' => exact absurd (hheld.2 hx') hx
    | fill => exact ⟨h.touch store, rfl⟩
    | evict _ _ hn' => omega
  | evict q hx hn hq hE =>
    cases hP with
    | hit hx' => exact absurd (hheld.2 hx') hx
    | fill _ hn' => omega
    | evict q' hx' hn' hq' hE' =>
      refine ⟨Matched.touch ?_ store, rfl⟩
      rw [matched_cons (fun hm => hx (Memory.mem_held_drop.1 hm).2) (fun hm => hx' (Memory.mem_held_drop.1 hm).2)]
      exact ((matched_cons hx hx').1 h).drop hq hE.1 hE.2 hq' hE'

/-- Over the same accesses, two runs that give up a page with the furthest next use stay matched, if the first
one takes a clean page among those that are not requested again. -/
theorem Run.matched {O P : ℕ → Memory Page} {f f' w w' : ℕ → ℕ}
    (hO : Run (fun S rest q => Paging.Furthest S.held rest q ∧ CleanFirst S rest q) n xs O f w)
    (hP : Run (fun S rest q => Paging.Furthest S.held rest q) n xs P f' w') :
    ∀ t ≤ xs.length, Matched ((xs.drop t).map Prod.fst) (O t) (P t) (w t) (w' t) ∧ f t = f' t := by
  refine at_every_time ?_ fun t x store hx ih => ?_
  · rw [hO.empty, hP.empty, hO.noFaults, hP.noFaults, hO.noWrites, hP.noWrites]
    exact ⟨⟨fun _ _ => Iff.rfl, fun _ _ => Iff.rfl, rfl, rfl, le_refl 0⟩, rfl⟩
  · obtain ⟨a, d, hstep, hf, hw⟩ := hO.step hx
    obtain ⟨a', d', hstep', hf', hw'⟩ := hP.step hx
    obtain ⟨hlt, hget⟩ := List.getElem?_eq_some_iff.1 hx
    rw [List.drop_eq_getElem_cons hlt, hget, List.map_cons] at ih
    obtain ⟨hmatched, rfl⟩ := ih.1.step hstep hstep'
    rw [hf, hf', hw, hw', ih.2]
    exact ⟨hmatched, rfl⟩

end CS1550.Writeback
