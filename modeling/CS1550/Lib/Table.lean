/-
A table in memory: a four-byte count and behind it entries of a fixed size. What an entry stores is
given by a codec; looking an entry up, appending one and replacing one are the operations of the list
of entries that the table holds.
-/
import CS1550.Lib.Bytes

namespace CS1550.Bytes

variable {α : Type}

/-- How an entry is stored in `stride` bytes. -/
structure Codec (α : Type) where
  stride : Nat
  Stored : Mem → α → Prop
  stored_congr : ∀ {m m' : Mem} {a : α}, Stored m a → (∀ i < stride, m' i = m i) → Stored m' a

/-- The address of an entry. -/
def Codec.slot (c : Codec α) (i : Nat) : Nat := 4 + c.stride * i

/-- The table at the start of the memory holds these entries, in room for `cap` of them. -/
structure Holds (c : Codec α) (cap : Nat) (m : Mem) (es : List α) : Prop where
  count : getInt m 0 4 = es.length
  length_le : es.length ≤ cap
  entry : ∀ i e, es[i]? = some e → c.Stored (shift m (c.slot i)) e

variable {c : Codec α} {cap : Nat} {m m' : Mem} {es : List α} {e : α}

theorem Codec.slot_le (c : Codec α) {i j : Nat} (h : i < j) : c.slot i + c.stride ≤ c.slot j := by
  have hmul : c.stride * (i + 1) ≤ c.stride * j := Nat.mul_le_mul_left _ h
  simp only [slot, Nat.mul_add, Nat.mul_one] at hmul ⊢
  omega

theorem Codec.four_le_slot (c : Codec α) (i : Nat) : 4 ≤ c.slot i := Nat.le_add_right ..

/-- Only the bytes of the table matter. -/
theorem Holds.congr (h : Holds c cap m es) (hm : ∀ i < c.slot cap, m' i = m i) : Holds c cap m' es where
  count := by
    rw [← h.count]
    exact getInt_congr fun i hi => hm _ (by have := c.four_le_slot cap; omega)
  length_le := h.length_le
  entry i e hi := by
    refine c.stored_congr (h.entry i e hi) fun j hj => hm _ ?_
    have hlt : i < es.length := (List.getElem?_eq_some_iff.1 hi).1
    have hslot := c.slot_le (lt_of_lt_of_le hlt h.length_le)
    omega

theorem holds_nil (hm : ∀ i < 4, m i = 0) : Holds c cap m [] where
  count := getInt_of_zero fun i hi => hm _ (by omega)
  length_le := Nat.zero_le _
  entry i e hi := by simp at hi

theorem getElem?_concat {xs : List α} {x y : α} {i : Nat} (h : (xs ++ [x])[i]? = some y) :
    xs[i]? = some y ∨ i = xs.length ∧ y = x := by
  rcases lt_or_ge i xs.length with hlt | hge
  · rw [List.getElem?_append_left hlt] at h
    exact .inl h
  · rw [List.getElem?_append_right hge, List.getElem?_singleton] at h
    split at h
    · exact .inr ⟨by omega, (Option.some.inj h).symm⟩
    · cases h

/-- A new entry behind the last one. -/
theorem Holds.append (h : Holds c cap m es) (hlen : es.length < cap) (hcount : getInt m' 0 4 = es.length + 1)
    (hm : ∀ i, 4 ≤ i → i < c.slot es.length → m' i = m i) (he : c.Stored (shift m' (c.slot es.length)) e) :
    Holds c cap m' (es ++ [e]) where
  count := by rw [hcount]; simp
  length_le := by rw [List.length_append]; exact hlen
  entry i e' hi := by
    rcases getElem?_concat hi with hi | ⟨rfl, rfl⟩
    · refine c.stored_congr (h.entry i e' hi) fun j hj => hm _ ?_ ?_
      · have := c.four_le_slot i; omega
      · have := c.slot_le (List.getElem?_eq_some_iff.1 hi).1; omega
    · exact he

/-- One entry replaced. -/
theorem Holds.set (h : Holds c cap m es) {k : Nat} (hk : k < es.length)
    (hm : ∀ i, i < c.slot k ∨ c.slot k + c.stride ≤ i → m' i = m i) (he : c.Stored (shift m' (c.slot k)) e) :
    Holds c cap m' (es.set k e) where
  count := by
    rw [List.length_set, ← h.count]
    exact getInt_congr fun i hi => hm _ (.inl (by have := c.four_le_slot k; omega))
  length_le := by rw [List.length_set]; exact h.length_le
  entry i e' hi := by
    by_cases hik : i = k
    · subst hik
      rw [List.getElem?_set_self hk] at hi
      cases hi
      exact he
    · rw [List.getElem?_set_ne (Ne.symm hik)] at hi
      refine c.stored_congr (h.entry i e' hi) fun j hj => hm _ ?_
      rcases Nat.lt_or_gt_of_ne hik with hlt | hgt
      · exact .inl (by have := c.slot_le hlt; omega)
      · exact .inr (by have := c.slot_le hgt; omega)

/-- A loop over the entries that stops at the first one to pass a test. -/
theorem Holds.findIdx (h : Holds c cap m es) {test : Nat → Bool} {p : α → Bool}
    (htest : ∀ i e, es[i]? = some e → test i = p e) :
    (List.range (getInt m 0 4).toNat).findIdx test = es.findIdx p := by
  rw [h.count, Int.toNat_natCast]
  have hmap : es.map p = (List.range es.length).map test := by
    apply List.ext_getElem?
    intro i
    rcases lt_or_ge i es.length with hlt | hge
    · simp [hlt, htest i es[i] (List.getElem?_eq_getElem hlt)]
    · simp [hge]
  have hp : es.findIdx p = (es.map p).findIdx id := by rw [List.findIdx_map]; rfl
  have ht : (List.range es.length).findIdx test = ((List.range es.length).map test).findIdx id := by
    rw [List.findIdx_map]; rfl
  rw [hp, ht, hmap]

end CS1550.Bytes
