/-
What `walkpgdir` and `mappages` do to an address space. A table that is missing is taken from the free list; a
page that is mapped must not have been present. The free list is long enough for a mapping when it has a page
for each table that is missing (`missing`).
-/
import CS1550.Vm.Paging
import Mathlib.Order.Interval.Finset.Nat
import Mathlib.Algebra.Order.BigOperators.Group.Finset

namespace CS1550.Vm

variable {d d' : Pgdir} {m m' : Kmem} {v page pa count : Nat} {w u : Bool}

/-! ## Taking pages -/

/-- Two memories in which the same pages are valid, and in which the pages outside of the free list of the first
have the same bytes. -/
structure Uses (m m' : Kmem) : Prop where
  image : m'.image = m.image
  suffix : m'.freelist <:+ m.freelist
  bytes : ∀ page ∉ m.freelist, m'.bytes page = m.bytes page

theorem Uses.refl (m : Kmem) : Uses m m := ⟨rfl, List.suffix_refl _, fun _ _ => rfl⟩

theorem Uses.trans {m₁ m₂ m₃ : Kmem} (h : Uses m₁ m₂) (h' : Uses m₂ m₃) : Uses m₁ m₃ :=
  ⟨h'.image.trans h.image, h'.suffix.trans h.suffix,
    fun page hp => (h'.bytes page fun hmem => hp (h.suffix.subset hmem)).trans (h.bytes page hp)⟩

theorem Uses.valid (h : Uses m m') : m'.Valid = m.Valid := valid_congr h.image

/-- What is mapped is outside of the free list, so it keeps its bytes. -/
theorem Uses.view (h : Uses m m') (ho : Owned d m) (hv : v < userPages) : view d m' v = view d m v := by
  unfold Vm.view
  cases hp : d.pte v with
  | none => rfl
  | some pte =>
    have hfree : pte.page ∉ m.freelist := ho.apart (.user v) pte.page (by simp [Pgdir.held, hv, hp])
    simp [h.bytes _ hfree]

theorem kalloc_eq_some (h : m.kalloc = some (page, m')) :
    m.freelist = page :: m'.freelist ∧ m'.image = m.image ∧ m'.bytes = m.bytes := by
  unfold Kmem.kalloc at h
  split at h
  · cases h
  · rename_i hm
    cases h
    exact ⟨hm, rfl, rfl⟩

theorem length_kalloc (h : m.kalloc = some (page, m')) : m.freelist.length = m'.freelist.length + 1 := by
  rw [(kalloc_eq_some h).1, List.length_cons]

theorem kalloc_of_pos (h : 0 < m.freelist.length) : ∃ page m', m.kalloc = some (page, m') := by
  unfold Kmem.kalloc
  cases hm : m.freelist with
  | nil => simp [hm] at h
  | cons page l => exact ⟨page, _, rfl⟩

/-- A page that is taken and filled. -/
theorem Uses.kalloc (h : m.kalloc = some (page, m')) (b : UInt8) : Uses m (m'.memset page b) := by
  obtain ⟨hfree, himage, hbytes⟩ := kalloc_eq_some h
  refine ⟨himage, ⟨[page], hfree.symm⟩, fun q hq => ?_⟩
  have hne : q ≠ page := fun h => hq (by simp [hfree, h])
  simp [Kmem.memset, Function.update_of_ne hne, hbytes]

/-- The page that `kalloc` returns is in no place, and the address space still owns its pages. -/
theorem Owned.kalloc (ho : Owned d m) (h : m.kalloc = some (page, m')) :
    Owned d m' ∧ m'.Valid page ∧ page ∉ m'.freelist ∧ ∀ x, d.held x ≠ some page := by
  obtain ⟨hfree, himage, -⟩ := kalloc_eq_some h
  have hvalid := valid_congr himage
  have ho' : Pool.Accounted m.Valid (page :: m'.freelist) d.held := hfree ▸ ho
  refine ⟨?_, ?_, (List.nodup_cons.1 ho'.nodup).1, ho'.not_held⟩
  · rw [Owned, hvalid]
    exact ho'.drop
  · rw [hvalid]
    exact ho'.valid_free page List.mem_cons_self

theorem owned_memset {b : UInt8} : Owned d (m.memset page b) ↔ Owned d m := Iff.rfl

/-! ## The walk -/

/-- A walk that has made sure of the table for page `v`. -/
structure Walked (d : Pgdir) (m : Kmem) (v : Nat) (d' : Pgdir) (m' : Kmem) : Prop where
  uses : Uses m m'
  pte : d'.pte = d.pte
  table : (d'.pdes (v / 1024)).isSome
  pdes : ∀ i, d'.pdes i = none ↔ d.pdes i = none ∧ i ≠ v / 1024
  owned : Owned d m → Owned d' m'
  /-- A page that the address space does not have stays out of it, but for the free list. -/
  fresh : ∀ q, q ∉ m.freelist → (∀ x, d.held x ≠ some q) → ∀ x, d'.held x ≠ some q
  length : m.freelist.length = m'.freelist.length + if d.pdes (v / 1024) = none then 1 else 0

theorem walkpgdir_walked (h : walkpgdir d v m = some (d', m')) : Walked d m v d' m' := by
  unfold walkpgdir at h
  split at h
  · rename_i t ht
    cases h
    refine ⟨.refl m, rfl, by simp [ht], fun i => ⟨fun hi => ⟨hi, ?_⟩, And.left⟩, id, fun _ _ h => h, by simp [ht]⟩
    rintro rfl
    simp [ht] at hi
  · rename_i ht
    obtain ⟨⟨page, m₁⟩, hk, he⟩ := Option.map_eq_some_iff.1 h
    cases he
    obtain ⟨hfree, himage, -⟩ := kalloc_eq_some hk
    refine ⟨.kalloc hk 0, pte_addTable ht, by simp [Pgdir.addTable], fun i => ?_, fun ho => ?_, fun q hq hheld x => ?_, ?_⟩
    · by_cases hi : i = v / 1024
      · simp [Pgdir.addTable, hi]
      · simp [Pgdir.addTable, hi]
    · obtain ⟨ho', hvalid, hnot, hheld⟩ := ho.kalloc hk
      rw [owned_memset, Owned, held_addTable ht]
      exact ho'.hold hvalid hnot hheld
    · rw [held_addTable ht]
      by_cases hx : x = .table (v / 1024)
      · subst hx
        rw [Function.update_self]
        rintro ⟨⟩
        exact hq (by simp [hfree])
      · rw [Function.update_of_ne hx]
        exact hheld x
    · simp [ht, hfree, Kmem.memset]

theorem walkpgdir_of_enough (h : d.pdes (v / 1024) = none → 0 < m.freelist.length) :
    ∃ d' m', walkpgdir d v m = some (d', m') := by
  unfold walkpgdir
  cases ht : d.pdes (v / 1024) with
  | some t => exact ⟨d, m, rfl⟩
  | none =>
    obtain ⟨page, m', hk⟩ := kalloc_of_pos (h ht)
    exact ⟨_, _, by rw [hk]; rfl⟩

/-! ## The tables that a mapping needs -/

/-- Number of the tables that are missing for `count` pages from `v` on. -/
def missing (d : Pgdir) (v count : Nat) : Nat :=
  (((Finset.Ico v (v + count)).image (· / 1024)).filter fun i => d.pdes i = none).card

theorem missing_one : missing d v 1 = if d.pdes (v / 1024) = none then 1 else 0 := by
  unfold missing
  rw [Nat.Ico_succ_singleton, Finset.image_singleton, Finset.filter_singleton]
  split <;> rfl

/-- Where the table for the first page has been made sure of, the other pages need one table less. -/
theorem missing_succ (count : Nat) (h : ∀ i, d'.pdes i = none ↔ d.pdes i = none ∧ i ≠ v / 1024) :
    missing d' (v + 1) count + (if d.pdes (v / 1024) = none then 1 else 0) ≤ missing d v (count + 1) := by
  unfold missing
  set s := ((Finset.Ico v (v + (count + 1))).image (· / 1024)).filter fun i => d.pdes i = none with hs
  have hsub : (((Finset.Ico (v + 1) (v + 1 + count)).image (· / 1024)).filter fun i => d'.pdes i = none) ⊆
      s.erase (v / 1024) := by
    intro i hi
    simp only [hs, Finset.mem_filter, Finset.mem_image, Finset.mem_Ico, Finset.mem_erase, h] at hi ⊢
    obtain ⟨⟨v', hv', rfl⟩, hnone, hne⟩ := hi
    exact ⟨hne, ⟨v', ⟨by omega, by omega⟩, rfl⟩, hnone⟩
  have hcard := Finset.card_le_card hsub
  split
  · rename_i hnone
    have hmem : v / 1024 ∈ s := by
      simp only [hs, Finset.mem_filter, Finset.mem_image, Finset.mem_Ico]
      exact ⟨⟨v, ⟨le_refl v, by omega⟩, rfl⟩, hnone⟩
    have hpos := Finset.card_pos.2 ⟨_, hmem⟩
    rw [Finset.card_erase_of_mem hmem] at hcard
    omega
  · exact hcard.trans (Finset.card_le_card (Finset.erase_subset _ _))

/-! ## Mapping one page -/

/-- One page that has been mapped. -/
structure Mapped (d : Pgdir) (m : Kmem) (v : Nat) (pte : Pte) (d' : Pgdir) (m' : Kmem) : Prop where
  uses : Uses m m'
  entry : d'.pte = Function.update d.pte v (some pte)
  pdes : ∀ i, d'.pdes i = none ↔ d.pdes i = none ∧ i ≠ v / 1024
  length : m.freelist.length = m'.freelist.length + missing d v 1
  /-- A page that was in no place is the address space's own afterwards. -/
  owned : Owned d m → m.Valid pte.page → pte.page ∉ m.freelist → (∀ x, d.held x ≠ some pte.page) → Owned d' m'

/-- A mapping that does not fail: the table for its first page, which is absent, and the other pages. -/
theorem mappages_succ (h : mappages d v (count + 1) pa w u m = .ok (true, d', m')) :
    ∃ d₁ m₁, walkpgdir d v m = some (d₁, m₁) ∧ d₁.pte v = none ∧
      mappages (d₁.setPte v (some ⟨pa, w, u⟩)) (v + 1) count (pa + 1) w u m₁ = .ok (true, d', m') := by
  unfold mappages at h
  split at h
  · cases h
  rename_i d₁ m₁ hw
  split at h
  · cases h
  rename_i habsent
  exact ⟨d₁, m₁, hw, by simpa using habsent, h⟩

theorem mappages_mapped (h : mappages d v 1 pa w u m = .ok (true, d', m')) : Mapped d m v ⟨pa, w, u⟩ d' m' := by
  obtain ⟨d₁, m₁, hw, -, h⟩ := mappages_succ h
  have hwalk := walkpgdir_walked hw
  cases h
  refine ⟨hwalk.uses, by rw [pte_setPte _ hwalk.table, hwalk.pte], fun i => ?_, ?_, ?_⟩
  · rw [isNone_pdes_setPte]
    exact hwalk.pdes i
  · rw [missing_one]
    exact hwalk.length
  · intro ho hvalid hfree hheld
    have ho₁ := hwalk.owned ho
    by_cases hv : v < userPages
    · rw [Owned, held_setPte hwalk.table hv]
      exact ho₁.hold (hwalk.uses.valid ▸ hvalid) (fun hmem => hfree (hwalk.uses.suffix.subset hmem))
        (hwalk.fresh pa hfree hheld)
    · rw [Owned, held_setPte_kernel hwalk.table (Nat.le_of_not_lt hv)]
      exact ho₁

/-- A mapping that fails for want of a table changes nothing. -/
theorem mappages_refused (h : mappages d v 1 pa w u m = .ok (false, d', m')) : d' = d ∧ m' = m := by
  unfold mappages at h
  split at h
  · cases h
    exact ⟨rfl, rfl⟩
  · split at h
    · cases h
    · cases h

theorem mappages_of_none (pa : Nat) (w u : Bool) (m : Kmem) (h : d.pte v = none) : ∃ b d' m', mappages d v 1 pa w u m = .ok (b, d', m') := by
  unfold mappages
  cases hw : walkpgdir d v m with
  | none => exact ⟨false, d, m, rfl⟩
  | some r =>
    obtain ⟨d₁, m₁⟩ := r
    refine ⟨true, d₁.setPte v (some ⟨pa, w, u⟩), m₁, ?_⟩
    simp [(walkpgdir_walked hw).pte, h, mappages]

theorem mappages_remap (pa : Nat) (w u : Bool) (m : Kmem) (h : (d.pte v).isSome) :
    mappages d v 1 pa w u m = .error .remap := by
  obtain ⟨pte, hpte⟩ := Option.isSome_iff_exists.1 h
  obtain ⟨t, ht, -⟩ := Option.bind_eq_some_iff.1 hpte
  have hw : walkpgdir d v m = some (d, m) := by
    unfold walkpgdir
    rw [ht]
  unfold mappages
  rw [hw]
  exact if_pos h

theorem mappages_of_enough (pa : Nat) (w u : Bool) (h : d.pte v = none) (hm : missing d v 1 ≤ m.freelist.length) :
    ∃ d' m', mappages d v 1 pa w u m = .ok (true, d', m') := by
  rw [missing_one] at hm
  obtain ⟨d₁, m₁, hw⟩ := walkpgdir_of_enough (d := d) (m := m) (v := v) fun ht => by
    rw [if_pos ht] at hm
    omega
  refine ⟨d₁.setPte v (some ⟨pa, w, u⟩), m₁, ?_⟩
  unfold mappages
  rw [hw]
  simp [(walkpgdir_walked hw).pte, h, mappages]

/-! ## Mapping a range of kernel pages -/

/-- A mapping that does not fail has written all entries of its range, and no others. -/
theorem mappages_pte (h : mappages d v count pa w u m = .ok (true, d', m')) (v' : Nat) :
    d'.pte v' = if v ≤ v' ∧ v' < v + count then some ⟨pa + (v' - v), w, u⟩ else d.pte v' := by
  induction count generalizing d m v pa with
  | zero =>
    cases h
    rw [if_neg (by omega)]
  | succ count ih =>
    obtain ⟨d₁, m₁, hw, -, h⟩ := mappages_succ h
    have hwalk := walkpgdir_walked hw
    rw [ih h, pte_setPte _ hwalk.table, hwalk.pte]
    by_cases hv : v' = v
    · subst hv
      rw [if_neg (by omega), if_pos (by omega), Function.update_self, Nat.sub_self, Nat.add_zero]
    · rw [Function.update_of_ne hv]
      by_cases hin : v ≤ v' ∧ v' < v + (count + 1)
      · rw [if_pos hin, if_pos (by omega), show pa + 1 + (v' - (v + 1)) = pa + (v' - v) by omega]
      · rw [if_neg hin, if_neg (by omega)]

theorem missing_le (d : Pgdir) (v count : Nat) : missing d v count ≤ (v + count) / 1024 + 1 - v / 1024 := by
  unfold missing
  have hsub : (((Finset.Ico v (v + count)).image (· / 1024)).filter fun i => d.pdes i = none) ⊆
      Finset.Ico (v / 1024) ((v + count) / 1024 + 1) := by
    intro i hi
    simp only [Finset.mem_filter, Finset.mem_image, Finset.mem_Ico] at hi ⊢
    obtain ⟨⟨v', hv', rfl⟩, -⟩ := hi
    omega
  exact (Finset.card_le_card hsub).trans (Nat.card_Ico _ _).le

/-- A range above KERNBASE in which nothing is present: the mapping does not panic, and with a free page for every
table that is missing it does not fail. -/
theorem Owned.map_kernel (pa : Nat) (w u : Bool) (ho : Owned d m) (hv : userPages ≤ v)
    (hnone : ∀ v', v ≤ v' → v' < v + count → d.pte v' = none) :
    ∃ b d' m', mappages d v count pa w u m = .ok (b, d', m') ∧ Owned d' m' ∧ m'.image = m.image ∧
      (∀ v', ¬ (v ≤ v' ∧ v' < v + count) → d'.pte v' = d.pte v') ∧
      (missing d v count ≤ m.freelist.length →
        b = true ∧ m.freelist.length ≤ m'.freelist.length + missing d v count) := by
  induction count generalizing d m v pa with
  | zero => exact ⟨true, d, m, rfl, ho, rfl, fun _ _ => rfl, fun _ => ⟨rfl, by omega⟩⟩
  | succ count ih =>
    unfold mappages
    have habsent : d.pte v = none := hnone v (le_refl v) (by omega)
    cases hw : walkpgdir d v m with
    | none =>
      refine ⟨false, d, m, rfl, ho, rfl, fun _ _ => rfl, fun hm => ?_⟩
      have htables : ∀ i, (d.addTable (v / 1024) 0).pdes i = none ↔ d.pdes i = none ∧ i ≠ v / 1024 := by
        intro i
        by_cases hi : i = v / 1024 <;> simp [Pgdir.addTable, hi]
      have hsucc := missing_succ count htables
      obtain ⟨d₁, m₁, hw'⟩ := walkpgdir_of_enough (d := d) (m := m) (v := v) fun ht => by
        rw [if_pos ht] at hsucc
        omega
      rw [hw] at hw'
      cases hw'
    | some r =>
      obtain ⟨d₁, m₁⟩ := r
      have hwalk := walkpgdir_walked hw
      have hpte : (d₁.pte v).isSome = false := by simp [hwalk.pte, habsent]
      have hset := pte_setPte (some ⟨pa, w, u⟩) hwalk.table
      have ho₁ : Owned (d₁.setPte v (some ⟨pa, w, u⟩)) m₁ := by
        rw [Owned, held_setPte_kernel hwalk.table hv]
        exact hwalk.owned ho
      obtain ⟨b, d', m', hrun, ho', himage, hout, henough⟩ := ih (v := v + 1) (pa + 1) ho₁ (by omega) fun v' hv' hlt => by
        rw [hset, Function.update_of_ne (by omega), hwalk.pte]
        exact hnone v' (by omega) (by omega)
      refine ⟨b, d', m', ?_, ho', himage.trans hwalk.uses.image, fun v' hv' => ?_, fun hm => ?_⟩
      · simp only [hpte]
        exact hrun
      · rw [hout v' (by omega), hset, Function.update_of_ne (by omega), hwalk.pte]
      · have htables : ∀ i, (d₁.setPte v (some ⟨pa, w, u⟩)).pdes i = none ↔ d.pdes i = none ∧ i ≠ v / 1024 :=
          fun i => (isNone_pdes_setPte i).trans (hwalk.pdes i)
        have hsucc := missing_succ count htables
        have hlength := hwalk.length
        obtain ⟨hb, hle⟩ := henough (by omega)
        exact ⟨hb, by omega⟩

/-! ## Mapping a cleared page -/

/-- Number of the pages that mapping `count` pages from `v` on takes from the free list. -/
def needs (d : Pgdir) (v count : Nat) : Nat := count + missing d v count

theorem needs_one_le (d : Pgdir) (v count : Nat) : needs d v 1 ≤ needs d v (count + 1) := by
  unfold needs missing
  refine Nat.add_le_add (by omega) (Finset.card_le_card ?_)
  exact Finset.filter_subset_filter _ (Finset.image_subset_image (Finset.Ico_subset_Ico_right (by omega)))

/-- With enough free pages there is one to map at `v`, and a table for it. -/
theorem map_of_enough (h : d.pte v = none) (hm : needs d v 1 ≤ m.freelist.length) :
    ∃ page m₁ d' m', m.kalloc = some (page, m₁) ∧
      mappages d v 1 page true true (m₁.memset page 0) = .ok (true, d', m') ∧
      m.freelist.length = m'.freelist.length + needs d v 1 := by
  unfold needs at *
  obtain ⟨page, m₁, hk⟩ := kalloc_of_pos (m := m) (by omega)
  have hlength := length_kalloc hk
  have hroom : missing d v 1 ≤ (m₁.memset page 0).freelist.length := by
    show _ ≤ m₁.freelist.length
    omega
  obtain ⟨d', m', hmap⟩ := mappages_of_enough page true true h hroom
  have hrest : m₁.freelist.length = m'.freelist.length + missing d v 1 := (mappages_mapped hmap).length
  exact ⟨page, m₁, d', m', hk, hmap, by omega⟩

theorem Owned.bytes_zeroed {m₁ : Kmem} (ho : Owned d m) (hk : m.kalloc = some (page, m₁))
    (hmap : mappages d v 1 page true true (m₁.memset page 0) = .ok (true, d', m')) : m'.bytes page = fun _ => 0 := by
  obtain ⟨-, -, hfree, -⟩ := ho.kalloc hk
  rw [(mappages_mapped hmap).uses.bytes page hfree]
  simp [Kmem.memset]

/-- Taking a page, clearing it and mapping it at `v`. -/
theorem Owned.map_zeroed {m₁ : Kmem} (ho : Owned d m) (hk : m.kalloc = some (page, m₁))
    (hmap : mappages d v 1 page true true (m₁.memset page 0) = .ok (true, d', m')) :
    Owned d' m' ∧ Uses m m' ∧ ∀ v' < userPages, view d' m' v' = Function.update (view d m) v (some .zeroed) v' := by
  have hmapped := mappages_mapped hmap
  have huses := (Uses.kalloc hk 0).trans hmapped.uses
  obtain ⟨ho₁, hvalid, hfree, hheld⟩ := ho.kalloc hk
  refine ⟨hmapped.owned ho₁ hvalid hfree hheld, huses, fun v' hv' => ?_⟩
  by_cases hvv : v' = v
  · subst hvv
    simp [view, hmapped.entry, ho.bytes_zeroed hk hmap, Content.zeroed]
  · rw [Function.update_of_ne hvv, ← huses.view ho hv']
    simp [view, hmapped.entry, Function.update_of_ne hvv]

end CS1550.Vm
