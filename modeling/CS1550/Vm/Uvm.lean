/-
Growing and shrinking the user part of an address space: `allocuvm`, `deallocuvm` and `freevm` of
`lab4/xv6-public/vm.c`. All callers stay below KERNBASE, so the loops do not come round the end of the address
space.
-/
import CS1550.Lib.Except
import CS1550.Vm.Mapping

namespace CS1550.Vm

/-! ## The functions -/

/-- The loop of `deallocuvm` from page `v` on. Where there is no table it goes on at the next one. -/
def deallocLoop (oldsz : Nat) : (fuel : Nat) → (v : Nat) → Pgdir → Kmem → Except Panic (Pgdir × Kmem)
  | 0, _, d, m => .ok (d, m)
  | fuel + 1, v, d, m =>
    if v * pgsize < oldsz then
      match d.walk v with
      | none => deallocLoop oldsz fuel ((v / 1024 + 1) * 1024) d m
      | some none => deallocLoop oldsz fuel (v + 1) d m
      | some (some pte) =>
        if pte.page = 0 then .error .kfree
        else do
          let m ← m.kfree pte.page
          deallocLoop oldsz fuel (v + 1) (d.setPte v none) m
    else .ok (d, m)

/-- `deallocuvm` -/
def deallocuvm (d : Pgdir) (oldsz newsz : Nat) (m : Kmem) : Except Panic (Nat × Pgdir × Kmem) :=
  if newsz ≥ oldsz then .ok (oldsz, d, m)
  else do
    let (d, m) ← deallocLoop oldsz (oldsz / pgsize + 1) (pgroundup newsz) d m
    return (newsz, d, m)

/-- The loop of `freevm` over the directory. -/
def freeTables (d : Pgdir) : List Nat → Kmem → Except Panic Kmem
  | [], m => .ok m
  | i :: is, m =>
    match d.pdes i with
    | none => freeTables d is m
    | some pgtab => do
      let m ← m.kfree pgtab.page
      freeTables d is m

/-- `freevm` -/
def freevm (d : Pgdir) (m : Kmem) : Except Panic Kmem := do
  let (_, d, m) ← deallocuvm d kernbase 0 m
  let m ← freeTables d (List.range 1024) m
  m.kfree d.page

/-- The loop of `allocuvm`: `count` pages from `v` on. -/
def allocLoop (oldsz newsz : Nat) : (count : Nat) → (v : Nat) → Pgdir → Kmem → Except Panic (Nat × Pgdir × Kmem)
  | 0, _, d, m => .ok (newsz, d, m)
  | count + 1, v, d, m =>
    match m.kalloc with
    | none => do
      let (_, d, m) ← deallocuvm d newsz oldsz m
      return (0, d, m)
    | some (mem, m) => do
      let (mapped, d, m) ← mappages d v 1 mem true true (m.memset mem 0)
      if mapped then allocLoop oldsz newsz count (v + 1) d m
      else
        let (_, d, m) ← deallocuvm d newsz oldsz m
        let m ← m.kfree mem
        return (0, d, m)

/-- `allocuvm` -/
def allocuvm (d : Pgdir) (oldsz newsz : Nat) (m : Kmem) : Except Panic (Nat × Pgdir × Kmem) :=
  if newsz ≥ kernbase then .ok (0, d, m)
  else if newsz < oldsz then .ok (oldsz, d, m)
  else allocLoop oldsz newsz (pgroundup newsz - pgroundup oldsz) (pgroundup oldsz) d m

/-! ## Sizes and pages -/

variable {d d' : Pgdir} {m m' : Kmem} {v page sz oldsz newsz : Nat}

theorem lt_pgroundup (h : sz ≤ kernbase) : v < pgroundup sz ↔ v * pgsize < sz := by
  have hk : kernbase = 2147483648 := rfl
  unfold pgroundup pgsize
  omega

theorem pgroundup_le (h : sz ≤ kernbase) : pgroundup sz ≤ userPages := by
  have hk : kernbase = 2147483648 := rfl
  have hu : userPages = 524288 := rfl
  unfold pgroundup pgsize
  omega

theorem pgroundup_mono (h : oldsz ≤ newsz) (hk : newsz ≤ kernbase) : pgroundup oldsz ≤ pgroundup newsz := by
  have hkern : kernbase = 2147483648 := rfl
  unfold pgroundup pgsize
  omega

theorem pgroundup_mul {n : Nat} (h : n ≤ userPages) : n * pgsize ≤ kernbase ∧ pgroundup (n * pgsize) = n := by
  have hk : kernbase = 2147483648 := rfl
  have hu : userPages = 524288 := rfl
  unfold pgroundup pgsize
  omega

/-! ## Shrinking -/

theorem kfree_of_valid (h : m.Valid page) :
    m.kfree page = .ok { m.memset page 1 with freelist := page :: m.freelist } := if_pos h

theorem kfree_eq_ok (h : m.kfree page = .ok m') : m'.image = m.image ∧ m'.freelist = page :: m.freelist := by
  unfold Kmem.kfree at h
  split at h
  · cases h
    exact ⟨rfl, rfl⟩
  · cases h

/-- A page that was taken and is given back: the free list is the one before. -/
theorem Owned.kfree_kalloc {m₁ : Kmem} (m' : Kmem) (ho : Owned d m) (hk : m.kalloc = some (page, m₁))
    (himage : m'.image = m₁.image) (hfree : m'.freelist = m₁.freelist) : ∃ m'', m'.kfree page = .ok m'' ∧ Owned d m'' := by
  obtain ⟨hlist, himage₁, -⟩ := kalloc_eq_some hk
  have hvalid := valid_congr (himage.trans himage₁)
  have hpage : m'.Valid page := by
    rw [hvalid]
    exact ho.valid_free page (by simp [hlist])
  refine ⟨_, kfree_of_valid hpage, ?_⟩
  show Pool.Accounted m'.Valid (page :: m'.freelist) d.held
  rw [hvalid, hfree, ← hlist]
  exact ho

theorem Kmem.Valid.ne_zero (h : m.Valid page) : page ≠ 0 := by
  have h₁ := m.image.kernlink_lt
  have h₂ := m.image.data_le
  have h₃ := h.1
  have h₄ : kernlink / pgsize = 524544 := rfl
  have h₅ : userPages = 524288 := rfl
  omega

theorem Owned.held_user {pte : Pte} (hv : v < userPages) (h : d.pte v = some pte) : d.held (.user v) = some pte.page := by
  simp [Pgdir.held, hv, h]

/-- There is less physical memory than there is user address space. -/
theorem Owned.exists_absent (ho : Owned d m) : ∃ v < userPages, d.pte v = none := by
  by_contra hall
  push Not at hall
  have hmaps : ∀ v ∈ Finset.range userPages, ((d.pte v).map Pte.page).getD 0 ∈ Finset.range (phystop / pgsize) := by
    intro v hv
    have hv := Finset.mem_range.1 hv
    obtain ⟨pte, hpte⟩ := Option.ne_none_iff_exists'.1 (hall v hv)
    simpa [hpte] using (ho.valid_held _ _ (Owned.held_user hv hpte)).2
  have hinj : Set.InjOn (fun v => ((d.pte v).map Pte.page).getD 0) (Finset.range userPages) := by
    intro v hv v' hv' heq
    have hv := Finset.mem_range.1 hv
    have hv' := Finset.mem_range.1 hv'
    obtain ⟨pte, hpte⟩ := Option.ne_none_iff_exists'.1 (hall v hv)
    obtain ⟨pte', hpte'⟩ := Option.ne_none_iff_exists'.1 (hall v' hv')
    have hpage : pte.page = pte'.page := by simpa [hpte, hpte'] using heq
    exact Holder.user.inj (ho.inj _ _ _ (Owned.held_user hv hpte) (hpage ▸ Owned.held_user hv' hpte'))
  have hcard := Finset.card_le_card_of_injOn _ hmaps hinj
  rw [Finset.card_range, Finset.card_range] at hcard
  exact absurd hcard (by decide)

/-- A page that is unmapped and freed. -/
theorem Owned.unmap {pte : Pte} (ho : Owned d m) (hv : v < userPages) (h : d.pte v = some pte) :
    ∃ m', m.kfree pte.page = .ok m' ∧ m'.image = m.image ∧ Owned (d.setPte v none) m' ∧
      ∀ v' < userPages, view (d.setPte v none) m' v' = Function.update (view d m) v none v' := by
  have hheld := Owned.held_user hv h
  have htable : (d.pdes (v / 1024)).isSome := by
    obtain ⟨t, ht, -⟩ := Option.bind_eq_some_iff.1 h
    simp [ht]
  refine ⟨_, kfree_of_valid (ho.valid_held _ _ hheld), rfl, ?_, fun v' hv' => ?_⟩
  · rw [Owned, held_setPte htable hv]
    exact ho.give hheld
  · by_cases hvv : v' = v
    · subst hvv
      simp [view, pte_setPte _ htable]
    · simp only [view, pte_setPte _ htable, Function.update_of_ne hvv]
      cases hp : d.pte v' with
      | none => rfl
      | some pte' =>
        -- The two pages are different ones, so filling one with junk does not touch the other.
        have hne : pte'.page ≠ pte.page := fun heq =>
          hvv (Holder.user.inj (ho.inj _ _ _ (Owned.held_user hv' hp) (heq ▸ hheld)))
        simp [Kmem.memset, Function.update_of_ne hne]

theorem view_eq_none : view d m v = none ↔ d.pte v = none := Option.map_eq_none_iff

/-- A loop that leaves `x` from `w` on leaves it from `v` on, if it is there between them. -/
theorem left_from {w top v' : Nat} {x c c' : Option Content} (hle : v ≤ w) (hthere : v ≤ v' → v' < w → c = x)
    (hsame : ¬ (v ≤ v' ∧ v' < top) → c = c') :
    (if w ≤ v' ∧ v' < top then x else c) = if v ≤ v' ∧ v' < top then x else c' := by
  by_cases hin : v ≤ v' ∧ v' < top
  · rw [if_pos hin]
    by_cases hw : w ≤ v'
    · rw [if_pos ⟨hw, hin.2⟩]
    · rw [if_neg (by omega), hthere hin.1 (by omega)]
  · rw [if_neg hin, if_neg (by omega), hsame hin]

/-- The loop of `deallocuvm` unmaps what is mapped from `v` on. -/
theorem deallocLoop_owned {fuel : Nat} (ho : Owned d m) (hold : oldsz ≤ kernbase) (hfuel : pgroundup oldsz ≤ v + fuel) :
    ∃ d' m', deallocLoop oldsz fuel v d m = .ok (d', m') ∧ m'.image = m.image ∧ Owned d' m' ∧
      ∀ v' < userPages, view d' m' v' = if v ≤ v' ∧ v' < pgroundup oldsz then none else view d m v' := by
  induction fuel generalizing v d m with
  | zero =>
    refine ⟨d, m, rfl, rfl, ho, fun v' _ => ?_⟩
    rw [if_neg (by omega)]
  | succ fuel ih =>
    unfold deallocLoop
    by_cases hv : v * pgsize < oldsz
    · rw [if_pos hv]
      have hlt := (lt_pgroundup hold).2 hv
      have huser := hlt.trans_le (pgroundup_le hold)
      cases hw : d.walk v with
      | none =>
        -- the pages that are skipped are those of a table that is missing
        have hskip : ∀ v', v ≤ v' → v' < (v / 1024 + 1) * 1024 → view d m v' = none := by
          intro v' hge hlt'
          have hsame : v' / 1024 = v / 1024 := by omega
          have ht := Option.map_eq_none_iff.1 hw
          exact view_eq_none.2 (by simp [Pgdir.pte, hsame, ht])
        obtain ⟨d', m', hrun, himage, ho', hview⟩ := ih (v := (v / 1024 + 1) * 1024) ho (by omega)
        refine ⟨d', m', hrun, himage, ho', fun v' hv' => ?_⟩
        rw [hview v' hv']
        exact left_from (by omega) (hskip v') fun _ => rfl
      | some e =>
        cases e with
        | none =>
          obtain ⟨d', m', hrun, himage, ho', hview⟩ := ih (v := v + 1) ho (by omega)
          refine ⟨d', m', hrun, himage, ho', fun v' hv' => ?_⟩
          rw [hview v' hv']
          refine left_from (Nat.le_succ v) (fun hge hlt' => ?_) fun _ => rfl
          obtain rfl : v' = v := by omega
          exact view_eq_none.2 (pte_of_walk hw)
        | some pte =>
          have hpte := pte_of_walk hw
          obtain ⟨m₁, hk, himage₁, ho₁, hview₁⟩ := ho.unmap huser hpte
          obtain ⟨d', m', hrun, himage, ho', hview⟩ := ih (v := v + 1) ho₁ (by omega)
          have hne := Kmem.Valid.ne_zero (ho.valid_held _ _ (Owned.held_user huser hpte))
          refine ⟨d', m', ?_, himage.trans himage₁, ho', fun v' hv' => ?_⟩
          · simp only [if_neg hne, hk]
            exact hrun
          · rw [hview v' hv', hview₁ v' hv']
            refine left_from (Nat.le_succ v) (fun hge hlt' => ?_) fun hout => ?_
            · obtain rfl : v' = v := by omega
              exact Function.update_self ..
            · exact Function.update_of_ne (fun heq => hout ⟨heq.ge, heq ▸ hlt⟩) ..
    · rw [if_neg hv]
      refine ⟨d, m, rfl, rfl, ho, fun v' _ => ?_⟩
      have hle : pgroundup oldsz ≤ v := Nat.le_of_not_lt fun h => hv ((lt_pgroundup hold).1 h)
      rw [if_neg (by omega)]

/-- `deallocuvm` unmaps the pages between the two sizes. -/
theorem deallocuvm_owned (ho : Owned d m) (hold : oldsz ≤ kernbase) (hlt : newsz < oldsz) :
    ∃ d' m', deallocuvm d oldsz newsz m = .ok (newsz, d', m') ∧ m'.image = m.image ∧ Owned d' m' ∧
      ∀ v < userPages, view d' m' v = if pgroundup newsz ≤ v ∧ v < pgroundup oldsz then none else view d m v := by
  have hfuel : pgroundup oldsz ≤ pgroundup newsz + (oldsz / pgsize + 1) := by
    have hk : kernbase = 2147483648 := rfl
    unfold pgroundup pgsize
    omega
  obtain ⟨d', m', hrun, himage, ho', hview⟩ := deallocLoop_owned ho hold hfuel
  refine ⟨d', m', ?_, himage, ho', hview⟩
  unfold deallocuvm
  rw [if_neg (by omega), hrun]
  rfl

theorem freeTables_of_valid (h : ∀ i pgtab, d.pdes i = some pgtab → m.Valid pgtab.page) (is : List Nat) :
    ∃ m', freeTables d is m = .ok m' ∧ m'.image = m.image := by
  induction is generalizing m with
  | nil => exact ⟨m, rfl, rfl⟩
  | cons i is ih =>
    unfold freeTables
    cases hi : d.pdes i with
    | none => exact ih h
    | some pgtab =>
      obtain ⟨m', hrun, himage⟩ := ih (m := { m.memset pgtab.page 1 with freelist := pgtab.page :: m.freelist }) h
      refine ⟨m', ?_, himage⟩
      simp only [kfree_of_valid (h i pgtab hi)]
      exact hrun

/-- `freevm` finds nothing that `kfree` does not take. -/
theorem Owned.freevm (ho : Owned d m) : ∃ m', freevm d m = .ok m' := by
  have hpos : 0 < kernbase := by decide
  obtain ⟨d', m₁, hdealloc, -, ho', -⟩ := deallocuvm_owned ho (le_refl kernbase) hpos
  obtain ⟨m₂, htables, himage⟩ := freeTables_of_valid (d := d') (m := m₁)
    (fun i pgtab hi => ho'.valid_held (.table i) _ (by simp [Pgdir.held, hi])) (List.range 1024)
  have hdir : m₂.Valid d'.page := by
    rw [valid_congr himage]
    exact ho'.valid_held .dir d'.page rfl
  refine ⟨_, bind_ok.2 ⟨_, hdealloc, bind_ok.2 ⟨m₂, htables, kfree_of_valid hdir⟩⟩⟩

/-! ## Growing -/

/-- A turn of the loop of `allocuvm`, where the loop does not fail. -/
theorem allocLoop_succ {count : Nat} (h : allocLoop oldsz newsz (count + 1) v d m = .ok (sz, d', m')) (hsz : sz ≠ 0) :
    ∃ mem m₁ d₂ m₂, m.kalloc = some (mem, m₁) ∧ mappages d v 1 mem true true (m₁.memset mem 0) = .ok (true, d₂, m₂) ∧
      allocLoop oldsz newsz count (v + 1) d₂ m₂ = .ok (sz, d', m') := by
  unfold allocLoop at h
  split at h
  · -- Out of memory, where the result is 0.
    obtain ⟨⟨_, d₁, m₁⟩, -, h⟩ := bind_ok.1 h
    cases h
    exact absurd rfl hsz
  · rename_i mem m₁ hk
    obtain ⟨⟨mapped, d₂, m₂⟩, hmap, h⟩ := bind_ok.1 h
    cases mapped with
    | true => exact ⟨mem, m₁, d₂, m₂, hk, hmap, h⟩
    | false =>
      obtain ⟨⟨_, d₃, m₃⟩, -, h⟩ := bind_ok.1 h
      obtain ⟨m₄, -, h⟩ := bind_ok.1 h
      cases h
      exact absurd rfl hsz

/-- The loop of `allocuvm` that does not fail has mapped cleared pages. -/
theorem allocLoop_owned {count : Nat} (ho : Owned d m) (h : allocLoop oldsz newsz count v d m = .ok (sz, d', m'))
    (hsz : sz ≠ 0) : sz = newsz ∧ m'.image = m.image ∧ Owned d' m' ∧
      ∀ v' < userPages, view d' m' v' = if v ≤ v' ∧ v' < v + count then some .zeroed else view d m v' := by
  induction count generalizing v d m with
  | zero =>
    cases h
    refine ⟨rfl, rfl, ho, fun v' _ => ?_⟩
    rw [if_neg (by omega)]
  | succ count ih =>
    obtain ⟨mem, m₁, d₂, m₂, hk, hmap, h⟩ := allocLoop_succ h hsz
    obtain ⟨ho₂, huses, hview₂⟩ := ho.map_zeroed hk hmap
    obtain ⟨rfl, himage, ho', hview⟩ := ih ho₂ h
    refine ⟨rfl, himage.trans huses.image, ho', fun v' hv' => ?_⟩
    rw [hview v' hv', hview₂ v' hv', show v + (count + 1) = v + 1 + count by omega]
    refine left_from (Nat.le_succ v) (fun hge hlt => ?_) fun hout => ?_
    · obtain rfl : v' = v := by omega
      exact Function.update_self ..
    · exact Function.update_of_ne (by omega) ..

/-- The loop of `allocuvm` that does not fail writes no entry outside of its range. -/
theorem allocLoop_pte {count v' : Nat} (h : allocLoop oldsz newsz count v d m = .ok (sz, d', m')) (hsz : sz ≠ 0)
    (hv : ¬ (v ≤ v' ∧ v' < v + count)) : d'.pte v' = d.pte v' := by
  induction count generalizing v d m with
  | zero =>
    cases h
    rfl
  | succ count ih =>
    obtain ⟨mem, m₁, d₂, m₂, -, hmap, h⟩ := allocLoop_succ h hsz
    rw [ih h (by omega), (mappages_mapped hmap).entry, Function.update_of_ne (by omega)]

/-- With enough free pages the loop of `allocuvm` does not fail. -/
theorem allocLoop_of_enough {count : Nat} (hnone : ∀ i < count, d.pte (v + i) = none)
    (hm : needs d v count ≤ m.freelist.length) : ∃ d' m', allocLoop oldsz newsz count v d m = .ok (newsz, d', m') ∧
      m.freelist.length ≤ m'.freelist.length + needs d v count := by
  induction count generalizing v d m with
  | zero => exact ⟨d, m, rfl, Nat.le_add_right _ _⟩
  | succ count ih =>
    have habsent : d.pte v = none := hnone 0 (by omega)
    obtain ⟨mem, m₁, d₂, m₂, hk, hmap, hlength⟩ := map_of_enough habsent ((needs_one_le d v count).trans hm)
    have hmapped := mappages_mapped hmap
    have hrest := missing_succ count hmapped.pdes
    unfold needs at hm ih hlength ⊢
    rw [missing_one] at hlength
    have hnone' : ∀ i < count, d₂.pte (v + 1 + i) = none := by
      intro i hi
      rw [hmapped.entry, Function.update_of_ne (by omega), show v + 1 + i = v + (i + 1) by omega]
      exact hnone (i + 1) (by omega)
    obtain ⟨d', m', hrun, hle⟩ := ih (m := m₂) hnone' (by omega)
    refine ⟨d', m', ?_, by omega⟩
    unfold allocLoop
    rw [hk]
    exact bind_ok.2 ⟨_, hmap, hrun⟩

/-- `allocuvm` that does not fail has mapped cleared pages between the two sizes. -/
theorem allocuvm_owned (ho : Owned d m) (hold : oldsz ≤ kernbase) (h : allocuvm d oldsz newsz m = .ok (sz, d', m'))
    (hsz : sz ≠ 0) : sz = max oldsz newsz ∧ newsz < kernbase ∧ m'.image = m.image ∧ Owned d' m' ∧
      ∀ v < userPages, view d' m' v =
        if pgroundup oldsz ≤ v ∧ v < pgroundup newsz then some .zeroed else view d m v := by
  unfold allocuvm at h
  split at h
  · cases h
    exact absurd rfl hsz
  rename_i hnew
  split at h
  · rename_i hlt
    cases h
    refine ⟨by omega, by omega, rfl, ho, fun v _ => ?_⟩
    have hle := pgroundup_mono hlt.le hold
    rw [if_neg (by omega)]
  · rename_i hle
    have hmono := pgroundup_mono (Nat.le_of_not_lt hle) (by omega : newsz ≤ kernbase)
    obtain ⟨rfl, himage, ho', hview⟩ := allocLoop_owned ho h hsz
    refine ⟨by omega, by omega, himage, ho', fun v hv => ?_⟩
    rw [hview v hv, Nat.add_sub_cancel' hmono]

/-- `allocuvm` writes no entry above KERNBASE. -/
theorem allocuvm_kernel (h : allocuvm d oldsz newsz m = .ok (sz, d', m')) (hsz : sz ≠ 0) (hv : userPages ≤ v) :
    d'.pte v = d.pte v := by
  unfold allocuvm at h
  split at h
  · cases h
    rfl
  rename_i hnew
  split at h
  · cases h
    rfl
  · have hround := pgroundup_le (Nat.le_of_not_le hnew)
    exact allocLoop_pte h hsz (by omega)

/-- With enough free pages `allocuvm` does not fail below KERNBASE. -/
theorem allocuvm_of_enough (hle : oldsz ≤ newsz) (hnew : newsz < kernbase)
    (hnone : ∀ v, pgroundup oldsz ≤ v → v < pgroundup newsz → d.pte v = none)
    (hm : needs d (pgroundup oldsz) (pgroundup newsz - pgroundup oldsz) ≤ m.freelist.length) :
    ∃ d' m', allocuvm d oldsz newsz m = .ok (newsz, d', m') ∧
      m.freelist.length ≤ m'.freelist.length + needs d (pgroundup oldsz) (pgroundup newsz - pgroundup oldsz) := by
  unfold allocuvm
  rw [if_neg (by omega), if_neg (by omega)]
  exact allocLoop_of_enough (fun i hi => hnone _ (by omega) (by omega)) hm

end CS1550.Vm
