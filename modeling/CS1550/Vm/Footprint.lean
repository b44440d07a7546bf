/-
Which physical pages the functions of `lab4/xv6-public/vm.c` and `exec.c` touch. An address space owns the pages of
its directory, of its tables and of its entries that user code can reach or that lie below KERNBASE. Each function
that succeeds or returns an error is a transfer: it takes pages from the free list or gives some back, and
writes to no page but those of the address space and the free ones.
-/
import CS1550.Lib.Region
import CS1550.Vm.Args
import CS1550.Vm.Reclaim

namespace CS1550.Vm

/-! ## The pages of an address space -/

/-- The page of an entry, where the address space owns it. -/
def granted (v : Nat) (pte : Option Pte) : Option Nat := (pte.filter fun pte => v < userPages || pte.u).map Pte.page

/-- The page that a place of an address space has. -/
def Pgdir.grant (d : Pgdir) : Holder → Option Nat
  | .dir => some d.page
  | .table i => (d.pdes i).map Pgtab.page
  | .user v => granted v (d.pte v)

/-- All places of an address space. -/
def spots : List Holder := .dir :: ((List.range 1024).map .table ++ (List.range (2 ^ 20)).map .user)

/-- All pages that an address space owns. -/
def Pgdir.own (d : Pgdir) : Multiset Nat := Pool.stock spots d.grant

theorem nodup_spots : spots.Nodup := by
  refine List.nodup_cons.2 ⟨by simp, List.nodup_append.2 ⟨?_, ?_, ?_⟩⟩
  · exact List.nodup_range.map fun _ _ h => Holder.table.inj h
  · exact List.nodup_range.map fun _ _ h => Holder.user.inj h
  · intro x hx y hy
    obtain ⟨i, -, rfl⟩ := List.mem_map.1 hx
    obtain ⟨v, -, rfl⟩ := List.mem_map.1 hy
    simp

theorem table_mem_spots {i : Nat} (h : i < 1024) : .table i ∈ spots :=
  List.mem_cons_of_mem _ (List.mem_append_left _ (List.mem_map_of_mem (List.mem_range.2 h)))

theorem user_mem_spots {v : Nat} (h : v < 2 ^ 20) : .user v ∈ spots :=
  List.mem_cons_of_mem _ (List.mem_append_right _ (List.mem_map_of_mem (List.mem_range.2 h)))

variable {d d' : Pgdir} {m m' m'' : Kmem} {v pa page count sz oldsz newsz : Nat} {w u : Bool} {A A' A'' : Multiset Nat}

theorem mem_own {x : Holder} (hx : x ∈ spots) (h : d.grant x = some page) : page ∈ d.own :=
  List.mem_filterMap.2 ⟨x, hx, h⟩

theorem grant_addTable {i : Nat} (hi : d.pdes i = none) :
    (d.addTable i page).grant = Function.update d.grant (.table i) (some page) := by
  funext x
  cases x with
  | dir => simp [Pgdir.grant, Pgdir.addTable]
  | table j =>
    by_cases hj : j = i
    · subst hj
      simp [Pgdir.grant, Pgdir.addTable]
    · rw [Function.update_of_ne (by simpa using hj)]
      simp [Pgdir.grant, Pgdir.addTable, Function.update_of_ne hj]
  | user v =>
    rw [Function.update_of_ne (by simp)]
    simp [Pgdir.grant, pte_addTable hi]

theorem grant_setPte {pte : Option Pte} (h : (d.pdes (v / 1024)).isSome) :
    (d.setPte v pte).grant = Function.update d.grant (.user v) (granted v pte) := by
  funext x
  cases x with
  | dir => rfl
  | table j =>
    rw [Function.update_of_ne (by simp)]
    exact pdes_setPte j
  | user v' =>
    by_cases hv' : v' = v
    · subst hv'
      simp [Pgdir.grant, pte_setPte _ h]
    · rw [Function.update_of_ne (by simpa using hv')]
      simp [Pgdir.grant, pte_setPte _ h, Function.update_of_ne hv']

theorem own_addTable {i : Nat} (hi : d.pdes i = none) (hlt : i < 1024) : (d.addTable i page).own = page ::ₘ d.own := by
  unfold Pgdir.own
  rw [grant_addTable hi, Pool.stock_hold nodup_spots (table_mem_spots hlt)]
  simp [Pgdir.grant, hi]

/-- An entry that is written replaces the one that was there. -/
theorem own_setPte (pte : Option Pte) (h : (d.pdes (v / 1024)).isSome) (hv : v < 2 ^ 20) :
    (d.setPte v pte).own + (granted v (d.pte v)).toList = d.own + (granted v pte).toList := by
  have hold : d.own = (granted v (d.pte v)).toList + Pool.stock (spots.erase (.user v)) d.grant := by
    have hupdate := Pool.stock_update d.grant nodup_spots (user_mem_spots hv) (d.grant (.user v))
    rwa [Function.update_eq_self] at hupdate
  rw [hold, Pgdir.own, grant_setPte h, Pool.stock_update _ nodup_spots (user_mem_spots hv)]
  abel

/-! ## Transfers of pages -/

/-- The owner of the pages `A` becomes that of `A'`. -/
structure Transfers (m : Kmem) (A : Multiset Nat) (m' : Kmem) (A' : Multiset Nat) : Prop where
  image : m'.image = m.image
  transfer : Region.Transfer m.freelist m.bytes A m'.freelist m'.bytes A'

theorem Transfers.refl (m : Kmem) (A : Multiset Nat) : Transfers m A m A := ⟨rfl, .refl _ _ _⟩

theorem Transfers.trans (h : Transfers m A m' A') (h' : Transfers m' A' m'' A'') : Transfers m A m'' A'' :=
  ⟨h'.image.trans h.image, h.transfer.trans h'.transfer⟩

theorem Transfers.frame (h : Transfers m A m' A') (R : Multiset Nat) : Transfers m (A + R) m' (A' + R) :=
  ⟨h.image, h.transfer.frame R⟩

theorem Transfers.cons (h : Transfers m A m' A') (page : Nat) : Transfers m (page ::ₘ A) m' (page ::ₘ A') := by
  have hframe := h.frame {page}
  rwa [add_comm A, add_comm A', Multiset.singleton_add, Multiset.singleton_add] at hframe

theorem Transfers.forget (h : Transfers m A m' A') (hle : A'' ≤ A') : Transfers m A m' A'' :=
  ⟨h.image, h.transfer.forget hle⟩

theorem Transfers.kalloc (h : m.kalloc = some (page, m')) (A : Multiset Nat) : Transfers m A m' (page ::ₘ A) := by
  obtain ⟨hfree, himage, hbytes⟩ := kalloc_eq_some h
  refine ⟨himage, ?_, fun p _ => by rw [hbytes]⟩
  rw [hfree, ← Multiset.cons_coe, Multiset.cons_add, Multiset.add_cons]

/-- New bytes in a page of the owner. -/
theorem Transfers.setBytes (h : page ∈ A) (m : Kmem) (b : Nat → UInt8) : Transfers m A (m.setBytes page b) A := by
  refine ⟨rfl, .change fun p hp => ?_⟩
  by_contra hne
  refine hp (Function.update_of_ne ?_ ..)
  rintro rfl
  exact hne h

theorem Transfers.kfree (h : m.kfree page = .ok m') (A : Multiset Nat) : Transfers m (page ::ₘ A) m' A := by
  unfold Kmem.kfree at h
  split at h
  · cases h
    have hset : Transfers m (page ::ₘ A) (m.setBytes page fun _ => 1) (page ::ₘ A) :=
      .setBytes (Multiset.mem_cons_self _ _) m _
    refine ⟨rfl, ?_, hset.transfer.contents⟩
    show ((page :: m.freelist : List Nat) : Multiset Nat) + A ≤ _
    rw [← Multiset.cons_coe, Multiset.cons_add, Multiset.add_cons]
  · cases h

/-! ## Mapping -/

theorem walkpgdir_transfers (h : walkpgdir d v m = some (d', m')) (hv : v < 2 ^ 20) : Transfers m d.own m' d'.own := by
  unfold walkpgdir at h
  split at h
  · cases h
    exact .refl _ _
  · rename_i ht
    obtain ⟨⟨page, m₁⟩, hk, he⟩ := Option.map_eq_some_iff.1 h
    cases he
    rw [own_addTable ht (by omega)]
    exact (Transfers.kalloc hk d.own).trans (.setBytes (Multiset.mem_cons_self _ _) m₁ fun _ => 0)

/-- One page that is mapped, or is still in hand where the mapping fails. -/
theorem map_transfers {b : Bool} (h : mappages d v 1 pa w u m = .ok (b, d', m')) (hv : v < 2 ^ 20) :
    Transfers m (pa ::ₘ d.own) m' (if b then d'.own else pa ::ₘ d'.own) := by
  cases b with
  | false =>
    obtain ⟨rfl, rfl⟩ := mappages_refused h
    exact .refl _ _
  | true =>
    obtain ⟨d₁, m₁, hw, habsent, h⟩ := mappages_succ h
    cases h
    refine ((walkpgdir_transfers hw hv).cons pa).forget ?_
    have hown := own_setPte (some ⟨pa, w, u⟩) (walkpgdir_walked hw).table hv
    rw [habsent] at hown
    have hle : ((granted v (some ⟨pa, w, u⟩)).toList : Multiset Nat) ≤ {pa} := by
      unfold granted
      rw [Option.filter_some]
      split
      · exact le_refl _
      · exact Multiset.zero_le _
    have hsum : (d₁.setPte v (some ⟨pa, w, u⟩)).own = d₁.own + (granted v (some ⟨pa, w, u⟩)).toList := by
      rw [← hown]
      exact (add_zero _).symm
    rw [if_pos rfl, hsum, ← Multiset.singleton_add, add_comm]
    exact Multiset.add_le_add_right hle

/-- Entries of the kernel are nobody's. -/
theorem map_kernel_transfers {b : Bool} (h : mappages d v count pa w false m = .ok (b, d', m')) (hv : userPages ≤ v)
    (htop : v + count ≤ 2 ^ 20) : Transfers m d.own m' d'.own := by
  induction count generalizing d m v pa with
  | zero =>
    cases h
    exact .refl _ _
  | succ count ih =>
    unfold mappages at h
    split at h
    · cases h
      exact .refl _ _
    · rename_i d₁ m₁ hw
      split at h
      · cases h
      rename_i habsent
      have hown := own_setPte (some ⟨pa, w, false⟩) (walkpgdir_walked hw).table (by omega : v < 2 ^ 20)
      have hnone : d₁.pte v = none := by simpa using habsent
      have hgrant : granted v (some ⟨pa, w, false⟩) = none := by
        simp only [granted, Option.filter_some, Bool.or_false, decide_eq_true_eq]
        rw [if_neg (by omega)]
        rfl
      rw [hnone, hgrant] at hown
      have hsame : (d₁.setPte v (some ⟨pa, w, false⟩)).own = d₁.own := add_right_cancel hown
      refine (walkpgdir_transfers hw (by omega)).trans ?_
      rw [← hsame]
      exact ih h (by omega) (by omega)

/-! ## Shrinking and freeing -/

theorem kfree_entry {pte : Pte} (hpte : d.pte v = some pte) (hv : v < userPages)
    (htable : (d.pdes (v / 1024)).isSome) (hk : m.kfree pte.page = .ok m') : Transfers m d.own m' (d.setPte v none).own := by
  have huser : userPages = 524288 := rfl
  have hown := own_setPte none htable (by omega : v < 2 ^ 20)
  have hgrant : granted v (d.pte v) = some pte.page := by simp [granted, hpte, Option.filter_some, hv]
  have hsum : d.own = pte.page ::ₘ (d.setPte v none).own := by
    rw [hgrant] at hown
    rw [← Multiset.singleton_add, add_comm]
    exact ((add_zero _).symm.trans hown.symm)
  rw [hsum]
  exact .kfree hk _

theorem deallocLoop_transfers {fuel : Nat} (hold : oldsz ≤ kernbase) (h : deallocLoop oldsz fuel v d m = .ok (d', m')) :
    Transfers m d.own m' d'.own := by
  induction fuel generalizing v d m with
  | zero =>
    cases h
    exact .refl _ _
  | succ fuel ih =>
    unfold deallocLoop at h
    split at h
    · rename_i hv
      have huser := ((lt_pgroundup hold).2 hv).trans_le (pgroundup_le hold)
      split at h
      · exact ih h
      · exact ih h
      · rename_i pte hw
        split at h
        · cases h
        obtain ⟨m₁, hk, h⟩ := bind_ok.1 h
        have htable : (d.pdes (v / 1024)).isSome := by
          obtain ⟨t, ht, -⟩ := Option.map_eq_some_iff.1 hw
          simp [ht]
        exact (kfree_entry (pte_of_walk hw) huser htable hk).trans (ih h)
    · cases h
      exact .refl _ _

theorem deallocuvm_transfers (hold : oldsz ≤ kernbase) (h : deallocuvm d oldsz newsz m = .ok (sz, d', m')) :
    Transfers m d.own m' d'.own := by
  unfold deallocuvm at h
  split at h
  · cases h
    exact .refl _ _
  · obtain ⟨⟨d₁, m₁⟩, hloop, h⟩ := bind_ok.1 h
    cases h
    exact deallocLoop_transfers hold hloop

/-- The tables in a list, each once, and what else there is. -/
theorem freeTables_transfers {is : List Nat} (h : freeTables d is m = .ok m') (A : Multiset Nat) :
    Transfers m ((is.filterMap fun i => (d.pdes i).map Pgtab.page : List Nat) + A) m' A := by
  induction is generalizing m with
  | nil =>
    cases h
    rw [List.filterMap_nil, Multiset.coe_nil, zero_add]
    exact .refl _ _
  | cons i is ih =>
    unfold freeTables at h
    rw [List.filterMap_cons]
    split at h
    · rename_i hi
      rw [hi]
      exact ih h
    · rename_i pgtab hi
      obtain ⟨m₁, hk, h⟩ := bind_ok.1 h
      rw [hi, Option.map_some, ← Multiset.cons_coe, Multiset.cons_add]
      exact (Transfers.kfree hk _).trans (ih h)

theorem freevm_transfers (h : freevm d m = .ok m') : Transfers m d.own m' 0 := by
  obtain ⟨⟨sz, d₁, m₁⟩, hdealloc, h⟩ := bind_ok.1 h
  obtain ⟨m₂, htables, h⟩ := bind_ok.1 h
  have hpage : d₁.page ::ₘ ((List.range 1024).filterMap fun i => (d₁.pdes i).map Pgtab.page : List Nat) ≤ d₁.own := by
    have htable : ((List.range 1024).map Holder.table).filterMap d₁.grant =
        (List.range 1024).filterMap fun i => (d₁.pdes i).map Pgtab.page := List.filterMap_map
    have hdir : d₁.grant .dir = some d₁.page := rfl
    rw [Pgdir.own, Pool.stock, spots, List.filterMap_cons, hdir, List.filterMap_append, htable, Multiset.cons_coe,
      Multiset.coe_le]
    exact (List.sublist_append_left _ _).cons_cons _ |>.subperm
  refine (deallocuvm_transfers (le_refl _) hdealloc).trans ?_
  refine (Transfers.refl m₁ d₁.own |>.forget hpage).trans ?_
  rw [← Multiset.singleton_add, add_comm]
  have htables := freeTables_transfers htables {d₁.page}
  exact htables.trans (Transfers.kfree h 0)

/-! ## Growing -/

theorem allocLoop_transfers {n : Nat} (hnew : newsz ≤ kernbase) (hv : v + count ≤ userPages)
    (h : allocLoop oldsz newsz count v d m = .ok (n, d', m')) : Transfers m d.own m' d'.own := by
  have huser : userPages = 524288 := rfl
  induction count generalizing v d m with
  | zero =>
    cases h
    exact .refl _ _
  | succ count ih =>
    unfold allocLoop at h
    split at h
    · obtain ⟨⟨sz₁, d₁, m₁⟩, hdealloc, h⟩ := bind_ok.1 h
      cases h
      exact deallocuvm_transfers hnew hdealloc
    · rename_i mem m₁ hk
      obtain ⟨⟨mapped, d₂, m₂⟩, hmap, h⟩ := bind_ok.1 h
      have htaken : Transfers m d.own (m₁.memset mem 0) (mem ::ₘ d.own) :=
        (Transfers.kalloc hk d.own).trans (.setBytes (Multiset.mem_cons_self _ _) m₁ fun _ => 0)
      have hmapped := htaken.trans (map_transfers hmap (by omega))
      cases mapped with
      | true => exact hmapped.trans (ih (by omega) h)
      | false =>
        obtain ⟨⟨sz₃, d₃, m₃⟩, hdealloc, h⟩ := bind_ok.1 h
        obtain ⟨m₄, hkfree, h⟩ := bind_ok.1 h
        cases h
        exact (hmapped.trans ((deallocuvm_transfers hnew hdealloc).cons mem)).trans (.kfree hkfree _)

theorem allocuvm_transfers {n : Nat} (h : allocuvm d oldsz newsz m = .ok (n, d', m')) :
    Transfers m d.own m' d'.own := by
  unfold allocuvm at h
  split at h
  · cases h
    exact .refl _ _
  rename_i hnew
  split at h
  · cases h
    exact .refl _ _
  · have hround := pgroundup_le (Nat.le_of_not_le hnew)
    have hmono := pgroundup_mono (Nat.le_of_not_lt ‹_›) (Nat.le_of_not_le hnew)
    exact allocLoop_transfers (Nat.le_of_not_le hnew) (by omega) h

/-! ## New address spaces -/

/-- The pages of an address space that may not have been made. -/
def ownOf (d : Option Pgdir) : Multiset Nat := (d.map Pgdir.own).getD 0

theorem own_directory (page : Nat) : (⟨page, fun _ => none⟩ : Pgdir).own = {page} := by
  have hgrant : (⟨page, fun _ => none⟩ : Pgdir).grant = Function.update (fun _ => none) .dir (some page) := by
    funext x
    cases x <;> simp [Pgdir.grant, Pgdir.pte, granted]
  have hempty : Pool.stock spots (fun _ => none : Holder → Option Nat) = 0 := by
    rw [Pool.stock, List.filterMap_eq_nil_iff.2 fun _ _ => rfl]
    rfl
  rw [Pgdir.own, hgrant, Pool.stock_hold nodup_spots List.mem_cons_self rfl, hempty]
  rfl

theorem mapKernel_transfers {ks : List Kmap} {r : Option Pgdir}
    (hkernel : ∀ k ∈ ks, userPages ≤ k.virt ∧ k.virt + k.size ≤ 2 ^ 20) (h : mapKernel ks d m = .ok (r, m')) :
    Transfers m d.own m' (ownOf r) := by
  induction ks generalizing d m with
  | nil =>
    cases h
    exact .refl _ _
  | cons k ks ih =>
    obtain ⟨hk, hkernel⟩ := List.forall_mem_cons.1 hkernel
    obtain ⟨⟨mapped, d₁, m₁⟩, hmap, h⟩ := bind_ok.1 h
    refine (map_kernel_transfers hmap hk.1 hk.2).trans ?_
    cases mapped with
    | true => exact ih hkernel h
    | false =>
      obtain ⟨m₂, hfree, h⟩ := bind_ok.1 h
      cases h
      exact freevm_transfers hfree

theorem setupkvm_transfers {r : Option Pgdir} (h : setupkvm m = .ok (r, m')) : Transfers m 0 m' (ownOf r) := by
  unfold setupkvm at h
  split at h
  · cases h
    exact .refl _ _
  rename_i page m₁ hk
  split at h
  · cases h
  have htaken : Transfers m 0 (m₁.memset page 0) {page} :=
    (Transfers.kalloc hk 0).trans (.setBytes (Multiset.mem_cons_self _ _) m₁ fun _ => 0)
  refine htaken.trans ?_
  rw [← own_directory]
  exact mapKernel_transfers (fun k hk => ⟨(kmap_range k hk).1, (kmap_range k hk).2.1⟩) h

theorem copyLoop_transfers {pgdir : Pgdir} {i : Nat} {r : Option Pgdir} (hi : i + count ≤ 2 ^ 20)
    (h : copyLoop pgdir count i d m = .ok (r, m')) : Transfers m d.own m' (ownOf r) := by
  induction count generalizing i d m with
  | zero =>
    cases h
    exact .refl _ _
  | succ count ih =>
    unfold copyLoop at h
    split at h
    · cases h
    · cases h
    rename_i pte hpte
    split at h
    · obtain ⟨m₁, hfree, h⟩ := bind_ok.1 h
      cases h
      exact freevm_transfers hfree
    · rename_i mem m₁ hk
      obtain ⟨⟨mapped, d₂, m₂⟩, hmap, h⟩ := bind_ok.1 h
      have htaken : Transfers m d.own (m₁.memmove mem pte.page) (mem ::ₘ d.own) :=
        (Transfers.kalloc hk d.own).trans (.setBytes (Multiset.mem_cons_self _ _) m₁ (m₁.bytes pte.page))
      have hmapped := htaken.trans (map_transfers hmap (by omega))
      cases mapped with
      | true => exact hmapped.trans (ih (by omega) h)
      | false =>
        obtain ⟨m₃, hkfree, h⟩ := bind_ok.1 h
        obtain ⟨m₄, hfree, h⟩ := bind_ok.1 h
        cases h
        rw [if_neg Bool.false_ne_true] at hmapped
        exact (hmapped.trans (.kfree hkfree _)).trans (freevm_transfers hfree)

theorem copyuvm_transfers {pgdir : Pgdir} {r : Option Pgdir} (hsz : sz < 2 ^ 32) (h : copyuvm pgdir sz m = .ok (r, m')) :
    Transfers m 0 m' (ownOf r) := by
  obtain ⟨⟨r₁, m₁⟩, hsetup, h⟩ := bind_ok.1 h
  refine (setupkvm_transfers hsetup).trans ?_
  cases r₁ with
  | none =>
    cases h
    exact .refl _ _
  | some d₁ =>
    refine copyLoop_transfers ?_ h
    unfold pgsize
    omega

/-! ## Programs -/

theorem user_mem_own {pte : Pte} (hv : v < 2 ^ 20) (hpte : d.pte v = some pte) (h : v < userPages ∨ pte.u) :
    pte.page ∈ d.own := by
  refine mem_own (user_mem_spots hv) ?_
  rcases h with h | h <;> simp [Pgdir.grant, granted, hpte, Option.filter_some, h]

theorem page_lt {va : Nat} (hva : va < 2 ^ 32) : va / pgsize < 2 ^ 20 := by
  unfold pgsize
  omega

theorem uint_lt (x : Int) : uint x < 2 ^ 32 := by
  unfold uint
  omega

/-- The address space that `setupkvm` makes has no user page. -/
theorem Kmem.Sound.started_setupkvm (hm : m.Sound) (h : Vm.setupkvm m = .ok (some d, m')) : Started ⟨d, 0, m'⟩ := by
  obtain ⟨r, m₁, hsetup, hresult, -⟩ := hm.setupkvm
  cases hsetup.symm.trans h
  obtain ⟨ho, -, hempty⟩ := hresult d rfl
  refine ⟨ho, (by decide : 0 < kernbase), fun v hv => ?_⟩
  have hzero : pgroundup 0 = 0 := rfl
  show (d.pte v).isSome ↔ v < pgroundup 0
  simp [hempty v hv, hzero]

theorem loadLoop_transfers {file : List UInt8} {off rest : Nat} (hpresent : ∀ i < count, (d.pte (v + i)).isSome)
    (hv : v + count ≤ userPages) (h : loadLoop d file count v off rest m = .ok (some m')) : Transfers m d.own m' d.own := by
  have huser : userPages = 524288 := rfl
  induction count generalizing v off rest m with
  | zero =>
    cases h
    exact .refl _ _
  | succ count ih =>
    unfold loadLoop at h
    split at h
    · cases h
    rename_i e hw
    split at h
    · obtain ⟨pte, hpte⟩ := Option.isSome_iff_exists.1 (hpresent 0 (by omega))
      have he : e = some pte := (pte_of_walk hw).symm.trans hpte
      subst he
      have hmem : pte.page ∈ d.own := user_mem_own (by omega : v < 2 ^ 20) hpte (.inl (by omega))
      exact (Transfers.setBytes hmem m _).trans (ih (fun i hi => by
        rw [Nat.add_right_comm]
        exact hpresent (i + 1) (by omega)) (by omega) h)
    · cases h

theorem loadSegments_transfers {file : List UInt8} {phs : List Proghdr} {r : Option Nat} (hs : Started ⟨d, sz, m⟩)
    (h : loadSegments file phs sz d m = .ok (r, d', m')) : Transfers m d.own m' d'.own := by
  have hp : pgsize = 4096 := rfl
  have hkern : kernbase = 2147483648 := rfl
  induction phs generalizing sz d m with
  | nil =>
    cases h
    exact .refl _ _
  | cons ph phs ih =>
    unfold loadSegments at h
    split at h
    · exact ih hs h
    split at h
    · cases h
      exact .refl _ _
    rename_i hsizes
    split at h
    · cases h
      exact .refl _ _
    rename_i hwrap
    obtain ⟨⟨sz₁, d₁, m₁⟩, halloc, h⟩ := bind_ok.1 h
    refine (allocuvm_transfers halloc).trans ?_
    dsimp only at h
    split at h
    · cases h
      exact .refl _ _
    rename_i hne
    split at h
    · cases h
      exact .refl _ _
    rename_i halign
    obtain ⟨loaded, hload, h⟩ := bind_ok.1 h
    cases loaded with
    | none =>
      cases h
      exact .refl _ _
    | some m₂ =>
      obtain ⟨hmax, hnew, -, -, -⟩ := allocuvm_owned hs.owned hs.below.le halloc hne
      have hlt : sz₁ < kernbase := by
        rw [hmax]
        exact max_lt hs.below hnew
      have hs₁ := hs.owned.allocuvm_started hs.below.le hs.mapped halloc hne hlt
      have hs₂ : Started ⟨d₁, sz₁, m₂⟩ := ⟨Owned.loaduvm hs₁.owned hload, hlt, hs₁.mapped⟩
      refine Transfers.trans ?_ (ih hs₂ h)
      unfold loaduvm at hload
      rw [if_neg halign] at hload
      -- the segment ends below the new size
      have hend : ph.vaddr.toNat + ph.filesz.toNat ≤ sz₁ := by
        have h1 : ph.filesz.toNat ≤ ph.memsz.toNat := UInt32.le_iff_toNat_le.1 (UInt32.not_lt.1 hsizes)
        have h2 : ph.vaddr.toNat ≤ (ph.vaddr + ph.memsz).toNat := UInt32.le_iff_toNat_le.1 (UInt32.not_lt.1 hwrap)
        have h3 := ph.vaddr.toNat_lt
        have h4 := ph.memsz.toNat_lt
        rw [UInt32.toNat_add] at h2 hmax
        omega
      rw [hp] at halign hload
      have hinside : ∀ i < (ph.filesz.toNat + 4096 - 1) / 4096, (ph.vaddr.toNat / 4096 + i) * pgsize < sz₁ := by
        intro i hi
        rw [hp]
        omega
      refine loadLoop_transfers (fun i hi => ?_) ?_ hload
      · have hpage := (lt_pgroundup hlt.le).2 (hinside i hi)
        exact (hs₁.mapped _ (hpage.trans_le (pgroundup_le hlt.le))).2 hpage
      · unfold userPages
        rw [hp]
        omega

/-- The size of `exec` is in the user part, so the guard page stays the program's. -/
theorem own_clearpteu (hv : v < userPages) (h : clearpteu d v = .ok d') : d'.own = d.own := by
  obtain ⟨htable, rfl⟩ := clearpteu_pte h
  have hown := own_setPte ((d.pte v).map fun pte => { pte with u := false }) htable
    (hv.trans (by decide : userPages < 2 ^ 20))
  have hgrant : granted v ((d.pte v).map fun pte => { pte with u := false }) = granted v (d.pte v) := by
    cases d.pte v with
    | none => rfl
    | some pte => simp [granted, Option.filter_some, hv]
  rw [hgrant] at hown
  exact add_right_cancel hown

/-- The pages of a program that may not have been loaded. -/
def programOwn (r : Option (Pgdir × Nat)) : Multiset Nat := ownOf (r.map Prod.fst)

theorem exec_transfers {phs : List Proghdr} {file : List UInt8} {r : Option (Pgdir × Nat)} (hm : m.Sound)
    (h : exec phs file m = .ok (r, m')) : Transfers m 0 m' (programOwn r) := by
  have hexec := h
  obtain ⟨⟨r₁, m₁⟩, hsetup, h⟩ := bind_ok.1 h
  refine (setupkvm_transfers hsetup).trans ?_
  cases r₁ with
  | none =>
    cases h
    exact .refl _ _
  | some d₁ =>
    obtain ⟨⟨loaded, d₂, m₂⟩, hload, h⟩ := bind_ok.1 h
    refine (loadSegments_transfers (hm.started_setupkvm hsetup) hload).trans ?_
    cases loaded with
    | none =>
      obtain ⟨m₃, hfree, h⟩ := bind_ok.1 h
      cases h
      exact freevm_transfers hfree
    | some sz₂ =>
      obtain ⟨⟨sz₃, d₃, m₃⟩, halloc, h⟩ := bind_ok.1 h
      refine (allocuvm_transfers halloc).trans ?_
      dsimp only at h
      split at h
      · obtain ⟨m₄, hfree, h⟩ := bind_ok.1 h
        cases h
        exact freevm_transfers hfree
      rename_i hne
      obtain ⟨d₄, hclear, h⟩ := bind_ok.1 h
      cases h
      obtain ⟨_, _, _, _, _, _, hx⟩ := executed_of_exec hexec
      show Transfers _ _ _ d₄.own
      rw [own_clearpteu (hx.guard_lt hm) hclear]
      exact .refl _ _

theorem copyoutLoop_transfers {fuel va : Nat} {buf : List UInt8} {b : Bool} (hva : va < 2 ^ 32)
    (h : copyoutLoop d fuel va buf m = some (b, m')) : Transfers m d.own m' d.own := by
  induction fuel generalizing va buf m with
  | zero =>
    cases h
    exact .refl _ _
  | succ fuel ih =>
    unfold copyoutLoop at h
    split at h
    · cases h
      exact .refl _ _
    split at h
    · cases h
    · cases h
      exact .refl _ _
    · rename_i pa0 huva
      obtain ⟨pte, hpte, hu, rfl⟩ := pte_of_uva2ka huva
      have hmem : pte.page ∈ d.own := user_mem_own (page_lt hva) hpte (.inr hu)
      exact (Transfers.setBytes hmem m _).trans (ih (Nat.mod_lt _ (by decide)) h)

theorem pushStrings_transfers {argv : List (List UInt8)} {argc sp : Nat} {ptrs : List Nat} {r : Option (Nat × List Nat)}
    (h : pushStrings d argv argc sp ptrs m = some (r, m')) : Transfers m d.own m' d.own := by
  induction argv generalizing argc sp ptrs m with
  | nil =>
    cases h
    exact .refl _ _
  | cons arg argv ih =>
    unfold pushStrings at h
    split at h
    · cases h
      exact .refl _ _
    have hsp := (Nat.div_mul_le_self (uint (sp - (arg.length + 1))) 4).trans_lt (uint_lt _)
    dsimp only at h
    split at h
    · cases h
    · rename_i m₁ hcopy
      cases h
      exact copyoutLoop_transfers hsp hcopy
    · rename_i m₁ hcopy
      exact (copyoutLoop_transfers hsp hcopy).trans (ih h)

theorem pushArgs_transfers {argv : List (List UInt8)} {r : Option Nat} (h : pushArgs d sz argv m = some (r, m')) :
    Transfers m d.own m' d.own := by
  unfold pushArgs at h
  split at h
  · cases h
  · rename_i m₁ hstrings
    cases h
    exact pushStrings_transfers hstrings
  · rename_i sp ptrs m₁ hstrings
    refine (pushStrings_transfers hstrings).trans ?_
    dsimp only at h
    split at h
    · cases h
    · rename_i m₂ hcopy
      cases h
      exact copyoutLoop_transfers (uint_lt _) hcopy
    · rename_i m₂ hcopy
      cases h
      exact copyoutLoop_transfers (uint_lt _) hcopy

/-! ## User mode -/

variable {s s' : Proc} {va : Nat}

theorem trap_transfers (hva : va < 2 ^ 32) (h : trap s va = .ok s') :
    Transfers s.mem s.pgdir.own s'.mem s'.pgdir.own := by
  unfold trap at h
  split at h
  · cases h
    exact .refl _ _
  · rename_i mem m₁ hk
    obtain ⟨⟨mapped, d₂, m₂⟩, hmap, h⟩ := bind_ok.1 h
    have htaken : Transfers s.mem s.pgdir.own (m₁.memset mem 0) (mem ::ₘ s.pgdir.own) :=
      (Transfers.kalloc hk s.pgdir.own).trans (.setBytes (Multiset.mem_cons_self _ _) m₁ fun _ => 0)
    have hmapped := htaken.trans (map_transfers hmap (page_lt hva))
    cases mapped with
    | true =>
      cases h
      exact hmapped
    | false =>
      obtain ⟨m₃, hkfree, h⟩ := bind_ok.1 h
      cases h
      rw [if_neg Bool.false_ne_true] at hmapped
      exact hmapped.trans (.kfree hkfree _)

theorem poke_transfers {write : Bool} (hva : va < 2 ^ 32) (h : s.translate va write = some page) (i : Nat) (b : UInt8) :
    Transfers s.mem s.pgdir.own (s.poke page i b).mem s.pgdir.own := by
  obtain ⟨pte, hfilter, rfl⟩ := Option.map_eq_some_iff.1 h
  obtain ⟨hpte, hpermits⟩ := Option.filter_eq_some_iff.1 hfilter
  have hu : pte.u = true := by
    unfold Pte.permits at hpermits
    exact (Bool.and_eq_true_iff.1 hpermits).1
  exact .setBytes (user_mem_own (page_lt hva) hpte (.inr hu)) s.mem _

end CS1550.Vm
