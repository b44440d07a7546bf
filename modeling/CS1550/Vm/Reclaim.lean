/-
What `freevm` gives back. The pages of an address space are those of the directory, of the tables and of the user
part; together with the free list they stay the same through `setupkvm`, the page faults below KERNBASE and
`freevm`. A page that the fault handler maps above KERNBASE is in none of these places, and `freevm`, which stops
at KERNBASE, does not find it (`freevm_perm_iff`).
-/
import CS1550.Vm.Fault

namespace CS1550.Vm

/-! ## All pages -/

/-- The places that `freevm` looks at. -/
def holders : List Holder := .dir :: ((List.range 1024).map .table ++ (List.range userPages).map .user)

theorem nodup_holders : holders.Nodup := by
  refine List.nodup_cons.2 ⟨by simp, List.nodup_append.2 ⟨?_, ?_, ?_⟩⟩
  · exact List.nodup_range.map fun _ _ h => Holder.table.inj h
  · exact List.nodup_range.map fun _ _ h => Holder.user.inj h
  · intro x hx y hy
    obtain ⟨i, -, rfl⟩ := List.mem_map.1 hx
    obtain ⟨v, -, rfl⟩ := List.mem_map.1 hy
    simp

theorem table_mem_holders {i : Nat} (h : i < 1024) : .table i ∈ holders :=
  List.mem_cons_of_mem _ (List.mem_append_left _ (List.mem_map_of_mem (List.mem_range.2 h)))

theorem user_mem_holders {v : Nat} (h : v < userPages) : .user v ∈ holders :=
  List.mem_cons_of_mem _ (List.mem_append_right _ (List.mem_map_of_mem (List.mem_range.2 h)))

/-- The free pages and those of the address space. -/
def pages (d : Pgdir) (m : Kmem) : Multiset Nat := m.freelist + Pool.stock holders d.held

variable {d d' : Pgdir} {m m' : Kmem} {v pa page count oldsz : Nat} {w u : Bool}

/-- A free page goes to a place that has none. -/
theorem pages_take {x : Holder} (hk : m.kalloc = some (page, m')) (hx : x ∈ holders) (hnone : d.held x = none)
    (hheld : d'.held = Function.update d.held x (some page)) : pages d' m' = pages d m := by
  unfold pages
  rw [hheld, Pool.stock_hold nodup_holders hx hnone, (kalloc_eq_some hk).1, ← Multiset.cons_coe, Multiset.add_cons,
    Multiset.cons_add]

/-- A place gives its page to the free list. -/
theorem pages_give {x : Holder} (hk : m.kfree page = .ok m') (hx : x ∈ holders) (hsome : d.held x = some page)
    (hheld : d'.held = Function.update d.held x none) : pages d' m' = pages d m := by
  unfold pages
  rw [hheld, (kfree_eq_ok hk).2, ← Multiset.cons_coe, Multiset.cons_add, ← Multiset.add_cons,
    Pool.stock_give nodup_holders hx hsome]

/-! ## Taking pages -/

theorem pages_walkpgdir (h : walkpgdir d v m = some (d', m')) (hv : v < 2 ^ 20) : pages d' m' = pages d m := by
  unfold walkpgdir at h
  split at h
  · cases h
    rfl
  · rename_i ht
    obtain ⟨⟨page, m₁⟩, hk, he⟩ := Option.map_eq_some_iff.1 h
    cases he
    have htable : d.held (.table (v / 1024)) = none := by simp [Pgdir.held, ht]
    show pages _ m₁ = _
    exact pages_take hk (table_mem_holders (by omega)) htable (held_addTable ht)

/-- A page that is mapped below KERNBASE comes to the address space. -/
theorem pages_map_user (h : mappages d v 1 pa w u m = .ok (true, d', m')) (hv : v < userPages) :
    pages d' m' = pa ::ₘ pages d m := by
  have huser : userPages = 524288 := rfl
  obtain ⟨d₁, m₁, hw, habsent, h⟩ := mappages_succ h
  cases h
  have hwalk := walkpgdir_walked hw
  have hnone : d₁.held (.user v) = none := by simp [Pgdir.held, habsent]
  rw [← pages_walkpgdir hw (by omega)]
  unfold pages
  rw [held_setPte hwalk.table hv, Option.map_some, Pool.stock_hold nodup_holders (user_mem_holders hv) hnone,
    Multiset.add_cons]

/-- The pages that are mapped above KERNBASE do not. -/
theorem pages_map_kernel (h : mappages d v count pa w u m = .ok (true, d', m')) (hv : userPages ≤ v)
    (htop : v + count ≤ 2 ^ 20) : pages d' m' = pages d m := by
  induction count generalizing d m v pa with
  | zero =>
    cases h
    rfl
  | succ count ih =>
    obtain ⟨d₁, m₁, hw, -, h⟩ := mappages_succ h
    rw [ih h (by omega) (by omega), ← pages_walkpgdir hw (by omega)]
    unfold pages
    rw [held_setPte_kernel (walkpgdir_walked hw).table hv]

theorem pages_mapKernel {ks : List Kmap} (hkernel : ∀ k ∈ ks, userPages ≤ k.virt ∧ k.virt + k.size ≤ 2 ^ 20)
    (h : mapKernel ks d m = .ok (some d', m')) : pages d' m' = pages d m := by
  induction ks generalizing d m with
  | nil =>
    cases h
    rfl
  | cons k ks ih =>
    obtain ⟨hk, hkernel⟩ := List.forall_mem_cons.1 hkernel
    obtain ⟨d₁, m₁, hmap, h⟩ := mapKernel_cons h
    rw [ih hkernel h, pages_map_kernel hmap hk.1 hk.2]

/-- The pages of a new address space, and the free ones, are the pages that were free. -/
theorem pages_setupkvm (h : setupkvm m = .ok (some d, m')) : pages d m' = m.freelist := by
  obtain ⟨page, m₁, hk, h⟩ := mapKernel_of_setupkvm h
  rw [pages_mapKernel (fun k hk => ⟨(kmap_range k hk).1, (kmap_range k hk).2.1⟩) h]
  unfold pages
  have hempty : Pool.stock holders (fun _ => none : Holder → Option Nat) = 0 := by
    rw [Pool.stock, List.filterMap_eq_nil_iff.2 fun _ _ => rfl]
    rfl
  rw [held_directory, Pool.stock_hold nodup_holders List.mem_cons_self rfl, hempty, (kalloc_eq_some hk).1,
    ← Multiset.cons_coe, Multiset.add_cons, add_zero]
  rfl

/-! ## Giving pages back -/

theorem pages_deallocLoop {fuel : Nat} (hold : oldsz ≤ kernbase) (h : deallocLoop oldsz fuel v d m = .ok (d', m')) :
    pages d' m' = pages d m := by
  induction fuel generalizing v d m with
  | zero =>
    cases h
    rfl
  | succ fuel ih =>
    unfold deallocLoop at h
    split at h
    · rename_i hv
      have huser := ((lt_pgroundup hold).2 hv).trans_le (pgroundup_le hold)
      split at h
      · exact ih h
      · exact ih h
      · rename_i pte hw
        split at h
        · cases h
        obtain ⟨m₁, hk, h⟩ := bind_ok.1 h
        have htable : (d.pdes (v / 1024)).isSome := by
          obtain ⟨t, ht, -⟩ := Option.map_eq_some_iff.1 hw
          simp [ht]
        rw [ih h]
        exact pages_give hk (user_mem_holders huser) (Owned.held_user huser (pte_of_walk hw)) (held_setPte htable huser)
    · cases h
      rfl

theorem freelist_freeTables {is : List Nat} (h : freeTables d is m = .ok m') :
    (m'.freelist : Multiset Nat) = m.freelist + (is.filterMap fun i => (d.pdes i).map Pgtab.page) := by
  induction is generalizing m with
  | nil =>
    cases h
    rw [List.filterMap_nil, Multiset.coe_nil, add_zero]
  | cons i is ih =>
    unfold freeTables at h
    rw [List.filterMap_cons]
    split at h
    · rename_i hi
      rw [ih h, hi]
      rfl
    · rename_i pgtab hi
      obtain ⟨m₁, hk, h⟩ := bind_ok.1 h
      rw [ih h, (kfree_eq_ok hk).2, hi, Option.map_some, ← Multiset.cons_coe, ← Multiset.cons_coe, Multiset.cons_add,
        Multiset.add_cons]

/-- Where the user part is empty, the other places are the directory and the tables. -/
theorem stock_of_empty (h : ∀ v < userPages, d.pte v = none) :
    Pool.stock holders d.held =
      d.page ::ₘ ((List.range 1024).filterMap fun i => (d.pdes i).map Pgtab.page : List Nat) := by
  have huser : ((List.range userPages).map Holder.user).filterMap d.held = [] := by
    refine List.filterMap_eq_nil_iff.2 fun x hx => ?_
    obtain ⟨v, hv, rfl⟩ := List.mem_map.1 hx
    simp [Pgdir.held, h v (List.mem_range.1 hv)]
  have htables : ((List.range 1024).map Holder.table).filterMap d.held =
      (List.range 1024).filterMap fun i => (d.pdes i).map Pgtab.page := List.filterMap_map
  have hdir : d.held .dir = some d.page := rfl
  rw [Pool.stock, holders, List.filterMap_cons, hdir, List.filterMap_append, huser, htables, List.append_nil]
  rfl

/-- `freevm` gives all pages of the address space to the free list. -/
theorem freelist_freevm (ho : Owned d m) (h : freevm d m = .ok m') : (m'.freelist : Multiset Nat) = pages d m := by
  have hpos : 0 < kernbase := by decide
  obtain ⟨d₁, m₁, hdealloc, -, -, hview⟩ := deallocuvm_owned ho (le_refl kernbase) hpos
  obtain ⟨x, hdealloc', h⟩ := bind_ok.1 h
  cases hdealloc.symm.trans hdealloc'
  obtain ⟨m₂, htables, h⟩ := bind_ok.1 h
  have hempty : ∀ v < userPages, d₁.pte v = none := by
    intro v hv
    rw [← view_eq_none (m := m₁), hview v hv]
    exact if_pos ⟨Nat.zero_le v, hv⟩
  have hsame : pages d₁ m₁ = pages d m := by
    unfold deallocuvm at hdealloc
    rw [if_neg (by decide)] at hdealloc
    obtain ⟨⟨d₂, m₃⟩, hloop, he⟩ := bind_ok.1 hdealloc
    cases he
    exact pages_deallocLoop (le_refl kernbase) hloop
  rw [← hsame, pages, stock_of_empty hempty, (kfree_eq_ok h).2, ← Multiset.cons_coe, freelist_freeTables htables,
    Multiset.add_cons]

/-! ## Runs -/

variable {s s' : Proc} {e : Event}

/-- A fault above KERNBASE for which there is memory: the page that it maps is lost. -/
def Leaks (s : Proc) : Event → Prop
  | .fault va _ => kernbase ≤ va ∧ needs s.pgdir (va / pgsize) 1 ≤ s.mem.freelist.length
  | _ => False

instance (s : Proc) : (e : Event) → Decidable (Leaks s e)
  | .sbrk _ => isFalse id
  | .load _ => isFalse id
  | .store _ _ => isFalse id
  | .fault _ _ => inferInstanceAs (Decidable (_ ∧ _))

/-- The addresses of the machine have 32 bits. -/
def Addressed : Event → Prop
  | .fault va _ => va < 2 ^ 32
  | _ => True

/-- A step keeps all pages, unless it is a fault that loses one. -/
theorem Step.pages (hs : Step s e s') (ho : Owned s.pgdir s.mem) (ha : Addressed e) :
    ∃ lost : Multiset Nat, Vm.pages s'.pgdir s'.mem + lost = Vm.pages s.pgdir s.mem ∧
      lost.card = if Leaks s e then 1 else 0 := by
  cases hs with
  | sbrk n => exact ⟨0, add_zero _, rfl⟩
  | load _ => exact ⟨0, add_zero _, rfl⟩
  | store b _ => exact ⟨0, add_zero _, rfl⟩
  | @fault _ va write _ ht =>
    have hva : va < 2 ^ 32 := ha
    have hf := ho.faulted va
    rw [ht] at hf
    cases hf with
    | outOfMemory enough _ freelist =>
      have hno : ¬ Leaks s (.fault va write) := fun h => Nat.not_le.2 enough h.2
      refine ⟨0, ?_, by rw [if_neg hno]; rfl⟩
      rw [add_zero]
      unfold Vm.pages
      rw [freelist]
    | @mapped page m₁ m d enough _ taken map =>
      have hlist := (kalloc_eq_some taken).1
      have hsame : Vm.pages s.pgdir s.mem = page ::ₘ Vm.pages s.pgdir (m₁.memset page 0) := by
        unfold Vm.pages
        rw [hlist, ← Multiset.cons_coe, Multiset.cons_add]
        rfl
      by_cases hkernel : kernbase ≤ va
      · refine ⟨{page}, ?_, by rw [if_pos ⟨hkernel, enough⟩]; rfl⟩
        have hle : userPages ≤ va / pgsize := Nat.div_le_div_right hkernel
        have htop : va / pgsize + 1 ≤ 2 ^ 20 := by
          unfold pgsize
          omega
        rw [hsame, add_comm, Multiset.singleton_add]
        exact congrArg _ (pages_map_kernel map hle htop)
      · have hno : ¬ Leaks s (.fault va write) := fun h => hkernel h.1
        refine ⟨0, ?_, by rw [if_neg hno]; rfl⟩
        have huser : va / pgsize < userPages := Nat.div_lt_of_lt_mul (by rw [Nat.mul_comm]; exact Nat.lt_of_not_le hkernel)
        rw [add_zero, hsame]
        exact pages_map_user map huser

/-- A run loses one page with each fault that leaks. -/
theorem pages_of_path {s₀ : Proc} {h : List (Proc × Event)} (ho : Owned s₀.pgdir s₀.mem) (hp : Run.Path Step s₀ h s)
    (ha : ∀ x ∈ h, Addressed x.2) : Owned s.pgdir s.mem ∧
      ∃ lost : Multiset Nat, pages s.pgdir s.mem + lost = pages s₀.pgdir s₀.mem ∧
        lost.card = h.countP fun x => Leaks x.1 x.2 := by
  induction hp with
  | start => exact ⟨ho, 0, add_zero _, rfl⟩
  | @step h s s' e hp hs ih =>
    obtain ⟨ho, lost, hlost, hcard⟩ := ih fun x hx => ha x (List.mem_append_left _ hx)
    obtain ⟨lost', hlost', hcard'⟩ := hs.pages ho (ha (s, e) (by simp))
    refine ⟨hs.owned ho, lost' + lost, ?_, ?_⟩
    · rw [← add_assoc, hlost', hlost]
    · rw [Multiset.card_add, hcard, hcard', List.countP_append, List.countP_singleton, Nat.add_comm]
      simp only [decide_eq_true_eq]

section

variable {m₁ : Kmem} {sz : Nat} {h : List (Proc × Event)}

/-- `freevm` does not panic, and gives back all pages but those that the faults have lost. -/
theorem freevm_lost (hm : m.Sound) (hsetup : setupkvm m = .ok (some d, m₁)) (hp : Run.Path Step ⟨d, sz, m₁⟩ h s)
    (ha : ∀ x ∈ h, Addressed x.2) : ∃ m' lost, freevm s.pgdir s.mem = .ok m' ∧
      (m'.freelist : Multiset Nat) + lost = m.freelist ∧ lost.card = h.countP fun x => Leaks x.1 x.2 := by
  obtain ⟨r, m₂, hsetup', hresult, -⟩ := hm.setupkvm
  cases hsetup.symm.trans hsetup'
  obtain ⟨ho, lost, hlost, hcard⟩ := pages_of_path (hresult d rfl).1 hp ha
  obtain ⟨m', hfree⟩ := ho.freevm
  refine ⟨m', lost, hfree, ?_, hcard⟩
  rw [freelist_freevm ho hfree, hlost]
  exact pages_setupkvm hsetup

/-- An address space from `setupkvm` on, and any calls of `sbrk` and faults of a process that do not panic: `freevm`
gives back exactly the pages that were taken, each once, if and only if no fault leaks. -/
theorem freevm_perm_iff (hm : m.Sound) (hsetup : setupkvm m = .ok (some d, m₁))
    (hp : Run.Path Step ⟨d, sz, m₁⟩ h s) (ha : ∀ x ∈ h, Addressed x.2) :
    ∃ m', freevm s.pgdir s.mem = .ok m' ∧ (m'.freelist.Perm m.freelist ↔ ∀ x ∈ h, ¬ Leaks x.1 x.2) := by
  obtain ⟨m', lost, hfree, hpages, hcard⟩ := freevm_lost hm hsetup hp ha
  have hzero : m'.freelist.Perm m.freelist ↔ lost = 0 := by
    rw [← Multiset.coe_eq_coe, ← hpages]
    exact left_eq_add
  refine ⟨m', hfree, ?_⟩
  rw [hzero, ← Multiset.card_eq_zero, hcard, List.countP_eq_zero]
  simp only [decide_eq_true_eq]

end

/-- One fault in a new address space, on a page that the kernel does not use. -/
theorem setupkvm_booted_fault : ∃ d m₁, setupkvm booted = .ok (some d, m₁) ∧
    ∀ va, (kmap booted.image).findSome? (·.pte (va / pgsize)) = none →
      needs d (va / pgsize) 1 ≤ m₁.freelist.length ∧ ∃ s, Step ⟨d, 0, m₁⟩ (.fault va true) s := by
  obtain ⟨r, m₁, hsetup, hresult, hroom⟩ := sound_booted.setupkvm
  have hlength : booted.freelist.length = 300 := List.length_range'
  obtain ⟨hsome, hlen⟩ := hroom (by omega)
  obtain ⟨d, rfl⟩ := Option.isSome_iff_exists.1 hsome
  refine ⟨d, m₁, hsetup, fun va hnone => ?_⟩
  have habsent : d.pte (va / pgsize) = none := (setupkvm_pte hsetup _).trans hnone
  have hneeds : needs d (va / pgsize) 1 ≤ m₁.freelist.length := by
    rw [needs, missing_one]
    split <;> omega
  obtain ⟨s, htrap, -⟩ := trap_of_enough (s := ⟨d, 0, m₁⟩) (hresult d rfl).1 habsent hneeds
  exact ⟨hneeds, s, .fault (translate_absent habsent) htrap⟩

/-- A page at 0 is given back. -/
theorem freevm_perm_iff_user : ∃ d m₁ h s m', setupkvm booted = .ok (some d, m₁) ∧ Run.Path Step ⟨d, 0, m₁⟩ h s ∧
    h.map Prod.snd = [.fault 0 true] ∧ freevm s.pgdir s.mem = .ok m' ∧ m'.freelist.Perm booted.freelist := by
  obtain ⟨d, m₁, hsetup, hfault⟩ := setupkvm_booted_fault
  obtain ⟨-, s, hs⟩ := hfault 0 (kmap_user _ (by decide))
  have hp := Run.Path.start.step hs
  obtain ⟨m', hfree, hiff⟩ := freevm_perm_iff sound_booted hsetup hp (by simp [Addressed])
  refine ⟨d, m₁, _, s, m', hsetup, hp, rfl, hfree, hiff.2 ?_⟩
  simp [Leaks, kernbase]

/-- A page behind the kernel's memory is lost. -/
theorem freevm_leaks : ∃ d m₁ h s m', setupkvm booted = .ok (some d, m₁) ∧ Run.Path Step ⟨d, 0, m₁⟩ h s ∧
    h.map Prod.snd = [.fault (kernbase + phystop) true] ∧ freevm s.pgdir s.mem = .ok m' ∧
    m'.freelist.length + 1 = booted.freelist.length := by
  obtain ⟨d, m₁, hsetup, hfault⟩ := setupkvm_booted_fault
  obtain ⟨hneeds, s, hs⟩ := hfault (kernbase + phystop) (kmap_hole _ (le_refl _) (by decide))
  have hp := Run.Path.start.step hs
  have hleaks : Leaks ⟨d, 0, m₁⟩ (.fault (kernbase + phystop) true) := ⟨Nat.le_add_right _ _, hneeds⟩
  obtain ⟨m', lost, hfree, hpages, hcard⟩ := freevm_lost sound_booted hsetup hp (by simp [Addressed, kernbase, phystop])
  refine ⟨d, m₁, _, s, m', hsetup, hp, rfl, hfree, ?_⟩
  have hlost : lost.card = 1 := by
    rw [hcard]
    simp [hleaks]
  have htotal := congrArg Multiset.card hpages
  rwa [Multiset.card_add, Multiset.coe_card, Multiset.coe_card, hlost] at htotal

end CS1550.Vm
