/-
Setting up and copying whole address spaces (`setupkvm` and `copyuvm` of `lab4/xv6-public/vm.c`), and the memory
part of `exec.c`: the segments of the program, the guard page and the stack. A process that `exec` has set up
has exactly the pages below `sz` (`exec_started`).
-/
import CS1550.Vm.Process

namespace CS1550.Vm

/-! ## The kernel part of a page table -/

/-- An entry of `kmap`, in pages, with PTE_W as its permission. -/
structure Kmap where
  virt : Nat
  physStart : Nat
  physEnd : Nat
  w : Bool

/-- Number of the pages of an entry. The one for devices ends at the end of the address space, where its
`phys_end` is 0. -/
def Kmap.size (k : Kmap) : Nat := (k.physEnd + 2 ^ 20 - k.physStart) % 2 ^ 20

/-- The table `kmap` of `vm.c`. -/
def kmap (image : Image) : List Kmap :=
  [⟨kernbase / pgsize, 0, extmem / pgsize, true⟩,
    ⟨kernlink / pgsize, kernlink / pgsize - userPages, image.data - userPages, false⟩,
    ⟨image.data, image.data - userPages, phystop / pgsize, true⟩,
    ⟨devspace / pgsize, devspace / pgsize, 0, true⟩]

/-- The loop of `setupkvm`. -/
def mapKernel : List Kmap → Pgdir → Kmem → Except Panic (Option Pgdir × Kmem)
  | [], d, m => .ok (some d, m)
  | k :: ks, d, m => do
    let (mapped, d, m) ← mappages d k.virt k.size k.physStart k.w false m
    if mapped then mapKernel ks d m
    else
      let m ← freevm d m
      return (none, m)

/-- `setupkvm` -/
def setupkvm (m : Kmem) : Except Panic (Option Pgdir × Kmem) :=
  match m.kalloc with
  | none => .ok (none, m)
  | some (page, m) =>
    if kernbase + phystop > devspace then .error .phystopTooHigh
    else mapKernel (kmap m.image) ⟨page, fun _ => none⟩ (m.memset page 0)

/-! ## Copying the user part -/

/-- The loop of `copyuvm`: `count` pages from `i` on, from `pgdir` into `d`. -/
def copyLoop (pgdir : Pgdir) : (count : Nat) → (i : Nat) → (d : Pgdir) → Kmem → Except Panic (Option Pgdir × Kmem)
  | 0, _, d, m => .ok (some d, m)
  | count + 1, i, d, m =>
    match pgdir.walk i with
    | none => .error .copyuvmPte
    | some none => .error .copyuvmPresent
    | some (some pte) =>
      match m.kalloc with
      | none => do
        let m ← freevm d m
        return (none, m)
      | some (mem, m) => do
        let (mapped, d, m) ← mappages d i 1 mem pte.w pte.u (m.memmove mem pte.page)
        if mapped then copyLoop pgdir count (i + 1) d m
        else
          let m ← m.kfree mem
          let m ← freevm d m
          return (none, m)

/-- The loop ends before `i` comes round, since the new page table has the kernel at KERNBASE. -/
def copyuvm (pgdir : Pgdir) (sz : Nat) (m : Kmem) : Except Panic (Option Pgdir × Kmem) := do
  match ← setupkvm m with
  | (none, m) => return (none, m)
  | (some d, m) => copyLoop pgdir ((sz + pgsize - 1) / pgsize) 0 d m

/-! ## Loading a program -/

/-- `clearpteu` -/
def clearpteu (d : Pgdir) (v : Nat) : Except Panic Pgdir :=
  match d.walk v with
  | none => .error .clearpteu
  | some pte => .ok (d.setPte v (pte.map fun pte => { pte with u := false }))

/-- Reads `n` bytes of the file at `off` into a page. -/
def Kmem.readi (m : Kmem) (page : Nat) (file : List UInt8) (off n : Nat) : Kmem :=
  { m with bytes := Function.update m.bytes page fun i => if i < n then file.getD (off + i) 0 else m.bytes page i }

/-- The loop of `loaduvm`: `count` pages from `v` on, with `rest` bytes to go. A short file ends it with -1. An
entry that is not present has the address 0. -/
def loadLoop (d : Pgdir) (file : List UInt8) : (count : Nat) → (v off rest : Nat) → Kmem → Except Panic (Option Kmem)
  | 0, _, _, _, m => .ok (some m)
  | count + 1, v, off, rest, m =>
    match d.walk v with
    | none => .error .loaduvmAddress
    | some pte =>
      if off + min rest pgsize ≤ file.length then
        loadLoop d file count (v + 1) (off + pgsize) (rest - pgsize)
          (m.readi ((pte.map Pte.page).getD 0) file off (min rest pgsize))
      else .ok none

/-- `loaduvm` -/
def loaduvm (d : Pgdir) (addr : Nat) (file : List UInt8) (off sz : Nat) (m : Kmem) : Except Panic (Option Kmem) :=
  if addr % pgsize ≠ 0 then .error .loaduvmAligned
  else loadLoop d file ((sz + pgsize - 1) / pgsize) (addr / pgsize) off sz m

/-- A program header; `load` says whether its type is ELF_PROG_LOAD. -/
structure Proghdr where
  load : Bool
  off : UInt32
  vaddr : UInt32
  filesz : UInt32
  memsz : UInt32

/-- The loop of `exec` over the program headers; `none` is the jump to `bad`. -/
def loadSegments (file : List UInt8) :
    List Proghdr → (sz : Nat) → Pgdir → Kmem → Except Panic (Option Nat × Pgdir × Kmem)
  | [], sz, d, m => .ok (some sz, d, m)
  | ph :: phs, sz, d, m =>
    if ph.load = false then loadSegments file phs sz d m
    else if ph.memsz < ph.filesz then .ok (none, d, m)
    else if ph.vaddr + ph.memsz < ph.vaddr then .ok (none, d, m)
    else do
      let (sz, d, m) ← allocuvm d sz (ph.vaddr + ph.memsz).toNat m
      if sz = 0 then return (none, d, m)
      else if ph.vaddr.toNat % pgsize ≠ 0 then return (none, d, m)
      else
        match ← loaduvm d ph.vaddr.toNat file ph.off.toNat ph.filesz.toNat m with
        | none => return (none, d, m)
        | some m => loadSegments file phs sz d m

/-- The address space that `exec` makes for a program, and its size. -/
def exec (phs : List Proghdr) (file : List UInt8) (m : Kmem) : Except Panic (Option (Pgdir × Nat) × Kmem) := do
  match ← setupkvm m with
  | (none, m) => return (none, m)
  | (some d, m) =>
    match ← loadSegments file phs 0 d m with
    | (none, d, m) =>
      let m ← freevm d m
      return (none, m)
    | (some sz, d, m) =>
      -- Two pages at the next page boundary: the guard page, and the stack.
      let sz := pgroundup sz * pgsize
      let (sz, d, m) ← allocuvm d sz ((sz + 2 * pgsize) % 2 ^ 32) m
      if sz = 0 then
        let m ← freevm d m
        return (none, m)
      else
        let d ← clearpteu d ((sz - 2 * pgsize) / pgsize)
        return (some (d, sz), m)

/-! ## The kernel part -/

variable {d d' : Pgdir} {m m' : Kmem} {v sz oldsz newsz : Nat} {image : Image}

/-- A free list that `kfree` has made. -/
def Kmem.Sound (m : Kmem) : Prop := Pool.Accounted m.Valid m.freelist fun _ : Holder => none

theorem Owned.sound (ho : Owned d m) : m.Sound :=
  ⟨ho.nodup, ho.valid_free, by simp, by simp, by simp⟩

/-- A bound for the tables that an entry of `kmap` needs. -/
def Kmap.tables (k : Kmap) : Nat := (k.virt + k.size) / 1024 + 1 - k.virt / 1024

/-- The addresses that `kmap` is made of, in pages. -/
theorem kmap_pages : kernbase / pgsize = 524288 ∧ userPages = 524288 ∧ kernlink / pgsize = 524544 ∧
    extmem / pgsize = 256 ∧ phystop / pgsize = 57344 ∧ (kernbase + phystop) / pgsize = 581632 ∧
    devspace / pgsize = 1040384 := by decide

/-- An entry of `kmap` is within the physical memory or the devices. -/
theorem kmap_range : ∀ k ∈ kmap image, userPages ≤ k.virt ∧ k.virt + k.size ≤ 2 ^ 20 ∧
    (k.virt + k.size ≤ (kernbase + phystop) / pgsize ∨ devspace / pgsize ≤ k.virt) := by
  have hlow := image.kernlink_lt
  have hhigh := image.data_lt
  obtain ⟨h₁, h₂, h₃, h₄, h₅, h₆, h₇⟩ := kmap_pages
  intro k hk
  simp only [kmap, List.mem_cons, List.not_mem_nil, or_false] at hk
  unfold Kmap.size
  obtain rfl | rfl | rfl | rfl := hk <;> dsimp only <;> omega

theorem kmap_kernel : ∀ k ∈ kmap image, userPages ≤ k.virt := fun k hk => (kmap_range k hk).1

/-- The entries of `kmap` follow one another. -/
theorem kmap_apart : (kmap image).Pairwise fun k k' => k.virt + k.size ≤ k'.virt := by
  have hlow := image.kernlink_lt
  have hhigh := image.data_lt
  obtain ⟨h₁, h₂, h₃, h₄, h₅, h₆, h₇⟩ := kmap_pages
  simp only [kmap, List.pairwise_cons, List.forall_mem_cons, List.not_mem_nil, false_imp_iff, implies_true, and_true,
    List.Pairwise.nil, Kmap.size]
  omega

theorem kmap_tables (image : Image) : ((kmap image).map Kmap.tables).sum ≤ 68 := by
  have hlow := image.kernlink_lt
  have hhigh := image.data_lt
  obtain ⟨h₁, h₂, h₃, h₄, h₅, h₆, h₇⟩ := kmap_pages
  have hio : Kmap.tables ⟨kernbase / pgsize, 0, extmem / pgsize, true⟩ = 1 := by decide
  have htext : Kmap.tables ⟨kernlink / pgsize, kernlink / pgsize - userPages, image.data - userPages, false⟩ =
      image.data / 1024 - 511 := by
    unfold Kmap.tables Kmap.size
    dsimp only
    omega
  have hdata : Kmap.tables ⟨image.data, image.data - userPages, phystop / pgsize, true⟩ = 569 - image.data / 1024 := by
    unfold Kmap.tables Kmap.size
    dsimp only
    omega
  have hdevices : Kmap.tables ⟨devspace / pgsize, devspace / pgsize, 0, true⟩ = 9 := by decide
  simp only [kmap, List.map_cons, List.map_nil, List.sum_cons, List.sum_nil, hio, htext, hdata, hdevices]
  omega

/-- The loop of `setupkvm` does not panic, and leaves the user part empty. -/
theorem Owned.mapKernel (ks : List Kmap) (ho : Owned d m) (hkernel : ∀ k ∈ ks, userPages ≤ k.virt)
    (hapart : ks.Pairwise fun k k' => k.virt + k.size ≤ k'.virt)
    (hnone : ∀ k ∈ ks, ∀ v, k.virt ≤ v → v < k.virt + k.size → d.pte v = none)
    (huser : ∀ v < userPages, d.pte v = none) :
    ∃ r m', mapKernel ks d m = .ok (r, m') ∧
      (∀ d' ∈ r, Owned d' m' ∧ m'.image = m.image ∧ ∀ v < userPages, d'.pte v = none) ∧
      ((ks.map Kmap.tables).sum ≤ m.freelist.length →
        r.isSome ∧ m.freelist.length ≤ m'.freelist.length + (ks.map Kmap.tables).sum) := by
  induction ks generalizing d m with
  | nil =>
    refine ⟨some d, m, rfl, ?_, fun _ => ⟨rfl, by simp⟩⟩
    rintro d' ⟨⟩
    exact ⟨ho, rfl, huser⟩
  | cons k ks ih =>
    obtain ⟨hk, hkernel⟩ := List.forall_mem_cons.1 hkernel
    obtain ⟨hfirst, hapart⟩ := List.pairwise_cons.1 hapart
    obtain ⟨b, d₁, m₁, hmap, ho₁, himage, hout, henough⟩ :=
      ho.map_kernel k.physStart k.w false hk (hnone k List.mem_cons_self)
    have hmissing := missing_le d k.virt k.size
    rw [List.map_cons, List.sum_cons]
    unfold Kmap.tables at *
    cases b with
    | true =>
      obtain ⟨r, m', hrun, hresult, hroom⟩ := ih ho₁ hkernel hapart
        (fun k' hk' v hv hlt => by
          -- The other entries lie behind this one.
          have hbehind := hfirst k' hk'
          rw [hout v (by omega)]
          exact hnone k' (List.mem_cons_of_mem _ hk') v hv hlt)
        (fun v hv => by
          rw [hout v (by omega)]
          exact huser v hv)
      refine ⟨r, m', bind_ok.2 ⟨_, hmap, hrun⟩, fun d' hd' => ?_, fun hm => ?_⟩
      · obtain ⟨ho', himage', hempty⟩ := hresult d' hd'
        exact ⟨ho', himage'.trans himage, hempty⟩
      · obtain ⟨-, hle⟩ := henough (by omega)
        obtain ⟨hsome, hle'⟩ := hroom (by omega)
        exact ⟨hsome, by omega⟩
    | false =>
      obtain ⟨m', hfree⟩ := ho₁.freevm
      refine ⟨none, m', bind_ok.2 ⟨_, hmap, bind_ok.2 ⟨m', hfree, rfl⟩⟩, by simp, fun hm => ?_⟩
      obtain ⟨hfalse, -⟩ := henough (by omega)
      cases hfalse

theorem held_directory (page : Nat) :
    (⟨page, fun _ => none⟩ : Pgdir).held = Function.update (fun _ => none) .dir (some page) := by
  funext x
  cases x <;> simp [Pgdir.held, Pgdir.pte]

/-- A page for the directory, with nothing mapped. -/
theorem Kmem.Sound.directory {page : Nat} (hm : m.Sound) (hk : m.kalloc = some (page, m')) :
    Owned ⟨page, fun _ => none⟩ m' := by
  obtain ⟨hfree, himage, -⟩ := kalloc_eq_some hk
  rw [Owned, valid_congr himage, held_directory]
  unfold Kmem.Sound at hm
  rw [hfree] at hm
  exact hm.take .dir

/-- A turn of the loop of `setupkvm`, where the loop does not fail. -/
theorem mapKernel_cons {k : Kmap} {ks : List Kmap} (h : mapKernel (k :: ks) d m = .ok (some d', m')) :
    ∃ d₁ m₁, mappages d k.virt k.size k.physStart k.w false m = .ok (true, d₁, m₁) ∧
      mapKernel ks d₁ m₁ = .ok (some d', m') := by
  obtain ⟨⟨mapped, d₁, m₁⟩, hmap, h⟩ := bind_ok.1 h
  cases mapped with
  | true => exact ⟨d₁, m₁, hmap, h⟩
  | false =>
    obtain ⟨m₂, -, h⟩ := bind_ok.1 h
    cases h

theorem mapKernel_of_setupkvm (h : setupkvm m = .ok (some d, m')) :
    ∃ page m₁, m.kalloc = some (page, m₁) ∧
      mapKernel (kmap m.image) ⟨page, fun _ => none⟩ (m₁.memset page 0) = .ok (some d, m') := by
  unfold setupkvm at h
  split at h
  · cases h
  rename_i page m₁ hk
  split at h
  · cases h
  rw [(kalloc_eq_some hk).2.1] at h
  exact ⟨page, m₁, hk, h⟩

/-- `setupkvm` does not panic, and with a page for the directory and for each table it does not fail. -/
theorem Kmem.Sound.setupkvm (hm : m.Sound) : ∃ r m', setupkvm m = .ok (r, m') ∧
    (∀ d ∈ r, Owned d m' ∧ m'.image = m.image ∧ ∀ v < userPages, d.pte v = none) ∧
    (69 ≤ m.freelist.length → r.isSome ∧ m.freelist.length ≤ m'.freelist.length + 69) := by
  unfold Vm.setupkvm
  cases hk : m.kalloc with
  | none =>
    refine ⟨none, m, rfl, by simp, fun hlen => ?_⟩
    obtain ⟨page, m', hk'⟩ := kalloc_of_pos (m := m) (by omega)
    rw [hk] at hk'
    cases hk'
  | some x =>
    obtain ⟨page, m₁⟩ := x
    obtain ⟨-, himage, -⟩ := kalloc_eq_some hk
    have ho : Owned ⟨page, fun _ => none⟩ (m₁.memset page 0) := owned_memset.2 (hm.directory hk)
    obtain ⟨r, m', hrun, hresult, hroom⟩ := ho.mapKernel (kmap m₁.image) kmap_kernel kmap_apart
      (fun _ _ _ _ _ => rfl) (fun _ _ => rfl)
    refine ⟨r, m', hrun, fun d hd => ?_, fun hlen => ?_⟩
    · obtain ⟨ho', himage', hempty⟩ := hresult d hd
      exact ⟨ho', himage'.trans himage, hempty⟩
    · have htables := kmap_tables m₁.image
      have hlength := length_kalloc hk
      obtain ⟨hsome, hle⟩ := hroom (by show _ ≤ m₁.freelist.length; omega)
      have hle : m₁.freelist.length ≤ _ := hle
      exact ⟨hsome, by omega⟩

/-! ## Copying -/

/-- A copy of pages that are all present does not panic. -/
theorem Owned.copyLoop {pgdir : Pgdir} {i : Nat} (count : Nat) (ho : Owned d m) (hi : i + count ≤ userPages)
    (hpresent : ∀ v, i ≤ v → v < i + count → (pgdir.pte v).isSome) (hnone : ∀ v, i ≤ v → v < userPages → d.pte v = none) :
    ∃ r, copyLoop pgdir count i d m = .ok r := by
  induction count generalizing i d m with
  | zero => exact ⟨_, rfl⟩
  | succ count ih =>
    obtain ⟨pte, hpte⟩ := Option.isSome_iff_exists.1 (hpresent i (le_refl i) (by omega))
    unfold Vm.copyLoop
    rw [walk_of_pte hpte]
    cases hk : m.kalloc with
    | none =>
      obtain ⟨m', hfree⟩ := ho.freevm
      exact ⟨_, bind_ok.2 ⟨m', hfree, rfl⟩⟩
    | some x =>
      obtain ⟨mem, m₁⟩ := x
      obtain ⟨ho₁, hvalid, hfree, hheld⟩ := ho.kalloc hk
      have ho₂ : Owned d (m₁.memmove mem pte.page) := ho₁
      obtain ⟨b, d', m', hmap⟩ := mappages_of_none mem pte.w pte.u (m₁.memmove mem pte.page)
        (hnone i (le_refl i) (by omega))
      cases b with
      | true =>
        have hmapped := mappages_mapped hmap
        have ho' := hmapped.owned ho₂ hvalid hfree hheld
        obtain ⟨r, hrun⟩ := ih (i := i + 1) ho' (by omega) (fun v hv hlt => hpresent v (by omega) (by omega))
          (fun v hv hlt => by
            rw [hmapped.entry, Function.update_of_ne (by omega)]
            exact hnone v (by omega) hlt)
        exact ⟨r, bind_ok.2 ⟨_, hmap, hrun⟩⟩
      | false =>
        obtain ⟨hd, hm⟩ := mappages_refused hmap
        subst hd hm
        obtain ⟨m₂, hkfree, ho'⟩ := ho.kfree_kalloc (m₁.memmove mem pte.page) hk rfl rfl
        obtain ⟨m₃, hfreevm⟩ := ho'.freevm
        exact ⟨_, bind_ok.2 ⟨_, hmap, bind_ok.2 ⟨m₂, hkfree, bind_ok.2 ⟨m₃, hfreevm, rfl⟩⟩⟩⟩

/-- A copy comes to a page that is not present, if the memory lasts until there. -/
theorem Owned.copyLoop_panics {pgdir : Pgdir} {i k count : Nat} (ho : Owned d m) (hk : k < count) (hi : i + k < userPages)
    (hpresent : ∀ v, i ≤ v → v < i + k → (pgdir.pte v).isSome) (habsent : pgdir.pte (i + k) = none)
    (hnone : ∀ v, i ≤ v → v < userPages → d.pte v = none) (hm : 2 * k ≤ m.freelist.length) :
    ∃ panic, Vm.copyLoop pgdir count i d m = .error panic := by
  induction k generalizing i d m count with
  | zero =>
    obtain ⟨count, rfl⟩ : ∃ c, count = c + 1 := ⟨count - 1, by omega⟩
    unfold Vm.copyLoop
    cases hw : pgdir.walk i with
    | none => exact ⟨_, rfl⟩
    | some e =>
      rw [← pte_of_walk hw, show pgdir.pte i = none from habsent]
      exact ⟨_, rfl⟩
  | succ k ih =>
    obtain ⟨count, rfl⟩ : ∃ c, count = c + 1 := ⟨count - 1, by omega⟩
    obtain ⟨pte, hpte⟩ := Option.isSome_iff_exists.1 (hpresent i (le_refl i) (by omega))
    obtain ⟨mem, m₁, hkalloc⟩ := kalloc_of_pos (m := m) (by omega)
    have hlength := length_kalloc hkalloc
    obtain ⟨ho₁, hvalid, hfree, hheld⟩ := ho.kalloc hkalloc
    have hone : missing d i 1 ≤ 1 := by
      rw [missing_one]
      split <;> omega
    have hroom : missing d i 1 ≤ (m₁.memmove mem pte.page).freelist.length := hone.trans (by show _ ≤ m₁.freelist.length; omega)
    obtain ⟨d', m', hmap⟩ := mappages_of_enough mem pte.w pte.u (hnone i (le_refl i) (by omega)) hroom
    have hmapped := mappages_mapped hmap
    have hlength' : m₁.freelist.length = m'.freelist.length + missing d i 1 := hmapped.length
    have hlater : k < count := by omega
    obtain ⟨panic, hrun⟩ := ih (i := i + 1) (hmapped.owned ho₁ hvalid hfree hheld) hlater (by omega)
      (fun v hv hlt => hpresent v (by omega) (by omega)) (by rw [← habsent]; congr 1; omega)
      (fun v hv hlt => by
        rw [hmapped.entry, Function.update_of_ne (by omega)]
        exact hnone v (by omega) hlt)
      (by omega)
    refine ⟨panic, ?_⟩
    unfold Vm.copyLoop
    rw [walk_of_pte hpte, hkalloc]
    simp only [hmap, bind, Except.bind]
    exact hrun

theorem copyuvm_of_setupkvm {pgdir : Pgdir} (h : setupkvm m = .ok (some d, m')) :
    copyuvm pgdir sz m = copyLoop pgdir ((sz + pgsize - 1) / pgsize) 0 d m' := by
  unfold copyuvm
  rw [h]
  rfl

/-- `copyuvm` does not panic where every page below `sz` is present. -/
theorem Kmem.Sound.copyuvm {pgdir : Pgdir} (hm : m.Sound) (hsz : sz ≤ kernbase)
    (hpresent : ∀ v < pgroundup sz, (pgdir.pte v).isSome) : ∃ r, copyuvm pgdir sz m = .ok r := by
  obtain ⟨r, m', hsetup, hresult, -⟩ := hm.setupkvm
  cases r with
  | none => exact ⟨_, bind_ok.2 ⟨_, hsetup, rfl⟩⟩
  | some d =>
    obtain ⟨ho, -, hempty⟩ := hresult d rfl
    have hcount : (sz + pgsize - 1) / pgsize = pgroundup sz := by
      have hk : kernbase = 2147483648 := rfl
      unfold pgroundup pgsize
      omega
    have hle := pgroundup_le hsz
    obtain ⟨r, hcopy⟩ := ho.copyLoop (pgroundup sz) (i := 0) (by omega)
      (fun v _ hv => hpresent v (by omega)) (fun v _ hv => hempty v hv)
    refine ⟨r, ?_⟩
    rw [copyuvm_of_setupkvm hsetup, hcount]
    exact hcopy

/-! ## The address space of a program -/

theorem isSome_view : (view d m v).isSome = (d.pte v).isSome := Option.isSome_map ..

/-- `allocuvm` on an address space that has exactly the pages below `oldsz`. -/
theorem Owned.allocuvm_started (ho : Owned d m) (hold : oldsz ≤ kernbase)
    (hmapped : ∀ v < userPages, (d.pte v).isSome ↔ v < pgroundup oldsz)
    (h : allocuvm d oldsz newsz m = .ok (sz, d', m')) (hsz : sz ≠ 0) (hlt : sz < kernbase) : Started ⟨d', sz, m'⟩ := by
  obtain ⟨rfl, hnew, -, ho', hview⟩ := allocuvm_owned ho hold h hsz
  refine ⟨ho', hlt, fun v hv => ?_⟩
  show (d'.pte v).isSome ↔ v < pgroundup (max oldsz newsz)
  rw [← isSome_view (m := m'), hview v hv]
  rcases le_total oldsz newsz with hle | hle
  · have hmono := pgroundup_mono hle hnew.le
    rw [max_eq_right hle]
    split
    · rename_i hin
      exact iff_of_true rfl hin.2
    · rw [isSome_view, hmapped v hv]
      omega
  · have hmono := pgroundup_mono hle hold
    rw [max_eq_left hle, if_neg (by omega), isSome_view, hmapped v hv]

theorem loadLoop_same {file : List UInt8} {count off rest : Nat} (h : loadLoop d file count v off rest m = .ok (some m')) :
    m'.image = m.image ∧ m'.freelist = m.freelist := by
  induction count generalizing v off rest m with
  | zero =>
    cases h
    exact ⟨rfl, rfl⟩
  | succ count ih =>
    unfold loadLoop at h
    split at h
    · cases h
    · split at h
      · have hrest := ih h
        exact hrest
      · cases h

theorem Owned.loaduvm {addr off n : Nat} {file : List UInt8} (ho : Owned d m)
    (h : loaduvm d addr file off n m = .ok (some m')) : Owned d m' := by
  unfold Vm.loaduvm at h
  split at h
  · cases h
  obtain ⟨himage, hfree⟩ := loadLoop_same h
  rw [Owned, valid_congr himage, hfree]
  exact ho

/-- The invariant rule for the program headers: `I` is kept by growing the process and reading a segment into
it. -/
theorem loadSegments_invariant {file : List UInt8} {phs : List Proghdr} {I : Nat → Pgdir → Kmem → Prop}
    (hstep : ∀ {sz d m sz₁ d₁ m₁ m₂ addr vaddr off n}, I sz d m → allocuvm d sz addr m = .ok (sz₁, d₁, m₁) → sz₁ ≠ 0 →
      loaduvm d₁ vaddr file off n m₁ = .ok (some m₂) → I sz₁ d₁ m₂)
    (hi : I sz d m) (h : loadSegments file phs sz d m = .ok (some newsz, d', m')) : I newsz d' m' := by
  induction phs generalizing sz d m with
  | nil =>
    cases h
    exact hi
  | cons ph phs ih =>
    unfold loadSegments at h
    split at h
    · exact ih hi h
    split at h
    · cases h
    split at h
    · cases h
    obtain ⟨⟨sz₁, d₁, m₁⟩, halloc, h⟩ := bind_ok.1 h
    dsimp only at h
    split at h
    · cases h
    rename_i hne
    split at h
    · cases h
    obtain ⟨r, hload, h⟩ := bind_ok.1 h
    cases r with
    | none => cases h
    | some m₂ => exact ih (hstep hi halloc hne hload) h

theorem Started.loadSegments {file : List UInt8} {phs : List Proghdr} (hs : Started ⟨d, sz, m⟩)
    (h : loadSegments file phs sz d m = .ok (some newsz, d', m')) : Started ⟨d', newsz, m'⟩ := by
  refine loadSegments_invariant (I := fun sz d m => Started ⟨d, sz, m⟩) (fun hs halloc hne hload => ?_) hs h
  have hlt := max_lt hs.below (allocuvm_owned hs.owned hs.below.le halloc hne).2.1
  rw [← (allocuvm_owned hs.owned hs.below.le halloc hne).1] at hlt
  have hs₁ := hs.owned.allocuvm_started hs.below.le hs.mapped halloc hne hlt
  exact ⟨Owned.loaduvm hs₁.owned hload, hlt, hs₁.mapped⟩

theorem clearpteu_pte (h : clearpteu d v = .ok d') : (d.pdes (v / 1024)).isSome ∧
    d' = d.setPte v ((d.pte v).map fun pte => { pte with u := false }) := by
  unfold clearpteu at h
  split at h
  · cases h
  rename_i pte hw
  cases h
  obtain ⟨t, ht, -⟩ := Option.map_eq_some_iff.1 hw
  exact ⟨by simp [ht], by rw [pte_of_walk hw]⟩

theorem Started.clearpteu (hs : Started ⟨d, sz, m⟩) (hv : v < userPages) (h : clearpteu d v = .ok d') :
    Started ⟨d', sz, m⟩ := by
  obtain ⟨htable, rfl⟩ := clearpteu_pte h
  refine ⟨?_, hs.below, fun v' hv' => ?_⟩
  · have hheld : ((d.pte v).map fun pte => { pte with u := false }).map Pte.page = d.held (.user v) := by
      rw [Option.map_map]
      simp only [Pgdir.held, hv, if_true]
      rfl
    show Pool.Accounted _ _ _
    rw [held_setPte htable hv, hheld, Function.update_eq_self]
    exact hs.owned
  · rw [← hs.mapped v' hv']
    show ((d.setPte v _).pte v').isSome ↔ (d.pte v').isSome
    rw [pte_setPte _ htable]
    by_cases hvv : v' = v
    · subst hvv
      simp
    · rw [Function.update_of_ne hvv]

/-- The four steps of an `exec` that does not fail. -/
structure Executed (phs : List Proghdr) (file : List UInt8) (m : Kmem) (d₁ d₂ d₃ d : Pgdir) (sz₂ sz : Nat)
    (m₁ m₂ m' : Kmem) : Prop where
  setup : setupkvm m = .ok (some d₁, m₁)
  load : loadSegments file phs 0 d₁ m₁ = .ok (some sz₂, d₂, m₂)
  alloc : allocuvm d₂ (pgroundup sz₂ * pgsize) ((pgroundup sz₂ * pgsize + 2 * pgsize) % 2 ^ 32) m₂ = .ok (sz, d₃, m')
  ne_zero : sz ≠ 0
  clear : clearpteu d₃ ((sz - 2 * pgsize) / pgsize) = .ok d

theorem executed_of_exec {phs : List Proghdr} {file : List UInt8} (h : exec phs file m = .ok (some (d, sz), m')) :
    ∃ d₁ d₂ d₃ sz₂ m₁ m₂, Executed phs file m d₁ d₂ d₃ d sz₂ sz m₁ m₂ m' := by
  obtain ⟨⟨r, m₁⟩, hsetup, h⟩ := bind_ok.1 h
  cases r with
  | none => cases h
  | some d₁ =>
    obtain ⟨⟨loaded, d₂, m₂⟩, hload, h⟩ := bind_ok.1 h
    cases loaded with
    | none =>
      obtain ⟨m₃, -, h⟩ := bind_ok.1 h
      cases h
    | some sz₂ =>
      obtain ⟨⟨sz₃, d₃, m₃⟩, halloc, h⟩ := bind_ok.1 h
      dsimp only at h
      split at h
      · obtain ⟨m₄, -, h⟩ := bind_ok.1 h
        cases h
      rename_i hne
      obtain ⟨d₄, hclear, h⟩ := bind_ok.1 h
      cases h
      exact ⟨d₁, d₂, d₃, sz₂, m₁, m₂, hsetup, hload, halloc, hne, hclear⟩

section

variable {phs : List Proghdr} {file : List UInt8} {d₁ d₂ d₃ : Pgdir} {sz₂ : Nat} {m₁ m₂ : Kmem}

/-- The segments, and then the guard page and the stack, are what the process has. -/
theorem Executed.started (h : Executed phs file m d₁ d₂ d₃ d sz₂ sz m₁ m₂ m') (hm : m.Sound) :
    Started ⟨d₂, sz₂, m₂⟩ ∧ Started ⟨d₃, sz, m'⟩ := by
  obtain ⟨r, m₁', hsetup, hresult, -⟩ := hm.setupkvm
  cases hsetup.symm.trans h.setup
  obtain ⟨ho, -, hempty⟩ := hresult d₁ rfl
  have hs₁ : Started ⟨d₁, 0, m₁⟩ := by
    refine ⟨ho, (by decide : 0 < kernbase), fun v hv => ?_⟩
    have hzero : pgroundup 0 = 0 := rfl
    show (d₁.pte v).isSome ↔ v < pgroundup 0
    simp [hempty v hv, hzero]
  have hs₂ := hs₁.loadSegments h.load
  have hround : pgroundup sz₂ ≤ userPages := pgroundup_le hs₂.below.le
  obtain ⟨hold, hsame⟩ := pgroundup_mul hround
  obtain ⟨hsz, hnew, -⟩ := allocuvm_owned hs₂.owned hold h.alloc h.ne_zero
  have hlt : sz < kernbase := by
    have hk : kernbase = 2147483648 := rfl
    have hp : pgsize = 4096 := rfl
    rw [hsz]
    exact max_lt (by omega) hnew
  refine ⟨hs₂, Owned.allocuvm_started hs₂.owned hold ?_ h.alloc h.ne_zero hlt⟩
  rw [hsame]
  exact hs₂.mapped

theorem Executed.guard_lt (h : Executed phs file m d₁ d₂ d₃ d sz₂ sz m₁ m₂ m') (hm : m.Sound) :
    (sz - 2 * pgsize) / pgsize < userPages := by
  have hlt : sz < kernbase := (h.started hm).2.below
  exact (Nat.div_le_div_right (Nat.sub_le _ _)).trans_lt (Nat.div_lt_of_lt_mul (by rw [Nat.mul_comm]; exact hlt))

/-- A process that `exec` has set up has exactly the pages below its size. -/
theorem exec_started (hm : m.Sound) (h : exec phs file m = .ok (some (d, sz), m')) : Started ⟨d, sz, m'⟩ := by
  obtain ⟨d₁, d₂, d₃, sz₂, m₁, m₂, hx⟩ := executed_of_exec h
  exact (hx.started hm).2.clearpteu (hx.guard_lt hm) hx.clear

end

/-- A program without segments gets the guard page and the stack. -/
theorem exec_empty (hm : m.Sound) (hlen : 72 ≤ m.freelist.length) :
    ∃ d m', exec [] [] m = .ok (some (d, 2 * pgsize), m') ∧ m'.Sound ∧ m.freelist.length ≤ m'.freelist.length + 72 := by
  obtain ⟨r, m₁, hsetup, hresult, hroom⟩ := hm.setupkvm
  obtain ⟨hsome, hlen₁⟩ := hroom (by omega)
  obtain ⟨d₁, rfl⟩ := Option.isSome_iff_exists.1 hsome
  obtain ⟨ho₁, -, hempty⟩ := hresult d₁ rfl
  have hzero : pgroundup 0 = 0 := rfl
  have htwo : pgroundup (2 * pgsize) = 2 := rfl
  have hneeds : needs d₁ (pgroundup 0) (pgroundup (2 * pgsize) - pgroundup 0) ≤ 3 := by
    have hmissing : missing d₁ 0 2 ≤ 1 := missing_le d₁ 0 2
    rw [hzero, htwo]
    show 2 + missing d₁ 0 2 ≤ 3
    omega
  have huser : userPages = 524288 := rfl
  obtain ⟨d₂, m₂, halloc, hlen₂⟩ := allocuvm_of_enough (Nat.zero_le _) (by decide : 2 * pgsize < kernbase)
    (fun v _ hv => hempty v (by omega)) (by omega : needs d₁ _ _ ≤ m₁.freelist.length)
  obtain ⟨-, -, -, ho₂, hview⟩ := allocuvm_owned ho₁ (Nat.zero_le _) halloc (by decide)
  have hpte : (d₂.pte 0).isSome := by
    rw [← isSome_view (m := m₂), hview 0 (by omega), if_pos ⟨by omega, by omega⟩]
    rfl
  obtain ⟨pte, hpte⟩ := Option.isSome_iff_exists.1 hpte
  refine ⟨d₂.setPte 0 (some { pte with u := false }), m₂, ?_, ho₂.sound, by omega⟩
  refine bind_ok.2 ⟨_, hsetup, bind_ok.2 ⟨_, rfl, bind_ok.2 ⟨_, halloc, bind_ok.2 ⟨_, ?_, rfl⟩⟩⟩⟩
  show clearpteu d₂ 0 = _
  unfold clearpteu
  rw [walk_of_pte hpte]
  rfl

end CS1550.Vm
