/-
The memory of a process in `lab4/xv6-public`: `sys_sbrk`, which only moves `sz`, the page fault branch of `trap`,
which maps a cleared page at any address, and user-mode loads and stores. `eager` is the manager that the
source has replaced: `sys_sbrk` through `growproc`, and a fault kills.
-/
import CS1550.Vm.Uvm

namespace CS1550.Vm

/-- A process alone: its address space, its `sz`, and the physical memory. -/
structure Proc where
  pgdir : Pgdir
  sz : Nat
  mem : Kmem

/-- An integer stored as a `uint`. -/
def uint (x : Int) : Nat := (x % 2 ^ 32).toNat

/-- A `uint` that is converted to an `int`. -/
def toInt (x : Nat) : Int := Int.bmod x (2 ^ 32)

/-! ## System calls -/

/-- `sys_sbrk`, which only changes `sz`. -/
def sysSbrk (s : Proc) (n : Int) : Int × Proc := (toInt s.sz, { s with sz := uint (s.sz + n) })

/-- `growproc` -/
def growproc (s : Proc) (n : Int) : Except Panic (Int × Proc) :=
  if n > 0 then do
    let (sz, d, m) ← allocuvm s.pgdir s.sz (uint (s.sz + n)) s.mem
    if sz = 0 then return (-1, ⟨d, s.sz, m⟩) else return (0, ⟨d, sz, m⟩)
  else if n < 0 then do
    let (sz, d, m) ← deallocuvm s.pgdir s.sz (uint (s.sz + n)) s.mem
    if sz = 0 then return (-1, ⟨d, s.sz, m⟩) else return (0, ⟨d, sz, m⟩)
  else return (0, s)

/-- `sys_sbrk` with the two lines that are commented out in the source. -/
def sysSbrkGrowproc (s : Proc) (n : Int) : Except Panic (Int × Proc) := do
  let (r, s') ← growproc s n
  if r < 0 then return (-1, s') else return (toInt s.sz, s')

/-! ## Page faults -/

/-- The branch for `T_PGFLT` from user mode, with `va` in `cr2`. -/
def trap (s : Proc) (va : Nat) : Except Panic Proc :=
  match s.mem.kalloc with
  | none => .ok s
  | some (mem, m) => do
    let (mapped, d, m) ← mappages s.pgdir (va / pgsize) 1 mem true true (m.memset mem 0)
    if mapped then return { s with pgdir := d, mem := m }
    else
      let m ← m.kfree mem
      return { s with pgdir := d, mem := m }

/-- What the processor lets user code do with a page. -/
def Pte.permits (pte : Pte) (write : Bool) : Bool := pte.u && (pte.w || !write)

/-- The physical page of a user-mode access, unless it faults. -/
def Proc.translate (s : Proc) (va : Nat) (write : Bool) : Option Nat :=
  ((s.pgdir.pte (va / pgsize)).filter (·.permits write)).map Pte.page

/-- One byte of a physical page written. -/
def Proc.poke (s : Proc) (page i : Nat) (b : UInt8) : Proc :=
  { s with mem.bytes := Function.update s.mem.bytes page (Function.update (s.mem.bytes page) i b) }

/-! ## The two managers -/

/-- Why a process does not go on. It is `stuck` where the handler leaves the page as it was, and the same access
faults again. -/
inductive Stop
  | killed
  | panicked (panic : Panic)
  | stuck
  deriving DecidableEq

/-- What a kernel does on `sbrk` and on a page fault. -/
structure Manager where
  sbrk : Proc → Int → Except Panic (Int × Proc)
  fault : Proc → Nat → Except Stop Proc

/-- Memory is mapped by the fault handler. -/
def onDemand : Manager := ⟨fun s n => .ok (sysSbrk s n), fun s va => (trap s va).mapError .panicked⟩

/-- Memory is mapped by `sbrk`. -/
def eager : Manager := ⟨sysSbrkGrowproc, fun _ _ => .error .killed⟩

/-- What a process does. -/
inductive Op
  | sbrk (n : Int)
  | load (va : Nat)
  | store (va : Nat) (b : UInt8)

/-- What it gets. -/
inductive Out
  | returned (value : Int)
  | loaded (b : UInt8)
  | stored
  deriving DecidableEq

/-- An access and the fault that it may take: the physical page it gets to. -/
def Manager.reach (M : Manager) (s : Proc) (va : Nat) (write : Bool) : Except Stop (Nat × Proc) :=
  match s.translate va write with
  | some page => .ok (page, s)
  | none => do
    let s ← M.fault s va
    match s.translate va write with
    | some page => return (page, s)
    | none => throw .stuck

/-- One operation of a process, with the fault it may take. -/
def Manager.step (M : Manager) (s : Proc) : Op → Except Stop (Out × Proc)
  | .sbrk n => do
    let (r, s) ← (M.sbrk s n).mapError .panicked
    return (.returned r, s)
  | .load va => do
    let (page, s) ← M.reach s va false
    return (.loaded (s.mem.bytes page (va % pgsize)), s)
  | .store va b => do
    let (page, s) ← M.reach s va true
    return (.stored, s.poke page (va % pgsize) b)

/-! ## What is mapped -/

variable {s : Proc} {v va page : Nat}

/-- What the process has at page `v`. -/
def Proc.at (s : Proc) (v : Nat) : Option Content := view s.pgdir s.mem v

/-- A process that has exactly the pages below `sz`. -/
structure Started (s : Proc) : Prop where
  owned : Owned s.pgdir s.mem
  below : s.sz < kernbase
  mapped : ∀ v < userPages, (s.pgdir.pte v).isSome ↔ v < pgroundup s.sz

/-- Whether user mode may read it, or write it. -/
def Content.permits (c : Content) (write : Bool) : Bool := c.u && (c.w || !write)

/-- What the handler does. It makes no difference to it where `sz` is, or whether the page that it maps is one of
the kernel's. -/
inductive Faulted (s : Proc) (va : Nat) : Except Panic Proc → Prop
  | outOfMemory {m : Kmem} (enough : s.mem.freelist.length < needs s.pgdir (va / pgsize) 1)
    (image : m.image = s.mem.image) (freelist : m.freelist = s.mem.freelist) : Faulted s va (.ok { s with mem := m })
  | mapped {page : Nat} {m₁ m : Kmem} {d : Pgdir} (enough : needs s.pgdir (va / pgsize) 1 ≤ s.mem.freelist.length)
    (absent : s.pgdir.pte (va / pgsize) = none) (taken : s.mem.kalloc = some (page, m₁))
    (map : mappages s.pgdir (va / pgsize) 1 page true true (m₁.memset page 0) = .ok (true, d, m)) :
    Faulted s va (.ok { s with pgdir := d, mem := m })
  | remap (enough : needs s.pgdir (va / pgsize) 1 ≤ s.mem.freelist.length)
    (present : (s.pgdir.pte (va / pgsize)).isSome) : Faulted s va (.error .remap)

theorem needs_of_present {d : Pgdir} (h : (d.pte v).isSome) : needs d v 1 = 1 := by
  obtain ⟨pte, hpte⟩ := Option.isSome_iff_exists.1 h
  obtain ⟨t, ht, -⟩ := Option.bind_eq_some_iff.1 hpte
  rw [needs, missing_one, if_neg (by simp [ht])]

theorem Owned.faulted (ho : Owned s.pgdir s.mem) (va : Nat) : Faulted s va (trap s va) := by
  unfold trap
  cases hk : s.mem.kalloc with
  | none =>
    have hempty : ¬ 0 < s.mem.freelist.length := fun hpos => by
      obtain ⟨page, m, hk'⟩ := kalloc_of_pos hpos
      rw [hk] at hk'
      cases hk'
    exact .outOfMemory (by unfold needs; omega) rfl rfl
  | some x =>
    obtain ⟨page, m₁⟩ := x
    have hlength := length_kalloc hk
    by_cases hpte : (s.pgdir.pte (va / pgsize)).isSome
    · have hneeds := needs_of_present hpte
      simp only [mappages_remap page true true (m₁.memset page 0) hpte]
      exact .remap (by omega) hpte
    · have habsent : s.pgdir.pte (va / pgsize) = none := by simpa using hpte
      obtain ⟨b, d, m, hmap⟩ := mappages_of_none page true true (m₁.memset page 0) habsent
      simp only [hmap]
      cases b with
      | true =>
        have hrest : m₁.freelist.length = m.freelist.length + missing s.pgdir (va / pgsize) 1 :=
          (mappages_mapped hmap).length
        exact .mapped (by unfold needs; omega) habsent hk hmap
      | false =>
        have hless : ¬ missing s.pgdir (va / pgsize) 1 ≤ m₁.freelist.length := fun hle => by
          obtain ⟨d', m', hmap'⟩ := mappages_of_enough (m := m₁.memset page 0) page true true habsent hle
          rw [hmap] at hmap'
          cases hmap'
        obtain ⟨rfl, rfl⟩ := mappages_refused hmap
        obtain ⟨m₂, hkfree, -⟩ := ho.kfree_kalloc (m₁.memset page 0) hk rfl rfl
        obtain ⟨himage, hfree⟩ := kfree_eq_ok hkfree
        obtain ⟨hlist, himage₁, -⟩ := kalloc_eq_some hk
        simp only [bind, Except.bind, hkfree]
        exact .outOfMemory (by unfold needs; omega) (himage.trans himage₁) (hfree.trans hlist.symm)

/-- The handler maps a cleared page, at any address. -/
theorem trap_of_enough (ho : Owned s.pgdir s.mem) (hnone : s.pgdir.pte (va / pgsize) = none)
    (hm : needs s.pgdir (va / pgsize) 1 ≤ s.mem.freelist.length) :
    ∃ s', trap s va = .ok s' ∧ s'.sz = s.sz ∧ Owned s'.pgdir s'.mem ∧ (s'.pgdir.pte (va / pgsize)).isSome ∧
      ∀ v < userPages, s'.at v = Function.update s.at (va / pgsize) (some .zeroed) v := by
  have hf := ho.faulted va
  generalize trap s va = r at hf
  cases hf with
  | outOfMemory enough _ _ => omega
  | @mapped page m₁ m d _ _ taken map =>
    obtain ⟨ho', -, hview⟩ := ho.map_zeroed taken map
    refine ⟨⟨d, s.sz, m⟩, rfl, rfl, ho', ?_, hview⟩
    show (d.pte (va / pgsize)).isSome
    rw [(mappages_mapped map).entry, Function.update_self]
    rfl
  | remap _ present =>
    rw [hnone] at present
    cases present

/-- An access that the page permits. -/
theorem translate_of_at {c : Content} {write : Bool} (h : s.at (va / pgsize) = some c) (hc : c.permits write) :
    ∃ pte, s.pgdir.pte (va / pgsize) = some pte ∧ s.translate va write = some pte.page ∧
      s.mem.bytes pte.page = c.bytes := by
  obtain ⟨pte, hpte, rfl⟩ := Option.map_eq_some_iff.1 h
  refine ⟨pte, hpte, ?_, rfl⟩
  have hp : pte.permits write = true := hc
  simp [Proc.translate, hpte, Option.filter, hp]

/-- A store changes one byte of one page. -/
theorem at_poke {pte : Pte} {i : Nat} {b : UInt8} (ho : Owned s.pgdir s.mem) (hv : v < userPages)
    (hpte : s.pgdir.pte v = some pte) : Owned (s.poke pte.page i b).pgdir (s.poke pte.page i b).mem ∧
      ∀ v' < userPages, (s.poke pte.page i b).at v' = Function.update s.at v
        ((s.at v).map fun c => { c with bytes := Function.update c.bytes i b }) v' := by
  refine ⟨ho, fun v' hv' => ?_⟩
  by_cases hvv : v' = v
  · subst hvv
    simp [Proc.at, view, Proc.poke, hpte]
  · simp only [Function.update_of_ne hvv, Proc.at, view, Proc.poke]
    cases hp : s.pgdir.pte v' with
    | none => rfl
    | some pte' =>
      have hne : pte'.page ≠ pte.page := fun heq =>
        hvv (Holder.user.inj (ho.inj _ _ _ (Owned.held_user hv' hp) (heq ▸ Owned.held_user hv hpte)))
      simp [Function.update_of_ne hne]

/-! ## Growing through `growproc` -/

theorem uint_of_lt {x : Int} (h : 0 ≤ x) (hlt : x < kernbase) : (uint x : Int) = x := by
  have hk : kernbase = 2147483648 := rfl
  unfold uint
  omega

theorem sysSbrkGrowproc_of_growproc {s' : Proc} {n : Int} (h : growproc s n = .ok (0, s')) :
    sysSbrkGrowproc s n = .ok (toInt s.sz, s') := bind_ok.2 ⟨_, h, rfl⟩

theorem sbrk_shrink {n : Int} (ho : Owned s.pgdir s.mem) (hbelow : s.sz < kernbase) (hn : n < 0) (hpos : 0 < s.sz + n) :
    ∃ s', sysSbrkGrowproc s n = .ok (toInt s.sz, s') ∧ s'.sz = uint (s.sz + n) ∧ Owned s'.pgdir s'.mem ∧
      ∀ v < userPages, s'.at v =
        if pgroundup (uint (s.sz + n)) ≤ v ∧ v < pgroundup s.sz then none else s.at v := by
  have hsize := uint_of_lt hpos.le (by omega)
  have hlt : uint (s.sz + n) < s.sz := by omega
  have hne : uint (s.sz + n) ≠ 0 := by omega
  obtain ⟨d, m, hdealloc, -, ho', hview⟩ := deallocuvm_owned ho hbelow.le hlt
  refine ⟨⟨d, uint (s.sz + n), m⟩, sysSbrkGrowproc_of_growproc ?_, rfl, ho', hview⟩
  unfold growproc
  rw [if_neg (by omega), if_pos hn]
  refine bind_ok.2 ⟨_, hdealloc, ?_⟩
  dsimp only
  rw [if_neg hne]
  rfl

theorem sbrk_grow {n : Int} (ho : Owned s.pgdir s.mem) (hn : 0 < n) (hlt : s.sz + n < kernbase)
    (hnone : ∀ v, pgroundup s.sz ≤ v → v < pgroundup (uint (s.sz + n)) → s.pgdir.pte v = none)
    (hm : needs s.pgdir (pgroundup s.sz) (pgroundup (uint (s.sz + n)) - pgroundup s.sz) ≤ s.mem.freelist.length) :
    ∃ s', sysSbrkGrowproc s n = .ok (toInt s.sz, s') ∧ s'.sz = uint (s.sz + n) ∧ Owned s'.pgdir s'.mem ∧
      ∀ v < userPages, s'.at v =
        if pgroundup s.sz ≤ v ∧ v < pgroundup (uint (s.sz + n)) then some .zeroed else s.at v := by
  have hsize := uint_of_lt (by omega) hlt
  have hle : s.sz ≤ uint (s.sz + n) := by omega
  have hne : uint (s.sz + n) ≠ 0 := by omega
  obtain ⟨d, m, halloc, -⟩ := allocuvm_of_enough hle (by omega) hnone hm
  obtain ⟨-, -, -, ho', hview⟩ := allocuvm_owned ho (by omega) halloc hne
  refine ⟨⟨d, uint (s.sz + n), m⟩, sysSbrkGrowproc_of_growproc ?_, rfl, ho', hview⟩
  unfold growproc
  rw [if_pos hn]
  refine bind_ok.2 ⟨_, halloc, ?_⟩
  dsimp only
  rw [if_neg hne]
  rfl

end CS1550.Vm
