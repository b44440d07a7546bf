/-
Physical pages and page tables of `lab4/xv6-public` (`kalloc.c`, and the walk and the mapping of `vm.c`). A page
table is a value: a directory of 1024 tables with 1024 entries each, together with the physical pages that hold
them. What the source keeps page-aligned, virtual or physical, is a page number.
-/
import CS1550.Lib.Pool
import Mathlib.Algebra.Ring.Nat

namespace CS1550.Vm

/-- `PGSIZE` -/
def pgsize : Nat := 4096

/-- The first kernel address. -/
def kernbase : Nat := 0x80000000

/-- The top of physical memory. -/
def phystop : Nat := 0xE000000

/-- `EXTMEM` -/
def extmem : Nat := 0x100000

/-- `DEVSPACE` -/
def devspace : Nat := 0xFE000000

/-- `KERNLINK` -/
def kernlink : Nat := kernbase + extmem

/-- Number of the pages below KERNBASE. -/
def userPages : Nat := kernbase / pgsize

/-- `PGROUNDUP`, as the number of a page. -/
def pgroundup (sz : Nat) : Nat := (sz + (pgsize - 1)) % 2 ^ 32 / pgsize

/-- The panics of the virtual memory code. -/
inductive Panic
  | kfree
  | remap
  | phystopTooHigh
  | clearpteu
  | loaduvmAligned
  | loaduvmAddress
  | copyuvmPte
  | copyuvmPresent
  | trap
  deriving DecidableEq

/-! ## Physical pages -/

/-- Where the linker has put the kernel: the page of `data`, and the first physical page behind `end`. The
linker script aligns `data` to a page. -/
structure Image where
  data : Nat
  endPage : Nat
  kernlink_lt : kernlink / pgsize < data
  data_le : data ≤ userPages + endPage
  data_lt : data < (kernbase + phystop) / pgsize

instance : Inhabited Image := ⟨⟨524800, 1024, by decide, by decide, by decide⟩⟩

/-- The physical memory: `kmem.freelist`, and the bytes of each page. -/
structure Kmem where
  image : Image
  freelist : List Nat
  bytes : Nat → Nat → UInt8

/-- A page filled with one byte. -/
def Kmem.memset (m : Kmem) (page : Nat) (b : UInt8) : Kmem :=
  { m with bytes := Function.update m.bytes page fun _ => b }

/-- Copies a whole page. -/
def Kmem.memmove (m : Kmem) (dst src : Nat) : Kmem := { m with bytes := Function.update m.bytes dst (m.bytes src) }

/-- `kalloc` -/
def Kmem.kalloc (m : Kmem) : Option (Nat × Kmem) :=
  match m.freelist with
  | [] => none
  | page :: freelist => some (page, { m with freelist := freelist })

/-- The pages that `kfree` takes. -/
def Kmem.Valid (m : Kmem) (page : Nat) : Prop := m.image.endPage ≤ page ∧ page < phystop / pgsize

instance (m : Kmem) (page : Nat) : Decidable (m.Valid page) := inferInstanceAs (Decidable (_ ∧ _))

theorem valid_congr {m m' : Kmem} (h : m'.image = m.image) : m'.Valid = m.Valid := by
  funext page
  rw [Kmem.Valid, Kmem.Valid, h]

/-- `kfree` -/
def Kmem.kfree (m : Kmem) (page : Nat) : Except Panic Kmem :=
  if m.Valid page then .ok { m.memset page 1 with freelist := page :: m.freelist } else .error .kfree

/-! ## Page tables -/

/-- An entry with PTE_P: the physical page, PTE_W and PTE_U. -/
structure Pte where
  page : Nat
  w : Bool
  u : Bool

/-- A page table and the page it is in. -/
structure Pgtab where
  page : Nat
  ptes : Nat → Option Pte

/-- A page directory and the page it is in. -/
structure Pgdir where
  page : Nat
  pdes : Nat → Option Pgtab

/-- The entry of page `v`, where it is present. -/
def Pgdir.pte (d : Pgdir) (v : Nat) : Option Pte := (d.pdes (v / 1024)).bind fun t => t.ptes (v % 1024)

/-- `walkpgdir` with `alloc` 0: `none` where there is no table, and otherwise the entry. -/
def Pgdir.walk (d : Pgdir) (v : Nat) : Option (Option Pte) := (d.pdes (v / 1024)).map fun t => t.ptes (v % 1024)

/-- Writes the entry of page `v`, which is in a table that exists. -/
def Pgdir.setPte (d : Pgdir) (v : Nat) (pte : Option Pte) : Pgdir :=
  let pgtab := (d.pdes (v / 1024)).map fun t => { t with ptes := Function.update t.ptes (v % 1024) pte }
  { d with pdes := Function.update d.pdes (v / 1024) pgtab }

/-- Puts an empty table, in physical page `page`, into the directory. -/
def Pgdir.addTable (d : Pgdir) (i page : Nat) : Pgdir :=
  { d with pdes := Function.update d.pdes i (some ⟨page, fun _ => none⟩) }

/-- `walkpgdir` with `alloc` 1: the directory with a table for page `v`. -/
def walkpgdir (d : Pgdir) (v : Nat) (m : Kmem) : Option (Pgdir × Kmem) :=
  match d.pdes (v / 1024) with
  | some _ => some (d, m)
  | none => m.kalloc.map fun (page, m) => (d.addTable (v / 1024) page, m.memset page 0)

/-- Maps `count` pages from `v` on to the physical pages from `pa` on. The Boolean is false where the source
returns -1; the pages mapped until then stay mapped. -/
def mappages (d : Pgdir) (v : Nat) : (count : Nat) → (pa : Nat) → (w u : Bool) → Kmem → Except Panic (Bool × Pgdir × Kmem)
  | 0, _, _, _, m => .ok (true, d, m)
  | count + 1, pa, w, u, m =>
    match walkpgdir d v m with
    | none => .ok (false, d, m)
    | some (d, m) =>
      if (d.pte v).isSome then .error .remap
      else mappages (d.setPte v (some ⟨pa, w, u⟩)) (v + 1) count (pa + 1) w u m

/-! ## What the writes do to the entries -/

variable {d : Pgdir} {m m' : Kmem} {v page : Nat}

theorem walk_of_pte {pte : Pte} (h : d.pte v = some pte) : d.walk v = some (some pte) := by
  obtain ⟨t, ht, hpte⟩ := Option.bind_eq_some_iff.1 h
  simp [Pgdir.walk, ht, hpte]

theorem pte_of_walk {e : Option Pte} (h : d.walk v = some e) : d.pte v = e := by
  obtain ⟨t, ht, hpte⟩ := Option.map_eq_some_iff.1 h
  simp [Pgdir.pte, ht, hpte]

theorem pte_addTable (hi : d.pdes i = none) : (d.addTable i page).pte = d.pte := by
  funext v
  unfold Pgdir.pte Pgdir.addTable
  by_cases hv : v / 1024 = i
  · simp [hv, hi]
  · simp [Function.update_of_ne hv]

theorem pte_setPte (pte : Option Pte) (h : (d.pdes (v / 1024)).isSome) :
    (d.setPte v pte).pte = Function.update d.pte v pte := by
  obtain ⟨t, ht⟩ := Option.isSome_iff_exists.1 h
  funext v'
  unfold Pgdir.setPte Pgdir.pte
  by_cases hv : v' / 1024 = v / 1024
  · by_cases hv' : v' % 1024 = v % 1024
    · have heq : v' = v := by omega
      subst heq
      simp [ht]
    · have hne : v' ≠ v := fun h => hv' (h ▸ rfl)
      simp [hv, ht, Function.update_of_ne hv', Function.update_of_ne hne]
  · have hne : v' ≠ v := fun h => hv (h ▸ rfl)
    simp [Function.update_of_ne hv, Function.update_of_ne hne]

/-- Writing an entry neither adds nor removes a table. -/
theorem pdes_setPte {pte : Option Pte} (i : Nat) :
    ((d.setPte v pte).pdes i).map Pgtab.page = (d.pdes i).map Pgtab.page := by
  unfold Pgdir.setPte
  by_cases hi : i = v / 1024
  · subst hi
    cases d.pdes (v / 1024) <;> simp
  · simp [Function.update_of_ne hi]

theorem isNone_pdes_setPte {pte : Option Pte} (i : Nat) : (d.setPte v pte).pdes i = none ↔ d.pdes i = none := by
  rw [← Option.map_eq_none_iff (f := Pgtab.page), pdes_setPte, Option.map_eq_none_iff]

/-! ## Who holds which page -/

/-- What an address space holds a physical page for. -/
inductive Holder
  | dir
  | table (i : Nat)
  | user (v : Nat)
  deriving DecidableEq

/-- The pages of an address space: those of the page table, and those mapped below KERNBASE. -/
def Pgdir.held (d : Pgdir) : Holder → Option Nat
  | .dir => some d.page
  | .table i => (d.pdes i).map Pgtab.page
  | .user v => if v < userPages then (d.pte v).map Pte.page else none

theorem held_addTable (hi : d.pdes i = none) :
    (d.addTable i page).held = Function.update d.held (.table i) (some page) := by
  funext x
  cases x with
  | dir => simp [Pgdir.held, Pgdir.addTable]
  | table j =>
    by_cases hj : j = i
    · subst hj
      simp [Pgdir.held, Pgdir.addTable]
    · rw [Function.update_of_ne (by simpa using hj)]
      simp [Pgdir.held, Pgdir.addTable, Function.update_of_ne hj]
  | user v =>
    rw [Function.update_of_ne (by simp)]
    simp [Pgdir.held, pte_addTable hi]

theorem held_setPte {pte : Option Pte} (h : (d.pdes (v / 1024)).isSome) (hv : v < userPages) :
    (d.setPte v pte).held = Function.update d.held (.user v) (pte.map Pte.page) := by
  funext x
  cases x with
  | dir => rfl
  | table j =>
    rw [Function.update_of_ne (by simp)]
    exact pdes_setPte j
  | user v' =>
    by_cases hv' : v' = v
    · subst hv'
      simp [Pgdir.held, hv, pte_setPte _ h]
    · rw [Function.update_of_ne (by simpa using hv')]
      simp [Pgdir.held, pte_setPte _ h, Function.update_of_ne hv']

/-- Entries above KERNBASE do not count as held. -/
theorem held_setPte_kernel {pte : Option Pte} (h : (d.pdes (v / 1024)).isSome) (hv : userPages ≤ v) :
    (d.setPte v pte).held = d.held := by
  funext x
  cases x with
  | dir => rfl
  | table j => exact pdes_setPte j
  | user v' =>
    simp only [Pgdir.held, pte_setPte _ h]
    split
    · rw [Function.update_of_ne (by omega)]
    · rfl

/-- An address space whose pages are its own: each physical page is free or has one holder, and `kfree` takes
all of them. -/
def Owned (d : Pgdir) (m : Kmem) : Prop := Pool.Accounted m.Valid m.freelist d.held

/-- PTE_W, PTE_U and the bytes of a page. -/
structure Content where
  w : Bool
  u : Bool
  bytes : Nat → UInt8

/-- A page as the fault handler and `allocuvm` map it. -/
def Content.zeroed : Content := ⟨true, true, fun _ => 0⟩

/-- What is mapped at page `v`. -/
def view (d : Pgdir) (m : Kmem) (v : Nat) : Option Content :=
  (d.pte v).map fun pte => ⟨pte.w, pte.u, m.bytes pte.page⟩

end CS1550.Vm
