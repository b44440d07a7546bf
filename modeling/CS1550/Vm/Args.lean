/-
The arguments of a program: the part of `lab4/xv6-public/exec.c` that pushes the strings and the vector `ustack`
on the new stack through `copyout`. The stack is one page above the guard page, which `copyout` refuses, so the
arguments are taken exactly if they fit into that page (`pushArgs_iff`), and then the program reads them back as
they were given (`pushArgs_read`).
-/
import CS1550.Lib.Bytes
import CS1550.Vm.Fault

namespace CS1550.Vm

/-- `MAXARG` -/
def maxarg : Nat := 32

/-! ## The functions -/

/-- The physical page of the user's page `v`. Where `walkpgdir` finds no table (the outer `none`) the source reads
the entry through a null pointer. -/
def uva2ka (d : Pgdir) (v : Nat) : Option (Option Nat) := (d.walk v).map fun pte => (pte.filter Pte.u).map Pte.page

/-- Bytes written into a page. -/
def Kmem.write (m : Kmem) (page off : Nat) (buf : List UInt8) : Kmem :=
  { m with bytes := Function.update m.bytes page (Bytes.put (m.bytes page) off buf) }

/-- The loop of `copyout`, which goes on with less of `buf` each time; `none` where `uva2ka` has no entry to read. -/
def copyoutLoop (d : Pgdir) : (fuel : Nat) → (va : Nat) → (buf : List UInt8) → Kmem → Option (Bool × Kmem)
  | 0, _, _, m => some (true, m)
  | fuel + 1, va, buf, m =>
    if buf = [] then some (true, m)
    else
      match uva2ka d (va / pgsize) with
      | none => none
      | some none => some (false, m)
      | some (some pa0) =>
        let n := min (pgsize - va % pgsize) buf.length
        copyoutLoop d fuel ((va / pgsize + 1) * pgsize % 2 ^ 32) (buf.drop n) (m.write pa0 (va % pgsize) (buf.take n))

/-- `copyout`; the Boolean says whether all bytes were copied. -/
def copyout (d : Pgdir) (va : Nat) (buf : List UInt8) (m : Kmem) : Option (Bool × Kmem) :=
  copyoutLoop d buf.length va buf m

/-- The loop over `argv`, with the pointers that are in `ustack` so far; the inner `none` is the jump to `bad`. -/
def pushStrings (d : Pgdir) :
    (argv : List (List UInt8)) → (argc sp : Nat) → (ptrs : List Nat) → Kmem → Option (Option (Nat × List Nat) × Kmem)
  | [], _, sp, ptrs, m => some (some (sp, ptrs), m)
  | arg :: argv, argc, sp, ptrs, m =>
    if argc ≥ maxarg then some (none, m)
    else
      let sp := uint (sp - (arg.length + 1)) / 4 * 4
      match copyout d sp (arg ++ [0]) m with
      | none => none
      | some (false, m) => some (none, m)
      | some (true, m) => pushStrings d argv (argc + 1) sp (ptrs ++ [sp]) m

/-- The stack of a new program: its `esp`, unless `exec` fails. -/
def pushArgs (d : Pgdir) (sz : Nat) (argv : List (List UInt8)) (m : Kmem) : Option (Option Nat × Kmem) :=
  match pushStrings d argv 0 sz [] m with
  | none => none
  | some (none, m) => some (none, m)
  | some (some (sp, ptrs), m) =>
    let argc := argv.length
    let ustack := [0xffffffff, argc, uint (sp - (argc + 1) * 4)] ++ ptrs ++ [0]
    let sp := uint (sp - (3 + argc + 1) * 4)
    match copyout d sp (ustack.flatMap (Bytes.le 4)) m with
    | none => none
    | some (false, m) => some (none, m)
    | some (true, m) => some (some sp, m)

/-! ## What the program reads -/

/-- The bytes that user code loads, where it does not fault. -/
def Proc.peek (s : Proc) (va n : Nat) : Option (List UInt8) :=
  (List.range n).mapM fun i => (s.translate (va + i) false).map fun page => s.mem.bytes page ((va + i) % pgsize)

/-- The words that user code loads. -/
def Proc.words (s : Proc) (va n : Nat) : Option (List Nat) :=
  (List.range n).mapM fun i => (s.peek (va + 4 * i) 4).map Bytes.ofLe

/-! ## Copying -/

variable {d : Pgdir} {m m' : Kmem} {va sp sz : Nat} {buf : List UInt8}

theorem uva2ka_of_pte {pte : Pte} {v : Nat} (h : d.pte v = some pte) (hu : pte.u) : uva2ka d v = some (some pte.page) := by
  simp [uva2ka, walk_of_pte h, Option.filter, hu]

theorem pte_of_uva2ka {v page : Nat} (h : uva2ka d v = some (some page)) : ∃ pte, d.pte v = some pte ∧ pte.u ∧ pte.page = page := by
  obtain ⟨e, hwalk, he⟩ := Option.map_eq_some_iff.1 h
  obtain ⟨pte, hpte, rfl⟩ := Option.map_eq_some_iff.1 he
  obtain ⟨rfl, hu⟩ := Option.filter_eq_some_iff.1 hpte
  exact ⟨pte, pte_of_walk hwalk, hu, rfl⟩

/-- Bytes that go to one page. -/
theorem copyout_within {pte : Pte} (h : d.pte (va / pgsize) = some pte) (hu : pte.u)
    (hfit : va % pgsize + buf.length ≤ pgsize) (hne : buf ≠ []) (m : Kmem) :
    copyout d va buf m = some (true, m.write pte.page (va % pgsize) buf) := by
  obtain ⟨len, hlen⟩ : ∃ len, buf.length = len + 1 := ⟨buf.length - 1, by have := List.length_pos_iff.2 hne; omega⟩
  have hmin : min (pgsize - va % pgsize) buf.length = buf.length := by omega
  have hdone : ∀ fuel va m, copyoutLoop d fuel va [] m = some (true, m) := by
    intro fuel va m
    cases fuel <;> simp [copyoutLoop]
  unfold copyout
  rw [hlen, copyoutLoop, if_neg hne, uva2ka_of_pte h hu]
  dsimp only
  rw [hmin, List.drop_length, List.take_length, hdone]

/-- Every page that a copy goes to has PTE_U. -/
theorem copyoutLoop_user {fuel : Nat} (h : copyoutLoop d fuel va buf m = some (true, m')) (hfuel : buf.length ≤ fuel)
    {i : Nat} (hi : i < buf.length) (hva : va + i < 2 ^ 32) :
    ∃ pte, d.pte ((va + i) / pgsize) = some pte ∧ pte.u := by
  induction fuel generalizing va buf m i with
  | zero => omega
  | succ fuel ih =>
    have hp : pgsize = 4096 := rfl
    have hne : buf ≠ [] := by
      rintro rfl
      simp at hi
    unfold copyoutLoop at h
    rw [if_neg hne] at h
    split at h
    · cases h
    · cases h
    · rename_i pa0 huva
      by_cases hpage : (va + i) / pgsize = va / pgsize
      · obtain ⟨pte, hpte, hu, -⟩ := pte_of_uva2ka huva
        exact ⟨pte, hpage ▸ hpte, hu⟩
      · dsimp only at h
        have hlen : (buf.drop (min (pgsize - va % pgsize) buf.length)).length = buf.length - (pgsize - va % pgsize) := by
          rw [List.length_drop]
          omega
        have hmod : (va / pgsize + 1) * pgsize % 2 ^ 32 = va + (pgsize - va % pgsize) := by
          rw [Nat.mod_eq_of_lt] <;> rw [hp] at * <;> omega
        rw [hmod] at h
        obtain ⟨pte, hpte, hu⟩ := ih h (i := i - (pgsize - va % pgsize)) (by rw [hlen, hp] at *; omega)
          (by rw [hlen, hp] at *; omega) (by rw [hp] at *; omega)
        refine ⟨pte, ?_, hu⟩
        rw [← hpte]
        congr 2
        rw [hp] at *
        omega

/-- Where every page of the copy has a table, `uva2ka` finds an entry to read each time. -/
theorem copyoutLoop_isSome {fuel : Nat} (hva : va + buf.length ≤ kernbase)
    (h : ∀ v, va / pgsize ≤ v → v * pgsize < va + buf.length → (d.walk v).isSome) :
    (copyoutLoop d fuel va buf m).isSome := by
  induction fuel generalizing va buf m with
  | zero => rfl
  | succ fuel ih =>
    have hp : pgsize = 4096 := rfl
    have hk : kernbase = 2147483648 := rfl
    unfold copyoutLoop
    split
    · rfl
    · rename_i hne
      have hpos := List.length_pos_iff.2 hne
      obtain ⟨e, hwalk⟩ := Option.isSome_iff_exists.1 (h (va / pgsize) (le_refl _) (by rw [hp]; omega))
      rw [uva2ka, hwalk, Option.map_some]
      split
      · rename_i heq
        cases heq
      · rfl
      · dsimp only
        have hlen : (buf.drop (min (pgsize - va % pgsize) buf.length)).length = buf.length - (pgsize - va % pgsize) := by
          rw [List.length_drop]
          omega
        by_cases hlast : buf.length ≤ pgsize - va % pgsize
        · have hnil : buf.drop (min (pgsize - va % pgsize) buf.length) = [] :=
            List.length_eq_zero_iff.1 (by rw [hlen]; omega)
          rw [hnil]
          cases fuel <;> rfl
        · have hmod : (va / pgsize + 1) * pgsize % 2 ^ 32 = va + (pgsize - va % pgsize) := by
            rw [Nat.mod_eq_of_lt] <;> rw [hp] at * <;> omega
          rw [hmod]
          refine ih (by rw [hlen]; omega) fun v hv hlt => h v ?_ ?_
          · rw [hp] at *
            omega
          · rw [hlen] at hlt
            omega

/-! ## The new stack -/

/-- What `exec` has made of the address space: the stack page `pte` right below `sz`, nothing with PTE_U in the page
below it or above KERNBASE, and entries for all pages below `sz` and for the devices. -/
structure NewStack (d : Pgdir) (sz : Nat) (pte : Pte) : Prop where
  aligned : sz % pgsize = 0
  low : 2 * pgsize ≤ sz
  below : sz < kernbase
  stack : d.pte (sz / pgsize - 1) = some pte
  user : pte.u
  guard : ∀ pte', d.pte (sz / pgsize - 2) = some pte' → pte'.u = false
  kernel : ∀ v pte', userPages ≤ v → d.pte v = some pte' → pte'.u = false
  program : ∀ v < sz / pgsize, (d.pte v).isSome
  devices : ∀ v, devspace / pgsize ≤ v → v < 2 ^ 20 → (d.pte v).isSome

theorem kmap_supervisor {image : Image} {v : Nat} {pte : Pte} (h : (kmap image).findSome? (·.pte v) = some pte) :
    pte.u = false := by
  obtain ⟨k, -, hk⟩ := List.exists_of_findSome?_eq_some h
  unfold Kmap.pte at hk
  split at hk
  · cases hk
    rfl
  · cases hk

theorem kmap_devices (image : Image) {v : Nat} (hle : devspace / pgsize ≤ v) (hlt : v < 2 ^ 20) :
    ((kmap image).findSome? (·.pte v)).isSome := by
  have hd : devspace / pgsize = 1040384 := rfl
  rw [List.findSome?_isSome_iff]
  refine ⟨⟨devspace / pgsize, devspace / pgsize, 0, true⟩, by simp [kmap], ?_⟩
  have hsize : Kmap.size ⟨devspace / pgsize, devspace / pgsize, 0, true⟩ = 8192 := by decide
  unfold Kmap.pte
  rw [if_pos ⟨hle, by rw [hsize, hd]; omega⟩]
  rfl

theorem exec_newStack {phs : List Proghdr} {file : List UInt8} (hm : m.Sound)
    (h : exec phs file m = .ok (some (d, sz), m')) : ∃ pte, NewStack d sz pte := by
  have hp : pgsize = 4096 := rfl
  have hk : kernbase = 2147483648 := rfl
  have hu : userPages = 524288 := rfl
  have hkernel := fun v => exec_kernel (v := v) hm h
  have hguard := exec_guard hm h
  have hstarted := exec_started hm h
  obtain ⟨d₁, d₂, d₃, sz₂, m₁, m₂, hx⟩ := executed_of_exec h
  have hs₂ := (hx.started hm).1
  have hround : pgroundup sz₂ ≤ userPages := pgroundup_le hs₂.below.le
  obtain ⟨hold, hsame⟩ := pgroundup_mul hround
  obtain ⟨hsz, hnew, -, -, hview⟩ := allocuvm_owned hs₂.owned hold hx.alloc hx.ne_zero
  obtain ⟨htable, hd⟩ := clearpteu_pte hx.clear
  have hbelow : sz < kernbase := hstarted.below
  -- the stack ends two pages above `q`
  generalize pgroundup sz₂ = q at *
  have hmod : (q * pgsize + 2 * pgsize) % 2 ^ 32 = (q + 2) * pgsize := by
    rw [hp] at *
    omega
  rw [hmod] at hsz hnew hview
  have hq : q + 2 < userPages := by
    rw [hp] at hnew
    omega
  have hsum : sz = (q + 2) * pgsize := by omega
  have hdiv : sz / pgsize = q + 2 := by rw [hsum, Nat.mul_div_cancel _ (by decide)]
  have hgdiv : (sz - 2 * pgsize) / pgsize = q := by
    rw [hsum, hp]
    omega
  rw [hsame, (pgroundup_mul (by omega)).2] at hview
  rw [hgdiv] at hd hguard htable
  have hstack := hview (q + 1) (by omega)
  rw [if_pos ⟨by omega, by omega⟩] at hstack
  obtain ⟨pte, hpte, hcontent⟩ := Option.map_eq_some_iff.1 hstack
  refine ⟨pte, ⟨by rw [hsum, Nat.mul_mod_left], by omega, hbelow, ?_, ?_, ?_, ?_, ?_, ?_⟩⟩
  · rw [hdiv, hd, pte_setPte _ htable, Function.update_of_ne (by omega)]
    exact hpte
  · exact congrArg Content.u hcontent
  · intro pte' hpte'
    obtain ⟨page, w, hg⟩ := hguard
    rw [hdiv, Nat.add_sub_cancel, hg] at hpte'
    cases hpte'
    rfl
  · intro v pte' hv hpte'
    rw [hkernel v hv] at hpte'
    exact kmap_supervisor hpte'
  · intro v hv
    rw [hdiv] at hv
    refine (hstarted.mapped v (by omega)).2 ((lt_pgroundup hbelow.le).2 ?_)
    rw [hsum]
    exact Nat.mul_lt_mul_of_pos_right hv (by decide)
  · intro v hv hlt
    have hd : devspace / pgsize = 1040384 := rfl
    rw [hkernel v (by omega)]
    exact kmap_devices _ hv hlt

/-- A copy of `n` bytes to below `sp` that succeeds has stayed in the stack page. -/
theorem NewStack.fits {pte : Pte} (hs : NewStack d sz pte) (hlow : sz - pgsize ≤ sp) (hhigh : sp ≤ sz)
    (hn : 0 < buf.length) (hlen : buf.length ≤ kernbase)
    (h : copyout d (uint (sp - buf.length) / 4 * 4) buf m = some (true, m')) :
    buf.length ≤ sp ∧ sz - pgsize ≤ (sp - buf.length) / 4 * 4 := by
  have hp : pgsize = 4096 := rfl
  have hk : kernbase = 2147483648 := rfl
  have hu : userPages = 524288 := rfl
  have := hs.below
  have := hs.low
  have := hs.aligned
  by_cases hle : buf.length ≤ sp
  · refine ⟨hle, ?_⟩
    have hint : uint (sp - buf.length) = sp - buf.length := by
      unfold uint
      omega
    rw [hint] at h
    by_contra hlt
    -- some byte goes to the guard page
    have hbyte : ∃ i < buf.length, ((sp - buf.length) / 4 * 4 + i) / pgsize = sz / pgsize - 2 := by
      by_cases hin : sz - 2 * pgsize ≤ (sp - buf.length) / 4 * 4
      · exact ⟨0, hn, by rw [hp] at *; omega⟩
      · exact ⟨sz - 2 * pgsize - (sp - buf.length) / 4 * 4, by omega, by rw [hp] at *; omega⟩
    obtain ⟨i, hi, hpage⟩ := hbyte
    obtain ⟨pte', hpte, huser⟩ := copyoutLoop_user h (le_refl _) hi (by omega)
    rw [hpage] at hpte
    rw [hs.guard pte' hpte] at huser
    cases huser
  · -- the address has come round, and is in the kernel's part
    exfalso
    have hint : kernbase ≤ uint (sp - buf.length) / 4 * 4 ∧ uint (sp - buf.length) / 4 * 4 < 2 ^ 32 := by
      unfold uint
      omega
    obtain ⟨pte', hpte, huser⟩ := copyoutLoop_user h (le_refl _) hn hint.2
    rw [hs.kernel _ pte' (by rw [hp] at *; omega) hpte] at huser
    cases huser

/-! ## The layout -/

/-- The bytes that a string takes on the stack, with its zero byte and up to a word boundary. -/
def slot (arg : List UInt8) : Nat := (arg.length + 4) / 4 * 4

/-- The bytes that all strings take on the stack. -/
def room (argv : List (List UInt8)) : Nat := (argv.map slot).sum

theorem room_cons (arg : List UInt8) (argv : List (List UInt8)) : room (arg :: argv) = slot arg + room argv := by
  simp [room]

theorem slot_spec (arg : List UInt8) : slot arg % 4 = 0 ∧ arg.length + 1 ≤ slot arg := by
  unfold slot
  omega

theorem room_mod (argv : List (List UInt8)) : room argv % 4 = 0 := by
  induction argv with
  | nil => rfl
  | cons arg argv ih =>
    have := slot_spec arg
    rw [room_cons]
    omega

/-- Where the strings go, from `sp` down. -/
def places (sp : Nat) : List (List UInt8) → List Nat
  | [] => []
  | arg :: argv => (sp - slot arg) :: places (sp - slot arg) argv

/-- The bytes of the stack page, which begins at `base`, with the strings. -/
def pushBytes (base : Nat) (b : Bytes.Mem) (sp : Nat) : List (List UInt8) → Bytes.Mem
  | [] => b
  | arg :: argv => pushBytes base (Bytes.put b (sp - slot arg - base) (arg ++ [0])) (sp - slot arg) argv

/-- The bytes of one page. -/
def Kmem.setBytes (m : Kmem) (page : Nat) (b : Bytes.Mem) : Kmem := { m with bytes := Function.update m.bytes page b }

@[simp] theorem bytes_setBytes (m : Kmem) (page : Nat) (b : Bytes.Mem) : (m.setBytes page b).bytes page = b :=
  Function.update_self ..

theorem uint_slot {arg : List UInt8} (hsp : sp % 4 = 0) (hle : slot arg ≤ sp) (hlt : sp < kernbase) :
    uint (sp - (arg.length + 1)) / 4 * 4 = sp - slot arg := by
  have hk : kernbase = 2147483648 := rfl
  unfold slot at *
  unfold uint
  omega

section Layout

variable {pte : Pte} (hs : NewStack d sz pte)

include hs

/-- A copy into the stack page. -/
theorem NewStack.copyout (hlow : sz - pgsize ≤ va) (hhigh : va + buf.length ≤ sz) (hne : buf ≠ []) (m : Kmem) :
    copyout d va buf m =
      some (true, m.setBytes pte.page (Bytes.put (m.bytes pte.page) (va - (sz - pgsize)) buf)) := by
  have hp : pgsize = 4096 := rfl
  have haligned := hs.aligned
  have := hs.low
  have := List.length_pos_iff.2 hne
  have hpage : va / pgsize = sz / pgsize - 1 := by
    rw [hp] at haligned hlow ⊢
    omega
  have hoff : va % pgsize = va - (sz - pgsize) := by
    rw [hp] at haligned hlow ⊢
    omega
  rw [copyout_within (hpage ▸ hs.stack) hs.user (by omega) hne, hoff]
  rfl

theorem NewStack.pushStrings {argv : List (List UInt8)} {argc : Nat} (hsp : sp % 4 = 0) (hhigh : sp ≤ sz)
    (hroom : sz - pgsize + room argv ≤ sp) (hargc : argc + argv.length ≤ maxarg) (ptrs : List Nat) (m : Kmem) :
    pushStrings d argv argc sp ptrs m = some (some (sp - room argv, ptrs ++ places sp argv),
      m.setBytes pte.page (pushBytes (sz - pgsize) (m.bytes pte.page) sp argv)) := by
  induction argv generalizing argc sp ptrs m with
  | nil =>
    simp only [Vm.pushStrings, places, pushBytes, room, List.map_nil, List.sum_nil, Nat.sub_zero, List.append_nil,
      Kmem.setBytes, Function.update_eq_self]
  | cons arg argv ih =>
    have hbelow := hs.below
    have hsum := room_cons arg argv
    have hslot := slot_spec arg
    rw [List.length_cons] at hargc
    rw [Vm.pushStrings, if_neg (by omega)]
    dsimp only
    rw [uint_slot hsp (by omega) (by omega), hs.copyout (by omega) (by simp; omega) (by simp)]
    dsimp only
    rw [ih (by omega) (by omega) (by omega) (by omega)]
    simp only [places, pushBytes, hsum, List.append_assoc, List.singleton_append, Kmem.setBytes, Function.update_self,
      Function.update_idem, Nat.sub_sub]

/-- Strings that have been pushed fit, and are not too many. -/
theorem NewStack.pushStrings_some {argv : List (List UInt8)} {argc : Nat} {ptrs : List Nat} {r : Nat × List Nat}
    (hsp : sp % 4 = 0) (hlow : sz - pgsize ≤ sp) (hhigh : sp ≤ sz) (hargc : argc ≤ maxarg)
    (hlen : ∀ arg ∈ argv, arg.length < kernbase) (h : Vm.pushStrings d argv argc sp ptrs m = some (some r, m')) :
    sz - pgsize + room argv ≤ sp ∧ argc + argv.length ≤ maxarg := by
  induction argv generalizing argc sp ptrs m with
  | nil => exact ⟨by simpa [room] using hlow, hargc⟩
  | cons arg argv ih =>
    have hsum := room_cons arg argv
    have hcast : ((sp : Int) - (arg.length + 1)) = sp - (arg ++ [0]).length := by simp
    obtain ⟨hlen₁, hlen⟩ := List.forall_mem_cons.1 hlen
    unfold Vm.pushStrings at h
    split at h
    · cases h
    rename_i hmax
    dsimp only at h
    split at h
    · cases h
    · cases h
    · rename_i m₁ hcopy
      rw [hcast] at hcopy
      obtain ⟨h1, h2⟩ := hs.fits hlow hhigh (by simp) (by simp; omega) hcopy
      rw [List.length_append, List.length_singleton] at h1 h2
      have hslot : slot arg ≤ sp ∧ sz - pgsize + slot arg ≤ sp ∧ slot arg % 4 = 0 := by
        unfold slot
        omega
      rw [uint_slot hsp hslot.1 (hhigh.trans_lt hs.below)] at h
      obtain ⟨h3, h4⟩ := ih (by omega) (by omega) (by omega) (by omega) hlen h
      rw [List.length_cons]
      omega

/-- A copy of less than 32 MB to below `sp` that does not succeed is refused at a page without PTE_U. -/
theorem NewStack.copyout_isSome (hhigh : sp ≤ sz) (hn : 0 < buf.length)
    (hlen : buf.length ≤ 2 ^ 25) (m : Kmem) :
    (Vm.copyout d (uint (sp - buf.length) / 4 * 4) buf m).isSome := by
  have hp : pgsize = 4096 := rfl
  have hk : kernbase = 2147483648 := rfl
  have hd : devspace / pgsize = 1040384 := rfl
  have hbelow := hs.below
  have haligned := hs.aligned
  by_cases hle : buf.length ≤ sp
  · have hint : uint (sp - buf.length) = sp - buf.length := by
      unfold uint
      omega
    rw [hint]
    refine copyoutLoop_isSome (by omega) fun v _ hv => ?_
    obtain ⟨pte', hpte⟩ := Option.isSome_iff_exists.1 (hs.program v (by rw [hp] at *; omega))
    rw [walk_of_pte hpte]
    rfl
  · -- the address has come round to the devices, whose pages are the kernel's
    have hint : 0xFE000000 ≤ uint (sp - buf.length) / 4 * 4 ∧ uint (sp - buf.length) / 4 * 4 < 2 ^ 32 := by
      unfold uint
      omega
    obtain ⟨pte', hpte⟩ := Option.isSome_iff_exists.1
      (hs.devices (uint (sp - buf.length) / 4 * 4 / pgsize) (by rw [hp] at *; omega) (by rw [hp] at *; omega))
    have hu : userPages = 524288 := rfl
    have hsuper := hs.kernel _ pte' (by rw [hp] at *; omega) hpte
    obtain ⟨len, hlen'⟩ : ∃ len, buf.length = len + 1 := ⟨buf.length - 1, by omega⟩
    have hrefused : uva2ka d (uint (sp - buf.length) / 4 * 4 / pgsize) = some none := by
      simp [uva2ka, walk_of_pte hpte, Option.filter, hsuper]
    unfold Vm.copyout
    rw [hlen'] at hrefused ⊢
    rw [copyoutLoop, if_neg (List.ne_nil_of_length_eq_add_one hlen'), hrefused]
    rfl

/-- Strings of less than 32 MB are pushed or refused. -/
theorem NewStack.pushStrings_isSome {argv : List (List UInt8)} (argc : Nat) (ptrs : List Nat) (hsp : sp % 4 = 0)
    (hlow : sz - pgsize ≤ sp) (hhigh : sp ≤ sz) (hlen : ∀ arg ∈ argv, arg.length < 2 ^ 25) (m : Kmem) :
    (Vm.pushStrings d argv argc sp ptrs m).isSome := by
  induction argv generalizing argc sp ptrs m with
  | nil => rfl
  | cons arg argv ih =>
    have hk : kernbase = 2147483648 := rfl
    have hcast : ((sp : Int) - (arg.length + 1)) = sp - (arg ++ [0]).length := by simp
    obtain ⟨hlen₁, hlen⟩ := List.forall_mem_cons.1 hlen
    unfold Vm.pushStrings
    split
    · rfl
    dsimp only
    rw [hcast]
    obtain ⟨⟨done, m₁⟩, hcopy⟩ := Option.isSome_iff_exists.1
      (hs.copyout_isSome hhigh (show 0 < (arg ++ [0]).length by simp) (by simp; omega) m)
    rw [hcopy]
    cases done with
    | false => rfl
    | true =>
      obtain ⟨h1, h2⟩ := hs.fits hlow hhigh (by simp) (by simp; omega) hcopy
      rw [List.length_append, List.length_singleton] at h1 h2
      have hslot : slot arg ≤ sp ∧ sz - pgsize + slot arg ≤ sp ∧ slot arg % 4 = 0 := by
        unfold slot
        omega
      rw [← hcast, uint_slot hsp hslot.1 (hhigh.trans_lt hs.below)]
      exact ih _ _ (by omega) (by omega) (by omega) hlen m₁

end Layout

/-! ## Reading the arguments back -/

theorem pushBytes_above {argv : List (List UInt8)} {base i : Nat} (hroom : base + room argv ≤ sp) (hi : sp - base ≤ i)
    (b : Bytes.Mem) : pushBytes base b sp argv i = b i := by
  induction argv generalizing sp b with
  | nil => rfl
  | cons arg argv ih =>
    have hsum := room_cons arg argv
    have hslot := slot_spec arg
    rw [pushBytes, ih (by omega) (by omega), Bytes.put_outside (.inr ?_)]
    rw [List.length_append, List.length_singleton]
    omega

/-- The strings are where `places` says, one below the other. -/
theorem pushBytes_read {argv : List (List UInt8)} {base : Nat} (hroom : base + room argv ≤ sp) (b : Bytes.Mem) :
    List.Forall₂ (fun p arg => sp - room argv ≤ p ∧ p + arg.length + 1 ≤ sp ∧
      Bytes.get (pushBytes base b sp argv) (p - base) (arg.length + 1) = arg ++ [0]) (places sp argv) argv := by
  induction argv generalizing sp b with
  | nil => exact .nil
  | cons arg argv ih =>
    have hsum := room_cons arg argv
    have hslot := slot_spec arg
    have hrest := ih (show base + room argv ≤ sp - slot arg by omega) (Bytes.put b (sp - slot arg - base) (arg ++ [0]))
    refine .cons ⟨by omega, by omega, ?_⟩ (hrest.imp ?_)
    · have hget := Bytes.get_put_self b (sp - slot arg - base) (arg ++ [0])
      rw [List.length_append, List.length_singleton] at hget
      rw [← hget]
      -- the strings pushed later lie below this one
      exact Bytes.get_congr fun i _ => pushBytes_above (show base + room argv ≤ sp - slot arg by omega)
        (show sp - slot arg - base ≤ sp - slot arg - base + i by omega) _
    · rintro p arg' ⟨h1, h2, h3⟩
      exact ⟨by omega, by omega, h3⟩

theorem length_places (sp : Nat) (argv : List (List UInt8)) : (places sp argv).length = argv.length := by
  induction argv generalizing sp with
  | nil => rfl
  | cons arg argv ih => rw [places, List.length_cons, List.length_cons, ih]

theorem places_le {argv : List (List UInt8)} : ∀ p ∈ places sp argv, p ≤ sp := by
  induction argv generalizing sp with
  | nil => simp [places]
  | cons arg argv ih =>
    intro p hp
    rcases List.mem_cons.1 hp with rfl | hp
    · exact Nat.sub_le _ _
    · exact (ih p hp).trans (Nat.sub_le _ _)

/-- The bytes of `ustack`. -/
theorem length_ustack {a b c argc : Nat} {ptrs : List Nat} (h : ptrs.length = argc) :
    (([a, b, c] ++ ptrs ++ [0]).flatMap (Bytes.le 4)).length = 4 * (argc + 4) := by
  have hwords : ∀ ws : List Nat, (ws.flatMap (Bytes.le 4)).length = 4 * ws.length := by
    intro ws
    induction ws with
    | nil => rfl
    | cons w ws ih =>
      rw [List.flatMap_cons, List.length_append, Bytes.length_le, ih, List.length_cons]
      omega
  rw [hwords]
  simp only [List.length_append, List.length_cons, List.length_nil, h]
  omega

theorem mapM_some {α β : Type} {f : α → Option β} {g : α → β} {l : List α} (h : ∀ x ∈ l, f x = some (g x)) :
    l.mapM f = some (l.map g) := by
  induction l with
  | nil => rfl
  | cons x l ih =>
    obtain ⟨hx, hl⟩ := List.forall_mem_cons.1 h
    rw [List.mapM_cons, hx, ih hl]
    rfl

section Read

variable {pte : Pte} (hs : NewStack d sz pte)

include hs

theorem NewStack.peek {n : Nat} (hlow : sz - pgsize ≤ va) (hhigh : va + n ≤ sz) (m : Kmem) :
    Proc.peek ⟨d, sz, m⟩ va n = some (Bytes.get (m.bytes pte.page) (va - (sz - pgsize)) n) := by
  have hp : pgsize = 4096 := rfl
  have haligned := hs.aligned
  have := hs.low
  refine mapM_some fun i hi => ?_
  have hi := List.mem_range.1 hi
  have hpage : (va + i) / pgsize = sz / pgsize - 1 := by
    rw [hp] at haligned hlow ⊢
    omega
  have hoff : (va + i) % pgsize = va - (sz - pgsize) + i := by
    rw [hp] at haligned hlow ⊢
    omega
  simp [Proc.translate, hpage, hs.stack, Option.filter, Pte.permits, hs.user, hoff]

theorem NewStack.words {n : Nat} (hlow : sz - pgsize ≤ va) (hhigh : va + 4 * n ≤ sz) (m : Kmem) :
    Proc.words ⟨d, sz, m⟩ va n = some (Bytes.getWords (m.bytes pte.page) (va - (sz - pgsize)) n) := by
  refine mapM_some fun i hi => ?_
  have hi := List.mem_range.1 hi
  rw [hs.peek (by omega) (by omega), Option.map_some, Bytes.getNat,
    show va + 4 * i - (sz - pgsize) = va - (sz - pgsize) + 4 * i by omega]

/-- The whole stack, where it fits. -/
theorem NewStack.pushArgs {argv : List (List UInt8)} (hargc : argv.length ≤ maxarg)
    (hroom : room argv + 4 * (argv.length + 4) ≤ pgsize) (m : Kmem) :
    pushArgs d sz argv m = some (some (sz - room argv - 4 * (argv.length + 4)), m.setBytes pte.page
      (Bytes.put (pushBytes (sz - pgsize) (m.bytes pte.page) sz argv)
        (pgsize - room argv - 4 * (argv.length + 4))
        (([0xffffffff, argv.length, sz - room argv - 4 * (argv.length + 1)] ++ places sz argv ++ [0]).flatMap (Bytes.le 4)))) := by
  have hp : pgsize = 4096 := rfl
  have hk : kernbase = 2147483648 := rfl
  have haligned := hs.aligned
  have hlow := hs.low
  have hbelow := hs.below
  unfold Vm.pushArgs
  rw [hs.pushStrings (by rw [hp] at haligned; omega) (le_refl sz) (by omega) (by omega)]
  dsimp only
  have hptr : uint ((sz - room argv : Nat) - (argv.length + 1) * 4) = sz - room argv - 4 * (argv.length + 1) := by
    unfold uint
    omega
  have hesp : uint ((sz - room argv : Nat) - (3 + argv.length + 1) * 4) = sz - room argv - 4 * (argv.length + 4) := by
    unfold uint
    omega
  rw [hptr, hesp, List.nil_append, hs.copyout (by omega) ?_ (by simp [Bytes.le])]
  · simp only [Kmem.setBytes, Function.update_self, Function.update_idem]
    rw [show sz - room argv - 4 * (argv.length + 4) - (sz - pgsize) = pgsize - room argv - 4 * (argv.length + 4) by omega]
  · rw [length_ustack (length_places sz argv)]
    omega

/-- The address of `ustack` is one that `copyout` gets for its length. -/
theorem NewStack.uint_ustack {argv : List (List UInt8)} (hroom : sz - pgsize + room argv ≤ sz) :
    uint ((sz - room argv : Nat) - (3 + argv.length + 1) * 4) =
      uint ((sz - room argv : Nat) - (4 * (argv.length + 4) : Nat)) / 4 * 4 := by
  have hp : pgsize = 4096 := rfl
  have haligned := hs.aligned
  have hmod := room_mod argv
  unfold uint
  rw [hp] at haligned
  omega

/-- Arguments that have been pushed fit. -/
theorem NewStack.pushArgs_some {argv : List (List UInt8)} {esp : Nat} (hlen : ∀ arg ∈ argv, arg.length < kernbase)
    (h : Vm.pushArgs d sz argv m = some (some esp, m')) :
    argv.length ≤ maxarg ∧ room argv + 4 * (argv.length + 4) ≤ pgsize := by
  have hp : pgsize = 4096 := rfl
  have hk : kernbase = 2147483648 := rfl
  have hmax : maxarg = 32 := rfl
  have haligned := hs.aligned
  have hlow := hs.low
  unfold Vm.pushArgs at h
  split at h
  · cases h
  · cases h
  · rename_i sp ptrs m₁ hstrings
    obtain ⟨hroom, hargc⟩ := hs.pushStrings_some (by rw [hp] at haligned; omega) (by omega) (le_refl sz)
      (Nat.zero_le _) hlen hstrings
    rw [Nat.zero_add] at hargc
    rw [hs.pushStrings (by rw [hp] at haligned; omega) (le_refl sz) hroom (by omega)] at hstrings
    cases hstrings
    refine ⟨hargc, ?_⟩
    dsimp only at h
    split at h
    · cases h
    · cases h
    · rename_i m₂ hcopy
      have hlen' := length_ustack (a := 0xffffffff) (b := argv.length)
        (c := uint ((sz - room argv : Nat) - (argv.length + 1) * 4)) (length_places sz argv)
      have hmod := room_mod argv
      rw [hs.uint_ustack hroom, ← hlen'] at hcopy
      obtain ⟨h1, h2⟩ := hs.fits (by omega) (by omega) (by rw [hlen']; omega) (by rw [hlen']; omega) hcopy
      rw [hlen'] at h1 h2
      omega

/-- With strings of less than 32 MB, `exec` takes the arguments or fails. -/
theorem NewStack.pushArgs_isSome {argv : List (List UInt8)} (hlen : ∀ arg ∈ argv, arg.length < 2 ^ 25) (m : Kmem) :
    (Vm.pushArgs d sz argv m).isSome := by
  have hp : pgsize = 4096 := rfl
  have hk : kernbase = 2147483648 := rfl
  have hmax : maxarg = 32 := rfl
  have haligned := hs.aligned
  have hlow := hs.low
  obtain ⟨⟨r, m₁⟩, hstrings⟩ := Option.isSome_iff_exists.1 (hs.pushStrings_isSome 0 []
    (by rw [hp] at haligned; omega) (Nat.sub_le sz pgsize) (le_refl sz) hlen m)
  unfold Vm.pushArgs
  rw [hstrings]
  cases r with
  | none => rfl
  | some r =>
    obtain ⟨hroom, hargc⟩ := hs.pushStrings_some (by rw [hp] at haligned; omega) (by omega) (le_refl sz) (Nat.zero_le _)
      (fun arg harg => (hlen arg harg).trans (by decide)) hstrings
    rw [Nat.zero_add] at hargc
    rw [hs.pushStrings (by rw [hp] at haligned; omega) (le_refl sz) hroom (by omega)] at hstrings
    cases hstrings
    dsimp only
    have hlen' := length_ustack (a := 0xffffffff) (b := argv.length)
      (c := uint ((sz - room argv : Nat) - (argv.length + 1) * 4)) (length_places sz argv)
    rw [List.nil_append] at *
    rw [hs.uint_ustack hroom, ← hlen']
    obtain ⟨⟨done, m₂⟩, hcopy⟩ := Option.isSome_iff_exists.1 (hs.copyout_isSome (Nat.sub_le sz (room argv))
      (show 0 < _ by rw [hlen']; omega) (by rw [hlen']; omega)
      (m.setBytes pte.page (pushBytes (sz - pgsize) (m.bytes pte.page) sz argv)))
    rw [hcopy]
    cases done <;> rfl

end Read

section Exec

variable {phs : List Proghdr} {file : List UInt8} {argv : List (List UInt8)}

/-- `exec` takes the arguments exactly if there are no more than MAXARG and they fit into a page, together with
their pointers and the frame of `main`; it fails with all others, if no string has 32 MB. -/
theorem pushArgs_iff (hm : m.Sound) (hexec : exec phs file m = .ok (some (d, sz), m'))
    (hlen : ∀ arg ∈ argv, arg.length < kernbase) :
    ((∃ esp m'', pushArgs d sz argv m' = some (some esp, m'')) ↔
      argv.length ≤ maxarg ∧ (argv.map fun arg => (arg.length + 4) / 4 * 4).sum + 4 * (argv.length + 4) ≤ pgsize) ∧
    ((∀ arg ∈ argv, arg.length < 2 ^ 25) →
      ¬ (argv.length ≤ maxarg ∧
        (argv.map fun arg => (arg.length + 4) / 4 * 4).sum + 4 * (argv.length + 4) ≤ pgsize) →
      ∃ m'', pushArgs d sz argv m' = some (none, m'')) := by
  obtain ⟨pte, hs⟩ := exec_newStack hm hexec
  refine ⟨⟨?_, ?_⟩, ?_⟩
  · rintro ⟨esp, m'', h⟩
    exact hs.pushArgs_some hlen h
  · rintro ⟨hargc, hroom⟩
    exact ⟨_, _, hs.pushArgs hargc hroom m'⟩
  · intro hshort hnot
    obtain ⟨⟨r, m''⟩, h⟩ := Option.isSome_iff_exists.1 (hs.pushArgs_isSome hshort m')
    cases r with
    | none => exact ⟨m'', h⟩
    | some esp => exact absurd (hs.pushArgs_some hlen h) hnot

/-- A name and one argument are taken, and 33 names are refused. -/
theorem pushArgs_iff_echo : ∃ d m', exec [] [] booted = .ok (some (d, 2 * pgsize), m') ∧
    (∃ esp m'', pushArgs d (2 * pgsize) [[101, 99, 104, 111], [104, 105]] m' = some (some esp, m'')) ∧
    ∃ m'', pushArgs d (2 * pgsize) (List.replicate 33 [104]) m' = some (none, m'') := by
  obtain ⟨d, m', hexec, -⟩ := exec_booted
  refine ⟨d, m', hexec, (pushArgs_iff sound_booted hexec (by decide)).1.2 (by decide), ?_⟩
  exact (pushArgs_iff sound_booted hexec (by decide)).2 (by decide) (by decide)

/-- The program then finds on its stack a return address, the number of the arguments and a pointer to the vector
right above; the vector has a pointer for each argument, to the same string, and a null pointer at its end. Only
the stack page has changed. -/
theorem pushArgs_read (hm : m.Sound) (hexec : exec phs file m = .ok (some (d, sz), m'))
    (hlen : ∀ arg ∈ argv, arg.length < kernbase) {esp : Nat} {m'' : Kmem}
    (h : pushArgs d sz argv m' = some (some esp, m'')) :
    esp % 4 = 0 ∧ sz - pgsize ≤ esp ∧
    (∃ ptrs, Proc.words ⟨d, sz, m''⟩ esp (argv.length + 4) = some ([0xffffffff, argv.length, esp + 12] ++ ptrs ++ [0]) ∧
      List.Forall₂ (fun p arg => Proc.peek ⟨d, sz, m''⟩ p (arg.length + 1) = some (arg ++ [0])) ptrs argv) ∧
    ∃ pte, d.pte (sz / pgsize - 1) = some pte ∧ m'' = m'.setBytes pte.page (m''.bytes pte.page) := by
  obtain ⟨pte, hs⟩ := exec_newStack hm hexec
  obtain ⟨hargc, hroom⟩ := hs.pushArgs_some hlen h
  have hp : pgsize = 4096 := rfl
  have hk : kernbase = 2147483648 := rfl
  have hmax : maxarg = 32 := rfl
  have haligned := hs.aligned
  have hlow := hs.low
  have hbelow := hs.below
  have hmod := room_mod argv
  have hread := pushBytes_read (show sz - pgsize + room argv ≤ sz by omega) (m'.bytes pte.page)
  have hustack := length_ustack (a := 0xffffffff) (b := argv.length) (c := sz - room argv - 4 * (argv.length + 1))
    (length_places sz argv)
  rw [hs.pushArgs hargc hroom] at h
  cases h
  refine ⟨by rw [hp] at haligned; omega, by omega, ⟨places sz argv, ?_, ?_⟩, pte, hs.stack, ?_⟩
  · have hplaces : ∀ p ∈ places sz argv, p < 256 ^ 4 := fun p hp' => by
      have := places_le p hp'
      omega
    rw [hs.words (by omega) (by omega), bytes_setBytes,
      show sz - room argv - 4 * (argv.length + 4) - (sz - pgsize) = pgsize - room argv - 4 * (argv.length + 4) by omega,
      show sz - room argv - 4 * (argv.length + 4) + 12 = sz - room argv - 4 * (argv.length + 1) by omega]
    have hwords := Bytes.getWords_put (pushBytes (sz - pgsize) (m'.bytes pte.page) sz argv)
      (pgsize - room argv - 4 * (argv.length + 4))
      ([0xffffffff, argv.length, sz - room argv - 4 * (argv.length + 1)] ++ places sz argv ++ [0]) (by
        simp only [List.cons_append, List.nil_append, List.mem_cons, List.mem_append, List.not_mem_nil, or_false]
        rintro w (rfl | rfl | rfl | hw | rfl)
        · decide
        · omega
        · omega
        · exact hplaces w hw
        · decide)
    have hcount : ([0xffffffff, argv.length, sz - room argv - 4 * (argv.length + 1)] ++ places sz argv ++ [0]).length =
        argv.length + 4 := by
      simp [length_places]
    rw [hcount] at hwords
    rw [hwords]
  · refine hread.imp ?_
    rintro p arg ⟨hlo, hhi, hbytes⟩
    rw [hs.peek (by omega) (by omega), bytes_setBytes, ← hbytes]
    refine congrArg some (Bytes.get_congr fun i hi => Bytes.put_outside (.inr ?_))
    rw [hustack]
    omega
  · simp [Kmem.setBytes]

theorem pushArgs_read_echo : ∃ d m' esp m'' ptrs, exec [] [] booted = .ok (some (d, 2 * pgsize), m') ∧
    Proc.words ⟨d, 2 * pgsize, m''⟩ esp 6 = some ([0xffffffff, 2, esp + 12] ++ ptrs ++ [0]) ∧
    List.Forall₂ (fun p arg => Proc.peek ⟨d, 2 * pgsize, m''⟩ p (arg.length + 1) = some (arg ++ [0])) ptrs
      [[101, 99, 104, 111], [104, 105]] := by
  obtain ⟨d, m', hexec, -⟩ := exec_booted
  obtain ⟨pte, hs⟩ := exec_newStack sound_booted hexec
  have hargc : ([[101, 99, 104, 111], [104, 105]] : List (List UInt8)).length ≤ maxarg := by decide
  have hpush := hs.pushArgs hargc (by decide) m'
  obtain ⟨-, -, ⟨ptrs, hwords, hstrings⟩, -⟩ := pushArgs_read sound_booted hexec (by decide) hpush
  exact ⟨d, m', _, _, ptrs, hexec, hwords, hstrings⟩

end Exec

end CS1550.Vm
