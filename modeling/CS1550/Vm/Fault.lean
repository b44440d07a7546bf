/-
Page faults that a process takes in user mode: the `default` branch of `trap` in `lab4/xv6-public/trap.c`. The
handler compares the address neither with `sz` nor with what is present, so it does what a fault should do only
below `sz` and on a page that is absent, or when there is no memory (`fault_contained_iff`). The page table that
`exec` leaves has a guard page and the kernel's pages, which all fault and are all present.
-/
import CS1550.Vm.Syscall

namespace CS1550.Vm

/-! ## The handler -/

/-- `T_PGFLT` -/
def tPgflt : Nat := 14

/-- `DPL_USER` -/
def dplUser : Nat := 3

/-- The `default` branch of `trap`, with `va` in `cr2`; the Boolean is `killed`. A page fault returns before
`killed` is set. -/
def trapDefault (trapno cs va : Nat) (s : Proc) (killed : Bool) : Except Panic (Proc × Bool) :=
  if cs &&& 3 = 0 then .error .trap
  else if trapno = tPgflt then do
    let s ← trap s va
    return (s, killed)
  else .ok (s, true)

/-- What a fault at `va` may do to the process: a cleared page comes to where there was none below `sz`, or the
process is killed, or there is no memory. No other entry changes, and there is no panic. -/
inductive Contained (s : Proc) (va : Nat) (killed : Bool) : Except Panic (Proc × Bool) → Prop
  | mapped {s' : Proc} {page : Nat} (below : va < s.sz) (absent : s.pgdir.pte (va / pgsize) = none)
    (entry : s'.pgdir.pte = Function.update s.pgdir.pte (va / pgsize) (some ⟨page, true, true⟩))
    (bytes : s'.mem.bytes page = fun _ => 0) : Contained s va killed (.ok (s', killed))
  | killed {s' : Proc} (entry : s'.pgdir.pte = s.pgdir.pte) : Contained s va killed (.ok (s', true))
  | outOfMemory {s' : Proc} (enough : s.mem.freelist.length < needs s.pgdir (va / pgsize) 1)
    (entry : s'.pgdir.pte = s.pgdir.pte) : Contained s va killed (.ok (s', killed))

variable {s s' : Proc} {va cs : Nat} {killed : Bool}

theorem trapDefault_pgflt (hcs : cs &&& 3 = dplUser) :
    trapDefault tPgflt cs va s killed = (trap s va).map (·, killed) := by
  unfold trapDefault
  rw [hcs, if_neg (by decide), if_pos rfl]
  cases trap s va <;> rfl

theorem Faulted.contained_iff {r : Except Panic Proc} (hf : Faulted s va r) (ho : Owned s.pgdir s.mem) :
    Contained s va killed (r.map (·, killed)) ↔ (va < s.sz ∧ s.pgdir.pte (va / pgsize) = none) ∨
      s.mem.freelist.length < needs s.pgdir (va / pgsize) 1 := by
  cases hf with
  | outOfMemory enough _ _ => exact iff_of_true (.outOfMemory enough rfl) (.inr enough)
  | @mapped page m₁ m d enough absent taken map =>
    have hentry := (mappages_mapped map).entry
    constructor
    · intro h
      cases h with
      | mapped below absent _ _ => exact .inl ⟨below, absent⟩
      | killed entry =>
        -- A page has come to `va`, so the entries are not those before.
        have hsame : d.pte (va / pgsize) = s.pgdir.pte (va / pgsize) := congrFun entry _
        rw [hentry, Function.update_self, absent] at hsame
        cases hsame
      | outOfMemory enough _ => exact .inr enough
    · rintro (⟨below, absent⟩ | hless)
      · exact .mapped below absent hentry (ho.bytes_zeroed taken map)
      · omega
  | remap enough present =>
    refine iff_of_false (fun h => ?_) ?_
    · cases h
    · rintro (⟨-, absent⟩ | hless)
      · rw [absent] at present
        cases present
      · omega

/-- On a page that is present, the kernel panics. -/
theorem Owned.trap_present (ho : Owned s.pgdir s.mem) (hpresent : (s.pgdir.pte (va / pgsize)).isSome)
    (hpos : 0 < s.mem.freelist.length) : Vm.trap s va = .error .remap := by
  have hneeds := needs_of_present hpresent
  have hf := ho.faulted va
  generalize Vm.trap s va = r at hf ⊢
  cases hf with
  | outOfMemory enough _ _ => omega
  | mapped _ absent _ _ =>
    rw [absent] at hpresent
    cases hpresent
  | remap _ _ => rfl

/-! ## The page table of a program -/

/-- The entry that an entry of `kmap` makes for page `v`. -/
def Kmap.pte (k : Kmap) (v : Nat) : Option Pte :=
  if k.virt ≤ v ∧ v < k.virt + k.size then some ⟨k.physStart + (v - k.virt), k.w, false⟩ else none

variable {d d' : Pgdir} {m m' : Kmem} {v sz : Nat}

theorem mapKernel_pte {ks : List Kmap} (hapart : ks.Pairwise fun k k' => k.virt + k.size ≤ k'.virt)
    (h : mapKernel ks d m = .ok (some d', m')) : d'.pte v = (ks.findSome? (·.pte v)).or (d.pte v) := by
  induction ks generalizing d m with
  | nil =>
    cases h
    rfl
  | cons k ks ih =>
    obtain ⟨hfirst, hapart⟩ := List.pairwise_cons.1 hapart
    obtain ⟨d₁, m₁, hmap, h⟩ := mapKernel_cons h
    rw [ih hapart h, mappages_pte hmap, List.findSome?_cons, Kmap.pte]
    by_cases hin : k.virt ≤ v ∧ v < k.virt + k.size
    · -- The other entries lie behind this one.
      have hbehind : ks.findSome? (·.pte v) = none := by
        refine List.findSome?_eq_none_iff.2 fun k' hk' => if_neg ?_
        have := hfirst k' hk'
        omega
      rw [if_pos hin, if_pos hin, hbehind]
      rfl
    · rw [if_neg hin, if_neg hin]

theorem setupkvm_pte (h : setupkvm m = .ok (some d, m')) (v : Nat) :
    d.pte v = (kmap m.image).findSome? (·.pte v) := by
  obtain ⟨page, m₁, -, h⟩ := mapKernel_of_setupkvm h
  rw [mapKernel_pte kmap_apart h]
  exact Option.or_none

theorem kmap_first (image : Image) : (kmap image).findSome? (·.pte userPages) = some ⟨0, true, false⟩ := by
  have hfirst : Kmap.pte ⟨kernbase / pgsize, 0, extmem / pgsize, true⟩ userPages = some ⟨0, true, false⟩ :=
    if_pos (by decide)
  rw [kmap, List.findSome?_cons, hfirst]

theorem kmap_user (image : Image) (hv : v < userPages) : (kmap image).findSome? (·.pte v) = none :=
  List.findSome?_eq_none_iff.2 fun k hk => if_neg fun h => absurd (kmap_kernel k hk) (by omega)

/-- Between the physical memory and the devices the kernel maps nothing. -/
theorem kmap_hole (image : Image) (hle : (kernbase + phystop) / pgsize ≤ v) (hlt : v < devspace / pgsize) :
    (kmap image).findSome? (·.pte v) = none := by
  refine List.findSome?_eq_none_iff.2 fun k hk => if_neg ?_
  obtain ⟨-, -, hrange⟩ := kmap_range k hk
  omega

theorem loadSegments_kernel {file : List UInt8} {phs : List Proghdr} {newsz : Nat}
    (h : loadSegments file phs sz d m = .ok (some newsz, d', m')) (hv : userPages ≤ v) : d'.pte v = d.pte v := by
  refine loadSegments_invariant (I := fun _ d₁ _ => d₁.pte v = d.pte v) (fun hi halloc hne _ => ?_) rfl h
  rw [allocuvm_kernel halloc hne hv, hi]

/-- Above KERNBASE, a program has the kernel's pages, none of them with PTE_U. -/
theorem exec_kernel {phs : List Proghdr} {file : List UInt8} (hm : m.Sound)
    (h : exec phs file m = .ok (some (d, sz), m')) (hv : userPages ≤ v) :
    d.pte v = (kmap m.image).findSome? (·.pte v) := by
  obtain ⟨d₁, d₂, d₃, sz₂, m₁, m₂, hx⟩ := executed_of_exec h
  have hguard := hx.guard_lt hm
  obtain ⟨htable, rfl⟩ := clearpteu_pte hx.clear
  rw [pte_setPte _ htable, Function.update_of_ne (by omega), allocuvm_kernel hx.alloc hx.ne_zero hv,
    loadSegments_kernel hx.load hv, setupkvm_pte hx.setup]

/-- The page below the stack is present, without PTE_U. -/
theorem exec_guard {phs : List Proghdr} {file : List UInt8} (hm : m.Sound)
    (h : exec phs file m = .ok (some (d, sz), m')) :
    ∃ page w, d.pte ((sz - 2 * pgsize) / pgsize) = some ⟨page, w, false⟩ := by
  obtain ⟨d₁, d₂, d₃, sz₂, m₁, m₂, hx⟩ := executed_of_exec h
  have hs := (hx.started hm).2
  have hbelow : sz < kernbase := hs.below
  have hpages : (sz - 2 * pgsize) / pgsize < pgroundup sz := by
    rw [lt_pgroundup hbelow.le]
    have hne := hx.ne_zero
    have hp : pgsize = 4096 := rfl
    have := Nat.div_mul_le_self (sz - 2 * pgsize) pgsize
    omega
  obtain ⟨pte, hpte⟩ := Option.isSome_iff_exists.1 ((hs.mapped _ (hx.guard_lt hm)).2 hpages)
  obtain ⟨htable, rfl⟩ := clearpteu_pte hx.clear
  have hpte : d₃.pte ((sz - 2 * pgsize) / pgsize) = some pte := hpte
  rw [pte_setPte _ htable, Function.update_self, hpte]
  exact ⟨pte.page, pte.w, rfl⟩

/-! ## Faults of a program -/

/-- In the runs of a process from `exec` on, whatever its `sz`, a page fault from user mode is contained exactly if
it is below `sz` on a page that is absent, or there is no memory for it. -/
theorem fault_contained_iff {phs : List Proghdr} {file : List UInt8} {m m' : Kmem} {d : Pgdir} {sz₀ sz : Nat}
    {h : List (Proc × Event)} (hm : m.Sound) (hexec : exec phs file m = .ok (some (d, sz₀), m'))
    (hp : Run.Path Step ⟨d, sz, m'⟩ h s) (hcs : cs &&& 3 = dplUser) :
    Contained s va killed (trapDefault tPgflt cs va s killed) ↔
      (va < s.sz ∧ s.pgdir.pte (va / pgsize) = none) ∨ s.mem.freelist.length < needs s.pgdir (va / pgsize) 1 := by
  have ho : Owned s.pgdir s.mem := hp.always (I := fun s => Owned s.pgdir s.mem) (exec_started hm hexec).owned
    fun _ _ _ ho hs => hs.owned ho
  rw [trapDefault_pgflt hcs]
  exact (ho.faulted va).contained_iff ho

/-- A fault on the third page of a process whose size is three pages. -/
theorem fault_contained_iff_lazy : ∃ d m', exec [] [] booted = .ok (some (d, 2 * pgsize), m') ∧
    Contained ⟨d, 3 * pgsize, m'⟩ (2 * pgsize) false
      (trapDefault tPgflt 0x1B (2 * pgsize) ⟨d, 3 * pgsize, m'⟩ false) := by
  obtain ⟨d, m', hexec, -, -, hmapped⟩ := exec_booted
  have habsent : d.pte 2 = none := by simpa using mt (hmapped 2 (by decide)).1 (by decide)
  refine ⟨d, m', hexec, (fault_contained_iff sound_booted hexec .start (by decide)).2 (.inl ⟨?_, habsent⟩)⟩
  show 2 * pgsize < 3 * pgsize
  decide

theorem translate_kernel {page : Nat} {w write : Bool} (h : s.pgdir.pte (va / pgsize) = some ⟨page, w, false⟩) :
    s.translate va write = none := by
  simp [Proc.translate, h, Option.filter, Pte.permits]

theorem translate_absent {write : Bool} (h : s.pgdir.pte (va / pgsize) = none) : s.translate va write = none := by
  simp [Proc.translate, h]

/-- Faults of a process of two pages that are not contained. The guard page at 0 and the kernel's first page are
present; the first page behind `sz`, and the one behind the kernel's memory, get mapped. -/
theorem fault_escapes : ∃ d m', exec [] [] booted = .ok (some (d, 2 * pgsize), m') ∧
    (∀ va ∈ [0, kernbase], Proc.translate ⟨d, 2 * pgsize, m'⟩ va false = none ∧
      trapDefault tPgflt 0x1B va ⟨d, 2 * pgsize, m'⟩ false = .error .remap) ∧
    (∀ va ∈ [2 * pgsize, kernbase + phystop], Proc.translate ⟨d, 2 * pgsize, m'⟩ va false = none ∧
      ∃ s', trapDefault tPgflt 0x1B va ⟨d, 2 * pgsize, m'⟩ false = .ok (s', false) ∧
        (s'.pgdir.pte (va / pgsize)).isSome) ∧
    ∀ va ∈ [0, kernbase, 2 * pgsize, kernbase + phystop],
      ¬ Contained ⟨d, 2 * pgsize, m'⟩ va false (trapDefault tPgflt 0x1B va ⟨d, 2 * pgsize, m'⟩ false) := by
  obtain ⟨d, m', hexec, -, hlen, hmapped⟩ := exec_booted
  have ho : Owned d m' := (exec_started sound_booted hexec).owned
  have hcs : 0x1B &&& 3 = dplUser := by decide
  have hpresent : ∀ va ∈ [0, kernbase], ∃ page w, d.pte (va / pgsize) = some ⟨page, w, false⟩ := by
    intro va hva
    simp only [List.mem_cons, List.not_mem_nil, or_false] at hva
    obtain rfl | rfl := hva
    · have hguard := exec_guard sound_booted hexec
      rwa [show (2 * pgsize - 2 * pgsize) / pgsize = 0 / pgsize by decide] at hguard
    · exact ⟨0, true, (exec_kernel sound_booted hexec (le_refl userPages)).trans (kmap_first _)⟩
  have habsent : ∀ va ∈ [2 * pgsize, kernbase + phystop], d.pte (va / pgsize) = none := by
    intro va hva
    simp only [List.mem_cons, List.not_mem_nil, or_false] at hva
    obtain rfl | rfl := hva
    · rw [show 2 * pgsize / pgsize = 2 by decide]
      simpa using mt (hmapped 2 (by decide)).1 (by decide)
    · exact (exec_kernel sound_booted hexec (by decide)).trans (kmap_hole _ (le_refl _) (by decide))
  have hneeds : ∀ v, needs d v 1 ≤ m'.freelist.length := by
    intro v
    rw [needs, missing_one]
    split <;> omega
  refine ⟨d, m', hexec, fun va hva => ?_, fun va hva => ?_, fun va hva => ?_⟩
  · obtain ⟨page, w, hpte⟩ := hpresent va hva
    have hsome : (d.pte (va / pgsize)).isSome := by
      rw [hpte]
      rfl
    refine ⟨translate_kernel hpte, ?_⟩
    rw [trapDefault_pgflt hcs, Owned.trap_present ho hsome (by show 0 < m'.freelist.length; omega)]
    rfl
  · refine ⟨translate_absent (habsent va hva), ?_⟩
    obtain ⟨s', htrap, -, -, hsome, -⟩ := trap_of_enough (s := ⟨d, 2 * pgsize, m'⟩) ho (habsent va hva) (hneeds _)
    refine ⟨s', ?_, hsome⟩
    rw [trapDefault_pgflt hcs, htrap]
    rfl
  · rw [trapDefault_pgflt hcs, (Owned.faulted ho va).contained_iff ho]
    rintro (⟨hbelow, hnone⟩ | hless)
    · have hbelow : va < 2 * pgsize := hbelow
      have hnone : d.pte (va / pgsize) = none := hnone
      have hzero : va = 0 := by
        simp only [List.mem_cons, List.not_mem_nil, or_false] at hva
        have hp : pgsize = 4096 := rfl
        have hk : kernbase = 2147483648 := rfl
        omega
      obtain ⟨page, w, hpte⟩ := hpresent va (by simp [hzero])
      rw [hnone] at hpte
      cases hpte
    · exact Nat.not_le.2 hless (hneeds (va / pgsize))

end CS1550.Vm
