/-
All processes of `lab4/xv6-public` on one physical memory: `main` brings the allocator, the kernel's page table and
the first process up, and the processes then run user code, take page faults, and call `sbrk`, `read`, `fork`,
`exec`, `exit` and `wait`, in any order. A call is one step. Every step is a transfer of pages by one owner, so a
process finds its memory as it left it, whatever the others have done in the meantime (`isolation`). The one thing
that takes more than the page tables is `read`, which goes by `sz`.
-/
import CS1550.Lib.Run
import CS1550.Vm.Footprint
import Mathlib.Data.Fintype.Option

namespace CS1550.Vm

/-! ## Writes of the kernel -/

/-- A byte that the kernel writes at a user address. It does not need PTE_U; a fault ends in `panic("trap")`. -/
def Proc.writeByte (s : Proc) (addr : Nat) (b : UInt8) : Except Panic Proc :=
  match (s.pgdir.pte (addr / pgsize)).filter Pte.w with
  | some pte => .ok (s.poke pte.page (addr % pgsize) b)
  | none => .error .trap

/-- Bytes that the kernel writes at a user address. -/
def Proc.fill (s : Proc) (addr : Nat) : List UInt8 → Except Panic Proc
  | [] => .ok s
  | b :: data => do
    let s ← s.writeByte addr b
    s.fill ((addr + 1) % 2 ^ 32) data

/-- `sys_read` on a file that gives the bytes `data`. -/
def sysRead (s : Proc) (esp : Nat) (data : List UInt8) : Except Panic (Int × Proc) := do
  match ← argint s esp 2 with
  | none => return (-1, s)
  | some n =>
    match ← argptr s esp 1 n with
    | none => return (-1, s)
    | some p => return ((data.take n.toNat).length, ← s.fill p (data.take n.toNat))

/-! ## The processes -/

/-- A process; `zombie` says that it has called `exit`. -/
structure Task where
  pgdir : Pgdir
  sz : Nat
  kstack : Nat
  zombie : Bool

/-- A process of the system, on the memory that it shares. -/
def Task.proc (t : Task) (m : Kmem) : Proc := ⟨t.pgdir, t.sz, m⟩

/-- The memory, `kpgdir`, and the slots of the process table. What a kernel stack holds is left out. -/
structure System (n : Nat) where
  mem : Kmem
  kpgdir : Pgdir
  tasks : Fin n → Option Task

variable {n : Nat}

/-- One slot and the memory changed. -/
def System.put (σ : System n) (p : Fin n) (t : Option Task) (m : Kmem) : System n :=
  { σ with mem := m, tasks := Function.update σ.tasks p t }

/-- `fork`, which takes the first slot that is UNUSED. -/
def System.fork (σ : System n) (t : Task) : Except Panic (System n) :=
  match (List.finRange n).find? fun q => (σ.tasks q).isNone with
  | none => .ok σ
  | some q =>
    match σ.mem.kalloc with
    | none => .ok σ
    | some (kstack, m) => do
      match ← copyuvm t.pgdir t.sz m with
      | (none, m) => return { σ with mem := ← m.kfree kstack }
      | (some d, m) => return σ.put q (some ⟨d, t.sz, kstack, false⟩) m

/-- `exec` of process `p`. Where `copyout` has no entry to read, the kernel faults. -/
def System.exec (σ : System n) (p : Fin n) (t : Task) (phs : List Proghdr) (file : List UInt8)
    (argv : List (List UInt8)) : Except Panic (System n) := do
  match ← Vm.exec phs file σ.mem with
  | (none, m) => return { σ with mem := m }
  | (some (d, sz), m) =>
    match pushArgs d sz argv m with
    | none => throw .trap
    | some (none, m) => return { σ with mem := ← freevm d m }
    | some (some _, m) => return σ.put p (some { t with pgdir := d, sz := sz }) (← freevm t.pgdir m)

/-- The part of `wait` for a child that is a zombie. -/
def System.reap (σ : System n) (q : Fin n) (t : Task) : Except Panic (System n) := do
  let m ← σ.mem.kfree t.kstack
  return σ.put q none (← freevm t.pgdir m)

/-! ## Steps -/

/-- What a process does alone. -/
inductive Move
  | sbrk (k : Int)
  | load (va : Nat) (b : UInt8)
  | store (va : Nat) (b : UInt8)
  | fault (va : Nat)
  | read (esp : Nat) (data : List UInt8)

/-- An access that faults runs the handler, and is tried again later. -/
inductive Moves (s : Proc) : Move → Proc → Prop
  | sbrk (k : Int) : Moves s (.sbrk k) (sysSbrk s k).2
  | load {va page : Nat} (hva : va < 2 ^ 32) (ht : s.translate va false = some page) :
    Moves s (.load va (s.mem.bytes page (va % pgsize))) s
  | store {va page : Nat} (b : UInt8) (hva : va < 2 ^ 32) (ht : s.translate va true = some page) :
    Moves s (.store va b) (s.poke page (va % pgsize) b)
  | fault {va : Nat} {write : Bool} {s' : Proc} (hva : va < 2 ^ 32) (ht : s.translate va write = none)
    (htrap : trap s va = .ok s') : Moves s (.fault va) s'
  | read {esp : Nat} {data : List UInt8} {r : Int} {s' : Proc} (hread : sysRead s esp data = .ok (r, s')) :
    Moves s (.read esp data) s'

/-- What a process of the system does. -/
inductive Act (n : Nat)
  | move (e : Move)
  | fork
  | exec (phs : List Proghdr) (file : List UInt8) (argv : List (List UInt8))
  | exit
  | reap (q : Fin n)

/-- A step of a process that has not exited. A panic stops the machine. Which child belongs to whom is left
out: a process may reap every zombie. -/
inductive System.Step (σ : System n) : Fin n × Act n → System n → Prop
  | move {p : Fin n} {t : Task} {e : Move} {s' : Proc} (ht : σ.tasks p = some t) (hlive : t.zombie = false)
    (hs : Moves (t.proc σ.mem) e s') :
    Step σ (p, .move e) (σ.put p (some { t with pgdir := s'.pgdir, sz := s'.sz }) s'.mem)
  | fork {p : Fin n} {t : Task} {σ' : System n} (ht : σ.tasks p = some t) (hlive : t.zombie = false)
    (hfork : σ.fork t = .ok σ') : Step σ (p, .fork) σ'
  | exec {p : Fin n} {t : Task} {phs : List Proghdr} {file : List UInt8} {argv : List (List UInt8)} {σ' : System n}
    (ht : σ.tasks p = some t) (hlive : t.zombie = false) (hexec : σ.exec p t phs file argv = .ok σ') :
    Step σ (p, .exec phs file argv) σ'
  | exit {p : Fin n} {t : Task} (ht : σ.tasks p = some t) (hlive : t.zombie = false) :
    Step σ (p, .exit) (σ.put p (some { t with zombie := true }) σ.mem)
  | reap {p q : Fin n} {t t' : Task} {σ' : System n} (ht : σ.tasks p = some t) (hlive : t.zombie = false)
    (hq : σ.tasks q = some t') (hzombie : t'.zombie = true) (hreap : σ.reap q t' = .ok σ') : Step σ (p, .reap q) σ'

/-! ## Booting -/

/-- `freerange` -/
def freerange (m : Kmem) : List Nat → Except Panic Kmem
  | [] => .ok m
  | page :: pages => do
    let m ← m.kfree page
    freerange m pages

/-- The pages from `lo` up to `hi`. -/
def pagesFrom (lo hi : Nat) : List Nat := List.range' lo (hi - lo)

/-- The first page that `entrypgdir` does not map. -/
def entryEnd : Nat := 4 * 1024 * 1024 / pgsize

/-- The first process, from the page for its kernel stack on; `none` where the source panics or has no memory. The
result of `mappages` is not looked at. -/
def userinit (init : List UInt8) (m : Kmem) : Option (Task × Kmem) := do
  let (kstack, m) ← m.kalloc
  let (r, m) ← (setupkvm m).toOption
  let d ← r
  guard (init.length < pgsize)
  let (mem, m) ← m.kalloc
  let (_, d, m) ← (mappages d 0 1 mem true true (m.memset mem 0)).toOption
  return (⟨d, pgsize, kstack, false⟩, m.write mem 0 init)

/-- `main` on a machine with `cpus` other processors, which get a stack each. Without a `kpgdir` to switch to it
does not go on. -/
def boot (image : Image) (bytes : Nat → Nat → UInt8) (cpus : Nat) (init : List UInt8) : Option (System (n + 1)) := do
  let m ← (freerange ⟨image, [], bytes⟩ (pagesFrom image.endPage entryEnd)).toOption
  let (r, m) ← (setupkvm m).toOption
  let kpgdir ← r
  let m ← (freerange { m with freelist := m.freelist.drop cpus } (pagesFrom entryEnd (phystop / pgsize))).toOption
  let (t, m) ← userinit init m
  return ⟨m, kpgdir, fun p => if p = 0 then some t else none⟩

/-! ## The owners -/

/-- The pages of a process. -/
def Task.own (t : Task) : Multiset Nat := t.kstack ::ₘ t.pgdir.own

/-- The pages of the kernel (`none`) and of each slot. -/
def System.own (σ : System n) : Option (Fin n) → Multiset Nat
  | none => σ.kpgdir.own
  | some p => ((σ.tasks p).map Task.own).getD 0

/-- All pages that the allocator has to do with. -/
def physical (image : Image) : Multiset Nat := pagesFrom image.endPage (phystop / pgsize)

/-- No page has two owners, and every `sz` is a `uint`. -/
structure System.Wf (σ : System n) : Prop where
  accounted : Region.total σ.mem.freelist σ.own ≤ physical σ.mem.image
  size : ∀ p t, σ.tasks p = some t → t.sz < 2 ^ 32

/-- What one owner does. -/
structure System.Acts (σ : System n) (x : Option (Fin n)) (σ' : System n) : Prop where
  others : ∀ q, some q ≠ x → σ'.tasks q = σ.tasks q
  kpgdir : σ'.kpgdir = σ.kpgdir
  transfers : Transfers σ.mem (σ.own x) σ'.mem (σ'.own x)

variable {σ σ' : System n} {p q : Fin n} {x : Option (Fin n)} {t t' : Task} {m m' : Kmem}

theorem nodup_physical (image : Image) : (physical image).Nodup := Multiset.coe_nodup.2 List.nodup_range'

theorem System.own_put (σ : System n) (p : Fin n) (t : Option Task) (m : Kmem) :
    (σ.put p t m).own (some p) = (t.map Task.own).getD 0 := by
  simp [System.own, System.put]

theorem System.tasks_put_self (σ : System n) (p : Fin n) (t : Option Task) (m : Kmem) : (σ.put p t m).tasks p = t :=
  Function.update_self ..

theorem System.tasks_put_of_ne (t : Option Task) (m : Kmem) (h : q ≠ p) : (σ.put p t m).tasks q = σ.tasks q :=
  Function.update_of_ne h ..

theorem System.own_of_task (ht : σ.tasks p = some t) : σ.own (some p) = t.own := by
  simp [System.own, ht]

theorem System.Acts.own (h : σ.Acts x σ') : σ'.own = Function.update σ.own x (σ'.own x) := by
  funext y
  by_cases hy : y = x
  · subst hy
    rw [Function.update_self]
  · rw [Function.update_of_ne hy]
    cases y with
    | none => simp only [System.own, h.kpgdir]
    | some q => simp only [System.own, h.others q hy]

theorem System.Acts.accounted (h : σ.Acts x σ') (hσ : Region.total σ.mem.freelist σ.own ≤ physical σ.mem.image) :
    Region.total σ'.mem.freelist σ'.own ≤ physical σ'.mem.image := by
  rw [h.own, h.transfers.image]
  exact h.transfers.transfer.total_le.trans hσ

/-- A slot is put into place. -/
theorem System.acts_put {A : Option Task} (h : Transfers σ.mem (σ.own (some p)) m ((A.map Task.own).getD 0)) :
    σ.Acts (some p) (σ.put p A m) := by
  refine ⟨fun q hq => System.tasks_put_of_ne A m fun hqp => hq (congrArg some hqp), rfl, ?_⟩
  rw [System.own_put]
  exact h

/-- A call that fails gives back what it has taken. -/
theorem System.acts_failed (h : Transfers σ.mem 0 m 0) : σ.Acts none { σ with mem := m } := by
  refine ⟨fun _ _ => rfl, rfl, ?_⟩
  have hframe := h.frame σ.kpgdir.own
  rwa [zero_add] at hframe

/-! ## What a process has -/

/-- What the process has at page `v`: what is below KERNBASE or open to user code. -/
def Task.pages (t : Task) (m : Kmem) (v : Nat) : Option Content :=
  if v < 2 ^ 20 then (view t.pgdir m v).filter fun c => v < userPages || c.u else none

/-- The page of an entry that the process owns. -/
theorem Task.mem_own {v : Nat} {pte : Pte} (hv : v < 2 ^ 20) (hpte : t.pgdir.pte v = some pte)
    (h : v < userPages ∨ pte.u) : pte.page ∈ t.own := Multiset.mem_cons_of_mem (user_mem_own hv hpte h)

/-- The memory of a process is in the bytes of its own pages. -/
theorem Task.pages_congr (h : ∀ page ∈ t.own, m'.bytes page = m.bytes page) (v : Nat) : t.pages m' v = t.pages m v := by
  unfold Task.pages view
  split
  · rename_i hv
    cases hpte : t.pgdir.pte v with
    | none => rfl
    | some pte =>
      simp only [Option.map_some, Option.filter_some]
      split
      · rename_i hown
        rw [Bool.or_eq_true, decide_eq_true_eq] at hown
        rw [h pte.page (Task.mem_own hv hpte hown)]
      · rfl
  · rfl

/-- What one owner does leaves the memory of the others alone. -/
theorem System.Acts.pages (h : σ.Acts x σ') (hσ : σ.Wf) (hq : some q ≠ x) (ht : σ.tasks q = some t) (v : Nat) :
    t.pages σ'.mem v = t.pages σ.mem v := by
  refine Task.pages_congr (fun page hpage => ?_) v
  rw [← System.own_of_task ht] at hpage
  exact h.transfers.transfer.kept (nodup_physical σ.mem.image) hσ.accounted hq hpage

/-! ## Every step is what one owner does -/

theorem sound_of_le (h : (m.freelist : Multiset Nat) ≤ physical m.image) : m.Sound := by
  refine ⟨?_, fun page hpage => ?_, by simp, by simp, by simp⟩
  · exact Multiset.coe_nodup.1 (Multiset.nodup_of_le h (nodup_physical _))
  · have hmem := List.mem_range'_1.1 (Multiset.mem_coe.1 (Multiset.mem_of_le h (Multiset.mem_coe.2 hpage)))
    exact ⟨hmem.1, by omega⟩

theorem System.Wf.sound (hσ : σ.Wf) : σ.mem.Sound := sound_of_le ((Multiset.le_add_right _ _).trans hσ.accounted)

section Read

variable {s s' : Proc} {addr esp : Nat} {data : List UInt8}

theorem writeByte_eq {b : UInt8} (h : s.writeByte addr b = .ok s') :
    ∃ pte, s.pgdir.pte (addr / pgsize) = some pte ∧ pte.w ∧ s' = s.poke pte.page (addr % pgsize) b := by
  unfold Proc.writeByte at h
  split at h
  · rename_i pte hpte
    cases h
    obtain ⟨hpte, hw⟩ := Option.filter_eq_some_iff.1 hpte
    exact ⟨pte, hpte, hw, rfl⟩
  · cases h

theorem fill_transfers (hend : addr + data.length ≤ kernbase) (h : s.fill addr data = .ok s') :
    s'.pgdir = s.pgdir ∧ s'.sz = s.sz ∧ Transfers s.mem s.pgdir.own s'.mem s.pgdir.own := by
  have hk : kernbase = 2147483648 := rfl
  have hu : userPages = 524288 := rfl
  have hp : pgsize = 4096 := rfl
  induction data generalizing s addr with
  | nil =>
    cases h
    exact ⟨rfl, rfl, .refl _ _⟩
  | cons b data ih =>
    rw [List.length_cons] at hend
    obtain ⟨s₁, hwrite, h⟩ := bind_ok.1 h
    obtain ⟨pte, hpte, -, rfl⟩ := writeByte_eq hwrite
    have hnext : (addr + 1) % 2 ^ 32 = addr + 1 := Nat.mod_eq_of_lt (by omega)
    rw [hnext] at h
    obtain ⟨hpgdir, hsz, htransfers⟩ := ih (by omega) h
    have hpage : addr / pgsize < userPages := by
      rw [hp]
      omega
    have hmem := user_mem_own (hpage.trans (by decide)) hpte (.inl hpage)
    exact ⟨hpgdir, hsz, (Transfers.setBytes hmem s.mem _).trans htransfers⟩

/-- An argument that `argptr` takes is a range below `sz`, as long as `sz` does not reach the kernel. -/
theorem argptr_range {k size : Int} {addr : Nat} (hsz : s.sz ≤ kernbase) (hsize : size < 2 ^ 31)
    (h : argptr s esp k size = .ok (some addr)) : addr + size.toNat ≤ s.sz := by
  obtain ⟨r, -, h⟩ := bind_ok.1 h
  cases r with
  | none => cases h
  | some i =>
    dsimp only at h
    split at h
    · cases h
    · rename_i hrange
      cases h
      have hk : kernbase = 2147483648 := rfl
      generalize uint i = a at hrange
      unfold uint at hrange
      omega

theorem argint_lt {k i : Int} (h : argint s esp k = .ok (some i)) : i < 2 ^ 31 := by
  unfold argint fetchint at h
  split at h
  · cases h
  · obtain ⟨b₀, -, h⟩ := bind_ok.1 h
    obtain ⟨b₁, -, h⟩ := bind_ok.1 h
    obtain ⟨b₂, -, h⟩ := bind_ok.1 h
    obtain ⟨b₃, -, h⟩ := bind_ok.1 h
    rw [← Option.some.inj (Except.ok.inj h)]
    exact Int.bmod_lt (by decide)

/-- What `read` does to a process whose `sz` does not reach the kernel. -/
theorem sysRead_eq {r : Int} (hsz : s.sz ≤ kernbase) (h : sysRead s esp data = .ok (r, s')) :
    s' = s ∨ ∃ addr data', data' <+: data ∧ addr + data'.length ≤ s.sz ∧ s.fill addr data' = .ok s' := by
  obtain ⟨k, hk, h⟩ := bind_ok.1 h
  cases k with
  | none =>
    cases h
    exact .inl rfl
  | some k =>
    obtain ⟨ptr, hptr, h⟩ := bind_ok.1 h
    cases ptr with
    | none =>
      cases h
      exact .inl rfl
    | some addr =>
      obtain ⟨s₁, hfill, h⟩ := bind_ok.1 h
      cases h
      have hrange := argptr_range hsz (argint_lt hk) hptr
      have hlen := List.length_take_le k.toNat data
      exact .inr ⟨addr, _, List.take_prefix _ _, by omega, hfill⟩

end Read

theorem trap_sz {s s' : Proc} {va : Nat} (h : trap s va = .ok s') : s'.sz = s.sz := by
  unfold trap at h
  split at h
  · cases h
    rfl
  · obtain ⟨⟨mapped, d, m⟩, -, h⟩ := bind_ok.1 h
    cases mapped with
    | true =>
      cases h
      rfl
    | false =>
      obtain ⟨m₁, -, h⟩ := bind_ok.1 h
      cases h
      rfl

/-- A `read` is made with an `sz` that does not reach the kernel. -/
def System.ReadsLow (σ : System n) (a : Fin n × Act n) : Prop :=
  ∀ esp data, a.2 = .move (.read esp data) → ∀ t, σ.tasks a.1 = some t → t.sz ≤ kernbase

theorem Moves.transfers {s s' : Proc} {e : Move} (h : Moves s e s') (hlow : ∀ esp data, e = .read esp data → s.sz ≤ kernbase)
    (hsz : s.sz < 2 ^ 32) : s'.sz < 2 ^ 32 ∧ Transfers s.mem s.pgdir.own s'.mem s'.pgdir.own := by
  cases h with
  | sbrk k => exact ⟨uint_lt _, .refl _ _⟩
  | load _ _ => exact ⟨hsz, .refl _ _⟩
  | store b hva ht => exact ⟨hsz, poke_transfers hva ht _ b⟩
  | fault hva _ htrap => exact ⟨(trap_sz htrap).trans_lt hsz, trap_transfers hva htrap⟩
  | @read esp data r s' hread =>
    obtain rfl | ⟨addr, data', -, hend, hfill⟩ := sysRead_eq (hlow esp data rfl) hread
    · exact ⟨hsz, .refl _ _⟩
    · obtain ⟨hpgdir, hsame, htransfers⟩ := fill_transfers (hend.trans (hlow esp data rfl)) hfill
      rw [hpgdir, hsame]
      exact ⟨hsz, htransfers⟩

/-- What comes out of `fork`. -/
inductive Forked (σ : System n) (t : Task) : System n → Prop
  | failed {m : Kmem} (h : Transfers σ.mem 0 m 0) : Forked σ t { σ with mem := m }
  | made {q : Fin n} {kstack : Nat} {m₁ m : Kmem} {d : Pgdir} (hq : σ.tasks q = none)
    (hk : σ.mem.kalloc = some (kstack, m₁)) (hcopy : copyuvm t.pgdir t.sz m₁ = .ok (some d, m)) :
    Forked σ t (σ.put q (some ⟨d, t.sz, kstack, false⟩) m)

theorem System.forked (hsz : t.sz < 2 ^ 32) (h : σ.fork t = .ok σ') : Forked σ t σ' := by
  unfold System.fork at h
  split at h
  · cases h
    exact .failed (.refl _ _)
  rename_i q hfind
  split at h
  · cases h
    exact .failed (.refl _ _)
  rename_i kstack m₁ hk
  obtain ⟨⟨r, m₂⟩, hcopy, h⟩ := bind_ok.1 h
  cases r with
  | none =>
    obtain ⟨m₃, hfree, h⟩ := bind_ok.1 h
    cases h
    have hcopied := (copyuvm_transfers hsz hcopy).cons kstack
    exact .failed (((Transfers.kalloc hk 0).trans hcopied).trans (.kfree hfree 0))
  | some d =>
    cases h
    have hq : (σ.tasks q).isNone := by simpa using List.find?_some hfind
    exact .made (Option.isNone_iff_eq_none.1 hq) hk hcopy

theorem System.acts_fork {kstack : Nat} {d : Pgdir} (hsz : t.sz < 2 ^ 32) (hq : σ.tasks q = none)
    (hk : σ.mem.kalloc = some (kstack, m)) (hcopy : copyuvm t.pgdir t.sz m = .ok (some d, m')) :
    σ.Acts (some q) (σ.put q (some ⟨d, t.sz, kstack, false⟩) m') := by
  refine System.acts_put ?_
  have hempty : σ.own (some q) = 0 := by simp [System.own, hq]
  rw [hempty]
  exact (Transfers.kalloc hk 0).trans ((copyuvm_transfers hsz hcopy).cons kstack)

/-- What comes out of `exec`. -/
inductive Execed (σ : System n) (p : Fin n) (t : Task) : System n → Prop
  | failed {m : Kmem} (h : Transfers σ.mem 0 m 0) : Execed σ p t { σ with mem := m }
  | made {d : Pgdir} {sz : Nat} {m : Kmem} (hsz : sz < 2 ^ 32)
    (hkernel : ∀ v, userPages ≤ v → d.pte v = (kmap σ.mem.image).findSome? (·.pte v))
    (h : Transfers σ.mem t.own m (t.kstack ::ₘ d.own)) :
    Execed σ p t (σ.put p (some { t with pgdir := d, sz := sz }) m)

theorem System.Wf.execed {phs : List Proghdr} {file : List UInt8} {argv : List (List UInt8)} (hσ : σ.Wf)
    (h : σ.exec p t phs file argv = .ok σ') : Execed σ p t σ' := by
  obtain ⟨⟨r, m₁⟩, hexec, h⟩ := bind_ok.1 h
  have hloaded := exec_transfers hσ.sound hexec
  cases r with
  | none =>
    cases h
    exact .failed hloaded
  | some r =>
    obtain ⟨d, sz⟩ := r
    have hloaded : Transfers σ.mem 0 m₁ d.own := hloaded
    have hbelow : sz < kernbase := (exec_started hσ.sound hexec).below
    dsimp only at h
    split at h
    · cases h
    · rename_i m₂ hpush
      obtain ⟨m₃, hfree, h⟩ := bind_ok.1 h
      cases h
      exact .failed ((hloaded.trans (pushArgs_transfers hpush)).trans (freevm_transfers hfree))
    · rename_i esp m₂ hpush
      obtain ⟨m₃, hfree, h⟩ := bind_ok.1 h
      cases h
      refine .made (hbelow.trans (by decide)) (fun v hv => exec_kernel hσ.sound hexec hv) ?_
      -- the new program comes first, and then the old one goes
      have hnew := (hloaded.trans (pushArgs_transfers hpush)).frame t.own
      have hold := (freevm_transfers hfree).frame (t.kstack ::ₘ d.own)
      rw [zero_add] at hnew hold
      have hsame : d.own + t.own = t.pgdir.own + t.kstack ::ₘ d.own := by
        rw [Task.own, Multiset.add_cons, Multiset.add_cons, add_comm]
      rw [hsame] at hnew
      exact hnew.trans hold

theorem System.acts_reap (hq : σ.tasks q = some t) (h : σ.reap q t = .ok σ') :
    ∃ m, σ' = σ.put q none m ∧ σ.Acts (some q) σ' := by
  obtain ⟨m₁, hkfree, h⟩ := bind_ok.1 h
  obtain ⟨m₂, hfree, h⟩ := bind_ok.1 h
  cases h
  refine ⟨m₂, rfl, System.acts_put ?_⟩
  rw [System.own_of_task hq]
  exact (Transfers.kfree hkfree _).trans (freevm_transfers hfree)

theorem System.acts_move {e : Move} {s' : Proc} (hσ : σ.Wf) (ht : σ.tasks p = some t) (hs : Moves (t.proc σ.mem) e s')
    (hlow : σ.ReadsLow (p, .move e)) :
    σ.Acts (some p) (σ.put p (some { t with pgdir := s'.pgdir, sz := s'.sz }) s'.mem) := by
  refine System.acts_put ?_
  rw [System.own_of_task ht]
  have hmove := hs.transfers (fun esp data he => hlow esp data (congrArg _ he) t ht) (hσ.size p t ht)
  exact hmove.2.cons t.kstack

theorem System.acts_exit (ht : σ.tasks p = some t) :
    σ.Acts (some p) (σ.put p (some { t with zombie := true }) σ.mem) := by
  refine System.acts_put ?_
  rw [System.own_of_task ht]
  exact .refl _ _

/-- Every step is what one owner does: the process that makes it, the slot that comes or goes, or the kernel. -/
theorem System.Step.acts {a : Fin n × Act n} (h : σ.Step a σ') (hσ : σ.Wf) (hlow : σ.ReadsLow a) :
    ∃ x, σ.Acts x σ' ∧ ∀ q, x = some q → q = a.1 ∨ a.2 = .reap q ∨ σ.tasks q = none := by
  cases h with
  | move ht _ hs => exact ⟨_, System.acts_move hσ ht hs hlow, by simp [eq_comm]⟩
  | fork ht _ hfork =>
    have hsz := hσ.size _ _ ht
    cases System.forked hsz hfork with
    | failed h => exact ⟨none, System.acts_failed h, by simp⟩
    | @made q _ _ _ _ hq hk hcopy =>
      refine ⟨some q, System.acts_fork hsz hq hk hcopy, ?_⟩
      rintro _ ⟨⟩
      exact .inr (.inr hq)
  | exec ht _ hexec =>
    cases hσ.execed hexec with
    | failed h => exact ⟨none, System.acts_failed h, by simp⟩
    | made _ _ h => exact ⟨_, System.acts_put (System.own_of_task ht ▸ h), by simp [eq_comm]⟩
  | exit ht _ => exact ⟨_, System.acts_exit ht, by simp [eq_comm]⟩
  | @reap p q t t' σ' _ _ hq _ hreap =>
    obtain ⟨m, -, hacts⟩ := System.acts_reap hq hreap
    refine ⟨some q, hacts, ?_⟩
    rintro _ ⟨⟩
    exact .inr (.inl rfl)

theorem System.Wf.put {A : Option Task} (hσ : σ.Wf) (hacts : σ.Acts x (σ.put p A m)) (hA : ∀ t ∈ A, t.sz < 2 ^ 32) :
    (σ.put p A m).Wf := by
  refine ⟨hacts.accounted hσ.accounted, fun q t hq => ?_⟩
  by_cases hqp : q = p
  · subst hqp
    rw [System.tasks_put_self] at hq
    exact hA t hq
  · rw [System.tasks_put_of_ne A m hqp] at hq
    exact hσ.size q t hq

theorem System.Step.wf {a : Fin n × Act n} (h : σ.Step a σ') (hσ : σ.Wf) (hlow : σ.ReadsLow a) : σ'.Wf := by
  obtain ⟨x, hacts, -⟩ := h.acts hσ hlow
  cases h with
  | @move p t e s' ht _ hs =>
    refine hσ.put hacts ?_
    rintro _ ⟨⟩
    exact (hs.transfers (fun esp data he => hlow esp data (by rw [he]) t ht) (hσ.size p t ht)).1
  | @fork p t σ' ht _ hfork =>
    have hsz := hσ.size p t ht
    cases System.forked hsz hfork with
    | failed _ => exact ⟨hacts.accounted hσ.accounted, hσ.size⟩
    | made _ _ _ =>
      refine hσ.put hacts ?_
      rintro _ ⟨⟩
      exact hsz
  | exec ht _ hexec =>
    cases hσ.execed hexec with
    | failed _ => exact ⟨hacts.accounted hσ.accounted, hσ.size⟩
    | made hsz _ _ =>
      refine hσ.put hacts ?_
      rintro _ ⟨⟩
      exact hsz
  | @exit p t ht _ =>
    have hsz := hσ.size p t ht
    refine hσ.put hacts ?_
    rintro _ ⟨⟩
    exact hsz
  | reap _ _ hq _ hreap =>
    obtain ⟨m, rfl, -⟩ := System.acts_reap hq hreap
    exact hσ.put hacts (by simp)

/-! ## From the boot on -/

theorem toOption_eq_some {ε α : Type} {e : Except ε α} {a : α} : e.toOption = some a ↔ e = .ok a := by
  cases e <;> simp [Except.toOption]

theorem freerange_transfers {pages : List Nat} {A : Multiset Nat} (h : freerange m pages = .ok m') :
    Transfers m (pages + A) m' A := by
  induction pages generalizing m with
  | nil =>
    cases h
    rw [Multiset.coe_nil, zero_add]
    exact .refl _ _
  | cons page pages ih =>
    obtain ⟨m₁, hfree, h⟩ := bind_ok.1 h
    rw [← Multiset.cons_coe, Multiset.cons_add]
    exact (Transfers.kfree hfree _).trans (ih h)

theorem freerange_head {page : Nat} {pages : List Nat} (h : freerange m (page :: pages) = .ok m') : m.Valid page := by
  obtain ⟨m₁, hfree, -⟩ := bind_ok.1 h
  unfold Kmem.kfree at hfree
  split at hfree
  · assumption
  · cases hfree

theorem userinit_transfers {init : List UInt8} (h : userinit init m = some (t, m')) :
    t.sz = pgsize ∧ Transfers m 0 m' t.own := by
  obtain ⟨⟨kstack, m₁⟩, hstack, h⟩ := Option.bind_eq_some_iff.1 h
  obtain ⟨⟨r, m₂⟩, hsetup, h⟩ := Option.bind_eq_some_iff.1 h
  obtain ⟨d, hr, h⟩ := Option.bind_eq_some_iff.1 h
  obtain ⟨-, -, h⟩ := Option.bind_eq_some_iff.1 h
  obtain ⟨⟨mem, m₃⟩, hk, h⟩ := Option.bind_eq_some_iff.1 h
  obtain ⟨⟨b, d', m₄⟩, hmap, h⟩ := Option.bind_eq_some_iff.1 h
  cases h
  refine ⟨rfl, (Transfers.kalloc hstack 0).trans ?_⟩
  have hr : r = some d := hr
  subst hr
  have hmap := toOption_eq_some.1 hmap
  have htaken : Transfers m₂ d.own (m₃.memset mem 0) (mem ::ₘ d.own) :=
    (Transfers.kalloc hk d.own).trans (.setBytes (Multiset.mem_cons_self _ _) m₃ fun _ => 0)
  have hmapped := htaken.trans (map_transfers hmap (by decide))
  refine ((setupkvm_transfers (toOption_eq_some.1 hsetup)).trans (hmapped.trans ?_)).cons kstack
  cases b with
  | true =>
    have hpte : d'.pte 0 = some ⟨mem, true, true⟩ := by
      rw [(mappages_mapped hmap).entry, Function.update_self]
    exact .setBytes (user_mem_own (by decide) hpte (.inr rfl)) m₄ _
  | false =>
    have hwrite : Transfers m₄ (mem ::ₘ d'.own) (m₄.write mem 0 init) (mem ::ₘ d'.own) :=
      .setBytes (Multiset.mem_cons_self _ _) m₄ _
    exact hwrite.forget (Multiset.le_cons_self _ _)

theorem pagesFrom_split {a b c : Nat} (h : a ≤ b) (h' : b ≤ c) : pagesFrom a c = pagesFrom a b ++ pagesFrom b c := by
  unfold pagesFrom
  have happend := List.range'_append_1 (s := a) (m := b - a) (n := c - b)
  rw [show a + (b - a) = b by omega, show b - a + (c - b) = c - a by omega] at happend
  exact happend.symm

/-- In the beginning all pages belong to `main`. It gives them to the allocator, but for those of `kpgdir`, and the
stacks of the other processors are nobody's afterwards. -/
theorem kinit_transfers {image : Image} {bytes : Nat → Nat → UInt8} {cpus : Nat} {kpgdir : Pgdir} {m₁ m₂ m₃ : Kmem}
    (hlow : freerange ⟨image, [], bytes⟩ (pagesFrom image.endPage entryEnd) = .ok m₁)
    (hsetup : setupkvm m₁ = .ok (some kpgdir, m₂))
    (hhigh : freerange { m₂ with freelist := m₂.freelist.drop cpus } (pagesFrom entryEnd (phystop / pgsize)) = .ok m₃) :
    Transfers ⟨image, [], bytes⟩ (physical image) m₃ kpgdir.own := by
  have hkernel : Transfers m₁ 0 m₂ kpgdir.own := setupkvm_transfers hsetup
  have hstop : phystop / pgsize = entryEnd + 1 + 56319 := by decide
  have hend : image.endPage ≤ entryEnd := by
    have hfirst : pagesFrom entryEnd (entryEnd + 1) = [entryEnd] := by decide
    rw [pagesFrom_split (b := entryEnd + 1) (by omega) (by omega), hfirst, List.singleton_append] at hhigh
    have himage : m₂.image = image := hkernel.image.trans (freerange_transfers (A := 0) hlow).image
    rw [← himage]
    exact (freerange_head hhigh).1
  have hall : physical image = pagesFrom image.endPage entryEnd + pagesFrom entryEnd (phystop / pgsize) := by
    rw [physical, pagesFrom_split hend (by omega), Multiset.coe_add]
  have hlow := freerange_transfers (A := pagesFrom entryEnd (phystop / pgsize)) hlow
  have hkernel := hkernel.frame (pagesFrom entryEnd (phystop / pgsize))
  have hstacks : Transfers m₂ (kpgdir.own + pagesFrom entryEnd (phystop / pgsize))
      { m₂ with freelist := m₂.freelist.drop cpus } (kpgdir.own + pagesFrom entryEnd (phystop / pgsize)) :=
    ⟨rfl, Multiset.add_le_add_right (Multiset.coe_le.2 (List.drop_sublist _ _).subperm), fun _ _ => rfl⟩
  rw [← hall] at hlow
  rw [zero_add] at hkernel
  rw [add_comm kpgdir.own] at hkernel hstacks
  exact ((hlow.trans hkernel).trans hstacks).trans (freerange_transfers hhigh)

theorem wf_boot {image : Image} {bytes : Nat → Nat → UInt8} {cpus : Nat} {init : List UInt8} {σ : System (n + 1)}
    (h : boot image bytes cpus init = some σ) : σ.Wf := by
  obtain ⟨m₁, hlow, h⟩ := Option.bind_eq_some_iff.1 h
  obtain ⟨⟨r, m₂⟩, hsetup, h⟩ := Option.bind_eq_some_iff.1 h
  obtain ⟨kpgdir, hr, h⟩ := Option.bind_eq_some_iff.1 h
  obtain ⟨m₃, hhigh, h⟩ := Option.bind_eq_some_iff.1 h
  obtain ⟨⟨t, m₄⟩, huser, h⟩ := Option.bind_eq_some_iff.1 h
  cases h
  have hr : r = some kpgdir := hr
  subst hr
  obtain ⟨hsz, huser⟩ := userinit_transfers huser
  have hkinit := kinit_transfers (toOption_eq_some.1 hlow) (toOption_eq_some.1 hsetup) (toOption_eq_some.1 hhigh)
  have huser := huser.frame kpgdir.own
  rw [zero_add] at huser
  have hboot := hkinit.trans huser
  refine ⟨?_, fun p t' hp => ?_⟩
  · have hitems := hboot.transfer.items
    rw [Multiset.coe_nil, zero_add, add_comm t.own] at hitems
    rw [hboot.image]
    refine le_of_eq_of_le ?_ hitems
    unfold Region.total
    rw [Fintype.sum_option, Finset.sum_eq_single 0]
    · simp [System.own]
    · intro p _ hp
      simp [System.own, hp]
    · simp
  · dsimp only at hp
    split at hp
    · cases hp
      rw [hsz]
      decide
    · cases hp

theorem freerange_ok (pages : List Nat) (h : ∀ page ∈ pages, m.Valid page) :
    ∃ m', freerange m pages = .ok m' ∧ m'.freelist = pages.reverse ++ m.freelist := by
  induction pages generalizing m with
  | nil => exact ⟨m, rfl, rfl⟩
  | cons page pages ih =>
    obtain ⟨hpage, h⟩ := List.forall_mem_cons.1 h
    obtain ⟨m', hrun, hfree⟩ := ih (m := { m.memset page 1 with freelist := page :: m.freelist }) h
    refine ⟨m', bind_ok.2 ⟨_, if_pos hpage, hrun⟩, ?_⟩
    rw [hfree, List.reverse_cons, List.append_assoc, List.singleton_append]

theorem Kmem.Sound.kalloc {page : Nat} (hm : m.Sound) (h : m.kalloc = some (page, m')) : m'.Sound := by
  obtain ⟨hfree, himage, -⟩ := kalloc_eq_some h
  unfold Kmem.Sound at hm ⊢
  rw [hfree] at hm
  rw [valid_congr himage]
  exact hm.drop

/-- A process with one page, at 0. -/
structure Single (t : Task) : Prop where
  live : t.zombie = false
  sz : t.sz = pgsize
  first : ∃ page, t.pgdir.pte 0 = some ⟨page, true, true⟩
  user : ∀ v < userPages, v ≠ 0 → t.pgdir.pte v = none

theorem userinit_of_enough {init : List UInt8} (hm : m.Sound) (hlen : 72 ≤ m.freelist.length) (hinit : init.length < pgsize) :
    ∃ t m', userinit init m = some (t, m') ∧ Single t ∧ m.freelist.length ≤ m'.freelist.length + 72 := by
  obtain ⟨kstack, m₁, hstack⟩ := kalloc_of_pos (m := m) (by omega)
  have hlen₁ := length_kalloc hstack
  obtain ⟨r, m₂, hsetup, hresult, hroom⟩ := (hm.kalloc hstack).setupkvm
  obtain ⟨hsome, hlen₂⟩ := hroom (by omega)
  obtain ⟨d, rfl⟩ := Option.isSome_iff_exists.1 hsome
  obtain ⟨-, -, hempty⟩ := hresult d rfl
  have huser : userPages = 524288 := rfl
  have hneeds : needs d 0 1 ≤ 2 := Nat.add_le_add_left (missing_le d 0 1) 1
  obtain ⟨mem, m₃, d', m₄, hk, hmap, hlen₃⟩ := map_of_enough (m := m₂) (hempty 0 (by omega)) (by omega)
  refine ⟨⟨d', pgsize, kstack, false⟩, m₄.write mem 0 init, ?_, ⟨rfl, rfl, ⟨mem, ?_⟩, fun v hv hne => ?_⟩, ?_⟩
  · unfold userinit
    simp [hstack, hsetup, hinit, hk, hmap, Except.toOption, guard]
  · show d'.pte 0 = _
    rw [(mappages_mapped hmap).entry, Function.update_self]
  · show d'.pte v = _
    rw [(mappages_mapped hmap).entry, Function.update_of_ne hne]
    exact hempty v hv
  · show _ ≤ m₄.freelist.length + 72
    omega

/-- The machine comes up if the kernel leaves 69 pages of what `entrypgdir` maps. -/
theorem boot_of_room (image : Image) (bytes : Nat → Nat → UInt8) (cpus : Nat) (init : List UInt8)
    (hend : image.endPage + 69 ≤ entryEnd) (hinit : init.length < pgsize) :
    ∃ (σ : System (n + 1)) (t : Task), boot image bytes cpus init = some σ ∧
      σ.tasks = (fun p => if p = 0 then some t else none) ∧ Single t ∧ 56000 ≤ σ.mem.freelist.length := by
  have hstop : phystop / pgsize = entryEnd + 56320 := by decide
  obtain ⟨m₁, hlow, hfree₁⟩ := freerange_ok (m := ⟨image, [], bytes⟩) (pagesFrom image.endPage entryEnd) (by
    intro page hpage
    have hrange := List.mem_range'_1.1 hpage
    exact ⟨hrange.1, by omega⟩)
  have hm₁ : m₁.Sound := by
    refine sound_of_le ?_
    have hsplit : pagesFrom image.endPage (phystop / pgsize) = _ :=
      pagesFrom_split (b := entryEnd) (by omega) (by omega)
    rw [hfree₁, (freerange_transfers (A := 0) hlow).image, List.append_nil, Multiset.coe_reverse, physical, hsplit]
    exact Multiset.coe_le.2 (List.sublist_append_left _ _).subperm
  have hlen₁ : 69 ≤ m₁.freelist.length := by
    rw [hfree₁, List.append_nil, List.length_reverse, pagesFrom, List.length_range']
    omega
  obtain ⟨r, m₂, hsetup, -, hroom⟩ := hm₁.setupkvm
  obtain ⟨kpgdir, rfl⟩ := Option.isSome_iff_exists.1 (hroom hlen₁).1
  have himage : m₂.image = image := (setupkvm_transfers hsetup).image.trans (freerange_transfers (A := 0) hlow).image
  obtain ⟨m₃, hhigh, hfree₃⟩ := freerange_ok (m := { m₂ with freelist := m₂.freelist.drop cpus })
    (pagesFrom entryEnd (phystop / pgsize)) (by
      intro page hpage
      have hrange := List.mem_range'_1.1 hpage
      refine ⟨?_, by omega⟩
      show m₂.image.endPage ≤ page
      rw [himage]
      omega)
  have hkinit := kinit_transfers hlow hsetup hhigh
  have hm₃ : m₃.Sound := by
    refine sound_of_le ((Multiset.le_add_right _ _).trans (hkinit.transfer.items.trans ?_))
    rw [hkinit.image, Multiset.coe_nil, zero_add]
  have hlen₃ : 56320 ≤ m₃.freelist.length := by
    rw [hfree₃, List.length_append, List.length_reverse, pagesFrom, List.length_range']
    omega
  obtain ⟨t, m₄, huser, hsingle, hlen₄⟩ := userinit_of_enough hm₃ (by omega) hinit
  refine ⟨⟨m₄, kpgdir, fun p => if p = 0 then some t else none⟩, t, ?_, rfl, hsingle, by show _ ≤ m₄.freelist.length; omega⟩
  refine Option.bind_eq_some_iff.2 ⟨m₁, toOption_eq_some.2 hlow, Option.bind_eq_some_iff.2
    ⟨_, toOption_eq_some.2 hsetup, Option.bind_eq_some_iff.2 ⟨kpgdir, rfl, Option.bind_eq_some_iff.2
      ⟨m₃, toOption_eq_some.2 hhigh, ?_⟩⟩⟩⟩
  exact Option.bind_eq_some_iff.2 ⟨_, huser, rfl⟩

/-- A process with one page forks. -/
theorem fork_of_enough (hm : σ.mem.Sound) (hlen : 72 ≤ σ.mem.freelist.length) (ht : Single t)
    (hq : (List.finRange n).find? (fun q => (σ.tasks q).isNone) = some q) :
    ∃ t' m, σ.fork t = .ok (σ.put q (some t') m) ∧ Single t' := by
  obtain ⟨kstack, m₁, hstack⟩ := kalloc_of_pos (m := σ.mem) (by omega)
  have hlen₁ := length_kalloc hstack
  obtain ⟨r, m₂, hsetup, hresult, hroom⟩ := (hm.kalloc hstack).setupkvm
  obtain ⟨hsome, hlen₂⟩ := hroom (by omega)
  obtain ⟨d, rfl⟩ := Option.isSome_iff_exists.1 hsome
  obtain ⟨-, -, hempty⟩ := hresult d rfl
  obtain ⟨page, hpte⟩ := ht.first
  have huser : userPages = 524288 := rfl
  obtain ⟨mem, m₃, hk⟩ := kalloc_of_pos (m := m₂) (by omega)
  have hlen₃ := length_kalloc hk
  have hmissing : missing d 0 1 ≤ 1 := missing_le d 0 1
  obtain ⟨d', m₄, hmap⟩ := mappages_of_enough (m := m₃.memmove mem page) mem true true (hempty 0 (by omega))
    (by show _ ≤ m₃.freelist.length; omega)
  have hcopy : copyuvm t.pgdir t.sz m₁ = .ok (some d', m₄) := by
    rw [copyuvm_of_setupkvm hsetup, ht.sz, show (pgsize + pgsize - 1) / pgsize = 1 by decide, copyLoop, walk_of_pte hpte]
    simp only [hk, bind, Except.bind, hmap]
    rfl
  have hentry := (mappages_mapped hmap).entry
  refine ⟨⟨d', t.sz, kstack, false⟩, m₄, ?_, rfl, ht.sz, ⟨mem, ?_⟩, fun v hv hne => ?_⟩
  · unfold System.fork
    rw [hq]
    simp only [hstack, bind, Except.bind, hcopy]
    rfl
  · show d'.pte 0 = _
    rw [hentry, Function.update_self]
  · show d'.pte v = _
    rw [hentry, Function.update_of_ne hne]
    exact hempty v hv

/-- A kernel of 600 pages, with `data` in the middle. -/
def smallImage : Image := { (default : Image) with endPage := 600, data_le := by decide }

/-- The first process has forked, and parent and child have a page each. -/
theorem boot_fork : ∃ (σ₀ σ : System 2) (t t' : Task), boot smallImage (fun _ _ => 0) 3 [] = some σ₀ ∧
    σ₀.Step (0, .fork) σ ∧ σ.tasks 0 = some t ∧ σ.tasks 1 = some t' ∧ Single t ∧ Single t' := by
  obtain ⟨σ₀, t, hboot, htasks, ht, hlen⟩ := boot_of_room (n := 1) smallImage (fun _ _ => 0) 3 []
    (by decide) (by decide)
  have hzero : σ₀.tasks 0 = some t := congrFun htasks 0
  have hone : σ₀.tasks 1 = none := congrFun htasks 1
  have hfind : (List.finRange 2).find? (fun q => (σ₀.tasks q).isNone) = some 1 := by
    simp [List.finRange_succ, hzero, hone]
  obtain ⟨t', m, hfork, ht'⟩ := fork_of_enough (wf_boot hboot).sound (by omega) ht hfind
  refine ⟨σ₀, σ₀.put 1 (some t') m, t, t', hboot, .fork hzero ht.live hfork, ?_, System.tasks_put_self .., ht, ht'⟩
  rw [System.tasks_put_of_ne _ _ (by decide), hzero]

/-- Whatever the other processes do, with the memory they have and the system calls they make, a process that
does nothing keeps its page table and finds the same bytes in its memory. -/
theorem isolation {image : Image} {bytes : Nat → Nat → UInt8} {cpus : Nat} {init : List UInt8}
    {σ₀ σ σ' : System (n + 1)} {q : Fin (n + 1)} {t : Task} {h h' : List (System (n + 1) × (Fin (n + 1) × Act (n + 1)))}
    (hboot : boot image bytes cpus init = some σ₀) (hp : Run.Path System.Step σ₀ h σ) (hp' : Run.Path System.Step σ h' σ')
    (hlow : ∀ x ∈ h ++ h', x.1.ReadsLow x.2) (ht : σ.tasks q = some t)
    (hq : ∀ x ∈ h', x.2.1 ≠ q ∧ x.2.2 ≠ .reap q) :
    σ'.tasks q = some t ∧ ∀ v, t.pages σ'.mem v = t.pages σ.mem v := by
  have hσ : σ.Wf := hp.invariant System.ReadsLow (wf_boot hboot) (fun _ _ _ hσ hlow hs => hs.wf hσ hlow)
    fun x hx => hlow x (List.mem_append_left _ hx)
  have hrun := hp'.invariant (I := fun σ' => σ'.Wf ∧ σ'.tasks q = some t ∧ ∀ v, t.pages σ'.mem v = t.pages σ.mem v)
    (fun σ a => σ.ReadsLow a ∧ a.1 ≠ q ∧ a.2 ≠ .reap q) ⟨hσ, ht, fun _ => rfl⟩ ?_
    fun x hx => ⟨hlow x (List.mem_append_right _ hx), hq x hx⟩
  · exact hrun.2
  · rintro σ₁ a σ₂ ⟨hσ₁, ht₁, hpages⟩ ⟨hlow, hne, hreap⟩ hs
    obtain ⟨x, hacts, hx⟩ := hs.acts hσ₁ hlow
    have hqx : some q ≠ x := by
      rintro rfl
      rcases hx q rfl with rfl | h | h
      · exact hne rfl
      · exact hreap h
      · rw [ht₁] at h
        cases h
    refine ⟨hs.wf hσ₁ hlow, (hacts.others q hqx).trans ht₁, fun v => ?_⟩
    rw [hacts.pages hσ₁ hqx ht₁, hpages]

/-- The child stores a byte, and the parent does not see it. -/
theorem isolation_child : ∃ (σ₀ σ σ' : System 2) (t : Task), boot smallImage (fun _ _ => 0) 3 [] = some σ₀ ∧
    σ₀.Step (0, .fork) σ ∧ σ.Step (1, .move (.store 0 7)) σ' ∧ σ.tasks 0 = some t ∧ σ'.tasks 0 = some t ∧
    ∀ v, t.pages σ'.mem v = t.pages σ.mem v := by
  obtain ⟨σ₀, σ, t, t', hboot, hfork, ht, ht', -, hchild⟩ := boot_fork
  obtain ⟨page, hpte⟩ := hchild.first
  have hstore : (t'.proc σ.mem).translate 0 true = some page := by
    simp [Proc.translate, Task.proc, hpte, Option.filter, Pte.permits]
  have hstep := System.Step.move ht' hchild.live (.store 7 (by decide) hstore)
  have hsame := isolation hboot (.step .start hfork) (.step .start hstep)
    (by simp [System.ReadsLow]) ht (by simp)
  exact ⟨σ₀, σ, _, t, hboot, hfork, hstep, ht, hsame⟩

end CS1550.Vm
