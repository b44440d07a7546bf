/-
The kernel's own use of user memory. `fork` copies every page below `sz`, and the system calls read their
arguments from the stack of the process after a comparison with `sz` (`lab4/xv6-public/syscall.c`); a page that
is not present then stops the kernel. In the runs of a process that does not happen exactly if every call of
`sbrk` leaves `sz` at or below what is present already (`kernelSafe_iff_backed`).
-/
import CS1550.Lib.Run
import CS1550.Vm.Exec

namespace CS1550.Vm

/-! ## Fetching arguments -/

/-- A byte that the kernel reads at a user address. A fault in kernel mode ends in `panic("trap")`. -/
def Proc.readByte (s : Proc) (addr : Nat) : Except Panic UInt8 :=
  match s.pgdir.pte (addr / pgsize) with
  | some pte => .ok (s.mem.bytes pte.page (addr % pgsize))
  | none => .error .trap

/-- `fetchint`; the inner `none` is a return of -1. -/
def fetchint (s : Proc) (addr : Nat) : Except Panic (Option Int) :=
  if addr ≥ s.sz ∨ (addr + 4) % 2 ^ 32 > s.sz then .ok none
  else do
    let b₀ ← s.readByte addr
    let b₁ ← s.readByte ((addr + 1) % 2 ^ 32)
    let b₂ ← s.readByte ((addr + 2) % 2 ^ 32)
    let b₃ ← s.readByte ((addr + 3) % 2 ^ 32)
    return some (toInt (b₀.toNat + 2 ^ 8 * b₁.toNat + 2 ^ 16 * b₂.toNat + 2 ^ 24 * b₃.toNat))

/-- The loop of `fetchstr`: the address of the first zero byte among `count` bytes from `p` on. -/
def scanNul (s : Proc) : (count : Nat) → (p : Nat) → Except Panic (Option Nat)
  | 0, _ => .ok none
  | count + 1, p => do
    let b ← s.readByte p
    if b = 0 then return some p else scanNul s count (p + 1)

/-- The length of the string at `addr`, unless it does not end below `sz`. -/
def fetchstr (s : Proc) (addr : Nat) : Except Panic (Option Nat) :=
  if addr ≥ s.sz then .ok none
  else do
    let nul ← scanNul s (s.sz - addr) addr
    return nul.map (· - addr)

/-- The argument `n` of a process whose stack pointer is `esp`. -/
def argint (s : Proc) (esp : Nat) (n : Int) : Except Panic (Option Int) := fetchint s (uint (esp + 4 + 4 * n))

/-- An argument that points to `size` bytes. -/
def argptr (s : Proc) (esp : Nat) (n size : Int) : Except Panic (Option Nat) := do
  match ← argint s esp n with
  | none => return none
  | some i =>
    if size < 0 ∨ uint i ≥ s.sz ∨ uint (uint i + size) > s.sz then return none
    else return some (uint i)

/-- An argument that points to a string, with its length. -/
def argstr (s : Proc) (esp : Nat) (n : Int) : Except Panic (Option (Nat × Nat)) := do
  match ← argint s esp n with
  | none => return none
  | some addr => return (← fetchstr s (uint addr)).map (uint addr, ·)

/-! ## What the kernel relies on -/

/-- `size` bytes from `addr` on are in pages that are present. -/
def Present (s : Proc) (addr size : Nat) : Prop := ∀ i < size, (s.pgdir.pte ((addr + i) / pgsize)).isSome

/-- `fork` does not panic when it copies the process, and neither does a system call when it fetches arguments:
every range that is accepted is present. -/
structure KernelSafe (s : Proc) : Prop where
  copyuvm : ∃ r, copyuvm s.pgdir s.sz s.mem = .ok r
  fetchint : ∀ addr, ∃ r, fetchint s addr = .ok r ∧ (r.isSome → Present s addr 4)
  fetchstr : ∀ addr, ∃ r, fetchstr s addr = .ok r ∧ ∀ len ∈ r, Present s addr (len + 1)
  argptr : ∀ esp n size, size < 2 ^ 31 → ∃ r, argptr s esp n size = .ok r ∧ ∀ p ∈ r, Present s p size.toNat
  argstr : ∀ esp n, ∃ r, argstr s esp n = .ok r ∧ ∀ x ∈ r, Present s x.1 (x.2 + 1)

/-- Every page below `sz` is present. -/
structure Backed (s : Proc) : Prop where
  owned : Owned s.pgdir s.mem
  below : s.sz ≤ kernbase
  present : ∀ v < pgroundup s.sz, (s.pgdir.pte v).isSome

variable {s s' : Proc} {addr size va : Nat}

theorem Started.backed (h : Started s) : Backed s :=
  ⟨h.owned, h.below.le, fun v hv => (h.mapped v (hv.trans_le (pgroundup_le h.below.le))).2 hv⟩

theorem Backed.range (h : Backed s) (hle : addr + size ≤ s.sz) : Present s addr size := by
  intro i hi
  refine h.present _ ((lt_pgroundup h.below).2 ?_)
  exact (Nat.div_mul_le_self _ _).trans_lt (by omega)

theorem readByte_of_present (h : Present s addr size) {i : Nat} (hi : i < size) : ∃ b, s.readByte (addr + i) = .ok b := by
  obtain ⟨pte, hpte⟩ := Option.isSome_iff_exists.1 (h i hi)
  exact ⟨_, by rw [Proc.readByte, hpte]⟩

theorem Backed.fetchint (h : Backed s) (addr : Nat) :
    ∃ r, fetchint s addr = .ok r ∧ (r.isSome → Present s addr 4) := by
  have hbelow := h.below
  have hk : kernbase = 2147483648 := rfl
  unfold Vm.fetchint
  split
  · exact ⟨none, rfl, by simp⟩
  · have hpresent : Present s addr 4 := h.range (by omega)
    obtain ⟨b₀, h₀⟩ := readByte_of_present hpresent (i := 0) (by omega)
    obtain ⟨b₁, h₁⟩ := readByte_of_present hpresent (i := 1) (by omega)
    obtain ⟨b₂, h₂⟩ := readByte_of_present hpresent (i := 2) (by omega)
    obtain ⟨b₃, h₃⟩ := readByte_of_present hpresent (i := 3) (by omega)
    rw [← Nat.mod_eq_of_lt (by omega : addr + 1 < 2 ^ 32)] at h₁
    rw [← Nat.mod_eq_of_lt (by omega : addr + 2 < 2 ^ 32)] at h₂
    rw [← Nat.mod_eq_of_lt (by omega : addr + 3 < 2 ^ 32)] at h₃
    exact ⟨_, bind_ok.2 ⟨b₀, h₀, bind_ok.2 ⟨b₁, h₁, bind_ok.2 ⟨b₂, h₂, bind_ok.2 ⟨b₃, h₃, rfl⟩⟩⟩⟩, fun _ => hpresent⟩

theorem scanNul_of_present {count p : Nat} (h : Present s p count) :
    ∃ r, scanNul s count p = .ok r ∧ ∀ q ∈ r, p ≤ q ∧ q < p + count := by
  induction count generalizing p with
  | zero => exact ⟨none, rfl, by simp⟩
  | succ count ih =>
    obtain ⟨b, hb⟩ := readByte_of_present h (i := 0) (by omega)
    by_cases hzero : b = 0
    · refine ⟨some p, bind_ok.2 ⟨b, hb, if_pos hzero⟩, ?_⟩
      rintro q ⟨⟩
      omega
    · have hrest : Present s (p + 1) count := by
        intro i hi
        rw [show p + 1 + i = p + (i + 1) by omega]
        exact h (i + 1) (by omega)
      obtain ⟨r, hr, hrange⟩ := ih hrest
      refine ⟨r, bind_ok.2 ⟨b, hb, by rw [if_neg hzero]; exact hr⟩, fun q hq => ?_⟩
      have := hrange q hq
      omega

theorem Backed.fetchstr (h : Backed s) (addr : Nat) :
    ∃ r, fetchstr s addr = .ok r ∧ ∀ len ∈ r, Present s addr (len + 1) := by
  unfold Vm.fetchstr
  split
  · exact ⟨none, rfl, by simp⟩
  · have hpresent : Present s addr (s.sz - addr) := h.range (by omega)
    obtain ⟨r, hr, hrange⟩ := scanNul_of_present hpresent
    refine ⟨r.map (· - addr), bind_ok.2 ⟨r, hr, rfl⟩, fun len hlen => ?_⟩
    obtain ⟨q, hq, rfl⟩ := Option.map_eq_some_iff.1 hlen
    have := hrange q hq
    exact h.range (by omega)

theorem Backed.argptr (h : Backed s) (esp : Nat) (n : Int) {size : Int} (hsize : size < 2 ^ 31) :
    ∃ r, argptr s esp n size = .ok r ∧ ∀ p ∈ r, Present s p size.toNat := by
  obtain ⟨r, hr, -⟩ := h.fetchint (uint (esp + 4 + 4 * n))
  cases r with
  | none => exact ⟨none, bind_ok.2 ⟨none, hr, rfl⟩, by simp⟩
  | some i =>
    by_cases hrefuse : size < 0 ∨ uint i ≥ s.sz ∨ uint (uint i + size) > s.sz
    · exact ⟨none, bind_ok.2 ⟨some i, hr, if_pos hrefuse⟩, by simp⟩
    · refine ⟨some (uint i), bind_ok.2 ⟨some i, hr, if_neg hrefuse⟩, ?_⟩
      rintro p ⟨⟩
      -- Neither summand reaches 2 ^ 31, so the sum that is compared with `sz` has not come round.
      have hbelow := h.below
      have hk : kernbase = 2147483648 := rfl
      have hsum : uint (uint i + size) = uint i + size.toNat := by
        generalize uint i = a at hrefuse
        unfold uint
        omega
      exact h.range (by omega)

theorem Backed.argstr (h : Backed s) (esp : Nat) (n : Int) :
    ∃ r, argstr s esp n = .ok r ∧ ∀ x ∈ r, Present s x.1 (x.2 + 1) := by
  obtain ⟨r, hr, -⟩ := h.fetchint (uint (esp + 4 + 4 * n))
  cases r with
  | none => exact ⟨none, bind_ok.2 ⟨none, hr, rfl⟩, by simp⟩
  | some addr =>
    obtain ⟨len, hlen, hpresent⟩ := h.fetchstr (uint addr)
    refine ⟨len.map (uint addr, ·), bind_ok.2 ⟨some addr, hr, bind_ok.2 ⟨len, hlen, rfl⟩⟩, fun x hx => ?_⟩
    obtain ⟨l, hl, rfl⟩ := Option.map_eq_some_iff.1 hx
    exact hpresent l hl

theorem Backed.kernelSafe (h : Backed s) : KernelSafe s where
  copyuvm := h.owned.sound.copyuvm h.below h.present
  fetchint := h.fetchint
  fetchstr := h.fetchstr
  argptr esp n _ hsize := h.argptr esp n hsize
  argstr := h.argstr

/-- A string that is fetched has its first byte in a page that is present. -/
theorem isSome_of_fetchstr {r : Option Nat} (h : Vm.fetchstr s addr = .ok r) (hlt : addr < s.sz) :
    (s.pgdir.pte (addr / pgsize)).isSome := by
  unfold Vm.fetchstr at h
  rw [if_neg (by omega)] at h
  obtain ⟨nul, hscan, -⟩ := bind_ok.1 h
  obtain ⟨count, hcount⟩ : ∃ c, s.sz - addr = c + 1 := ⟨s.sz - addr - 1, by omega⟩
  rw [hcount] at hscan
  obtain ⟨b, hb, -⟩ := bind_ok.1 hscan
  unfold Proc.readByte at hb
  cases hpte : s.pgdir.pte (addr / pgsize) with
  | some pte => rfl
  | none =>
    rw [hpte] at hb
    cases hb

/-- The kernel is safe only where every page below `sz` is present. -/
theorem KernelSafe.backed (h : KernelSafe s) (ho : Owned s.pgdir s.mem) : Backed s := by
  have hpresent : ∀ v, v * pgsize < s.sz → (s.pgdir.pte v).isSome := by
    intro v hv
    obtain ⟨r, hr, -⟩ := h.fetchstr (v * pgsize)
    have hsome := isSome_of_fetchstr hr hv
    rwa [Nat.mul_div_cancel v (by decide)] at hsome
  have hbelow : s.sz ≤ kernbase := by
    by_contra hgt
    obtain ⟨v, hv, hnone⟩ := ho.exists_absent
    have hlt : v * pgsize < s.sz := by
      have hk : kernbase = 2147483648 := rfl
      have hu : userPages = 524288 := rfl
      unfold pgsize
      omega
    simpa [hnone] using hpresent v hlt
  exact ⟨ho, hbelow, fun v hv => hpresent v ((lt_pgroundup hbelow).1 hv)⟩

/-! ## Runs -/

/-- What a process does: calls of `sbrk`, accesses that go through, and page faults. -/
inductive Event
  | sbrk (n : Int)
  | load (va : Nat)
  | store (va : Nat) (b : UInt8)
  | fault (va : Nat) (write : Bool)

/-- The steps of a process, with the state after each. -/
inductive Step : Proc → Event → Proc → Prop
  | sbrk (s : Proc) (n : Int) : Step s (.sbrk n) (sysSbrk s n).2
  | load {s : Proc} {va page : Nat} (h : s.translate va false = some page) : Step s (.load va) s
  | store {s : Proc} {va page : Nat} (b : UInt8) (h : s.translate va true = some page) :
    Step s (.store va b) (s.poke page (va % pgsize) b)
  | fault {s s' : Proc} {va : Nat} {write : Bool} (h : s.translate va write = none) (ht : trap s va = .ok s') :
    Step s (.fault va write) s'

/-- A call of `sbrk` that leaves `sz` at or below KERNBASE, with every page below it present already. -/
def StaysBacked (s : Proc) : Event → Prop
  | .sbrk n => uint (s.sz + n) ≤ kernbase ∧ ∀ v < pgroundup (uint (s.sz + n)), (s.pgdir.pte v).isSome
  | _ => True

instance (s : Proc) : (e : Event) → Decidable (StaysBacked s e)
  | .sbrk _ => inferInstanceAs (Decidable (_ ∧ _))
  | .load _ => isTrue trivial
  | .store _ _ => isTrue trivial
  | .fault _ _ => isTrue trivial

/-- The fault handler maps a page or leaves the page table as it is. -/
theorem Owned.trap (ho : Owned s.pgdir s.mem) (h : trap s va = .ok s') :
    s'.sz = s.sz ∧ Owned s'.pgdir s'.mem ∧ ∀ v, (s.pgdir.pte v).isSome → (s'.pgdir.pte v).isSome := by
  have hf := ho.faulted va
  rw [h] at hf
  cases hf with
  | outOfMemory _ image freelist =>
    refine ⟨rfl, ?_, fun _ => id⟩
    rw [Owned, valid_congr image, freelist]
    exact ho
  | mapped _ _ taken map =>
    refine ⟨rfl, (ho.map_zeroed taken map).1, fun v hv => ?_⟩
    show (Pgdir.pte _ v).isSome
    rw [(mappages_mapped map).entry]
    by_cases hvv : v = va / pgsize
    · simp [hvv]
    · rwa [Function.update_of_ne hvv]

theorem Backed.step {e : Event} (h : Backed s) (he : StaysBacked s e) (hs : Step s e s') : Backed s' := by
  cases hs with
  | sbrk n => exact ⟨h.owned, he.1, he.2⟩
  | load _ => exact h
  | store b _ => exact ⟨h.owned, h.below, h.present⟩
  | fault _ ht =>
    obtain ⟨hsz, ho, hkept⟩ := h.owned.trap ht
    exact ⟨ho, hsz ▸ h.below, fun v hv => hkept v (h.present v (hsz ▸ hv))⟩

theorem Step.owned {e : Event} (hs : Step s e s') (ho : Owned s.pgdir s.mem) : Owned s'.pgdir s'.mem := by
  cases hs with
  | sbrk n => exact ho
  | load _ => exact ho
  | store b _ => exact ho
  | fault _ ht => exact (ho.trap ht).2.1

/-- In the runs of a process from `exec` on, the kernel is safe in all states exactly if each call of `sbrk` leaves
only pages below `sz` that are present. -/
theorem kernelSafe_iff_backed {phs : List Proghdr} {file : List UInt8} {m m' : Kmem} {d : Pgdir} {sz : Nat}
    {h : List (Proc × Event)} (hm : m.Sound) (hexec : exec phs file m = .ok (some (d, sz), m'))
    (hp : Run.Path Step ⟨d, sz, m'⟩ h s) :
    (∀ x ∈ Run.visited h s, KernelSafe x) ↔ ∀ x ∈ h, StaysBacked x.1 x.2 := by
  have hstart := exec_started hm hexec
  constructor
  · rintro hsafe ⟨x, e⟩ hx
    obtain ⟨h', x', hp', hs, -, hx'⟩ := hp.split hx
    have ho : Owned x.pgdir x.mem := hp'.always (I := fun s => Owned s.pgdir s.mem) hstart.owned
      fun _ _ _ ho hs => hs.owned ho
    have hbacked := (hsafe x' hx').backed (hs.owned ho)
    cases hs with
    | sbrk n => exact ⟨hbacked.below, hbacked.present⟩
    | load _ => trivial
    | store b _ => trivial
    | fault _ _ => trivial
  · intro hok
    refine hp.forall_visited (fun h s hp hok => ?_) hok
    have hbacked := hp.invariant StaysBacked hstart.backed (fun _ _ _ hb he hs => hb.step he hs) hok
    exact hbacked.kernelSafe

/-- A memory with three hundred free pages. -/
def booted : Kmem := ⟨default, List.range' 1024 300, fun _ _ => 0⟩

theorem sound_booted : booted.Sound := by
  refine ⟨List.nodup_range', fun p hp => ?_, by simp, by simp, by simp⟩
  have hrange := List.mem_range'_1.1 hp
  have hend : booted.image.endPage = 1024 := rfl
  have htop : phystop / pgsize = 57344 := rfl
  unfold Kmem.Valid
  omega

/-- A program without segments, started in that memory, has two pages. -/
theorem exec_booted : ∃ d m', exec [] [] booted = .ok (some (d, 2 * pgsize), m') ∧ m'.Sound ∧
    228 ≤ m'.freelist.length ∧ ∀ v < userPages, (d.pte v).isSome ↔ v < 2 := by
  have hlength : booted.freelist.length = 300 := List.length_range'
  obtain ⟨d, m', hexec, hm, hlen⟩ := exec_empty sound_booted (by omega)
  refine ⟨d, m', hexec, hm, by omega, ?_⟩
  have hmapped := (exec_started sound_booted hexec).mapped
  rwa [show pgroundup (2 * pgsize) = 2 by decide] at hmapped

/-- A process that gives its stack page up and takes it again. -/
theorem kernelSafe_iff_backed_shrink : ∃ d m' h s, exec [] [] booted = .ok (some (d, 2 * pgsize), m') ∧
    Run.Path Step ⟨d, 2 * pgsize, m'⟩ h s ∧ h.map Prod.snd = [.sbrk (-4096), .sbrk 4096] ∧
    ∀ x ∈ Run.visited h s, KernelSafe x := by
  obtain ⟨d, m', hexec, -, -, hmapped⟩ := exec_booted
  have hpresent : ∀ v < 2, (d.pte v).isSome := fun v hv => (hmapped v (hv.trans (by decide))).2 hv
  have hpath := (Run.Path.start.step (Step.sbrk ⟨d, 2 * pgsize, m'⟩ (-4096))).step (.sbrk _ 4096)
  refine ⟨d, m', _, _, hexec, hpath, rfl, (kernelSafe_iff_backed sound_booted hexec hpath).2 ?_⟩
  have hone : pgroundup (uint ((2 * pgsize : Nat) + -4096)) = 1 := by decide
  have htwo : pgroundup (uint ((uint ((2 * pgsize : Nat) + -4096) : Nat) + 4096)) = 2 := by decide
  intro x hx
  simp only [List.nil_append, List.cons_append, List.mem_cons, List.not_mem_nil, or_false] at hx
  obtain rfl | rfl := hx
  · refine ⟨(by decide : uint ((2 * pgsize : Nat) + -4096) ≤ kernbase), fun v hv => hpresent v ?_⟩
    have hv : v < pgroundup (uint ((2 * pgsize : Nat) + -4096)) := hv
    omega
  · refine ⟨(by decide : uint ((uint ((2 * pgsize : Nat) + -4096) : Nat) + 4096) ≤ kernbase), fun v hv => hpresent v ?_⟩
    have hv : v < pgroundup (uint ((uint ((2 * pgsize : Nat) + -4096) : Nat) + 4096)) := hv
    omega

/-- One `sbrk` of a page: `fork` panics, and so does a system call with its stack on the new page. -/
theorem fork_panics_after_sbrk : ∃ d m' h s, exec [] [] booted = .ok (some (d, 2 * pgsize), m') ∧
    Run.Path Step ⟨d, 2 * pgsize, m'⟩ h s ∧ h.map Prod.snd = [.sbrk 4096] ∧
    (∃ panic, copyuvm s.pgdir s.sz s.mem = .error panic) ∧ fetchint s 8192 = .error .trap := by
  obtain ⟨d, m', hexec, hm, hlen, hmapped⟩ := exec_booted
  have habsent : d.pte 2 = none := by simpa using mt (hmapped 2 (by decide)).1 (by decide)
  have hsz : uint ((2 * pgsize : Nat) + 4096) = 12288 := by decide
  have hstep : Step ⟨d, 2 * pgsize, m'⟩ (.sbrk 4096) ⟨d, 12288, m'⟩ := hsz ▸ .sbrk _ _
  refine ⟨d, m', _, ⟨d, 12288, m'⟩, hexec, Run.Path.start.step hstep, rfl, ?_, ?_⟩
  · obtain ⟨r, m₁, hsetup, hresult, hroom⟩ := hm.setupkvm
    obtain ⟨hsome, hlen₁⟩ := hroom (by omega)
    obtain ⟨d₁, rfl⟩ := Option.isSome_iff_exists.1 hsome
    obtain ⟨ho₁, -, hempty⟩ := hresult d₁ rfl
    have htwo : 0 + 2 < userPages := by decide
    obtain ⟨panic, hcopy⟩ := ho₁.copyLoop_panics (by decide : 2 < 3) htwo
      (fun v _ hv => (hmapped v (hv.trans htwo)).2 (by omega)) habsent (fun v _ hv => hempty v hv) (by omega)
    refine ⟨panic, ?_⟩
    show copyuvm d 12288 m' = _
    rw [copyuvm_of_setupkvm hsetup, show (12288 + pgsize - 1) / pgsize = 3 by decide]
    exact hcopy
  · have hread : Proc.readByte ⟨d, 12288, m'⟩ 8192 = .error .trap := by
      unfold Proc.readByte
      rw [show 8192 / pgsize = 2 by decide, habsent]
    unfold fetchint
    rw [if_neg (by show ¬ (8192 ≥ 12288 ∨ (8192 + 4) % 2 ^ 32 > 12288); decide), hread]
    rfl

end CS1550.Vm
