/-
What the processes of `lab4/xv6-public` are meant to have: a memory each, which nobody else can get at. On this
machine a fault clears a page, `fork` copies the pages below `sz`, and there are no physical pages. The
machine of `Vm.System` refines it (`system_refines`): what the processes load in any run of the one is what they
load in a run of the other.
-/
import CS1550.Vm.System

namespace CS1550.Vm

/-! ## Private memories -/

/-- What a process has for itself. -/
structure Space where
  pages : Nat → Option Content
  sz : Nat
  zombie : Bool

/-- Writes one byte, where there is a page. -/
def pokePages (pages : Nat → Option Content) (addr : Nat) (b : UInt8) : Nat → Option Content :=
  Function.update pages (addr / pgsize)
    ((pages (addr / pgsize)).map fun c => { c with bytes := Function.update c.bytes (addr % pgsize) b })

/-- Bytes written one after the other. -/
def fillPages (pages : Nat → Option Content) (addr : Nat) : List UInt8 → Nat → Option Content
  | [] => pages
  | b :: data => fillPages (pokePages pages addr b) (addr + 1) data

/-- What a process does alone. A fault may find no memory; a `read` may bring less than there is. -/
inductive Space.Moves (x : Space) : Move → Space → Prop
  | sbrk (k : Int) : Moves x (.sbrk k) { x with sz := uint (x.sz + k) }
  | load {va : Nat} {c : Content} (hc : x.pages (va / pgsize) = some c) (hpermits : c.permits false) :
    Moves x (.load va (c.bytes (va % pgsize))) x
  | store {va : Nat} {c : Content} (b : UInt8) (hc : x.pages (va / pgsize) = some c) (hpermits : c.permits true) :
    Moves x (.store va b) { x with pages := pokePages x.pages va b }
  | faulted {va : Nat} (habsent : x.pages (va / pgsize) = none) :
    Moves x (.fault va) { x with pages := Function.update x.pages (va / pgsize) (some .zeroed) }
  | outOfMemory (va : Nat) : Moves x (.fault va) x
  | read {esp : Nat} {data data' : List UInt8} (addr : Nat) (hdata : data' <+: data) (hend : addr + data'.length ≤ x.sz) :
    Moves x (.read esp data) { x with pages := fillPages x.pages addr data' }

variable {n : Nat}

/-- A step of the machine. A new program has a memory of its own; what is in it is left open here. -/
inductive Private.Step (A : Fin n → Option Space) : Fin n × Act n → (Fin n → Option Space) → Prop
  | move {p : Fin n} {x x' : Space} {e : Move} (hp : A p = some x) (hlive : x.zombie = false) (hmove : x.Moves e x') :
    Step A (p, .move e) (Function.update A p (some x'))
  | fork {p q : Fin n} {x : Space} (hp : A p = some x) (hlive : x.zombie = false) (hq : A q = none) :
    Step A (p, .fork) (Function.update A q (some { x with pages := fun v => if v * pgsize < x.sz then x.pages v else none }))
  | forkFailed (p : Fin n) : Step A (p, .fork) A
  | exec {p : Fin n} {x : Space} (phs : List Proghdr) (file : List UInt8) (argv : List (List UInt8)) (y : Space)
    (hp : A p = some x) (hlive : x.zombie = false) (hy : y.zombie = false) :
    Step A (p, .exec phs file argv) (Function.update A p (some y))
  | execFailed (p : Fin n) (phs : List Proghdr) (file : List UInt8) (argv : List (List UInt8)) :
    Step A (p, .exec phs file argv) A
  | exit {p : Fin n} {x : Space} (hp : A p = some x) (hlive : x.zombie = false) :
    Step A (p, .exit) (Function.update A p (some { x with zombie := true }))
  | reap {p q : Fin n} {y : Space} (hq : A q = some y) (hzombie : y.zombie = true) :
    Step A (p, .reap q) (Function.update A q none)

/-! ## The memory that a process has -/

/-- What a process of the system has for itself. -/
def Task.space (t : Task) (m : Kmem) : Space := ⟨t.pages m, t.sz, t.zombie⟩

/-- What each process has for itself. -/
def System.spaces (σ : System n) (p : Fin n) : Option Space := (σ.tasks p).map (·.space σ.mem)

variable {σ σ' : System n} {p q : Fin n} {t : Task} {m m' : Kmem} {v : Nat} {pte : Pte}

theorem Task.pages_of_pte (hv : v < 2 ^ 20) (hpte : t.pgdir.pte v = some pte) (h : v < userPages ∨ pte.u) (m : Kmem) :
    t.pages m v = some ⟨pte.w, pte.u, m.bytes pte.page⟩ := by
  unfold Task.pages view
  rw [if_pos hv, hpte, Option.map_some, Option.filter_some, if_pos]
  rwa [Bool.or_eq_true, decide_eq_true_eq]

theorem Task.pages_of_none (hpte : t.pgdir.pte v = none) (m : Kmem) : t.pages m v = none := by
  unfold Task.pages view
  rw [hpte]
  split <;> rfl

theorem Task.pte_of_pages {c : Content} (h : t.pages m v = some c) :
    ∃ pte, t.pgdir.pte v = some pte ∧ v < 2 ^ 20 ∧ (v < userPages ∨ pte.u) ∧ c = ⟨pte.w, pte.u, m.bytes pte.page⟩ := by
  unfold Task.pages at h
  split at h
  · rename_i hv
    obtain ⟨hview, hown⟩ := Option.filter_eq_some_iff.1 h
    obtain ⟨pte, hpte, rfl⟩ := Option.map_eq_some_iff.1 hview
    rw [Bool.or_eq_true, decide_eq_true_eq] at hown
    exact ⟨pte, hpte, hv, hown, rfl⟩
  · cases h

/-- Two pages of a process are in different places. -/
theorem Task.pages_inj {v' : Nat} {pte' : Pte} (hn : t.pgdir.own.Nodup) (hv : v < 2 ^ 20) (hv' : v' < 2 ^ 20)
    (hpte : t.pgdir.pte v = some pte) (hpte' : t.pgdir.pte v' = some pte') (h : v < userPages ∨ pte.u)
    (h' : v' < userPages ∨ pte'.u) (heq : pte'.page = pte.page) : v' = v := by
  have hgrant : ∀ {v pte}, t.pgdir.pte v = some pte → v < userPages ∨ pte.u = true → t.pgdir.grant (.user v) = some pte.page := by
    intro v pte hpte h
    rcases h with h | h <;> simp [Pgdir.grant, granted, hpte, Option.filter_some, h]
  have hsame := Pool.stock_inj nodup_spots hn (user_mem_spots hv) (user_mem_spots hv') (hgrant hpte h)
    (heq ▸ hgrant hpte' h')
  exact Holder.user.inj hsame

/-- A byte that is written to a page of the process. -/
theorem Task.pages_poke {addr : Nat} (hn : t.pgdir.own.Nodup) (hv : addr / pgsize < 2 ^ 20)
    (hpte : t.pgdir.pte (addr / pgsize) = some pte) (h : addr / pgsize < userPages ∨ pte.u) (b : UInt8) :
    t.pages ((t.proc m).poke pte.page (addr % pgsize) b).mem = pokePages (t.pages m) addr b := by
  funext v
  unfold pokePages
  by_cases hva : v = addr / pgsize
  · subst hva
    rw [Function.update_self, Task.pages_of_pte hv hpte h, Task.pages_of_pte hv hpte h]
    simp [Proc.poke, Task.proc]
  · rw [Function.update_of_ne hva]
    unfold Task.pages view
    split
    · rename_i hv'
      cases hpte' : t.pgdir.pte v with
      | none => rfl
      | some pte' =>
        simp only [Option.map_some, Option.filter_some]
        split
        · rename_i hown
          rw [Bool.or_eq_true, decide_eq_true_eq] at hown
          have hne : pte'.page ≠ pte.page := fun heq => hva (Task.pages_inj hn hv hv' hpte hpte' h hown heq)
          simp [Proc.poke, Task.proc, Function.update_of_ne hne]
        · rfl
    · rfl

/-- A page that comes to the process. -/
theorem Task.pages_map {d : Pgdir} (hentry : d.pte = Function.update t.pgdir.pte v (some pte)) (hv : v < 2 ^ 20)
    (h : v < userPages ∨ pte.u) (hbytes : ∀ page ∈ t.own, m'.bytes page = m.bytes page) :
    Task.pages { t with pgdir := d } m' =
      Function.update (t.pages m) v (some ⟨pte.w, pte.u, m'.bytes pte.page⟩) := by
  funext v'
  by_cases hvv : v' = v
  · subst hvv
    rw [Function.update_self]
    refine Task.pages_of_pte hv ?_ h m'
    show d.pte v' = _
    rw [hentry, Function.update_self]
  · rw [Function.update_of_ne hvv, ← Task.pages_congr hbytes v']
    unfold Task.pages view
    dsimp only
    rw [hentry, Function.update_of_ne hvv]

/-! ## What a process does alone -/

theorem fill_pages {s' : Proc} {addr : Nat} {data : List UInt8} (hn : t.pgdir.own.Nodup)
    (hend : addr + data.length ≤ kernbase) (h : (t.proc m).fill addr data = .ok s') :
    t.pages s'.mem = fillPages (t.pages m) addr data := by
  have hk : kernbase = 2147483648 := rfl
  have hu : userPages = 524288 := rfl
  have hp : pgsize = 4096 := rfl
  induction data generalizing m addr with
  | nil =>
    cases h
    rfl
  | cons b data ih =>
    rw [List.length_cons] at hend
    obtain ⟨s₁, hwrite, h⟩ := bind_ok.1 h
    obtain ⟨pte, hpte, -, rfl⟩ := writeByte_eq hwrite
    have hnext : (addr + 1) % 2 ^ 32 = addr + 1 := Nat.mod_eq_of_lt (by omega)
    rw [hnext] at h
    have hpage : addr / pgsize < userPages := by
      rw [hp]
      omega
    rw [fillPages, ← Task.pages_poke hn (hpage.trans (by decide)) hpte (.inl hpage)]
    exact ih (by omega) h

/-- Page faults, on the private memory. -/
theorem trap_space {s' : Proc} {va : Nat} (hva : va < 2 ^ 32) (hfree : m.freelist.Nodup) (hown : ∀ page ∈ t.own, page ∉ m.freelist)
    (h : trap (t.proc m) va = .ok s') :
    (t.space m).Moves (.fault va) (Task.space { t with pgdir := s'.pgdir, sz := s'.sz } s'.mem) := by
  have hsz := trap_sz h
  unfold trap at h
  split at h
  · cases h
    exact .outOfMemory va
  · rename_i mem m₁ hk
    obtain ⟨⟨mapped, d, m₂⟩, hmap, h⟩ := bind_ok.1 h
    obtain ⟨hlist, -, hbytes⟩ := kalloc_eq_some hk
    have hlist : m.freelist = mem :: m₁.freelist := hlist
    have hbytes : m₁.bytes = m.bytes := hbytes
    cases mapped with
    | false =>
      obtain ⟨m₃, hkfree, h⟩ := bind_ok.1 h
      cases h
      obtain ⟨rfl, rfl⟩ := mappages_refused hmap
      have hback : Transfers m 0 m₃ 0 := ((Transfers.kalloc hk 0).trans
        (.setBytes (Multiset.mem_cons_self _ _) m₁ fun _ => 0)).trans (.kfree hkfree 0)
      have hsame : t.pages m₃ = t.pages m := by
        funext v
        refine Task.pages_congr (fun page hpage => hback.transfer.contents page ?_) v
        rw [add_zero]
        exact hown page hpage
      have hspace : Task.space { t with pgdir := t.pgdir, sz := t.sz } m₃ = t.space m := by
        unfold Task.space
        rw [← hsame]
      show (t.space m).Moves _ (Task.space { t with pgdir := t.pgdir, sz := t.sz } m₃)
      rw [hspace]
      exact .outOfMemory va
    | true =>
      cases h
      have hmapped := mappages_mapped hmap
      have hnot : mem ∉ m₁.freelist := by
        rw [hlist] at hfree
        exact (List.nodup_cons.1 hfree).1
      have habsent : t.pgdir.pte (va / pgsize) = none := by
        obtain ⟨d₁, m₃, hw, hnone, -⟩ := mappages_succ hmap
        rwa [(walkpgdir_walked hw).pte] at hnone
      have huses : Uses m m₂ := (Uses.kalloc hk 0).trans hmapped.uses
      have hpages := Task.pages_map hmapped.entry (page_lt hva) (.inr rfl) fun page hpage => huses.bytes page (hown page hpage)
      have hzero : m₂.bytes mem = fun _ => 0 := by
        rw [hmapped.uses.bytes mem hnot]
        exact Function.update_self ..
      have hspace : Task.space { t with pgdir := d, sz := t.sz } m₂ =
          { t.space m with pages := Function.update (t.pages m) (va / pgsize) (some .zeroed) } := by
        unfold Task.space
        rw [hpages, hzero]
        rfl
      show (t.space m).Moves _ (Task.space { t with pgdir := d, sz := t.sz } m₂)
      rw [hspace]
      exact .faulted (Task.pages_of_none habsent m)

theorem Moves.space {s' : Proc} {e : Move} (h : Moves (t.proc m) e s')
    (hlow : ∀ esp data, e = .read esp data → t.sz ≤ kernbase) (hfree : m.freelist.Nodup) (hn : t.pgdir.own.Nodup)
    (hown : ∀ page ∈ t.own, page ∉ m.freelist) :
    (t.space m).Moves e (Task.space { t with pgdir := s'.pgdir, sz := s'.sz } s'.mem) := by
  -- the page of an access that does not fault
  have haccess : ∀ {va page write}, va < 2 ^ 32 → (t.proc m).translate va write = some page → ∃ pte,
      t.pgdir.pte (va / pgsize) = some pte ∧ pte.u ∧ pte.permits write ∧ pte.page = page := by
    intro va page write hva ht
    obtain ⟨pte, hfilter, rfl⟩ := Option.map_eq_some_iff.1 ht
    obtain ⟨hpte, hpermits⟩ := Option.filter_eq_some_iff.1 hfilter
    have hu := hpermits
    unfold Pte.permits at hu
    exact ⟨pte, hpte, (Bool.and_eq_true_iff.1 hu).1, hpermits, rfl⟩
  cases h with
  | sbrk k => exact .sbrk k
  | load hva ht =>
    obtain ⟨pte, hpte, hu, hpermits, rfl⟩ := haccess hva ht
    exact Space.Moves.load (x := t.space m) (Task.pages_of_pte (page_lt hva) hpte (.inr hu) m) hpermits
  | store b hva ht =>
    obtain ⟨pte, hpte, hu, hpermits, rfl⟩ := haccess hva ht
    have hpoke := Task.pages_poke (m := m) hn (page_lt hva) hpte (.inr hu) b
    have hstore := Space.Moves.store (x := t.space m) b (Task.pages_of_pte (page_lt hva) hpte (.inr hu) m) hpermits
    show (t.space m).Moves _ ⟨t.pages _, t.sz, t.zombie⟩
    rw [hpoke]
    exact hstore
  | fault hva _ htrap => exact trap_space hva hfree hown htrap
  | @read esp data r s' hread =>
    obtain rfl | ⟨addr, data', hdata, hend, hfill⟩ := sysRead_eq (hlow esp data rfl) hread
    · exact .read 0 List.nil_prefix (Nat.zero_le _)
    · have hkern := hend.trans (hlow esp data rfl)
      obtain ⟨hpgdir, hsz, -⟩ := fill_transfers hkern hfill
      have hspace : Task.space { t with pgdir := s'.pgdir, sz := s'.sz } s'.mem =
          { t.space m with pages := fillPages (t.pages m) addr data' } := by
        rw [hpgdir, hsz, ← fill_pages hn hkern hfill]
        rfl
      rw [hspace]
      exact .read addr hdata hend

/-! ## Copies -/

/-- A turn of the loop of `copyuvm`, where the loop does not fail. -/
theorem copyLoop_succ {pgdir d d' : Pgdir} {count i : Nat} (h : copyLoop pgdir (count + 1) i d m = .ok (some d', m')) :
    ∃ pte mem m₁ d₂ m₂, pgdir.pte i = some pte ∧ m.kalloc = some (mem, m₁) ∧
      mappages d i 1 mem pte.w pte.u (m₁.memmove mem pte.page) = .ok (true, d₂, m₂) ∧
      copyLoop pgdir count (i + 1) d₂ m₂ = .ok (some d', m') := by
  unfold copyLoop at h
  split at h
  · cases h
  · cases h
  rename_i pte hwalk
  split at h
  · obtain ⟨m₁, -, h⟩ := bind_ok.1 h
    cases h
  rename_i mem m₁ hk
  obtain ⟨⟨mapped, d₂, m₂⟩, hmap, h⟩ := bind_ok.1 h
  cases mapped with
  | false =>
    obtain ⟨m₃, -, h⟩ := bind_ok.1 h
    obtain ⟨m₄, -, h⟩ := bind_ok.1 h
    cases h
  | true => exact ⟨pte, mem, m₁, d₂, m₂, pte_of_walk hwalk, hk, hmap, h⟩

/-- The copy goes to pages that are absent, and writes no other entries. -/
theorem copyLoop_entries {pgdir d d' : Pgdir} {count i : Nat} (h : copyLoop pgdir count i d m = .ok (some d', m')) :
    (∀ v, i ≤ v → v < i + count → d.pte v = none) ∧ ∀ v, ¬ (i ≤ v ∧ v < i + count) → d'.pte v = d.pte v := by
  induction count generalizing i d m with
  | zero =>
    cases h
    exact ⟨fun v hv hlt => by omega, fun _ _ => rfl⟩
  | succ count ih =>
    obtain ⟨pte, mem, m₁, d₂, m₂, -, -, hmap, h⟩ := copyLoop_succ h
    obtain ⟨hnone, hout⟩ := ih h
    have hentry := (mappages_mapped hmap).entry
    refine ⟨fun v hv hlt => ?_, fun v hv => ?_⟩
    · rcases Nat.eq_or_lt_of_le hv with rfl | hv
      · obtain ⟨d₁, m₃, hw, habsent, -⟩ := mappages_succ hmap
        rwa [(walkpgdir_walked hw).pte] at habsent
      · rw [← hnone v hv (by omega), hentry, Function.update_of_ne (by omega)]
    · rw [hout v (by omega), hentry, Function.update_of_ne (by omega)]

/-- The copies have the same bytes, as long as no page of the parent is free. -/
theorem copyLoop_view {pgdir d d' : Pgdir} {count i : Nat} (hfree : m.freelist.Nodup)
    (hparent : ∀ v pte, i ≤ v → v < i + count → pgdir.pte v = some pte → pte.page ∉ m.freelist)
    (h : copyLoop pgdir count i d m = .ok (some d', m')) :
    Uses m m' ∧ ∀ v, i ≤ v → v < i + count → view d' m' v = view pgdir m v := by
  induction count generalizing i d m with
  | zero =>
    cases h
    exact ⟨.refl _, fun v hv hlt => by omega⟩
  | succ count ih =>
    obtain ⟨pte, mem, m₁, d₂, m₂, hpte, hk, hmap, h⟩ := copyLoop_succ h
    obtain ⟨hlist, himage, hbytes⟩ := kalloc_eq_some hk
    have hmapped := mappages_mapped hmap
    have hsuffix : m₂.freelist <:+ m₁.freelist := hmapped.uses.suffix
    have hmem : mem ∉ m₁.freelist := by
      rw [hlist] at hfree
      exact (List.nodup_cons.1 hfree).1
    have hcopied : Uses m (m₁.memmove mem pte.page) := by
      refine ⟨himage, ⟨[mem], hlist.symm⟩, fun page hpage => ?_⟩
      have hne : page ≠ mem := fun heq => hpage (by simp [hlist, heq])
      simp [Kmem.memmove, Function.update_of_ne hne, hbytes]
    have huses := hcopied.trans hmapped.uses
    obtain ⟨huses', hview⟩ := ih (hfree.sublist huses.suffix.sublist)
      (fun v pte' hv hlt hpte' hmem => hparent v pte' (by omega) (by omega) hpte' (huses.suffix.subset hmem)) h
    refine ⟨huses.trans huses', fun v hv hlt => ?_⟩
    unfold view
    rcases Nat.eq_or_lt_of_le hv with rfl | hv
    · -- the page of this turn is not touched again
      have hnew : d'.pte i = some ⟨mem, pte.w, pte.u⟩ := by
        rw [(copyLoop_entries h).2 i (by omega), hmapped.entry, Function.update_self]
      have hsame : m'.bytes mem = m.bytes pte.page := by
        rw [huses'.bytes mem fun hin => hmem (hsuffix.subset hin), hmapped.uses.bytes mem hmem]
        show Function.update m₁.bytes mem (m₁.bytes pte.page) mem = _
        rw [Function.update_self, hbytes]
      rw [hnew, hpte, Option.map_some, Option.map_some, hsame]
    · refine (hview v hv (by omega)).trans ?_
      unfold view
      cases hpte' : pgdir.pte v with
      | none => rfl
      | some pte' => rw [Option.map_some, Option.map_some, huses.bytes _ (hparent v pte' (by omega) (by omega) hpte')]

/-- At KERNBASE the copy would panic, so it ends before, and the child has the kernel's part as `setupkvm` made
it. -/
theorem copyuvm_below {pgdir d d₁ : Pgdir} {m₁ : Kmem} {sz : Nat} (hsetup : setupkvm m = .ok (some d₁, m₁))
    (h : copyLoop pgdir ((sz + pgsize - 1) / pgsize) 0 d₁ m₁ = .ok (some d, m')) : (sz + pgsize - 1) / pgsize ≤ userPages ∧
      ∀ v, (sz + pgsize - 1) / pgsize ≤ v → d.pte v = (kmap m.image).findSome? (·.pte v) := by
  obtain ⟨hnone, hout⟩ := copyLoop_entries h
  have hpte := setupkvm_pte hsetup
  constructor
  · by_contra hlt
    have hfirst := hnone userPages (Nat.zero_le _) (by omega)
    rw [hpte, kmap_first] at hfirst
    cases hfirst
  · intro v hv
    rw [hout v (by omega), hpte]

theorem copyuvm_kernel {pgdir d : Pgdir} {sz : Nat} (h : copyuvm pgdir sz m = .ok (some d, m')) (v : Nat) (hv : userPages ≤ v) :
    d.pte v = (kmap m.image).findSome? (·.pte v) := by
  obtain ⟨⟨r, m₁⟩, hsetup, h⟩ := bind_ok.1 h
  cases r with
  | none => cases h
  | some d₁ =>
    obtain ⟨hend, hkernel⟩ := copyuvm_below hsetup h
    exact hkernel v (hend.trans hv)

/-- The child has the pages of the parent below `sz`, and no others. -/
theorem copyuvm_pages {d : Pgdir} (kstack : Nat) (hsz : t.sz < 2 ^ 32) (hfree : m.freelist.Nodup)
    (hown : ∀ page ∈ t.own, page ∉ m.freelist) (h : copyuvm t.pgdir t.sz m = .ok (some d, m')) :
    Task.pages ⟨d, t.sz, kstack, false⟩ m' = fun v => if v * pgsize < t.sz then t.pages m v else none := by
  obtain ⟨⟨r, m₁⟩, hsetup, h⟩ := bind_ok.1 h
  cases r with
  | none => cases h
  | some d₁ =>
    obtain ⟨hend, hkernel⟩ := copyuvm_below hsetup h
    have hsetup' := (setupkvm_transfers hsetup).transfer
    have hless : (m₁.freelist : Multiset Nat) ≤ m.freelist := by
      have hitems := hsetup'.items
      rw [add_zero] at hitems
      exact (Multiset.le_add_right _ _).trans hitems
    have hbytes : ∀ page ∈ t.own, m₁.bytes page = m.bytes page := fun page hpage => by
      refine hsetup'.contents page ?_
      rw [add_zero]
      exact hown page hpage
    have hcount : ∀ v, v < (t.sz + pgsize - 1) / pgsize ↔ v * pgsize < t.sz := by
      intro v
      unfold pgsize
      omega
    have hparent : ∀ v pte, 0 ≤ v → v < 0 + (t.sz + pgsize - 1) / pgsize → t.pgdir.pte v = some pte →
        pte.page ∉ m₁.freelist := by
      intro v pte _ hv hpte hmem
      have huser : v < userPages := by omega
      exact hown _ (Task.mem_own (huser.trans (by decide)) hpte (.inl huser)) (Multiset.mem_of_le hless hmem)
    have hview := (copyLoop_view (Multiset.coe_nodup.1 (Multiset.nodup_of_le hless (Multiset.coe_nodup.2 hfree))) hparent h).2
    funext v
    by_cases hv : v < (t.sz + pgsize - 1) / pgsize
    · rw [if_pos ((hcount v).1 hv), ← Task.pages_congr hbytes v]
      unfold Task.pages
      dsimp only
      rw [hview v (Nat.zero_le _) (by omega)]
    · rw [if_neg (mt (hcount v).2 hv)]
      unfold Task.pages view
      dsimp only
      rw [hkernel v (by omega)]
      -- what `setupkvm` maps is neither below KERNBASE nor open to user code
      by_cases huser : v < userPages
      · rw [kmap_user _ huser]
        split <;> rfl
      · cases hk : (kmap m.image).findSome? (·.pte v) with
        | none => split <;> rfl
        | some pte => simp [kmap_supervisor hk, huser, Option.filter_some]

/-! ## The refinement -/

theorem System.Wf.own_task (hσ : σ.Wf) (ht : σ.tasks p = some t) :
    t.pgdir.own.Nodup ∧ ∀ page ∈ t.own, page ∉ σ.mem.freelist := by
  have hle := (Region.own_le_total σ.mem.freelist σ.own (some p)).trans hσ.accounted
  have hn := Multiset.nodup_add.1 (Multiset.nodup_of_le hle (nodup_physical _))
  rw [System.own_of_task ht] at hn
  exact ⟨(Multiset.nodup_cons.1 hn.2.1).2, fun page hpage hfree => Multiset.disjoint_left.1 hn.2.2 hfree hpage⟩

/-- What one owner does is seen in its own memory only. -/
theorem System.Acts.spaces_of_ne {x : Option (Fin n)} (h : σ.Acts x σ') (hσ : σ.Wf) (hq : some q ≠ x) :
    σ'.spaces q = σ.spaces q := by
  unfold System.spaces
  rw [h.others q hq]
  cases ht : σ.tasks q with
  | none => rfl
  | some t => rw [Option.map_some, Option.map_some, Task.space, Task.space, funext (h.pages hσ hq ht)]

theorem System.Acts.spaces (h : σ.Acts (some p) σ') (hσ : σ.Wf) :
    σ'.spaces = Function.update σ.spaces p (σ'.spaces p) := by
  funext q
  by_cases hq : q = p
  · subst hq
    rw [Function.update_self]
  · rw [Function.update_of_ne hq]
    exact h.spaces_of_ne hσ fun heq => hq (Option.some.inj heq)

theorem System.Acts.spaces_kernel (h : σ.Acts none σ') (hσ : σ.Wf) : σ'.spaces = σ.spaces :=
  funext fun _ => h.spaces_of_ne hσ (by simp)

theorem System.spaces_of_task (ht : σ.tasks p = some t) : σ.spaces p = some (t.space σ.mem) := by
  simp [System.spaces, ht]

theorem System.spaces_put (σ : System n) (p : Fin n) (t : Option Task) (m : Kmem) :
    (σ.put p t m).spaces p = t.map (·.space m) := by
  rw [System.spaces, System.tasks_put_self]
  rfl

/-- The child, on the private memory of its parent. -/
theorem System.Wf.space_child {kstack : Nat} {d : Pgdir} {m₁ m : Kmem} (hσ : σ.Wf) (ht : σ.tasks p = some t)
    (hlive : t.zombie = false) (hk : σ.mem.kalloc = some (kstack, m₁)) (hcopy : copyuvm t.pgdir t.sz m₁ = .ok (some d, m)) :
    Task.space ⟨d, t.sz, kstack, false⟩ m =
      { t.space σ.mem with pages := fun v => if v * pgsize < t.sz then t.pages σ.mem v else none } := by
  obtain ⟨hlist, -, hbytes⟩ := kalloc_eq_some hk
  have hown := (hσ.own_task ht).2
  have hfree := hσ.sound.nodup
  rw [hlist] at hown hfree
  have hpages := copyuvm_pages kstack (hσ.size p t ht) (List.nodup_cons.1 hfree).2
    (fun page hpage hin => hown page hpage (List.mem_cons_of_mem _ hin)) hcopy
  have hsame : t.pages m₁ = t.pages σ.mem := funext (Task.pages_congr fun page _ => by rw [hbytes])
  unfold Task.space
  rw [hpages, hsame, hlive]

theorem System.Step.refines {a : Fin n × Act n} (h : σ.Step a σ') (hσ : σ.Wf) (hlow : σ.ReadsLow a) :
    Private.Step σ.spaces a σ'.spaces := by
  cases h with
  | @move p t e s' ht hlive hs =>
    obtain ⟨hn, hown⟩ := hσ.own_task ht
    have hmove := hs.space (fun esp data he => hlow esp data (congrArg _ he) t ht) hσ.sound.nodup hn hown
    rw [(System.acts_move hσ ht hs hlow).spaces hσ, System.spaces_put]
    exact .move (System.spaces_of_task ht) hlive hmove
  | @fork p t σ' ht hlive hfork =>
    have hsz := hσ.size p t ht
    cases System.forked hsz hfork with
    | failed h =>
      rw [(System.acts_failed h).spaces_kernel hσ]
      exact .forkFailed p
    | @made q kstack m₁ m d hq hk hcopy =>
      rw [(System.acts_fork hsz hq hk hcopy).spaces hσ, System.spaces_put, Option.map_some,
        hσ.space_child ht hlive hk hcopy]
      exact .fork (System.spaces_of_task ht) hlive (by simp [System.spaces, hq])
  | @exec p t phs file argv σ' ht hlive hexec =>
    cases hσ.execed hexec with
    | failed h =>
      rw [(System.acts_failed h).spaces_kernel hσ]
      exact .execFailed p phs file argv
    | made _ _ h =>
      rw [(System.acts_put (System.own_of_task ht ▸ h)).spaces hσ, System.spaces_put]
      exact .exec phs file argv _ (System.spaces_of_task ht) hlive hlive
  | exit ht hlive =>
    rw [(System.acts_exit ht).spaces hσ, System.spaces_put]
    exact .exit (System.spaces_of_task ht) hlive
  | reap _ _ hq hzombie hreap =>
    obtain ⟨m, rfl, hacts⟩ := System.acts_reap hq hreap
    rw [hacts.spaces hσ, System.spaces_put]
    exact .reap (System.spaces_of_task hq) hzombie

/-- A run of the machine is a run with private memories, step by step and with the same loads. -/
theorem system_refines {image : Image} {bytes : Nat → Nat → UInt8} {cpus : Nat} {init : List UInt8}
    {σ₀ σ : System (n + 1)} {h : List (System (n + 1) × (Fin (n + 1) × Act (n + 1)))}
    (hboot : boot image bytes cpus init = some σ₀) (hp : Run.Path System.Step σ₀ h σ)
    (hlow : ∀ x ∈ h, x.1.ReadsLow x.2) :
    Run.Path Private.Step σ₀.spaces (h.map fun x => (x.1.spaces, x.2)) σ.spaces := by
  induction hp with
  | start => exact .start
  | @step h σ σ' a hp hs ih =>
    have hlow' := fun x hx => hlow x (List.mem_append_left _ hx)
    have hσ : σ.Wf := hp.invariant System.ReadsLow (wf_boot hboot) (fun _ _ _ hσ hlow hs => hs.wf hσ hlow) hlow'
    rw [List.map_append]
    exact (ih hlow').step (hs.refines hσ (hlow (σ, a) (by simp)))

theorem system_refines_fork : ∃ (σ₀ σ : System 2), boot smallImage (fun _ _ => 0) 3 [] = some σ₀ ∧
    σ₀.Step (0, .fork) σ ∧ Run.Path Private.Step σ₀.spaces [(σ₀.spaces, (0, .fork))] σ.spaces := by
  obtain ⟨σ₀, σ, -, -, hboot, hfork, -⟩ := boot_fork
  exact ⟨σ₀, σ, hboot, hfork, system_refines hboot (.step .start hfork) (by simp [System.ReadsLow])⟩

end CS1550.Vm
