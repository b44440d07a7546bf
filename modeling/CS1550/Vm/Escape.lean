/-
What `isolation` takes as an assumption, and what comes of it otherwise. `sys_sbrk` sets `sz` to anything, `argptr`
goes by `sz`, and the kernel's part of every page table has all physical pages, writable. So a process can move
its `sz` over the kernel's addresses and let `read` write any byte of any other process (`sbrk_escapes`).
-/
import CS1550.Vm.Private

namespace CS1550.Vm

/-! ## The kernel's part of the page tables -/

/-- Every page of the allocator is in the page table, at its place above KERNBASE. -/
def Pgdir.Direct (image : Image) (d : Pgdir) : Prop :=
  ∀ page ∈ physical image, d.pte (userPages + page) = some ⟨page, true, false⟩

variable {n : Nat} {σ σ' : System n} {p q : Fin n} {t t' : Task} {m m' : Kmem} {d d' : Pgdir} {image : Image}

theorem kmap_direct {page : Nat} (h : page ∈ physical image) :
    (kmap image).findSome? (·.pte (userPages + page)) = some ⟨page, true, false⟩ := by
  have hrange := List.mem_range'_1.1 (Multiset.mem_coe.1 h)
  have hlow := image.kernlink_lt
  have hmid := image.data_le
  obtain ⟨h₁, h₂, h₃, h₄, h₅, -, -⟩ := kmap_pages
  have hout : ∀ k ∈ [Kmap.mk (kernbase / pgsize) 0 (extmem / pgsize) true,
      ⟨kernlink / pgsize, kernlink / pgsize - userPages, image.data - userPages, false⟩],
      k.pte (userPages + page) = none := by
    intro k hk
    simp only [List.mem_cons, List.not_mem_nil, or_false] at hk
    refine if_neg ?_
    unfold Kmap.size
    obtain rfl | rfl := hk <;> dsimp only <;> omega
  have hin : Kmap.pte ⟨image.data, image.data - userPages, phystop / pgsize, true⟩ (userPages + page) =
      some ⟨page, true, false⟩ := by
    have hpage : image.data - userPages + (userPages + page - image.data) = page := by omega
    refine (if_pos ?_).trans (by rw [hpage])
    unfold Kmap.size
    dsimp only
    omega
  rw [kmap, List.findSome?_cons, hout _ (by simp), List.findSome?_cons, hout _ (by simp), List.findSome?_cons, hin]

theorem direct_of_kmap (h : ∀ v, userPages ≤ v → d.pte v = (kmap image).findSome? (·.pte v)) : d.Direct image :=
  fun _ hpage => (h _ (Nat.le_add_right _ _)).trans (kmap_direct hpage)

/-- A fault does not touch what is present. -/
theorem Moves.direct {s s' : Proc} {e : Move} (h : Moves s e s') (hlow : ∀ esp data, e = .read esp data → s.sz ≤ kernbase)
    (hd : s.pgdir.Direct image) : s'.pgdir.Direct image := by
  cases h with
  | sbrk k => exact hd
  | load _ _ => exact hd
  | store _ _ _ => exact hd
  | fault _ _ htrap =>
    unfold trap at htrap
    split at htrap
    · cases htrap
      exact hd
    · obtain ⟨⟨mapped, d, m⟩, hmap, htrap⟩ := bind_ok.1 htrap
      cases mapped with
      | false =>
        obtain ⟨m₁, -, htrap⟩ := bind_ok.1 htrap
        cases htrap
        obtain ⟨rfl, -⟩ := mappages_refused hmap
        exact hd
      | true =>
        cases htrap
        intro page hpage
        obtain ⟨d₁, m₁, hw, habsent, -⟩ := mappages_succ hmap
        rw [(walkpgdir_walked hw).pte] at habsent
        show d.pte _ = _
        rw [(mappages_mapped hmap).entry, Function.update_of_ne, hd page hpage]
        intro heq
        rw [← heq, hd page hpage] at habsent
        cases habsent
  | @read esp data r s' hread =>
    obtain rfl | ⟨addr, data', -, hend, hfill⟩ := sysRead_eq (hlow esp data rfl) hread
    · exact hd
    · rw [(fill_transfers (hend.trans (hlow esp data rfl)) hfill).1]
      exact hd

/-- The same for every process. -/
def System.Direct (σ : System n) : Prop := ∀ p t, σ.tasks p = some t → t.pgdir.Direct σ.mem.image

theorem System.Direct.put {A : Option Task} (h : σ.Direct) (himage : m.image = σ.mem.image)
    (hA : ∀ t ∈ A, t.pgdir.Direct σ.mem.image) : (σ.put p A m).Direct := by
  intro q t ht
  show t.pgdir.Direct m.image
  rw [himage]
  by_cases hq : q = p
  · subst hq
    rw [System.tasks_put_self] at ht
    exact hA t ht
  · rw [System.tasks_put_of_ne A m hq] at ht
    exact h q t ht

theorem System.Step.direct {a : Fin n × Act n} (h : σ.Step a σ') (hσ : σ.Wf) (hlow : σ.ReadsLow a) (hd : σ.Direct) :
    σ'.Direct := by
  obtain ⟨x, hacts, -⟩ := h.acts hσ hlow
  have himage := hacts.transfers.image
  cases h with
  | @move p t e s' ht _ hs =>
    refine hd.put himage ?_
    rintro _ ⟨⟩
    exact hs.direct (fun esp data he => hlow esp data (congrArg _ he) t ht) (hd p t ht)
  | @fork p t σ' ht _ hfork =>
    have hsz := hσ.size p t ht
    cases System.forked hsz hfork with
    | failed h =>
      intro p t ht
      rw [himage]
      exact hd p t ht
    | made hq hk hcopy =>
      refine hd.put himage ?_
      rintro _ ⟨⟩
      rw [← (kalloc_eq_some hk).2.1]
      exact direct_of_kmap (copyuvm_kernel hcopy)
  | @exec p t phs file argv σ' ht _ hexec =>
    cases hσ.execed hexec with
    | failed h =>
      intro p t ht
      rw [himage]
      exact hd p t ht
    | made hsz hkernel h =>
      refine hd.put himage ?_
      rintro _ ⟨⟩
      exact direct_of_kmap hkernel
  | @exit p t ht _ =>
    have hdirect := hd p t ht
    refine hd.put himage ?_
    rintro _ ⟨⟩
    exact hdirect
  | reap _ _ hq _ hreap =>
    obtain ⟨m, rfl, -⟩ := System.acts_reap hq hreap
    exact hd.put himage (by simp)

theorem direct_userinit {init : List UInt8} (h : userinit init m = some (t, m')) : t.pgdir.Direct m.image := by
  obtain ⟨⟨kstack, m₁⟩, hstack, h⟩ := Option.bind_eq_some_iff.1 h
  obtain ⟨⟨r, m₂⟩, hsetup, h⟩ := Option.bind_eq_some_iff.1 h
  obtain ⟨d, hr, h⟩ := Option.bind_eq_some_iff.1 h
  obtain ⟨-, -, h⟩ := Option.bind_eq_some_iff.1 h
  obtain ⟨⟨mem, m₃⟩, hk, h⟩ := Option.bind_eq_some_iff.1 h
  obtain ⟨⟨b, d', m₄⟩, hmap, h⟩ := Option.bind_eq_some_iff.1 h
  cases h
  have hr : r = some d := hr
  subst hr
  have hmap := toOption_eq_some.1 hmap
  refine direct_of_kmap fun v hv => ?_
  have hpos : 0 < userPages := by decide
  have hsame : d'.pte v = d.pte v := by
    cases b with
    | false => rw [(mappages_refused hmap).1]
    | true => rw [(mappages_mapped hmap).entry, Function.update_of_ne (by omega)]
  show d'.pte v = _
  rw [hsame, setupkvm_pte (toOption_eq_some.1 hsetup), (kalloc_eq_some hstack).2.1]

theorem direct_boot {bytes : Nat → Nat → UInt8} {cpus : Nat} {init : List UInt8} {σ : System (n + 1)}
    (h : boot image bytes cpus init = some σ) : σ.Direct := by
  obtain ⟨m₁, -, h⟩ := Option.bind_eq_some_iff.1 h
  obtain ⟨⟨r, m₂⟩, -, h⟩ := Option.bind_eq_some_iff.1 h
  obtain ⟨kpgdir, -, h⟩ := Option.bind_eq_some_iff.1 h
  obtain ⟨m₃, -, h⟩ := Option.bind_eq_some_iff.1 h
  obtain ⟨⟨t, m₄⟩, huser, h⟩ := Option.bind_eq_some_iff.1 h
  cases h
  intro p t' ht
  have himage : m₄.image = m₃.image := (userinit_transfers huser).2.image
  show t'.pgdir.Direct m₄.image
  dsimp only at ht
  split at ht
  · cases ht
    rw [himage]
    exact direct_userinit huser
  · cases ht

/-! ## Steps of one process -/

theorem System.Wf.own_physical {page : Nat} (hσ : σ.Wf) (h : page ∈ σ.own (some p)) : page ∈ physical σ.mem.image := by
  have hle := (Region.own_le_total σ.mem.freelist σ.own (some p)).trans hσ.accounted
  exact Multiset.mem_of_le hle (Multiset.mem_add.2 (.inr h))

theorem System.Wf.own_ne {page page' : Nat} (hσ : σ.Wf) (hpq : p ≠ q) (h : page ∈ σ.own (some p))
    (h' : page' ∈ σ.own (some q)) : page' ≠ page := by
  rintro rfl
  exact Region.total_apart (nodup_physical _) hσ.accounted (fun heq => hpq (Option.some.inj heq)) h
    (Multiset.mem_add.2 (.inr h'))

/-- Process `p` takes these steps, one after the other, and no other process takes one. -/
def Alone (p : Fin n) (σ : System n) (acts : List (Act n)) (σ' : System n) : Prop :=
  ∃ h, Run.Path System.Step σ h σ' ∧ h.map Prod.snd = acts.map (p, ·)

theorem Alone.step {σ₀ : System n} {acts : List (Act n)} {a : Act n} (h : Alone p σ₀ acts σ) (hs : σ.Step (p, a) σ') :
    Alone p σ₀ (acts ++ [a]) σ' := by
  obtain ⟨l, hp, hl⟩ := h
  refine ⟨_, hp.step hs, ?_⟩
  rw [List.map_append, List.map_append, hl]
  rfl

theorem Alone.start (ht : σ.tasks p = some t) : Alone p σ [] (σ.put p (some t) σ.mem) := by
  have hself : σ.put p (some t) σ.mem = σ := by
    unfold System.put
    rw [← ht, Function.update_eq_self]
  rw [hself]
  exact ⟨[], .start, rfl⟩

theorem System.put_put (σ : System n) (p : Fin n) (A B : Option Task) (m m' : Kmem) :
    (σ.put p A m).put p B m' = σ.put p B m' := by
  simp [System.put]

theorem put_cons (b : Bytes.Mem) (off : Nat) (x : UInt8) (data : List UInt8) :
    Bytes.put b off (x :: data) = Bytes.put (Function.update b off x) (off + 1) data := by
  have hone : Bytes.put b off [x] = Function.update b off x := by
    funext i
    by_cases hi : i = off
    · subst hi
      rw [Function.update_self]
      exact Bytes.put_inside (i := 0) rfl
    · rw [Function.update_of_ne hi, Bytes.put_outside (by simp; omega)]
  rw [← hone, ← List.singleton_append, Bytes.put_append]
  rfl

/-- The stores of a list of bytes, from an address on. -/
def stores (va : Nat) : List UInt8 → List (Act n)
  | [] => []
  | b :: data => .move (.store va b) :: stores (va + 1) data

/-- A process writes what it likes to a page that it may write. -/
theorem Alone.store {σ₀ : System n} {acts : List (Act n)} {pte : Pte} {v off : Nat} {data : List UInt8}
    (h : Alone p σ₀ acts (σ.put p (some t) m)) (hlive : t.zombie = false) (hpte : t.pgdir.pte v = some pte)
    (hpermits : pte.permits true) (hv : v < userPages) (hoff : off + data.length ≤ pgsize) :
    Alone p σ₀ (acts ++ stores (v * pgsize + off) data)
      (σ.put p (some t) (m.setBytes pte.page (Bytes.put (m.bytes pte.page) off data))) := by
  have hp : pgsize = 4096 := rfl
  have hu : userPages = 524288 := rfl
  induction data generalizing acts off m with
  | nil =>
    have hnil : Bytes.put (m.bytes pte.page) off [] = m.bytes pte.page :=
      funext fun i => Bytes.put_outside (by simp; omega)
    rw [hnil, Kmem.setBytes, Function.update_eq_self, stores, List.append_nil]
    exact h
  | cons b data ih =>
    rw [List.length_cons] at hoff
    have hdiv : (v * pgsize + off) / pgsize = v := by
      rw [hp] at hoff ⊢
      omega
    have hmod : (v * pgsize + off) % pgsize = off := by
      rw [hp] at hoff ⊢
      omega
    have htranslate : (t.proc (σ.put p (some t) m).mem).translate (v * pgsize + off) true = some pte.page := by
      simp [Proc.translate, Task.proc, hdiv, hpte, Option.filter, hpermits]
    have hva : v * pgsize + off < 2 ^ 32 := by
      rw [hp] at hoff ⊢
      omega
    have hnext := h.step (.move (System.tasks_put_self ..) hlive (.store b hva htranslate))
    rw [System.put_put, hmod] at hnext
    have hrest := ih hnext (show off + 1 + data.length ≤ pgsize by omega)
    rw [put_cons, stores, List.append_cons]
    simpa [Kmem.setBytes, Proc.poke, Task.proc, System.put, ← Nat.add_assoc] using hrest

/-! ## The system call -/

/-- A word that the kernel fetches from one page. -/
theorem fetchint_of_page {s : Proc} {pte : Pte} {v off : Nat} (hpte : s.pgdir.pte v = some pte) (hv : v < userPages)
    (hoff : off + 4 ≤ pgsize) (hsz : kernbase ≤ s.sz) :
    fetchint s (v * pgsize + off) = .ok (some (toInt (Bytes.getNat (s.mem.bytes pte.page) off 4))) := by
  have hp : pgsize = 4096 := rfl
  have hu : userPages = 524288 := rfl
  have hk : kernbase = 2147483648 := rfl
  have hend : v * pgsize + off + 4 ≤ kernbase := by
    rw [hp] at hoff ⊢
    omega
  have hbyte : ∀ i < 4, s.readByte ((v * pgsize + off + i) % 2 ^ 32) = .ok (s.mem.bytes pte.page (off + i)) := by
    intro i hi
    have hdiv : (v * pgsize + off + i) / pgsize = v := by
      rw [hp] at hoff ⊢
      omega
    have hmod : (v * pgsize + off + i) % pgsize = off + i := by
      rw [hp] at hoff ⊢
      omega
    rw [Nat.mod_eq_of_lt (by omega), Proc.readByte, hdiv, hpte, hmod]
  have hzero := hbyte 0 (by omega)
  rw [Nat.add_zero, Nat.mod_eq_of_lt (by omega)] at hzero
  unfold fetchint
  rw [if_neg (by omega), hzero, hbyte 1 (by omega), hbyte 2 (by omega), hbyte 3 (by omega)]
  simp only [bind, Except.bind]
  refine congrArg (fun x => Except.ok (some (toInt x))) ?_
  simp only [Bytes.getNat, Bytes.get, List.range_succ, List.range_zero, List.nil_append, List.cons_append, List.map_cons,
    List.map_nil, Bytes.ofLe, Nat.add_zero]
  ring

theorem getNat_put_le {b : Bytes.Mem} {off w : Nat} (hw : w < 2 ^ 32) : Bytes.getNat (Bytes.put b off (Bytes.le 4 w)) off 4 = w := by
  have hself := Bytes.get_put_self b off (Bytes.le 4 w)
  rw [Bytes.length_le] at hself
  rw [Bytes.getNat, hself, Bytes.ofLe_le, Nat.mod_eq_of_lt (by omega)]

/-- Two words that are stored one behind the other, read back. -/
theorem getNat_put_two {b : Bytes.Mem} {off w w' : Nat} (hw : w < 2 ^ 32) (hw' : w' < 2 ^ 32) :
    Bytes.getNat (Bytes.put b off (Bytes.le 4 w ++ Bytes.le 4 w')) off 4 = w ∧
      Bytes.getNat (Bytes.put b off (Bytes.le 4 w ++ Bytes.le 4 w')) (off + 4) 4 = w' := by
  rw [Bytes.put_append, Bytes.length_le]
  constructor
  · refine (Bytes.getNat_congr fun j hj => Bytes.put_outside (.inl ?_)).trans (getNat_put_le hw)
    omega
  · exact getNat_put_le hw'

theorem uint_toInt {w : Nat} (hw : w < 2 ^ 32) : uint (toInt w) = w := by
  unfold uint toInt
  have hmod : Int.bmod w (2 ^ 32) % ((2 ^ 32 : Nat) : Int) = w % ((2 ^ 32 : Nat) : Int) := Int.bmod_emod
  have hcast : ((2 ^ 32 : Nat) : Int) = 2 ^ 32 := by decide
  rw [hcast] at hmod
  rw [hmod]
  omega

/-- With its `sz` at the end of the address space and a pointer above KERNBASE on the stack, a process lets `read`
write one byte of a physical page. -/
theorem sysRead_direct {s : Proc} {pte : Pte} {v off page i : Nat} {b : UInt8} (hsz : s.sz = 2 ^ 32 - 1)
    (hd : s.pgdir.pte (userPages + page) = some ⟨page, true, false⟩) (hpage : page < phystop / pgsize) (hi : i < pgsize)
    (hpte : s.pgdir.pte v = some pte) (hv : v < userPages) (hoff : off + 16 ≤ pgsize)
    (hptr : Bytes.getNat (s.mem.bytes pte.page) (off + 8) 4 = (userPages + page) * pgsize + i)
    (hlen : Bytes.getNat (s.mem.bytes pte.page) (off + 12) 4 = 1) :
    sysRead s (v * pgsize + off) [b] = .ok (1, s.poke page i b) := by
  have hp : pgsize = 4096 := rfl
  have hu : userPages = 524288 := rfl
  have hk : kernbase = 2147483648 := rfl
  have hstop : phystop / pgsize = 57344 := rfl
  have hlow : v * pgsize + off + 16 ≤ kernbase := by
    rw [hp] at hoff ⊢
    omega
  have hargint : ∀ j : Nat, j ≤ 2 → argint s (v * pgsize + off) j =
      .ok (some (toInt (Bytes.getNat (s.mem.bytes pte.page) (off + 4 + 4 * j) 4))) := by
    intro j hj
    have haddr : uint ((v * pgsize + off : Nat) + 4 + 4 * (j : Int)) = v * pgsize + (off + 4 + 4 * j) := by
      unfold uint
      omega
    unfold argint
    rw [haddr, fetchint_of_page hpte hv (by omega) (by omega)]
  have hn : argint s (v * pgsize + off) 2 = .ok (some 1) := by
    have harg := hargint 2 (le_refl 2)
    rw [show off + 4 + 4 * 2 = off + 12 by omega, hlen] at harg
    exact harg
  have hbig : (userPages + page) * pgsize + i + 1 < 2 ^ 32 := by
    rw [hp] at hi ⊢
    omega
  have haddr : argptr s (v * pgsize + off) 1 1 = .ok (some ((userPages + page) * pgsize + i)) := by
    have harg := hargint 1 (by omega)
    rw [show off + 4 + 4 * 1 = off + 8 by omega, hptr] at harg
    have harg : argint s (v * pgsize + off) 1 = _ := harg
    generalize (userPages + page) * pgsize + i = ptr at harg hbig
    have hint := uint_toInt (w := ptr) (by omega)
    unfold argptr
    rw [harg]
    simp only [bind, Except.bind]
    rw [hint, if_neg]
    · rfl
    · unfold uint
      omega
  have hdiv : ((userPages + page) * pgsize + i) / pgsize = userPages + page := by
    rw [hp] at hi ⊢
    omega
  have hmod : ((userPages + page) * pgsize + i) % pgsize = i := by
    rw [hp] at hi ⊢
    omega
  have hfill : s.fill ((userPages + page) * pgsize + i) [b] = .ok (s.poke page i b) := by
    simp [Proc.fill, Proc.writeByte, hdiv, hmod, hd, Option.filter, bind, Except.bind]
  unfold sysRead
  rw [hn]
  simp only [bind, Except.bind]
  rw [haddr]
  simp only [Int.toNat_one, List.take_succ_cons, List.take_zero, hfill]
  rfl

end CS1550.Vm
