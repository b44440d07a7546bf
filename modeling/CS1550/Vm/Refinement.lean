/-
Allocation on demand against eager allocation. The eager manager has a page for every page below `sz`; the other
one has some of these pages, and the missing ones are pages of zeros in waiting. That is so as long as growth
stays below KERNBASE and does not take in a page that is still mapped from before a shrink, shrinking leaves
something, and no access goes behind the last page (`Covered`). Both managers then answer alike
(`onDemand_refines_eager`).
-/
import CS1550.Lib.Run
import CS1550.Vm.Process

namespace CS1550.Vm

/-! ## The conditions -/

/-- An access to one of the pages below `sz`, which permits it if it is present. -/
def CoveredAccess (s : Proc) (va : Nat) (write : Bool) : Prop :=
  va / pgsize < pgroundup s.sz ∧ (s.pgdir.pte (va / pgsize)).all (·.permits write)

/-- What the manager on demand does as the eager one does. -/
def Covered (s : Proc) : Op → Prop
  | .sbrk n =>
    (0 < n → s.sz + n < kernbase ∧ ∀ v < pgroundup (uint (s.sz + n)), pgroundup s.sz ≤ v → s.pgdir.pte v = none) ∧
    (n < 0 → 0 < s.sz + n)
  | .load va => CoveredAccess s va false
  | .store va _ => CoveredAccess s va true

/-- The free list has the pages that a fault asks for. -/
def FaultMemory (s : Proc) : Op → Prop
  | .sbrk _ => True
  | .load va | .store va _ =>
    s.pgdir.pte (va / pgsize) = none → needs s.pgdir (va / pgsize) 1 ≤ s.mem.freelist.length

/-- The free list has the pages that a growth asks for. -/
def GrowthMemory (s : Proc) : Op → Prop
  | .sbrk n => 0 < n →
    needs s.pgdir (pgroundup s.sz) (pgroundup (uint (s.sz + n)) - pgroundup s.sz) ≤ s.mem.freelist.length
  | .load _ | .store _ _ => True

instance (s : Proc) : (op : Op) → Decidable (Covered s op)
  | .sbrk _ => inferInstanceAs (Decidable (_ ∧ _))
  | .load _ => inferInstanceAs (Decidable (_ ∧ _))
  | .store _ _ => inferInstanceAs (Decidable (_ ∧ _))

instance (s : Proc) : (op : Op) → Decidable (FaultMemory s op)
  | .sbrk _ => isTrue trivial
  | .load _ => inferInstanceAs (Decidable (_ → _))
  | .store _ _ => inferInstanceAs (Decidable (_ → _))

instance (s : Proc) : (op : Op) → Decidable (GrowthMemory s op)
  | .sbrk _ => inferInstanceAs (Decidable (_ → _))
  | .load _ => isTrue trivial
  | .store _ _ => isTrue trivial

/-! ## The simulation -/

/-- The eager process `e` has what the process `s` has below `sz`, with pages of zeros in the gaps. -/
structure Filled (s e : Proc) : Prop where
  sz : e.sz = s.sz
  below : s.sz < kernbase
  owned : Owned s.pgdir s.mem
  eagerOwned : Owned e.pgdir e.mem
  filled : ∀ v < userPages, e.at v = if v < pgroundup s.sz then some ((s.at v).getD .zeroed) else none

variable {s s' e e' : Proc} {v va : Nat} {write : Bool} {n : Int}

theorem Started.filled (h : Started s) : Filled s s := by
  refine ⟨rfl, h.below, h.owned, h.owned, fun v hv => ?_⟩
  have hmapped := h.mapped v hv
  cases hp : s.pgdir.pte v with
  | none =>
    rw [if_neg (by simpa [hp] using hmapped)]
    simp [Proc.at, view, hp]
  | some pte =>
    rw [if_pos (by simpa [hp] using hmapped)]
    simp [Proc.at, view, hp]

/-- The manager on demand gets to a page below `sz`. -/
theorem Filled.reach (h : Filled s e) (hc : CoveredAccess s va write)
    (hm : s.pgdir.pte (va / pgsize) = none → needs s.pgdir (va / pgsize) 1 ≤ s.mem.freelist.length) :
    ∃ pte s', onDemand.reach s va write = .ok (pte.page, s') ∧ s'.sz = s.sz ∧
      s'.pgdir.pte (va / pgsize) = some pte ∧ pte.permits write ∧ Filled s' e := by
  obtain ⟨hlt, hperm⟩ := hc
  cases hp : s.pgdir.pte (va / pgsize) with
  | some pte =>
    have hpte : pte.permits write = true := by simpa [hp] using hperm
    have htrans : s.translate va write = some pte.page := by simp [Proc.translate, hp, Option.filter, hpte]
    refine ⟨pte, s, ?_, rfl, hp, hpte, h⟩
    unfold Manager.reach
    rw [htrans]
  | none =>
    have htrans : s.translate va write = none := by simp [Proc.translate, hp]
    obtain ⟨s', htrap, hsz, ho', -, hview⟩ := trap_of_enough h.owned hp (hm hp)
    have huser : va / pgsize < userPages := hlt.trans_le (pgroundup_le h.below.le)
    have hat : s'.at (va / pgsize) = some .zeroed := by rw [hview _ huser, Function.update_self]
    have hzero : Content.zeroed.permits write := rfl
    obtain ⟨pte, hpte, htrans', -⟩ := translate_of_at hat hzero
    have hperm' : pte.permits write := by
      obtain ⟨pte', hpte', hc⟩ := Option.map_eq_some_iff.1 hat
      cases hpte.symm.trans hpte'
      show Content.permits ⟨pte.w, pte.u, s'.mem.bytes pte.page⟩ write
      rw [hc]
      exact hzero
    refine ⟨pte, s', ?_, hsz, hpte, hperm', h.sz.trans hsz.symm, hsz ▸ h.below, ho', h.eagerOwned, fun v hv => ?_⟩
    · unfold Manager.reach
      rw [htrans]
      refine bind_ok.2 ⟨s', ?_, ?_⟩
      · show (trap s va).mapError _ = _
        rw [htrap]
        rfl
      · rw [htrans']
        rfl
    · rw [h.filled v hv, hsz, hview v hv]
      by_cases hvv : v = va / pgsize
      · subst hvv
        simp [Proc.at, view, hp]
      · rw [Function.update_of_ne hvv]

/-- The eager manager has the page. -/
theorem Filled.eager_reach {pte : Pte} (h : Filled s e) (hlt : va / pgsize < pgroundup s.sz)
    (hpte : s.pgdir.pte (va / pgsize) = some pte) (hperm : pte.permits write) :
    ∃ pte', eager.reach e va write = .ok (pte'.page, e) ∧ e.pgdir.pte (va / pgsize) = some pte' ∧
      e.mem.bytes pte'.page = s.mem.bytes pte.page := by
  have huser : va / pgsize < userPages := hlt.trans_le (pgroundup_le h.below.le)
  have hat : e.at (va / pgsize) = some ⟨pte.w, pte.u, s.mem.bytes pte.page⟩ := by
    rw [h.filled _ huser, if_pos hlt]
    simp [Proc.at, view, hpte]
  obtain ⟨pte', hpte', htrans, hbytes⟩ := translate_of_at hat hperm
  refine ⟨pte', ?_, hpte', hbytes⟩
  unfold Manager.reach
  rw [htrans]

/-- Both `sbrk` return the old size, and the gaps stay filled. -/
theorem Filled.sbrk (h : Filled s e) (hc : Covered s (.sbrk n)) (hm : GrowthMemory e (.sbrk n)) :
    ∃ e', sysSbrkGrowproc e n = .ok (toInt s.sz, e') ∧ Filled { s with sz := uint (s.sz + n) } e' := by
  obtain ⟨hgrow, hshrink⟩ := hc
  have hbelow := h.below
  rcases lt_trichotomy n 0 with hn | rfl | hn
  · -- The pages behind the new size are gone from the eager process only.
    have hpos := hshrink hn
    have hsize := uint_of_lt hpos.le (by omega)
    obtain ⟨e', hrun, hsz, ho, hat⟩ := sbrk_shrink h.eagerOwned (h.sz ▸ hbelow) hn (h.sz ▸ hpos)
    rw [h.sz] at hrun hsz hat
    refine ⟨e', hrun, hsz, ?_, h.owned, ho, fun v hv => ?_⟩
    · show uint (s.sz + n) < kernbase
      omega
    · have hmono : pgroundup (uint (s.sz + n)) ≤ pgroundup s.sz := pgroundup_mono (by omega) hbelow.le
      show e'.at v = if v < pgroundup (uint (s.sz + n)) then some ((s.at v).getD .zeroed) else none
      rw [hat v hv, h.filled v hv]
      split_ifs <;> first | rfl | omega
  · refine ⟨e, ?_, ?_⟩
    · rw [← h.sz]
      exact sysSbrkGrowproc_of_growproc rfl
    · have hsame : uint (s.sz + 0) = s.sz := by
        have hsize := uint_of_lt (x := s.sz + 0) (by omega) (by omega)
        omega
      rw [hsame]
      exact h
  · obtain ⟨hlt, hnone⟩ := hgrow hn
    have hsize := uint_of_lt (by omega) hlt
    have hmono : pgroundup s.sz ≤ pgroundup (uint (s.sz + n)) := pgroundup_mono (by omega) (by omega)
    have hgap : ∀ v, pgroundup e.sz ≤ v → v < pgroundup (uint (e.sz + n)) → e.pgdir.pte v = none := by
      intro v hv hv'
      rw [h.sz] at hv hv'
      have huser : v < userPages := hv'.trans_le (pgroundup_le (by omega))
      have hat := h.filled v huser
      rw [if_neg (by omega)] at hat
      exact view_eq_none.1 hat
    obtain ⟨e', hrun, hsz, ho, hat⟩ := sbrk_grow h.eagerOwned hn (h.sz ▸ hlt) hgap (hm hn)
    rw [h.sz] at hrun hsz hat
    refine ⟨e', hrun, hsz, ?_, h.owned, ho, fun v hv => ?_⟩
    · show uint (s.sz + n) < kernbase
      omega
    · show e'.at v = if v < pgroundup (uint (s.sz + n)) then some ((s.at v).getD .zeroed) else none
      rw [hat v hv, h.filled v hv]
      by_cases hnew : pgroundup s.sz ≤ v ∧ v < pgroundup (uint (s.sz + n))
      · -- A page that growth takes in: it is not there in `s`.
        have habsent : s.at v = none := view_eq_none.2 (hnone v hnew.2 hnew.1)
        rw [if_pos hnew, if_pos hnew.2, habsent]
        rfl
      · rw [if_neg hnew]
        split_ifs <;> first | rfl | omega

theorem Filled.poke {pte pte' : Pte} {i : Nat} {b : UInt8} (h : Filled s e) (hlt : v < pgroundup s.sz)
    (hpte : s.pgdir.pte v = some pte) (hpte' : e.pgdir.pte v = some pte') :
    Filled (s.poke pte.page i b) (e.poke pte'.page i b) := by
  have huser : v < userPages := hlt.trans_le (pgroundup_le h.below.le)
  obtain ⟨ho, hat⟩ := at_poke (i := i) (b := b) h.owned huser hpte
  obtain ⟨ho', hat'⟩ := at_poke (i := i) (b := b) h.eagerOwned huser hpte'
  refine ⟨h.sz, h.below, ho, ho', fun v' hv' => ?_⟩
  show _ = if v' < pgroundup s.sz then _ else _
  rw [hat' v' hv', hat v' hv']
  by_cases hvv : v' = v
  · subst hvv
    rw [Function.update_self, Function.update_self, h.filled v' hv', if_pos hlt, if_pos hlt]
    simp [Proc.at, view, hpte]
  · rw [Function.update_of_ne hvv, Function.update_of_ne hvv]
    exact h.filled v' hv'

/-- One operation: the same answer, and the gaps stay filled. -/
theorem Filled.step (h : Filled s e) (op : Op) (hc : Covered s op) (hm : FaultMemory s op) (hm' : GrowthMemory e op) :
    ∃ o s' e', onDemand.step s op = .ok (o, s') ∧ eager.step e op = .ok (o, e') ∧ Filled s' e' := by
  cases op with
  | sbrk n =>
    obtain ⟨e', hrun, hfilled⟩ := h.sbrk hc hm'
    refine ⟨.returned (toInt s.sz), _, e', rfl, ?_, hfilled⟩
    refine bind_ok.2 ⟨(toInt s.sz, e'), ?_, rfl⟩
    show (sysSbrkGrowproc e n).mapError _ = _
    rw [hrun]
    rfl
  | load va =>
    obtain ⟨pte, s', hreach, hsz, hpte, hperm, hfilled⟩ := h.reach hc hm
    obtain ⟨pte', hreach', -, hbytes⟩ := hfilled.eager_reach (hsz ▸ hc.1) hpte hperm
    refine ⟨.loaded (s'.mem.bytes pte.page (va % pgsize)), s', e, bind_ok.2 ⟨_, hreach, rfl⟩, ?_, hfilled⟩
    rw [← hbytes]
    exact bind_ok.2 ⟨_, hreach', rfl⟩
  | store va b =>
    obtain ⟨pte, s', hreach, hsz, hpte, hperm, hfilled⟩ := h.reach hc hm
    obtain ⟨pte', hreach', hpte', -⟩ := hfilled.eager_reach (hsz ▸ hc.1) hpte hperm
    exact ⟨.stored, _, _, bind_ok.2 ⟨_, hreach, rfl⟩, bind_ok.2 ⟨_, hreach', rfl⟩,
      hfilled.poke (hsz ▸ hc.1) hpte hpte'⟩

/-- From a process that has exactly the pages below `sz`, both managers give the same answers: to every sequence
of operations that are covered, with the physical memory that they ask for. -/
theorem onDemand_refines_eager (hs : Started s) (ops : List Op)
    (hcovered : ∀ x ∈ Run.history onDemand.step s ops, Covered x.1 x.2)
    (hfault : ∀ x ∈ Run.history onDemand.step s ops, FaultMemory x.1 x.2)
    (hgrowth : ∀ x ∈ Run.history eager.step s ops, GrowthMemory x.1 x.2) :
    Run.transcript onDemand.step s ops = Run.transcript eager.step s ops := by
  refine Run.transcript_eq (R := Filled) (fun s op => Covered s op ∧ FaultMemory s op) GrowthMemory ?_ hs.filled ops
    (fun x hx => ⟨hcovered x hx, hfault x hx⟩) hgrowth
  rintro s e op h ⟨hc, hm⟩ hm'
  exact h.step op hc hm hm'

/-- A process with one page, and memory for three more. -/
def onePage : Proc where
  pgdir := ⟨1024, fun i => if i = 0 then some ⟨1025, fun j => if j = 0 then some ⟨1026, true, true⟩ else none⟩ else none⟩
  sz := 4096
  mem := ⟨default, [1027, 1028, 1029], fun _ _ => 0⟩

theorem pte_onePage (v : Nat) : onePage.pgdir.pte v = if v = 0 then some ⟨1026, true, true⟩ else none := by
  by_cases hv : v / 1024 = 0
  · have hmod : v % 1024 = v := by omega
    simp [onePage, Pgdir.pte, hv, hmod]
  · have hne : v ≠ 0 := by omega
    simp [onePage, Pgdir.pte, hv, hne]

theorem held_onePage {x : Holder} {p : Nat} (h : onePage.pgdir.held x = some p) :
    x = .dir ∧ p = 1024 ∨ x = .table 0 ∧ p = 1025 ∨ x = .user 0 ∧ p = 1026 := by
  cases x with
  | dir => exact .inl ⟨rfl, (Option.some.inj h).symm⟩
  | table i =>
    by_cases hi : i = 0
    · subst hi
      exact .inr (.inl ⟨rfl, (Option.some.inj h).symm⟩)
    · simp [Pgdir.held, onePage, hi] at h
  | user v =>
    simp only [Pgdir.held, pte_onePage] at h
    by_cases hv : v = 0
    · subst hv
      exact .inr (.inr ⟨rfl, (Option.some.inj h).symm⟩)
    · simp [hv] at h

theorem started_onePage : Started onePage where
  owned := {
    nodup := by decide
    valid_free := by decide
    valid_held := by
      intro x p h
      obtain ⟨-, rfl⟩ | ⟨-, rfl⟩ | ⟨-, rfl⟩ := held_onePage h <;> decide
    apart := by
      intro x p h
      obtain ⟨-, rfl⟩ | ⟨-, rfl⟩ | ⟨-, rfl⟩ := held_onePage h <;> decide
    inj := by
      intro x y p hx hy
      obtain ⟨rfl, rfl⟩ | ⟨rfl, rfl⟩ | ⟨rfl, rfl⟩ := held_onePage hx <;>
        obtain ⟨rfl, h⟩ | ⟨rfl, h⟩ | ⟨rfl, h⟩ := held_onePage hy <;> first | rfl | cases h }
  below := by decide
  mapped v _ := by
    have hone : pgroundup onePage.sz = 1 := rfl
    rw [pte_onePage, hone]
    by_cases hv : v = 0
    · simp [hv]
    · simp [hv]

/-- Growing by a page, using it and giving it back. -/
theorem onDemand_refines_eager_onePage :
    Run.transcript onDemand.step onePage [.sbrk 4096, .store 4096 7, .load 4096, .load 4097, .sbrk (-4096), .sbrk 0] =
      Run.transcript eager.step onePage [.sbrk 4096, .store 4096 7, .load 4096, .load 4097, .sbrk (-4096), .sbrk 0] :=
  onDemand_refines_eager started_onePage _ (by decide +kernel) (by decide +kernel) (by decide +kernel)

/-- An access behind `sz` is not the end of the process, and a page that was given back comes again with what was
stored there. -/
theorem stale_page_loaded : Started onePage ∧
    (∀ ops ∈ [[.load 4096], [.sbrk 4096, .store 4096 7, .sbrk (-4096), .sbrk 4096, .load 4096]],
      (∀ x ∈ Run.history onDemand.step onePage ops, FaultMemory x.1 x.2) ∧
      (∀ x ∈ Run.history eager.step onePage ops, GrowthMemory x.1 x.2)) ∧
    Run.transcript onDemand.step onePage [.load 4096] = [.ok (.loaded 0)] ∧
    Run.transcript eager.step onePage [.load 4096] = [.error .killed] ∧
    (Run.transcript onDemand.step onePage [.sbrk 4096, .store 4096 7, .sbrk (-4096), .sbrk 4096, .load 4096])[4]? =
      some (.ok (.loaded 7)) ∧
    (Run.transcript eager.step onePage [.sbrk 4096, .store 4096 7, .sbrk (-4096), .sbrk 4096, .load 4096])[4]? =
      some (.ok (.loaded 0)) :=
  ⟨started_onePage, by decide +kernel, by decide +kernel, by decide +kernel, by decide +kernel, by decide +kernel⟩

end CS1550.Vm
