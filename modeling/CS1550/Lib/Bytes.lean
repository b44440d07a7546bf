/-
Memory as bytes: ranges that are read and overwritten, fixed-width little-endian integers and
NUL-terminated strings in it. A write changes its own range and nothing else (`get_splice_self`,
`get_splice_of_disjoint`); the integer and the string written are those read back.
-/
import Mathlib.Data.List.Basic
import Mathlib.Tactic.Ring

namespace CS1550.Bytes

/-- Byte-addressed memory from some base address on. -/
abbrev Mem := Nat → UInt8

/-! ## Ranges -/

/-- The `n` bytes at `off` replaced by those of `f`. -/
def splice (m : Mem) (off n : Nat) (f : Mem) : Mem := fun i => if off ≤ i ∧ i < off + n then f (i - off) else m i

/-- The `n` bytes at `off`. -/
def get (m : Mem) (off n : Nat) : List UInt8 := (List.range n).map fun i => m (off + i)

/-- The bytes of a list put at `off`. -/
def put (m : Mem) (off : Nat) (bs : List UInt8) : Mem := splice m off bs.length fun i => bs.getD i 0

/-- The memory from `off` on. -/
def shift (m : Mem) (off : Nat) : Mem := fun i => m (off + i)

theorem splice_inside {m f : Mem} {off n i : Nat} (h₁ : off ≤ i) (h₂ : i < off + n) :
    splice m off n f i = f (i - off) := if_pos ⟨h₁, h₂⟩

theorem splice_outside {m f : Mem} {off n i : Nat} (h : i < off ∨ off + n ≤ i) : splice m off n f i = m i :=
  if_neg (by omega)

theorem put_inside {m : Mem} {off i : Nat} {bs : List UInt8} {x : UInt8} (h : bs[i]? = some x) :
    put m off bs (off + i) = x := by
  obtain ⟨hi, -⟩ := List.getElem?_eq_some_iff.1 h
  rw [put, splice_inside (by omega) (by omega), Nat.add_sub_cancel_left, List.getD_eq_getElem?_getD, h]
  rfl

theorem put_outside {m : Mem} {off i : Nat} {bs : List UInt8} (h : i < off ∨ off + bs.length ≤ i) :
    put m off bs i = m i := splice_outside h

@[simp] theorem length_get (m : Mem) (off n : Nat) : (get m off n).length = n := by simp [get]

theorem getElem?_get {m : Mem} {off n i : Nat} (h : i < n) : (get m off n)[i]? = some (m (off + i)) := by
  simp [get, h]

theorem get_congr {m m' : Mem} {off off' n : Nat} (h : ∀ i < n, m (off + i) = m' (off' + i)) :
    get m off n = get m' off' n :=
  List.map_congr_left fun i hi => h i (List.mem_range.1 hi)

theorem get_put_self (m : Mem) (off : Nat) (bs : List UInt8) : get (put m off bs) off bs.length = bs := by
  apply List.ext_getElem?
  intro i
  by_cases hi : i < bs.length
  · rw [getElem?_get hi, put_inside (List.getElem?_eq_getElem hi), List.getElem?_eq_getElem hi]
  · rw [List.getElem?_eq_none (by simpa using hi), List.getElem?_eq_none (by simpa using hi)]

/-! ## Little-endian integers -/

/-- The `n` low bytes of a number. -/
def le : Nat → Nat → List UInt8
  | 0, _ => []
  | n + 1, v => UInt8.ofNat v :: le n (v / 256)

/-- The number with these bytes, the least significant one first. -/
def ofLe : List UInt8 → Nat
  | [] => 0
  | b :: bs => b.toNat + 256 * ofLe bs

@[simp] theorem length_le : ∀ n v : Nat, (le n v).length = n
  | 0, _ => rfl
  | n + 1, v => by rw [le, List.length_cons, length_le n]

theorem ofLe_le : ∀ n v : Nat, ofLe (le n v) = v % 256 ^ n
  | 0, v => by rw [pow_zero, Nat.mod_one]; rfl
  | n + 1, v => by
    have hmod : v % (256 * 256 ^ n) = v % 256 + 256 * (v / 256 % 256 ^ n) := Nat.mod_mul
    rw [pow_succ' 256 n, hmod, le, ofLe, ofLe_le n, UInt8.toNat_ofNat']

/-- An unsigned integer of `n` bytes. -/
def getNat (m : Mem) (off n : Nat) : Nat := ofLe (get m off n)

/-- A signed integer of `n` bytes, in two's complement. -/
def getInt (m : Mem) (off n : Nat) : Int := Int.bmod (getNat m off n) (256 ^ n)

/-- An integer stored in `n` bytes. -/
def putInt (m : Mem) (off n : Nat) (v : Int) : Mem := put m off (le n (v % 256 ^ n).toNat)

theorem getNat_congr {m m' : Mem} {off off' n : Nat} (h : ∀ i < n, m (off + i) = m' (off' + i)) :
    getNat m off n = getNat m' off' n := congrArg ofLe (get_congr h)

theorem getInt_congr {m m' : Mem} {off off' n : Nat} (h : ∀ i < n, m (off + i) = m' (off' + i)) :
    getInt m off n = getInt m' off' n := by rw [getInt, getInt, getNat_congr h]

theorem ofLe_replicate_zero : ∀ n : Nat, ofLe (List.replicate n 0) = 0
  | 0 => rfl
  | n + 1 => by rw [List.replicate_succ, ofLe, ofLe_replicate_zero n]; rfl

theorem getNat_of_zero {m : Mem} {off n : Nat} (h : ∀ i < n, m (off + i) = 0) : getNat m off n = 0 := by
  have hget : get m off n = List.replicate n 0 := by
    rw [get, List.eq_replicate_iff]
    refine ⟨by simp, fun b hb => ?_⟩
    obtain ⟨i, hi, rfl⟩ := List.mem_map.1 hb
    exact h i (List.mem_range.1 hi)
  rw [getNat, hget, ofLe_replicate_zero]

theorem getInt_of_zero {m : Mem} {off n : Nat} (h : ∀ i < n, m (off + i) = 0) : getInt m off n = 0 := by
  rw [getInt, getNat_of_zero h]
  exact Int.zero_bmod

theorem putInt_outside {m : Mem} {off n i : Nat} {v : Int} (h : i < off ∨ off + n ≤ i) : putInt m off n v i = m i :=
  put_outside (by simpa using h)

theorem getNat_putInt (m : Mem) (off n : Nat) (v : Int) : getNat (putInt m off n v) off n = (v % 256 ^ n).toNat := by
  have hlen := get_put_self m off (le n (v % 256 ^ n).toNat)
  rw [length_le] at hlen
  have hpos : (0 : Int) < 256 ^ n := Int.pow_pos (by decide)
  have hlt : (v % 256 ^ n).toNat < 256 ^ n := by
    have h1 := Int.emod_lt_of_pos v hpos
    have h2 := Int.emod_nonneg v hpos.ne'
    rw [Int.toNat_lt h2]
    exact_mod_cast h1
  rw [getNat, putInt, hlen, ofLe_le, Nat.mod_eq_of_lt hlt]

theorem getNat_putInt_natCast (m : Mem) (off n : Nat) {v : Nat} (h : v < 256 ^ n) :
    getNat (putInt m off n v) off n = v := by
  rw [getNat_putInt, Int.emod_eq_of_lt (by omega) (by exact_mod_cast h), Int.toNat_natCast]

theorem getInt_putInt (m : Mem) (off n : Nat) (v : Int) : getInt (putInt m off n v) off n = Int.bmod v (256 ^ n) := by
  have hpos : (256 ^ n : Int) ≠ 0 := (Int.pow_pos (by decide)).ne'
  rw [getInt, getNat_putInt, Int.toNat_of_nonneg (Int.emod_nonneg v hpos)]
  have hcast : ((256 ^ n : Nat) : Int) = 256 ^ n := by push_cast; rfl
  rw [← hcast, Int.emod_bmod]

theorem bmod_natCast_of_lt {v n : Nat} (h : 2 * v < n) : Int.bmod v n = v := by
  rw [Int.bmod_eq_of_le_mul_two] <;> omega

/-! ## Vectors of words -/

/-- `n` words of four bytes. -/
def getWords (m : Mem) (off n : Nat) : List Nat := (List.range n).map fun i => getNat m (off + 4 * i) 4

theorem put_append (m : Mem) (off : Nat) (bs cs : List UInt8) :
    put m off (bs ++ cs) = put (put m off bs) (off + bs.length) cs := by
  funext i
  simp only [put, splice, List.length_append, List.getD_eq_getElem?_getD]
  by_cases hi : off + bs.length ≤ i
  · by_cases hi' : i < off + bs.length + cs.length
    · rw [if_pos (by omega), if_pos (by omega), List.getElem?_append_right (by omega), Nat.sub_sub]
    · rw [if_neg (by omega), if_neg (by omega), if_neg (by omega)]
  · by_cases hi' : off ≤ i
    · rw [if_pos (by omega), if_neg (by omega), if_pos (by omega), List.getElem?_append_left (by omega)]
    · rw [if_neg (by omega), if_neg (by omega), if_neg (by omega)]

theorem getWords_succ (m : Mem) (off n : Nat) : getWords m off (n + 1) = getNat m off 4 :: getWords m (off + 4) n := by
  rw [getWords, List.range_succ_eq_map, List.map_cons, List.map_map, getWords]
  congr 1
  refine List.map_congr_left fun i _ => ?_
  show getNat m (off + 4 * (i + 1)) 4 = getNat m (off + 4 + 4 * i) 4
  congr 1
  omega

/-- The words of a vector read back. -/
theorem getWords_put (m : Mem) (off : Nat) (ws : List Nat) (h : ∀ w ∈ ws, w < 256 ^ 4) :
    getWords (put m off (ws.flatMap (le 4))) off ws.length = ws := by
  induction ws generalizing m off with
  | nil => rfl
  | cons w ws ih =>
    obtain ⟨hw, hws⟩ := List.forall_mem_cons.1 h
    rw [List.flatMap_cons, put_append, length_le, List.length_cons, getWords_succ, ih _ _ hws]
    have hfirst : getNat (put (put m off (le 4 w)) (off + 4) (ws.flatMap (le 4))) off 4 = getNat (put m off (le 4 w)) off 4 :=
      getNat_congr fun i hi => put_outside (.inl (by omega))
    have hget := get_put_self m off (le 4 w)
    rw [length_le] at hget
    rw [hfirst, getNat, hget, ofLe_le, Nat.mod_eq_of_lt hw]

/-! ## Strings -/

/-- No byte is 0. -/
def NulFree (s : List UInt8) : Prop := (0 : UInt8) ∉ s

instance (s : List UInt8) : Decidable (NulFree s) := inferInstanceAs (Decidable (_ ∉ _))

/-- The NUL-terminated string at `off` is `s`. -/
structure CStr (m : Mem) (off : Nat) (s : List UInt8) : Prop where
  nulFree : NulFree s
  bytes : get m off (s.length + 1) = s ++ [0]

/-- `strcpy` -/
def strcpy (m : Mem) (off : Nat) (s : List UInt8) : Mem := put m off (s ++ [0])

/-- `strcmp` of the string at `off` with `s` gives 0. -/
def strEq (m : Mem) : Nat → List UInt8 → Bool
  | off, [] => m off == 0
  | off, c :: cs => m off == c && strEq m (off + 1) cs

/-- The string at `off`, cut off after `limit` bytes. -/
def readStr (m : Mem) : (limit off : Nat) → List UInt8
  | 0, _ => []
  | limit + 1, off => if m off = 0 then [] else m off :: readStr m limit (off + 1)

theorem CStr.congr {m m' : Mem} {off off' : Nat} {s : List UInt8} (hs : CStr m off s)
    (h : ∀ i, i ≤ s.length → m' (off' + i) = m (off + i)) : CStr m' off' s :=
  ⟨hs.nulFree, by rw [get_congr fun i hi => h i (by omega), hs.bytes]⟩

theorem cstr_strcpy (m : Mem) (off : Nat) {s : List UInt8} (hs : NulFree s) : CStr (strcpy m off s) off s := by
  have h := get_put_self m off (s ++ [0])
  rw [List.length_append, List.length_singleton] at h
  exact ⟨hs, h⟩

theorem strcpy_outside {m : Mem} {off i : Nat} {s : List UInt8} (h : i < off ∨ off + s.length + 1 ≤ i) :
    strcpy m off s i = m i := put_outside (by simp; omega)

theorem cstr_nil {m : Mem} {off : Nat} : CStr m off [] ↔ m off = 0 := by
  constructor
  · intro h
    simpa [get] using h.bytes
  · intro h
    exact ⟨by simp [NulFree], by simp [get, h]⟩

theorem cstr_cons {m : Mem} {off : Nat} {c : UInt8} {s : List UInt8} :
    CStr m off (c :: s) ↔ m off = c ∧ c ≠ 0 ∧ CStr m (off + 1) s := by
  have hget : get m off ((c :: s).length + 1) = m off :: get m (off + 1) (s.length + 1) := by
    rw [List.length_cons, get, List.range_succ_eq_map, List.map_cons, List.map_map, Nat.add_zero, get]
    exact congrArg _ (List.map_congr_left fun i _ => congrArg m (by simp; omega))
  constructor
  · rintro ⟨hn, hb⟩
    rw [hget, List.cons_append, List.cons.injEq] at hb
    rw [NulFree, List.mem_cons, not_or] at hn
    exact ⟨hb.1, Ne.symm hn.1, hn.2, hb.2⟩
  · rintro ⟨rfl, hc, hn, hb⟩
    refine ⟨?_, by rw [hget, hb, List.cons_append]⟩
    rw [NulFree, List.mem_cons, not_or]
    exact ⟨Ne.symm hc, hn⟩

/-- Comparing with the string stored is comparing the strings. -/
theorem CStr.strEq {m : Mem} : ∀ {s t : List UInt8} {off : Nat}, CStr m off s → NulFree t →
    (strEq m off t = true ↔ s = t)
  | [], [], off, h, _ => by simp [Bytes.strEq, cstr_nil.1 h]
  | [], c :: t, off, h, ht => by
    have hc : (0 : UInt8) ≠ c := fun h0 => ht (by simp [h0])
    simp [Bytes.strEq, cstr_nil.1 h, hc]
  | c :: s, [], off, h, _ => by
    obtain ⟨hm, hc, -⟩ := cstr_cons.1 h
    simp [Bytes.strEq, hm, hc]
  | c :: s, d :: t, off, h, ht => by
    obtain ⟨hm, -, hs⟩ := cstr_cons.1 h
    have ih := CStr.strEq hs (t := t) fun h0 => ht (List.mem_cons_of_mem _ h0)
    simp [Bytes.strEq, hm, ih]

theorem strEq_iff {m : Mem} : ∀ {t : List UInt8} {off : Nat}, NulFree t → (strEq m off t = true ↔ CStr m off t)
  | [], off, _ => by rw [strEq, beq_iff_eq, cstr_nil]
  | c :: t, off, ht => by
    rw [NulFree, List.mem_cons, not_or] at ht
    rw [strEq, Bool.and_eq_true, beq_iff_eq, cstr_cons, strEq_iff ht.2]
    exact and_congr_right fun _ => (and_iff_right (Ne.symm ht.1)).symm

theorem CStr.unique {m : Mem} {off : Nat} {s t : List UInt8} (hs : CStr m off s) (ht : CStr m off t) : s = t :=
  (hs.strEq ht.nulFree).1 ((ht.strEq ht.nulFree).2 rfl)

/-- There are strings longer than those at finitely many places. -/
theorem exists_longer (m : Mem) (off : Nat → Nat) (n : Nat) :
    ∃ k, ∀ i < n, ∀ s, CStr m (off i) s → s.length < k := by
  induction n with
  | zero => exact ⟨0, fun i hi => absurd hi (Nat.not_lt_zero i)⟩
  | succ n ih =>
    obtain ⟨k, hk⟩ := ih
    by_cases hn : ∃ s, CStr m (off n) s
    · obtain ⟨s, hs⟩ := hn
      refine ⟨max k (s.length + 1), fun i hi t ht => ?_⟩
      rcases Nat.lt_succ_iff_lt_or_eq.1 hi with hlt | rfl
      · exact lt_of_lt_of_le (hk i hlt t ht) (le_max_left _ _)
      · rw [ht.unique hs]
        exact lt_of_lt_of_le (Nat.lt_succ_self _) (le_max_right _ _)
    · refine ⟨k, fun i hi t ht => ?_⟩
      rcases Nat.lt_succ_iff_lt_or_eq.1 hi with hlt | rfl
      · exact hk i hlt t ht
      · exact absurd ⟨t, ht⟩ hn

/-- The string stored is the one read. -/
theorem CStr.readStr {m : Mem} : ∀ {s : List UInt8} {limit off : Nat}, CStr m off s → s.length < limit →
    readStr m limit off = s
  | [], limit + 1, off, h, _ => by simp [Bytes.readStr, cstr_nil.1 h]
  | c :: s, limit + 1, off, h, hlt => by
    obtain ⟨hm, hc, hs⟩ := cstr_cons.1 h
    rw [Bytes.readStr, hm, if_neg hc, hs.readStr (by simpa using hlt)]

end CS1550.Bytes
