/-
What a request leaves alone. A request that hands out a block marks it (`Marked`) and writes blocks back
one at a time (`Written`); the parts of the representation that lie in other blocks are kept, and the new
block is the only one that gets a new place (`Rep.grow`).
-/
import CS1550.Fs.Lookup

namespace CS1550.Fs

open Bytes

variable {N : Nat} {v : Volume} {t : Tree} {d d' : Disk}

/-! ## One directory changed -/

theorem Tree.modify_some {i i' used : Nat} {g : List File → List File} {D' : Directory}
    (h : (t.modify i g used).dirs[i']? = some D') :
    (i' = i ∧ ∃ D, t.dirs[i]? = some D ∧ D' = { D with files := g D.files }) ∨ (i' ≠ i ∧ t.dirs[i']? = some D') := by
  rw [Tree.modify, List.getElem?_modify] at h
  obtain ⟨D, hD, hD'⟩ := Option.map_eq_some_iff.1 h
  by_cases hi : i = i'
  · subst hi
    rw [if_pos rfl] at hD'
    exact .inl ⟨rfl, D, hD, hD'.symm⟩
  · rw [if_neg hi] at hD'
    exact .inr ⟨Ne.symm hi, hD' ▸ hD⟩

theorem Tree.modify_self {i used : Nat} {g : List File → List File} {D : Directory} (hD : t.dirs[i]? = some D) :
    (t.modify i g used).dirs[i]? = some { D with files := g D.files } := by
  rw [Tree.modify, List.getElem?_modify, hD]
  simp

theorem Tree.blockAt_modify_dir {i i' used : Nat} {g : List File → List File} :
    (t.modify i g used).blockAt (.dir i') = t.blockAt (.dir i') := by
  rw [Tree.blockAt, Tree.blockAt, Tree.modify, List.getElem?_modify]
  cases t.dirs[i']? with
  | none => rfl
  | some D =>
    simp only [Option.map_eq_map, Option.map_some]
    split <;> rfl

theorem Tree.blockAt_data_some {i j n b : Nat} (h : t.blockAt (.data i j n) = some b) :
    ∃ D f, t.dirs[i]? = some D ∧ D.files[j]? = some f ∧ f.chain[n]? = some b := by
  obtain ⟨D, hD, h⟩ := Option.bind_eq_some_iff.1 h
  obtain ⟨f, hf, h⟩ := Option.bind_eq_some_iff.1 h
  exact ⟨D, f, hD, hf, h⟩

/-- The root does not depend on the files of the directories. -/
theorem holds_modify {m : Mem} {i used : Nat} {g : List File → List File}
    (h : Holds dirCodec maxDirsInRoot m t.dirs) : Holds dirCodec maxDirsInRoot m (t.modify i g used).dirs where
  count := by rw [h.count, Tree.modify, List.length_modify]
  length_le := by rw [Tree.modify, List.length_modify]; exact h.length_le
  entry i' D' hD' := by
    rcases Tree.modify_some hD' with ⟨rfl, D, hD, rfl⟩ | ⟨-, hold⟩
    · obtain ⟨h1, h2, h3⟩ := h.entry _ D hD
      exact ⟨h1, h2, h3⟩
    · exact h.entry i' D' hold

/-! ## Blocks -/

/-- The images have the same contents in a block. -/
def SameBlock (d d' : Disk) (b : Nat) : Prop := ∀ i < blockSize, d'.block b i = d.block b i

theorem next_congr {b : Nat} (h : SameBlock d d' b) : next (d'.block b) = next (d.block b) :=
  getInt_congr fun i hi => h _ (by simp only [maxDataInBlock, blockSize]; omega)

/-- The link that was stored in a block. -/
theorem next_of_putInt {m m' : Mem} {b : Nat} (hb : b < 2 ^ 63)
    (h : ∀ i < 8, m (maxDataInBlock + i) = putInt m' maxDataInBlock 8 b (maxDataInBlock + i)) : next m = b := by
  rw [next, ← bmod_natCast_of_lt (v := b) (n := 256 ^ 8) (by omega), ← getInt_putInt m' maxDataInBlock 8 b]
  exact getInt_congr h

theorem Chained.congr {f : File} (hf : Chained d f) (h : ∀ b ∈ f.chain, SameBlock d d' b) : Chained d' f where
  nonempty := hf.nonempty
  enough := hf.enough
  linked n b hb := by rw [next_congr (h b (List.mem_of_getElem? hb)), hf.linked n b hb]
  data p x hx := by
    obtain ⟨b, hb, rfl⟩ := hf.data p x hx
    refine ⟨b, hb, h b (List.mem_of_getElem? hb) _ ?_⟩
    simp only [maxDataInBlock, blockSize]
    omega

theorem holds_root_congr {es : List Directory} {b : Nat} (hs : Holds dirCodec maxDirsInRoot (d.block b) es)
    (h : SameBlock d d' b) : Holds dirCodec maxDirsInRoot (d'.block b) es :=
  hs.congr fun i hi => h i (lt_of_lt_of_le hi (by decide))

theorem holds_directory_congr {es : List File} {b : Nat} (hs : Holds fileCodec maxFilesInDir (d.block b) es)
    (h : SameBlock d d' b) : Holds fileCodec maxFilesInDir (d'.block b) es :=
  hs.congr fun i hi => h i (lt_of_lt_of_le hi (by decide))

/-- The bytes of a block in front of the bitmap. -/
theorem Rep.block_le (h : Rep N v t) {b : Nat} (hb : b + bitmapSizeInBlocks < N) :
    blockSize * (b + 1) + bitmapBytes ≤ v.disk.size := by
  rw [h.size]
  simp only [bitmapBytes, blockSize, bitmapSizeInBlocks] at hb ⊢
  omega

/-- A block with a place is in front of the bitmap. -/
theorem Rep.place_lt (h : Rep N v t) {p : Place} {b : Nat} (hb : t.blockAt p = some b) : b + bitmapSizeInBlocks < N := by
  have h1 := (h.within p b hb).2
  have h2 := h.room
  omega

theorem Rep.dir_block (h : Rep N v t) {i : Nat} {D : Directory} (hD : t.dirs[i]? = some D) :
    1 ≤ D.block ∧ D.block ≤ t.used := h.within _ _ (Tree.blockAt_dir hD)

theorem Rep.chain_block (h : Rep N v t) {i j b : Nat} {D : Directory} {f : File} (hD : t.dirs[i]? = some D)
    (hf : D.files[j]? = some f) (hb : b ∈ f.chain) : ∃ n, t.blockAt (.data i j n) = some b ∧ 1 ≤ b ∧ b ≤ t.used := by
  obtain ⟨n, hn⟩ := List.getElem?_of_mem hb
  have hp := Tree.blockAt_data hD hf hn
  exact ⟨n, hp, h.within _ _ hp⟩

/-- Blocks with different places are different. -/
theorem Rep.ne_of_place (h : Rep N v t) {p q : Place} {b c : Nat} (hp : t.blockAt p = some b)
    (hq : t.blockAt q = some c) (hpq : p ≠ q) : b ≠ c := by
  rintro rfl
  exact hpq (h.apart p q b hp hq)

/-- A request that at most gives one place the block handed out next, and no other place a new block. -/
theorem Rep.grow (h : Rep N v t) (t' : Tree) (p₀ : Place) (hused : t.used ≤ t'.used)
    (hat : ∀ p b, t'.blockAt p = some b → t.blockAt p = some b ∨ p = p₀ ∧ b = t.used + 1 ∧ b ≤ t'.used) :
    (∀ p b, t'.blockAt p = some b → 1 ≤ b ∧ b ≤ t'.used) ∧
      ∀ p q b, t'.blockAt p = some b → t'.blockAt q = some b → p = q := by
  constructor
  · intro p b hb
    rcases hat p b hb with hold | ⟨-, rfl, hle⟩
    · have := h.within p b hold
      omega
    · omega
  · intro p q b hp hq
    rcases hat p b hp with hp | ⟨hp, hb, -⟩ <;> rcases hat q b hq with hq | ⟨hq, hb', -⟩
    · exact h.apart p q b hp hq
    · have := (h.within p b hp).2
      omega
    · have := (h.within q b hq).2
      omega
    · rw [hp, hq]

theorem taken_writeBlock {b i : Nat} {block : Mem} (h : blockSize * (b + 1) + bitmapBytes ≤ d.size) :
    (d.writeBlock b block).taken i = d.taken i := by
  rw [Disk.taken, bit_writeBlock h, Disk.taken]

theorem taken_mark {stack : UInt8} {n i : Nat} (hn : n < bitmapBits) (hd : bitmapBytes ≤ d.size) :
    (d.mark stack n).taken i = (decide (i = n) || d.taken i) := by
  rw [Disk.taken, bit_mark hn hd, Disk.taken]
  by_cases hi : i = n
  · simp [hi, hn]
  · simp [hi]

/-- A block in front of the bitmap of an image of `N` blocks, for which the bitmap has a bit. -/
structure InFront (N : Nat) (b : Int) : Prop where
  below : b + bitmapSizeInBlocks < N
  bit : b < bitmapBits

theorem InFront.lt {b : Nat} (h : InFront N b) : b + bitmapSizeInBlocks < N := by exact_mod_cast h.below

/-- Every directory has room for its files. -/
def FilesWithin (v : Volume) : Prop :=
  ∀ i : Nat, i < (nDirectories (v.disk.block 0)).toNat →
    nFiles (v.disk.block (dirStartBlock (v.disk.block 0) i).toNat) ≤ maxFilesInDir

/-- No directory of the tree has more files than a directory block has room for. -/
def Tree.Fits (t : Tree) : Prop := ∀ D ∈ t.dirs, D.files.length ≤ maxFilesInDir

/-- The request returns what it returns on the tree, and leaves an image that represents what it leaves of
the tree, as long as that has room. -/
structure Refines (N : Nat) (p : Req Int) (v : Volume) (r : Int × Tree) (v' : Volume) : Prop where
  yields : machine.Yields p v r.1 v'
  refused : r.1 < 0 → v' = v
  cursor : v'.cursor = (max 1 r.2.used : Nat)
  rep : InFront N v'.cursor → FilesWithin v' ∨ r.2.Fits → Rep N v' r.2

theorem Rep.refuse (h : Rep N v t) {p : Req Int} {e : Int} (hy : machine.Yields p v e v) : Refines N p v (e, t) v :=
  ⟨hy, fun _ => rfl, h.cursor, fun _ _ => h⟩

/-- The image after the block handed out next is marked. -/
structure Marked (N : Nat) (v : Volume) (t : Tree) (d' : Disk) : Prop where
  size : d'.size = v.disk.size
  taken : ∀ b, d'.taken b = decide (1 ≤ b ∧ b ≤ t.used + 1)
  same : ∀ b, b + bitmapSizeInBlocks < N → SameBlock v.disk d' b

theorem Rep.marked (h : Rep N v t) (hin : InFront N (t.used + 1 : Nat)) (stack : UInt8) :
    Marked N v t (v.disk.mark stack (t.used + 1)) := by
  have hn : t.used + 1 < bitmapBits := by exact_mod_cast hin.bit
  refine ⟨size_mark hn h.bitmap_le, fun b => ?_, fun b hb i hi => block_mark hn (h.block_le hb) hi⟩
  rw [taken_mark hn h.bitmap_le, h.taken, ← Bool.decide_or]
  congr 1
  apply propext
  omega

/-- The image after one more block in front of the bitmap is written. -/
structure Written (d d' : Disk) (c : Nat) (block : Mem) : Prop where
  size : d'.size = d.size
  taken : ∀ b, d'.taken b = d.taken b
  self : ∀ i < blockSize, d'.block c i = block i
  same : ∀ b, b ≠ c → SameBlock d d' b

theorem written_writeBlock {c : Nat} (block : Mem) (hc : blockSize * (c + 1) + bitmapBytes ≤ d.size) :
    Written d (d.writeBlock c block) c block where
  size := size_writeBlock (by omega)
  taken _ := taken_writeBlock hc
  self _ hi := block_writeBlock_self hi
  same _ hb _ hi := block_writeBlock_ne hb hi

theorem Written.refl (d : Disk) (c : Nat) : Written d d c (d.block c) :=
  ⟨rfl, fun _ => rfl, fun _ _ => rfl, fun _ _ _ _ => rfl⟩

/-- A block written twice. -/
theorem Written.trans {d'' : Disk} {c : Nat} {block block' : Mem} (h : Written d d' c block)
    (h' : Written d' d'' c block') : Written d d'' c block' where
  size := h'.size.trans h.size
  taken b := (h'.taken b).trans (h.taken b)
  self := h'.self
  same b hb i hi := (h'.same b hb i hi).trans (h.same b hb i hi)

theorem SameBlock.trans {d'' : Disk} {b : Nat} (h : SameBlock d d' b) (h' : SameBlock d' d'' b) : SameBlock d d'' b :=
  fun i hi => (h' i hi).trans (h i hi)

end CS1550.Fs
