/-
`cs1550_read` up to the end of a file: it gives the bytes that the links reach from the offset on
(`bytesFrom`), whether or not they are in blocks of their own, and leaves the image as it is. In a
represented file these are the contents from the offset on.
-/
import CS1550.Fs.Write

namespace CS1550.Fs

open Bytes

variable {N : Nat} {v : Volume} {t : Tree} {d : Disk} {blocks : Nat → Nat}

/-! ## Bytes along the links -/

/-- The byte at a position of the file. -/
def dataAt (d : Disk) (blocks : Nat → Nat) (p : Nat) : UInt8 := d.block (blocks (p / maxDataInBlock)) (p % maxDataInBlock)

/-- Bytes of a chain of blocks, from a position on. -/
def bytesFrom (d : Disk) (blocks : Nat → Nat) (pos n : Nat) : List UInt8 :=
  (List.range n).map fun p => dataAt d blocks (pos + p)

theorem bytesFrom_append (d : Disk) (blocks : Nat → Nat) (pos n m : Nat) :
    bytesFrom d blocks pos n ++ bytesFrom d blocks (pos + n) m = bytesFrom d blocks pos (n + m) := by
  simp only [bytesFrom, List.range_add, List.map_append, List.map_map, Function.comp_def, Nat.add_assoc]

theorem getElem?_bytesFrom {pos n p : Nat} (hp : p < n) :
    (bytesFrom d blocks pos n)[p]? = some (dataAt d blocks (pos + p)) := by
  rw [bytesFrom, List.getElem?_map, List.getElem?_range hp]
  rfl

theorem length_bytesFrom (d : Disk) (blocks : Nat → Nat) (pos n : Nat) : (bytesFrom d blocks pos n).length = n := by
  simp [bytesFrom]

theorem bytesFrom_eq_iff {pos : Nat} {bs : List UInt8} :
    bytesFrom d blocks pos bs.length = bs ↔ ∀ p x, bs[p]? = some x → dataAt d blocks (pos + p) = x := by
  constructor
  · intro heq p x hx
    have hlt := (List.getElem?_eq_some_iff.1 hx).1
    rw [← heq, getElem?_bytesFrom hlt] at hx
    exact Option.some.inj hx
  · intro hall
    apply List.ext_getElem?
    intro p
    rcases lt_or_ge p bs.length with hlt | hge
    · rw [getElem?_bytesFrom hlt, List.getElem?_eq_getElem hlt, hall p _ (List.getElem?_eq_getElem hlt)]
    · rw [List.getElem?_eq_none (by rwa [length_bytesFrom]), List.getElem?_eq_none hge]

/-- The bytes that lie in one block. -/
theorem get_block (heap : Mem) {k a n : Nat} (hfit : a + n ≤ maxDataInBlock) :
    get (onHeap heap (d.block (blocks k))) a n = bytesFrom d blocks (maxDataInBlock * k + a) n := by
  have hmax : maxDataInBlock = 504 := rfl
  have hblock : blockSize = 512 := rfl
  apply List.map_congr_left
  intro p hp
  rw [List.mem_range] at hp
  have hdiv : (maxDataInBlock * k + a + p) / maxDataInBlock = k := by rw [hmax] at hfit ⊢; omega
  have hmod : (maxDataInBlock * k + a + p) % maxDataInBlock = a + p := by rw [hmax] at hfit ⊢; omega
  rw [onHeap_of_lt (by omega), dataAt, hdiv, hmod]

/-- The contents of a file are the bytes along its chain. -/
theorem Chained.bytesFrom_eq {f : File} (hf : Chained d f) (offset : Nat) :
    bytesFrom d f.blockOf offset (f.contents.length - offset) = f.contents.drop offset := by
  apply List.ext_getElem?
  intro p
  rw [List.getElem?_drop]
  rcases lt_or_ge p (f.contents.length - offset) with hlt | hge
  · obtain ⟨b, hb, hx⟩ := hf.data _ _ (List.getElem?_eq_getElem (i := offset + p) (by omega))
    rw [getElem?_bytesFrom hlt, List.getElem?_eq_getElem (by omega), ← hx, dataAt, File.blockOf_eq hb]
  · rw [List.getElem?_eq_none (by rwa [length_bytesFrom]), List.getElem?_eq_none (by omega)]

/-! ## The handler -/

/-- The loop of `cs1550_read` from the start of a block on. -/
theorem readLoop_yields (mem : Memory) {n : Nat} (hth : Threaded v.disk blocks n) (turns k left : Nat)
    (hleft : maxDataInBlock * k + left ≤ maxDataInBlock * (n + 1)) (hturns : left ≤ maxDataInBlock * turns) :
    machine.Yields (readLoop mem 0 turns (onHeap mem.heap (v.disk.block (blocks k))) left) v
      (bytesFrom v.disk blocks (maxDataInBlock * k) left) v := by
  have hmax : maxDataInBlock = 504 := rfl
  induction turns generalizing k left with
  | zero =>
    obtain rfl : left = 0 := by omega
    exact .pure _ _
  | succ turns ih =>
    rw [readLoop]
    by_cases hzero : left = 0
    · rw [if_pos hzero, hzero]
      exact .pure _ _
    rw [if_neg hzero]
    by_cases hmore : left > maxDataInBlock
    · -- a whole block, and the links go on
      have hlt : k < n := by rw [hmax] at hmore hleft; omega
      have h1 := hth.pos (k + 1) hlt
      have hrest := ih (k + 1) (left - maxDataInBlock) (by rw [hmax] at hmore hleft ⊢; omega)
        (by rw [hmax] at hturns ⊢; omega)
      rw [if_pos hmore, next_onHeap, hth.link k hlt, if_neg (by omega)]
      refine (openBlock_yields mem.heap _ v).bind (hrest.bind ?_)
      rw [get_block mem.heap (by omega), show maxDataInBlock * (k + 1) = maxDataInBlock * k + maxDataInBlock from rfl,
        Nat.add_zero, bytesFrom_append, Nat.add_sub_cancel' (by omega)]
      exact .pure _ _
    · rw [if_neg hmore, get_block mem.heap (by omega), Nat.add_zero]
      exact .pure _ _

/-- Reading to the end of the file from the block of the offset on. -/
theorem readAt_yields (mem : Memory) {n offset left : Nat} (hth : Threaded v.disk blocks n)
    (hleft : offset + left ≤ maxDataInBlock * (n + 1)) (hsmall : offset + left < 2 ^ 63) :
    machine.Yields (readAt mem ⟨blocks (startBlock offset), onHeap mem.heap (v.disk.block (blocks (startBlock offset))),
      adjusted offset, true⟩ left left) v (asInt left, bytesFrom v.disk blocks offset left) v := by
  have hmax : maxDataInBlock = 504 := rfl
  have hoffset := offset_eq offset
  have hadj := adjusted_le offset
  have hfirst : ∀ n, adjusted offset + n ≤ maxDataInBlock →
      get (onHeap mem.heap (v.disk.block (blocks (startBlock offset)))) (adjusted offset) n =
        bytesFrom v.disk blocks offset n := fun n hn => by
    rw [get_block mem.heap hn, ← hoffset]
  rw [readAt]
  dsimp only
  rw [addSize_of_lt (by omega)]
  by_cases hmore : adjusted offset + left > maxDataInBlock
  · have hlt : startBlock offset < n := by rw [hmax] at hmore hoffset hleft; omega
    have h1 := hth.pos (startBlock offset + 1) hlt
    have hjoin : maxDataInBlock * (startBlock offset + 1) = offset + (maxDataInBlock - adjusted offset) := by
      rw [hmax] at hoffset hadj ⊢
      omega
    have hrest := readLoop_yields mem hth (left / maxDataInBlock + 1) (startBlock offset + 1)
      (left - (maxDataInBlock - adjusted offset)) (by omega) (by rw [hmax]; omega)
    rw [if_pos hmore, subSize_of_le hadj (by omega), next_onHeap, hth.link _ hlt, if_neg (by omega)]
    refine (openBlock_yields mem.heap _ v).bind (hrest.bind ?_)
    rw [hfirst _ (by omega), hjoin, bytesFrom_append, Nat.add_sub_cancel' (by omega)]
    exact .pure _ _
  · have hout : machine.Yields (readLoop mem (adjusted offset) (left / maxDataInBlock + 1)
        (onHeap mem.heap (v.disk.block (blocks (startBlock offset)))) left) v (bytesFrom v.disk blocks offset left) v := by
      rw [readLoop]
      by_cases hzero : left = 0
      · rw [if_pos hzero, hzero]
        exact .pure _ _
      · rw [if_neg hzero, if_neg (by omega), hfirst _ (by omega)]
        exact .pure _ _
    rw [if_neg hmore]
    exact hout.bind (.pure _ _)

/-- A read of a listed file comes to its chain. -/
theorem Listed.read_becomes (h : Listed v.disk t) (mem : Memory) (offset : Int) {path : CString} {names : Names} {size : Nat}
    {D : Directory} {f : File} (hscan : sscanf path mem.names = (3, names)) (hpos : 0 < size)
    (hD : t.dirs[t.dirIndex names.directory]? = some D)
    (hf : D.files[D.fileIndex names.filename names.extension]? = some f) :
    machine.Becomes (cs1550Read mem path size offset) v (do
      let left := subSize f.contents.length (asSize offset)
      let size := if addSize (asSize offset) size > f.contents.length then left else size
      let c ← walkTo mem (f.chain.headD 0 : Nat) (asSize offset)
      if c.reached then readAt mem c size left else pure (-ENOENT, [])) v := by
  have hdir := h.directory_onHeap mem.heap hD
  -- what is stored was short enough, so the names of the path are
  have hshort : ¬ (names.directory.1.length > maxDirname ∨ names.filename.1.length > maxFilename ∨
      names.extension.1.length > maxExtension) := by
    have hdname := (h.root.entry _ D hD).short
    have hentry := hdir.entry _ f hf
    have hfname := hentry.fnameShort
    have hfext := hentry.fextShort
    rw [Tree.dname_of_dirIndex hD] at hdname
    rw [(Directory.names_of_fileIndex hf).1] at hfname
    rw [(Directory.names_of_fileIndex hf).2] at hfext
    omega
  unfold cs1550Read
  rw [hscan]
  dsimp only
  rw [if_neg (by omega), if_neg (by omega), if_neg hshort]
  refine (h.withFile mem hD hf _).trans ?_
  rw [fsize_eq hdir hf, fileStartBlock_eq hdir hf]
  exact .refl _ _

/-- A read of a listed file at an offset within it, of as much as there is or more. -/
theorem Listed.read (h : Listed v.disk t) (mem : Memory) (offset : Int) {path : CString} {names : Names} {size n : Nat}
    {D : Directory} {f : File} (hscan : sscanf path mem.names = (3, names)) (hpos : 0 < size) (hsize : size < 2 ^ 64)
    (hD : t.dirs[t.dirIndex names.directory]? = some D)
    (hf : D.files[D.fileIndex names.filename names.extension]? = some f) (hoff : asSize offset ≤ f.contents.length)
    (hend : f.contents.length ≤ addSize (asSize offset) size) (hsmall : f.contents.length < 2 ^ 63)
    (hth : Threaded v.disk blocks n) (hstart : blocks 0 = f.chain.headD 0)
    (hlen : f.contents.length ≤ maxDataInBlock * (n + 1)) :
    machine.Yields (cs1550Read mem path size offset) v (asInt (f.contents.length - asSize offset),
      bytesFrom v.disk blocks (asSize offset) (f.contents.length - asSize offset)) v := by
  have hnowrap : asSize offset + size < 2 ^ 64 := by
    by_contra hwrap
    have hmod : addSize (asSize offset) size = asSize offset + size - 2 ^ 64 := by
      unfold addSize
      omega
    omega
  rw [addSize_of_lt hnowrap] at hend
  have hleft : (if asSize offset + size > f.contents.length then f.contents.length - asSize offset else size) =
      f.contents.length - asSize offset := by
    split <;> omega
  have hmax : maxDataInBlock = 504 := rfl
  have hwalk : Threaded v.disk blocks (startBlock (asSize offset)) :=
    hth.mono (by simp only [startBlock]; rw [hmax] at hlen ⊢; omega)
  refine (h.read_becomes mem offset hscan hpos hD hf).yields ?_
  dsimp only
  rw [subSize_of_le hoff (by omega), addSize_of_lt hnowrap, hleft, ← hstart]
  refine (hwalk.walkTo mem (by omega)).bind ?_
  rw [if_pos rfl]
  exact readAt_yields mem hth (by omega) (by omega)

/-- A read of a represented file. -/
theorem Rep.read (h : Rep N v t) (mem : Memory) (offset : Int) {path : CString} {names : Names} {size : Nat}
    {D : Directory} {f : File} (hscan : sscanf path mem.names = (3, names)) (hpos : 0 < size) (hsize : size < 2 ^ 64)
    (hD : t.dirs[t.dirIndex names.directory]? = some D)
    (hf : D.files[D.fileIndex names.filename names.extension]? = some f) (hoff : asSize offset ≤ f.contents.length)
    (hend : f.contents.length ≤ addSize (asSize offset) size) :
    machine.Yields (cs1550Read mem path size offset) v
      (asInt (f.contents.length - asSize offset), f.contents.drop (asSize offset)) v := by
  have hc := h.file _ D _ f hD hf
  have hsmall := h.contents_lt hD hf
  have henough := hc.enough
  have hne := hc.nonempty
  rw [← hc.bytesFrom_eq]
  exact h.listed.read mem offset hscan hpos hsize hD hf hoff hend (by omega) (h.threaded hD hf) f.blockOf_zero
    (by rwa [Nat.sub_add_cancel hne])

end CS1550.Fs
