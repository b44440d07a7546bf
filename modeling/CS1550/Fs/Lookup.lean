/-
What a represented tree says about the requests on the image: which entry a lookup finds, which block
the allocator hands out, and which block of a chain a walk ends at. A lookup depends on the root and the
directories alone (`Listed`), and a walk on the links it follows (`Threaded`).
-/
import CS1550.Fs.Tree
import Mathlib.Data.Finset.Card
import Mathlib.Order.Interval.Finset.Nat

namespace CS1550.Fs

open Bytes

variable {N B : Nat} {v : Volume} {t : Tree} {d : Disk}

/-! ## Lookup -/

theorem onHeap_of_lt {heap block : Mem} {i : Nat} (hi : i < blockSize) : onHeap heap block i = block i := if_pos hi

theorem holds_onHeap {α : Type} {c : Codec α} {cap : Nat} {block : Mem} {es : List α} (heap : Mem)
    (h : Holds c cap block es) (hcap : c.slot cap ≤ blockSize) : Holds c cap (onHeap heap block) es :=
  h.congr fun _ hi => onHeap_of_lt (by omega)

/-- The root and the directory blocks hold the entries of the tree. -/
structure Listed (d : Disk) (t : Tree) : Prop where
  root : Holds dirCodec maxDirsInRoot (d.block 0) t.dirs
  directory : ∀ (i : Nat) (D : Directory), t.dirs[i]? = some D → Holds fileCodec maxFilesInDir (d.block D.block) D.files

theorem Rep.listed (h : Rep N v t) : Listed v.disk t := ⟨h.root, h.directory⟩

theorem Listed.root_onHeap (h : Listed d t) (heap : Mem) :
    Holds dirCodec maxDirsInRoot (onHeap heap (d.block 0)) t.dirs :=
  holds_onHeap heap h.root (by decide)

theorem Listed.directory_onHeap (h : Listed d t) (heap : Mem) {i : Nat} {D : Directory} (hD : t.dirs[i]? = some D) :
    Holds fileCodec maxFilesInDir (onHeap heap (d.block D.block)) D.files :=
  holds_onHeap heap (h.directory i D hD) (by decide)

theorem cstr_shift {m : Mem} {off off' : Nat} {s : List UInt8} : CStr (shift m off) off' s ↔ CStr m (off + off') s := by
  constructor
  · intro h
    exact h.congr fun i _ => by rw [shift, Nat.add_assoc]
  · intro h
    exact h.congr fun i _ => by rw [shift, Nat.add_assoc]

theorem getInt_shift (m : Mem) (off off' n : Nat) : getInt (shift m off) off' n = getInt m (off + off') n :=
  getInt_congr fun i _ => by rw [shift, Nat.add_assoc]

theorem getNat_shift (m : Mem) (off off' n : Nat) : getNat (shift m off) off' n = getNat m (off + off') n :=
  getNat_congr fun i _ => by rw [shift, Nat.add_assoc]

theorem strEq_stored {m : Mem} {off : Nat} {s : CString} (h : CStr m off s.1) (name : CString) :
    strEq m off name.1 = (s == name) := by
  rw [Bool.eq_iff_iff, h.strEq name.2, beq_iff_eq, Subtype.ext_iff]

/-- The loop over the root finds the directory that the tree finds. -/
theorem findDirectory_eq {root : Mem} (h : Holds dirCodec maxDirsInRoot root t.dirs) (directory : CString) :
    findDirectory root directory.1 = t.dirIndex directory :=
  h.findIdx fun i D hD => strEq_stored (cstr_shift.1 (h.entry i D hD).dname) directory

theorem findFile_eq {dir : Mem} {D : Directory} (h : Holds fileCodec maxFilesInDir dir D.files)
    (filename extension : CString) : findFile dir filename.1 extension.1 = D.fileIndex filename extension :=
  h.findIdx fun i f hf => by
    have hs := h.entry i f hf
    exact congrArg₂ _ (strEq_stored (cstr_shift.1 hs.fname) filename) (strEq_stored (cstr_shift.1 hs.fext) extension)

theorem dirStartBlock_eq {root : Mem} {i : Nat} {D : Directory} (h : Holds dirCodec maxDirsInRoot root t.dirs)
    (hD : t.dirs[i]? = some D) : dirStartBlock root i = D.block := by
  rw [← (h.entry i D hD).start, getInt_shift]
  rfl

theorem fsize_eq {dir : Mem} {D : Directory} {j : Nat} {f : File} (h : Holds fileCodec maxFilesInDir dir D.files)
    (hf : D.files[j]? = some f) : fsize dir j = f.contents.length := by
  rw [← (h.entry j f hf).fsize, getNat_shift]
  rfl

theorem fileStartBlock_eq {dir : Mem} {D : Directory} {j : Nat} {f : File}
    (h : Holds fileCodec maxFilesInDir dir D.files) (hf : D.files[j]? = some f) :
    fileStartBlock dir j = (f.chain.headD 0 : Nat) := by
  rw [← (h.entry j f hf).start, getInt_shift]
  rfl

theorem of_getElem?_findIdx {α : Type} {p : α → Bool} {xs : List α} {x : α} (h : xs[xs.findIdx p]? = some x) : p x := by
  obtain ⟨hlt, rfl⟩ := List.getElem?_eq_some_iff.1 h
  exact List.findIdx_getElem

theorem Tree.dname_of_dirIndex {directory : CString} {D : Directory} (hD : t.dirs[t.dirIndex directory]? = some D) :
    D.dname = directory := by
  have hname := of_getElem?_findIdx hD
  rwa [beq_iff_eq] at hname

theorem Directory.names_of_fileIndex {D : Directory} {filename extension : CString} {f : File}
    (hf : D.files[D.fileIndex filename extension]? = some f) : f.fname = filename ∧ f.fext = extension := by
  have hboth := of_getElem?_findIdx hf
  rwa [Bool.and_eq_true, beq_iff_eq, beq_iff_eq] at hboth

theorem openRoot_yields (mem : Memory) (v : Volume) :
    machine.Yields (openRoot mem) v (onHeap mem.heap (v.disk.block 0)) v := openBlock_yields mem.heap 0 v

theorem openDir_yields (mem : Memory) (b : Nat) (v : Volume) :
    machine.Yields (openDir mem b) v (onHeap mem.heap (v.disk.block b)) v := openBlock_yields mem.heap b v

section Find

variable {α : Type} (mem : Memory) {notFound missing : α}

theorem Listed.noDirectory (h : Listed v.disk t) {directory : CString} (hD : t.dirs[t.dirIndex directory]? = none)
    (k : Int → Mem → Req α) : machine.Yields (withDirectory mem directory notFound k) v notFound v := by
  have hroot := h.root_onHeap mem.heap
  have hn : nDirectories (onHeap mem.heap (v.disk.block 0)) = t.dirs.length := hroot.count
  have hge : t.dirs.length ≤ t.dirIndex directory := List.getElem?_eq_none_iff.1 hD
  have hle : t.dirIndex directory ≤ t.dirs.length := List.findIdx_le_length
  refine (openRoot_yields mem v).bind ?_
  rw [findDirectory_eq hroot, hn, if_pos (by omega)]
  exact .pure _ _

theorem Listed.withDirectory (h : Listed v.disk t) {directory : CString} {D : Directory}
    (hD : t.dirs[t.dirIndex directory]? = some D) (k : Int → Mem → Req α) :
    machine.Becomes (withDirectory mem directory notFound k) v (k D.block (onHeap mem.heap (v.disk.block D.block))) v := by
  have hroot := h.root_onHeap mem.heap
  have hn : nDirectories (onHeap mem.heap (v.disk.block 0)) = t.dirs.length := hroot.count
  have hlt : t.dirIndex directory < t.dirs.length := (List.getElem?_eq_some_iff.1 hD).1
  refine (openRoot_yields mem v).becomes.trans ?_
  rw [findDirectory_eq hroot, hn, if_neg (by omega), dirStartBlock_eq hroot hD]
  exact (openDir_yields mem D.block v).becomes

theorem Listed.noFile (h : Listed v.disk t) {names : Names} {D : Directory} (hD : t.dirs[t.dirIndex names.directory]? = some D)
    (hf : D.files[D.fileIndex names.filename names.extension]? = none) (k : Int → Mem → Nat → Req α) :
    machine.Yields (withFile mem names notFound missing k) v missing v := by
  have hdir := h.directory_onHeap mem.heap hD
  have hm : nFiles (onHeap mem.heap (v.disk.block D.block)) = D.files.length := hdir.count
  have hge : D.files.length ≤ D.fileIndex names.filename names.extension := List.getElem?_eq_none_iff.1 hf
  have hle : D.fileIndex names.filename names.extension ≤ D.files.length := List.findIdx_le_length
  refine (h.withDirectory mem hD _).yields ?_
  rw [findFile_eq hdir, hm, if_pos (by omega)]
  exact .pure _ _

theorem Listed.withFile (h : Listed v.disk t) {names : Names} {D : Directory} {f : File}
    (hD : t.dirs[t.dirIndex names.directory]? = some D)
    (hf : D.files[D.fileIndex names.filename names.extension]? = some f) (k : Int → Mem → Nat → Req α) :
    machine.Becomes (withFile mem names notFound missing k) v
      (k D.block (onHeap mem.heap (v.disk.block D.block)) (D.fileIndex names.filename names.extension)) v := by
  have hdir := h.directory_onHeap mem.heap hD
  have hm : nFiles (onHeap mem.heap (v.disk.block D.block)) = D.files.length := hdir.count
  have hlt : D.fileIndex names.filename names.extension < D.files.length := (List.getElem?_eq_some_iff.1 hf).1
  refine (h.withDirectory mem hD _).trans ?_
  rw [findFile_eq hdir, hm, if_neg (by omega)]
  exact .refl _ _

end Find

theorem Listed.getattr (h : Listed v.disk t) (mem : Memory) (path : CString) :
    machine.Yields (cs1550Getattr mem path) v (t.getattr path mem.names) v := by
  unfold cs1550Getattr Tree.getattr
  by_cases hpath : path.1 = [slash]
  · rw [if_pos hpath, if_pos hpath]
    exact .pure _ _
  rw [if_neg hpath, if_neg hpath]
  generalize sscanf path mem.names = r
  obtain ⟨count, names⟩ := r
  dsimp only
  by_cases hcount : count < 1
  · rw [if_pos hcount, if_pos hcount]
    exact .pure _ _
  rw [if_neg hcount, if_neg hcount]
  have hroot := h.root_onHeap mem.heap
  have hn : nDirectories (onHeap mem.heap (v.disk.block 0)) = t.dirs.length := hroot.count
  refine (openRoot_yields mem v).bind ?_
  rw [findDirectory_eq hroot, hn]
  cases hD : t.dirs[t.dirIndex names.directory]? with
  | none =>
    have hge := List.getElem?_eq_none_iff.1 hD
    have hle : t.dirIndex names.directory ≤ t.dirs.length := List.findIdx_le_length
    rw [if_pos (by omega)]
    exact .pure _ _
  | some D =>
    have hlt := (List.getElem?_eq_some_iff.1 hD).1
    rw [if_neg (by omega)]
    dsimp only
    by_cases hone : count = 1
    · rw [if_pos hone, if_pos hone]
      exact .pure _ _
    rw [if_neg hone, if_neg hone, dirStartBlock_eq hroot hD]
    have hdir := h.directory_onHeap mem.heap hD
    have hm : nFiles (onHeap mem.heap (v.disk.block D.block)) = D.files.length := hdir.count
    refine (openDir_yields mem D.block v).bind ?_
    rw [findFile_eq hdir, hm]
    cases hf : D.files[D.fileIndex names.filename names.extension]? with
    | none =>
      have hge := List.getElem?_eq_none_iff.1 hf
      have hle : D.fileIndex names.filename names.extension ≤ D.files.length := List.findIdx_le_length
      rw [if_pos (by omega)]
      exact .pure _ _
    | some f =>
      have hlt := (List.getElem?_eq_some_iff.1 hf).1
      rw [if_neg (by omega), fsize_eq hdir hf]
      exact .pure _ _

/-! ## The allocator -/

theorem Rep.bitmap_le (h : Rep N v t) : bitmapBytes ≤ v.disk.size := by
  have hsize := h.size
  have hroom := h.room
  simp only [bitmapBytes, blockSize, bitmapSizeInBlocks] at hsize hroom ⊢
  omega

theorem Rep.used_lt (h : Rep N v t) : t.used < bitmapBits := by
  rcases Nat.eq_zero_or_pos t.used with h0 | hpos
  · rw [h0]; decide
  · have htaken := h.taken t.used
    rw [decide_eq_true ⟨hpos, le_refl _⟩, Disk.taken, Bool.and_eq_true, decide_eq_true_eq] at htaken
    exact htaken.1

/-- The blocks in front of `B` are marked and `B` is not, so the allocator returns it. -/
structure Offers (N : Nat) (v : Volume) (B : Nat) : Prop where
  size : v.disk.size = blockSize * N
  room : bitmapSizeInBlocks < N
  bits : B ≤ bitmapBits
  taken : ∀ c, v.disk.taken c = decide (1 ≤ c ∧ c < B)
  cursor : ∃ c : Nat, v.cursor = c ∧ 1 ≤ c ∧ c ≤ B

theorem Offers.block_le (h : Offers N v B) {c : Nat} (hc : c + bitmapSizeInBlocks < N) :
    blockSize * (c + 1) + bitmapBytes ≤ v.disk.size := by
  rw [h.size]
  simp only [bitmapBytes, blockSize, bitmapSizeInBlocks] at hc ⊢
  omega

theorem Offers.alloc (h : Offers N v B) : machine.Yields findNextFreeBlockIndex v B { v with cursor := B } := by
  obtain ⟨c, hc, hpos, hle⟩ := h.cursor
  have hbits := h.bits
  have hbitmap := h.block_le (c := 0) (by have := h.room; omega)
  refine findNextFreeBlockIndex_yields (by omega) hc hle ?_ (fun j hj hjB => ?_) ?_
  · simp only [bitmapBits, bitmapBytes, blockSize, bitmapSizeInBlocks] at hbits
    simp only [totalBlocks]
    omega
  · rw [h.taken, decide_eq_true_eq]
    omega
  · rw [h.taken, decide_eq_false_iff_not]
    omega

theorem Offers.moved (h : Offers N v B) : Offers N { v with cursor := B } B where
  size := h.size
  room := h.room
  bits := h.bits
  taken := h.taken
  cursor := by
    obtain ⟨c, -, hpos, hle⟩ := h.cursor
    exact ⟨B, rfl, by omega, le_refl _⟩

theorem Rep.offers (h : Rep N v t) : Offers N v (t.used + 1) where
  size := h.size
  room := by have := h.room; omega
  bits := h.used_lt
  taken c := by
    rw [h.taken]
    congr 1
    apply propext
    omega
  cursor := ⟨_, h.cursor, by omega, by omega⟩

/-- The block handed out next is the one behind those handed out so far. -/
theorem Rep.alloc (h : Rep N v t) :
    machine.Yields findNextFreeBlockIndex v (t.used + 1 : Nat) { v with cursor := (t.used + 1 : Nat) } := h.offers.alloc

/-! ## Chains -/

theorem Tree.blockAt_data {i j n b : Nat} {D : Directory} {f : File} (hD : t.dirs[i]? = some D)
    (hf : D.files[j]? = some f) (hb : f.chain[n]? = some b) : t.blockAt (.data i j n) = some b := by
  simp [Tree.blockAt, hD, hf, hb]

theorem Tree.blockAt_dir {i : Nat} {D : Directory} (hD : t.dirs[i]? = some D) : t.blockAt (.dir i) = some D.block := by
  simp [Tree.blockAt, hD]

theorem Rep.chain_pos (h : Rep N v t) {i j : Nat} {D : Directory} {f : File} (hD : t.dirs[i]? = some D)
    (hf : D.files[j]? = some f) : ∀ b ∈ f.chain, 1 ≤ b := by
  intro b hb
  obtain ⟨n, hn⟩ := List.getElem?_of_mem hb
  exact (h.within _ b (Tree.blockAt_data hD hf hn)).1

/-- No block occurs twice in a chain, so it is not longer than the number of blocks. -/
theorem Rep.chain_length_le (h : Rep N v t) {i j : Nat} {D : Directory} {f : File} (hD : t.dirs[i]? = some D)
    (hf : D.files[j]? = some f) : f.chain.length ≤ t.used := by
  have hnodup : f.chain.Nodup := by
    rw [List.nodup_iff_getElem?_ne_getElem?]
    intro n n' hlt hn' heq
    have hb := List.getElem?_eq_getElem hn'
    have hplace := h.apart _ _ _ (Tree.blockAt_data hD hf (heq.trans hb)) (Tree.blockAt_data hD hf hb)
    simp only [Place.data.injEq] at hplace
    omega
  have hsub : f.chain.toFinset ⊆ Finset.Icc 1 t.used := by
    intro b hb
    obtain ⟨n, hn⟩ := List.getElem?_of_mem (List.mem_toFinset.1 hb)
    exact Finset.mem_Icc.2 (h.within _ b (Tree.blockAt_data hD hf hn))
  have hcard := Finset.card_le_card hsub
  rwa [List.toFinset_card_of_nodup hnodup, Nat.card_Icc, Nat.add_sub_cancel] at hcard

/-- The contents of a file fit into the blocks handed out. -/
theorem Rep.contents_lt (h : Rep N v t) {i j : Nat} {D : Directory} {f : File} (hD : t.dirs[i]? = some D)
    (hf : D.files[j]? = some f) : f.contents.length < 2 ^ 23 := by
  have h1 := (h.file i D j f hD hf).enough
  have h2 := h.chain_length_le hD hf
  have h3 := h.used_lt
  simp only [maxDataInBlock, blockSize, bitmapBits, bitmapBytes, bitmapSizeInBlocks] at h1 h3
  omega

theorem next_onHeap (heap block : Mem) : next (onHeap heap block) = next block :=
  getInt_congr fun i hi => onHeap_of_lt (by simp only [maxDataInBlock, blockSize]; omega)

theorem addSize_of_lt {a b : Nat} (h : a + b < 2 ^ 64) : addSize a b = a + b := Nat.mod_eq_of_lt h

theorem subSize_of_le {a b : Nat} (h : b ≤ a) (ha : a < 2 ^ 64) : subSize a b = a - b := by
  unfold subSize
  rw [show a + 2 ^ 64 - b = (a - b) + 2 ^ 64 by omega, Nat.add_mod_right, Nat.mod_eq_of_lt (by omega)]

/-! ## Links -/

/-- The first `n` links from `blocks 0` on go through `blocks`. -/
structure Threaded (d : Disk) (blocks : Nat → Nat) (n : Nat) : Prop where
  link : ∀ k < n, next (d.block (blocks k)) = blocks (k + 1)
  pos : ∀ k ≤ n, 1 ≤ blocks k

theorem Threaded.mono {blocks : Nat → Nat} {n n' : Nat} (h : Threaded d blocks n) (hle : n' ≤ n) : Threaded d blocks n' :=
  ⟨fun k hk => h.link k (by omega), fun k hk => h.pos k (by omega)⟩

/-- The blocks of a file. -/
def File.blockOf (f : File) (k : Nat) : Nat := f.chain.getD k 0

theorem File.blockOf_eq {f : File} {k b : Nat} (hb : f.chain[k]? = some b) : f.blockOf k = b := by
  rw [File.blockOf, List.getD_eq_getElem?_getD, hb]
  rfl

theorem File.getElem?_chain {f : File} {k : Nat} (hk : k < f.chain.length) : f.chain[k]? = some (f.blockOf k) := by
  rw [File.blockOf_eq (List.getElem?_eq_getElem hk)]
  exact List.getElem?_eq_getElem hk

theorem File.blockOf_zero (f : File) : f.blockOf 0 = f.chain.headD 0 := by
  unfold File.blockOf
  cases f.chain <;> rfl

theorem Chained.threaded {f : File} (hf : Chained d f) (hpos : ∀ b ∈ f.chain, 1 ≤ b) :
    Threaded d f.blockOf (f.chain.length - 1) where
  link k hk := by
    rw [hf.linked k _ (File.getElem?_chain (by omega)), File.getElem?_chain (by omega)]
    rfl
  pos k hk := by
    have hne := hf.nonempty
    exact hpos _ (List.mem_of_getElem? (File.getElem?_chain (by omega)))

theorem Rep.threaded (h : Rep N v t) {i j : Nat} {D : Directory} {f : File} (hD : t.dirs[i]? = some D)
    (hf : D.files[j]? = some f) : Threaded v.disk f.blockOf (f.chain.length - 1) :=
  (h.file i D j f hD hf).threaded (h.chain_pos hD hf)

/-- The loop at the block of the offset. -/
theorem walk_stop (mem : Memory) (offset turns b : Nat) (block : Mem) :
    machine.Yields (walk mem offset turns b block (maxDataInBlock * (startBlock offset + 1))
      (offset - maxDataInBlock * startBlock offset)) v ⟨b, block, adjusted offset, true⟩ v := by
  have hle : offset ≤ maxDataInBlock * (startBlock offset + 1) := by
    simp only [startBlock, maxDataInBlock, blockSize]
    omega
  cases turns with
  | zero => exact .pure _ _
  | succ turns =>
    rw [walk, if_pos hle]
    exact .pure _ _

/-- The loop from the block `k` on. -/
theorem walk_yields (mem : Memory) {blocks : Nat → Nat} {offset : Nat} (hth : Threaded v.disk blocks (startBlock offset))
    (hsmall : offset < 2 ^ 63) (turns k : Nat) (hk : k ≤ startBlock offset) (hturns : startBlock offset ≤ k + turns) :
    machine.Yields (walk mem offset turns (blocks k) (onHeap mem.heap (v.disk.block (blocks k)))
      (maxDataInBlock * (k + 1)) (offset - maxDataInBlock * k)) v
      ⟨blocks (startBlock offset), onHeap mem.heap (v.disk.block (blocks (startBlock offset))), adjusted offset, true⟩ v := by
  induction turns generalizing k with
  | zero =>
    obtain rfl : k = startBlock offset := by omega
    exact walk_stop mem offset 0 _ _
  | succ turns ih =>
    by_cases heq : k = startBlock offset
    · subst heq
      exact walk_stop mem offset _ _ _
    have hgt : maxDataInBlock * (k + 1) < offset := by
      simp only [startBlock, maxDataInBlock, blockSize] at hk heq ⊢
      omega
    have h1 := hth.pos (k + 1) (by omega)
    have hadd : addSize (maxDataInBlock * (k + 1)) maxDataInBlock = maxDataInBlock * (k + 1 + 1) := by
      rw [addSize_of_lt (by simp only [maxDataInBlock, blockSize] at hgt ⊢; omega)]
      rfl
    have hsub : subSize (offset - maxDataInBlock * k) maxDataInBlock = offset - maxDataInBlock * (k + 1) := by
      simp only [maxDataInBlock, blockSize] at hgt ⊢
      rw [subSize_of_le (by omega) (by omega)]
      omega
    rw [walk, if_neg (by omega), next_onHeap, hth.link k (by omega), if_neg (by omega)]
    refine (openBlock_yields mem.heap _ v).bind ?_
    rw [hadd, hsub]
    exact ih (k + 1) (by omega) (by omega)

/-- A walk along the links ends at the block of the offset. -/
theorem Threaded.walkTo {blocks : Nat → Nat} {offset : Nat} (hth : Threaded v.disk blocks (startBlock offset))
    (mem : Memory) (hsmall : offset < 2 ^ 63) :
    machine.Yields (walkTo mem (blocks 0) offset) v
      ⟨blocks (startBlock offset), onHeap mem.heap (v.disk.block (blocks (startBlock offset))), adjusted offset, true⟩ v := by
  have hwalk := walk_yields mem hth hsmall (offset / maxDataInBlock) 0 (Nat.zero_le _) (by
    simp only [startBlock, maxDataInBlock, blockSize]
    omega)
  exact (openBlock_yields mem.heap _ v).bind (by simpa using hwalk)

theorem startBlock_lt {f : File} (hf : Chained d f) {offset : Nat} (hoff : offset ≤ f.contents.length) :
    startBlock offset < f.chain.length := by
  have h1 := hf.nonempty
  have h2 := hf.enough
  simp only [startBlock, maxDataInBlock, blockSize] at h2 ⊢
  omega

/-- A walk in a represented file. -/
theorem Rep.walkTo (h : Rep N v t) (mem : Memory) {i j : Nat} {D : Directory} {f : File} (hD : t.dirs[i]? = some D)
    (hf : D.files[j]? = some f) {offset : Nat} (hoff : offset ≤ f.contents.length) :
    ∃ b, f.chain[startBlock offset]? = some b ∧
      machine.Yields (walkTo mem (f.chain.headD 0 : Nat) offset) v
        ⟨b, onHeap mem.heap (v.disk.block b), adjusted offset, true⟩ v := by
  have hlt := startBlock_lt (h.file i D j f hD hf) hoff
  have hsmall := h.contents_lt hD hf
  have hth : Threaded v.disk f.blockOf (startBlock offset) := (h.threaded hD hf).mono (by omega)
  refine ⟨f.blockOf (startBlock offset), File.getElem?_chain hlt, ?_⟩
  rw [← f.blockOf_zero]
  exact hth.walkTo mem (by omega)

end CS1550.Fs
