/-
What the bytes of the image say, as a request would find it: the block of a place, through the root, the
directory and the links of the chain, and the size of the file of a name. On an image that represents a
tree these are the blocks and the sizes of the tree.
-/
import CS1550.Fs.Lookup

namespace CS1550.Fs

open Bytes

/-- `root->directories[i].nStartBlock` -/
def Disk.dirStart (d : Disk) (i : Nat) : Option Int :=
  if (i : Int) < nDirectories (d.block 0) then some (dirStartBlock (d.block 0) i) else none

/-- A field of `files[j]` of the directory `i` -/
def Disk.fileEntry {β : Type} (d : Disk) (field : Mem → Nat → β) (i j : Nat) : Option β :=
  (d.dirStart i).bind fun b =>
    if (j : Int) < nFiles (d.block b.toNat) then some (field (d.block b.toNat) j) else none

/-- `nStartBlock` of `files[j]` of the directory `i`. -/
def Disk.fileStart (d : Disk) : Nat → Nat → Option Int := d.fileEntry fileStartBlock

/-- The block that follows `b` after `n` links; there is none behind a `next` that is 0. -/
def Disk.follow (d : Disk) (b : Int) : Nat → Option Int
  | 0 => some b
  | n + 1 => (d.follow b n).bind fun c => if next (d.block c.toNat) = 0 then none else some (next (d.block c.toNat))

/-- The block that the image has for a place. -/
def Disk.blockAt (d : Disk) : Place → Option Int
  | .dir i => d.dirStart i
  | .data i j n => (d.fileStart i j).bind fun b => d.follow b n

/-- `fsize` of `files[j]` of the directory `i`. -/
def Disk.sizeAt (d : Disk) : Nat → Nat → Option Nat := d.fileEntry fsize

/-- Where the loops over the root and over the directory end. -/
def Disk.lookup (d : Disk) (names : Names) : Nat × Nat :=
  let i := findDirectory (d.block 0) names.directory.1
  (i, findFile (d.block ((d.dirStart i).getD 0).toNat) names.filename.1 names.extension.1)

/-- The size of the file of that name, if there is one. -/
def Disk.sizeOf (d : Disk) (names : Names) : Option Nat := d.sizeAt (d.lookup names).1 (d.lookup names).2

variable {N : Nat} {v : Volume} {t : Tree} {d : Disk}

/-! ## Entries -/

theorem Tree.find_eq {names : Names} {D : Directory} (hD : t.dirs[t.dirIndex names.directory]? = some D) :
    t.find names = D.files[D.fileIndex names.filename names.extension]? := by
  rw [Tree.find, hD, Option.bind_some]

theorem Tree.find_some {names : Names} {f : File} (hf : t.find names = some f) :
    ∃ D, t.dirs[t.dirIndex names.directory]? = some D ∧
      D.files[D.fileIndex names.filename names.extension]? = some f := Option.bind_eq_some_iff.1 hf

theorem Listed.dirStart_eq (h : Listed d t) (i : Nat) : d.dirStart i = t.dirs[i]?.map fun D => (D.block : Int) := by
  have hn : nDirectories (d.block 0) = t.dirs.length := h.root.count
  unfold Disk.dirStart
  rw [hn]
  cases hD : t.dirs[i]? with
  | none =>
    have := List.getElem?_eq_none_iff.1 hD
    rw [if_neg (by omega)]
    rfl
  | some D =>
    have := (List.getElem?_eq_some_iff.1 hD).1
    rw [if_pos (by omega), dirStartBlock_eq h.root hD]
    rfl

theorem Listed.fileEntry_eq (h : Listed d t) {β : Type} {field : Mem → Nat → β} {g : File → β}
    (hfield : ∀ {dir : Mem} {D : Directory} {j : Nat} {f : File}, Holds fileCodec maxFilesInDir dir D.files →
      D.files[j]? = some f → field dir j = g f) (i j : Nat) :
    d.fileEntry field i j = t.dirs[i]?.bind fun D => D.files[j]?.map g := by
  unfold Disk.fileEntry
  rw [h.dirStart_eq]
  cases hD : t.dirs[i]? with
  | none => rfl
  | some D =>
    have hdir := h.directory i D hD
    have hm : nFiles (d.block D.block) = D.files.length := hdir.count
    rw [Option.map_some, Option.bind_some, Option.bind_some, Int.toNat_natCast, hm]
    cases hf : D.files[j]? with
    | none =>
      have := List.getElem?_eq_none_iff.1 hf
      rw [if_neg (by omega), Option.map_none]
    | some f =>
      have := (List.getElem?_eq_some_iff.1 hf).1
      rw [if_pos (by omega), hfield hdir hf, Option.map_some]

theorem Listed.fileStart_eq (h : Listed d t) (i j : Nat) :
    d.fileStart i j = t.dirs[i]?.bind fun D => D.files[j]?.map fun f => ((f.chain.headD 0 : Nat) : Int) :=
  h.fileEntry_eq fileStartBlock_eq i j

theorem Listed.sizeAt_eq (h : Listed d t) (i j : Nat) :
    d.sizeAt i j = t.dirs[i]?.bind fun D => D.files[j]?.map fun f => f.contents.length :=
  h.fileEntry_eq fsize_eq i j

/-- The loops of a request find the file of a name where it is in the tree. -/
theorem Listed.lookup_eq (h : Listed d t) {names : Names} {D : Directory}
    (hD : t.dirs[t.dirIndex names.directory]? = some D) :
    d.lookup names = (t.dirIndex names.directory, D.fileIndex names.filename names.extension) := by
  rw [Disk.lookup, findDirectory_eq h.root, h.dirStart_eq, hD, Option.map_some, Option.getD_some, Int.toNat_natCast,
    findFile_eq (h.directory _ D hD)]

theorem Listed.sizeOf_eq (h : Listed d t) (names : Names) :
    d.sizeOf names = (t.find names).map fun f => f.contents.length := by
  unfold Disk.sizeOf
  rw [h.sizeAt_eq]
  cases hD : t.dirs[t.dirIndex names.directory]? with
  | none =>
    have hi : (d.lookup names).1 = t.dirIndex names.directory := by
      rw [← findDirectory_eq h.root names.directory, Disk.lookup]
    rw [hi, hD, Tree.find, hD]
    rfl
  | some D => rw [h.lookup_eq hD, hD, Option.bind_some, Tree.find_eq hD]

/-! ## Chains -/

theorem Threaded.follow_eq {blocks : Nat → Nat} {n : Nat} (hth : Threaded d blocks n) :
    ∀ k ≤ n, d.follow (blocks 0 : Nat) k = some ((blocks k : Nat) : Int)
  | 0, _ => rfl
  | k + 1, hk => by
    have h1 := hth.pos (k + 1) hk
    rw [Disk.follow, hth.follow_eq k (by omega), Option.bind_some, Int.toNat_natCast, hth.link k hk,
      if_neg (by omega)]

/-- The links from the first block on go through the chain. -/
theorem Chained.follow_eq {d : Disk} {f : File} (hf : Chained d f) (hpos : ∀ b ∈ f.chain, 1 ≤ b) (n : Nat) :
    d.follow (f.chain.headD 0 : Nat) n = f.chain[n]?.map fun b : Nat => (b : Int) := by
  induction n with
  | zero =>
    have hne := hf.nonempty
    cases hch : f.chain with
    | nil => simp [hch] at hne
    | cons b bs => rfl
  | succ n ih =>
    rw [Disk.follow, ih]
    cases hb : f.chain[n]? with
    | none =>
      have := List.getElem?_eq_none_iff.1 hb
      rw [List.getElem?_eq_none (by omega)]
      rfl
    | some b =>
      rw [Option.map_some, Option.bind_some, Int.toNat_natCast, hf.linked n b hb]
      cases hc : f.chain[n + 1]? with
      | none => rfl
      | some c =>
        have := hpos c (List.mem_of_getElem? hc)
        rw [Option.getD_some, if_neg (by omega)]
        rfl

theorem Rep.blockAt_eq (hr : Rep N v t) (p : Place) : v.disk.blockAt p = (t.blockAt p).map fun b : Nat => (b : Int) := by
  cases p with
  | dir i =>
    rw [Disk.blockAt, hr.listed.dirStart_eq, Tree.blockAt, Option.map_map]
    rfl
  | data i j n =>
    rw [Disk.blockAt, hr.listed.fileStart_eq, Tree.blockAt]
    cases hD : t.dirs[i]? with
    | none => rfl
    | some D =>
      cases hf : D.files[j]? with
      | none => simp [hf]
      | some f =>
        simp only [Option.bind_some, hf, Option.map_some]
        exact (hr.file i D j f hD hf).follow_eq (hr.chain_pos hD hf) n

end CS1550.Fs
