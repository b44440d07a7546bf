/-
What the filesystem is for: directories of files with their contents. `Tree` is the abstract state,
with the requests as functions on it, and `Rep` says how the image and the allocation cursor represent
one. The blocks handed out are those from 1 up to `used`. Every directory and every position in the
chain of a file has a block of its own, and the blocks not handed out yet are still zero.
-/
import CS1550.Lib.Table
import CS1550.Fs.Blocks
import CS1550.Fs.Handlers

namespace CS1550.Fs

open Bytes

/-! ## The abstract state -/

/-- A file with its contents. -/
structure File where
  fname : CString
  fext : CString
  contents : List UInt8
  /-- Its blocks, in order. -/
  chain : List Nat

/-- A directory with its files, in order. -/
structure Directory where
  dname : CString
  block : Nat
  files : List File

/-- The directories, in order. -/
structure Tree where
  dirs : List Directory
  /-- The number of blocks handed out. -/
  used : Nat

/-- A place that a block can have: a directory, or a position in the chain of a file. -/
inductive Place
  | dir (i : Nat)
  | data (i j n : Nat)
  deriving DecidableEq

/-- The block that a tree has at a place. -/
def Tree.blockAt (t : Tree) : Place → Option Nat
  | .dir i => t.dirs[i]?.map Directory.block
  | .data i j n => t.dirs[i]?.bind fun D => D.files[j]?.bind fun f => f.chain[n]?

/-- The index of the directory of that name, or the number of directories. -/
def Tree.dirIndex (t : Tree) (directory : CString) : Nat := t.dirs.findIdx (·.dname == directory)

/-- The index of the file of that name, or the number of files. -/
def Directory.fileIndex (D : Directory) (filename extension : CString) : Nat :=
  D.files.findIdx fun f => f.fname == filename && f.fext == extension

/-- The file of those names. -/
def Tree.find (t : Tree) (names : Names) : Option File :=
  t.dirs[t.dirIndex names.directory]?.bind fun D => D.files[D.fileIndex names.filename names.extension]?

/-- The files of one directory changed. -/
def Tree.modify (t : Tree) (i : Nat) (g : List File → List File) (used : Nat) : Tree where
  dirs := t.dirs.modify i fun D => { D with files := g D.files }
  used

/-- The position in its chain of the block where a request at an offset starts: the one with the byte
in front of the offset, so that on a boundary it is the block before it. -/
def startBlock (offset : Nat) : Nat := (offset - 1) / maxDataInBlock

/-- The offset within that block, `adjusted_offset`. -/
def adjusted (offset : Nat) : Nat := offset - maxDataInBlock * startBlock offset

/-- A write makes the file end behind the bytes written, and gives it the fresh block where they do
not fit into the block they start in. -/
def File.write (f : File) (fresh : Nat) (buf : List UInt8) (offset : Nat) : File where
  fname := f.fname
  fext := f.fext
  contents := f.contents.take offset ++ buf
  chain :=
    if adjusted offset + buf.length ≤ maxDataInBlock then f.chain else f.chain.take (startBlock offset + 1) ++ [fresh]

/-! ## The requests on the abstract state -/

/-- `cs1550_mkdir` on the abstract state. -/
def Tree.mkdir (t : Tree) (path : CString) (names : Names) : Int × Tree :=
  let (count, names) := sscanf path names
  if count ≠ 1 then (-EPERM, t)
  else if names.directory.1.length > maxDirname then (-ENAMETOOLONG, t)
  else if t.dirIndex names.directory < t.dirs.length then (-EEXIST, t)
  else if t.dirs.length ≥ maxDirsInRoot then (-ENOSPC, t)
  else (0, { dirs := t.dirs ++ [⟨names.directory, t.used + 1, []⟩], used := t.used + 1 })

/-- `cs1550_mknod` on the abstract state. -/
def Tree.mknod (t : Tree) (path : CString) (names : Names) : Int × Tree :=
  let (count, names) := sscanf path names
  if count < 3 then (-EPERM, t)
  else if names.filename.1.length > maxFilename ∨ names.extension.1.length > maxExtension then (-ENAMETOOLONG, t)
  else
    match t.dirs[t.dirIndex names.directory]? with
    | none => (-ENOENT, t)
    | some D =>
      if D.fileIndex names.filename names.extension < D.files.length then (-EEXIST, t)
      else
        let file := ⟨names.filename, names.extension, [], [t.used + 1]⟩
        (0, t.modify (t.dirIndex names.directory) (· ++ [file]) (t.used + 1))

/-- `cs1550_write` on the abstract state. -/
def Tree.write (t : Tree) (path : CString) (names : Names) (buf : List UInt8) (offset : Int) : Int × Tree :=
  let (count, names) := sscanf path names
  if buf.length = 0 then (-EPERM, t)
  else if count ≠ 3 then (-EEXIST, t)
  else
    match t.dirs[t.dirIndex names.directory]? with
    | none => (-EEXIST, t)
    | some D =>
      match D.files[D.fileIndex names.filename names.extension]? with
      | none => (-ENOENT, t)
      | some f =>
        if asSize offset > f.contents.length then (-EFBIG, t)
        else
          let used := if adjusted (asSize offset) + buf.length ≤ maxDataInBlock then t.used else t.used + 1
          (asInt buf.length, t.modify (t.dirIndex names.directory)
            (·.set (D.fileIndex names.filename names.extension) (f.write (t.used + 1) buf (asSize offset))) used)

/-- `cs1550_getattr` on the abstract state. -/
def Tree.getattr (t : Tree) (path : CString) (names : Names) : Int × Stat :=
  if path.1 = [slash] then (0, .directory)
  else
    let (count, names) := sscanf path names
    if count < 1 then (-ENOENT, .zero)
    else
      match t.dirs[t.dirIndex names.directory]? with
      | none => (-ENOENT, .zero)
      | some D =>
        if count = 1 then (0, .directory)
        else
          match D.files[D.fileIndex names.filename names.extension]? with
          | none => (-ENOENT, .zero)
          | some f => (0, .regular f.contents.length)

/-! ## The representation -/

/-- An entry of the root. -/
structure DirStored (m : Mem) (D : Directory) : Prop where
  dname : CStr m 0 D.dname.1
  short : D.dname.1.length ≤ maxDirname
  start : getInt m 9 8 = D.block

/-- How the root stores its entries. -/
def dirCodec : Codec Directory where
  stride := dirEntrySize
  Stored := DirStored
  stored_congr {m m' D} h hm := by
    have hlen := h.short
    simp only [dirEntrySize, maxDirname] at hm hlen
    exact ⟨h.dname.congr fun i hi => hm _ (by omega), h.short,
      h.start ▸ getInt_congr fun i hi => hm _ (by omega)⟩

/-- An entry of a directory. -/
structure FileStored (m : Mem) (f : File) : Prop where
  fname : CStr m 0 f.fname.1
  fnameShort : f.fname.1.length ≤ maxFilename
  fext : CStr m 9 f.fext.1
  fextShort : f.fext.1.length ≤ maxExtension
  fsize : getNat m 13 8 = f.contents.length
  start : getInt m 21 8 = (f.chain.headD 0 : Nat)

/-- How a directory stores its entries. -/
def fileCodec : Codec File where
  stride := fileEntrySize
  Stored := FileStored
  stored_congr {m m' f} h hm := by
    have hlen := h.fnameShort
    have hext := h.fextShort
    simp only [fileEntrySize, maxFilename, maxExtension] at hm hlen hext
    exact ⟨h.fname.congr fun i hi => hm _ (by omega), h.fnameShort, h.fext.congr fun i hi => hm _ (by omega),
      h.fextShort, h.fsize ▸ getNat_congr fun i hi => hm _ (by omega),
      h.start ▸ getInt_congr fun i hi => hm _ (by omega)⟩

/-- The chain of a file and its contents on the image. -/
structure Chained (d : Disk) (f : File) : Prop where
  nonempty : 0 < f.chain.length
  enough : f.contents.length ≤ maxDataInBlock * f.chain.length
  linked : ∀ n b, f.chain[n]? = some b → next (d.block b) = (f.chain[n + 1]?.getD 0 : Nat)
  data : ∀ p x, f.contents[p]? = some x →
    ∃ b, f.chain[p / maxDataInBlock]? = some b ∧ d.block b (p % maxDataInBlock) = x

/-- An image of `N` blocks and the cursor represent a tree. -/
structure Rep (N : Nat) (v : Volume) (t : Tree) : Prop where
  size : v.disk.size = blockSize * N
  room : t.used + bitmapSizeInBlocks < N
  cursor : v.cursor = (max 1 t.used : Nat)
  taken : ∀ b, v.disk.taken b = decide (1 ≤ b ∧ b ≤ t.used)
  root : Holds dirCodec maxDirsInRoot (v.disk.block 0) t.dirs
  directory : ∀ (i : Nat) (D : Directory), t.dirs[i]? = some D →
    Holds fileCodec maxFilesInDir (v.disk.block D.block) D.files
  file : ∀ (i : Nat) (D : Directory) (j : Nat) (f : File), t.dirs[i]? = some D → D.files[j]? = some f →
    Chained v.disk f
  within : ∀ p b, t.blockAt p = some b → 1 ≤ b ∧ b ≤ t.used
  apart : ∀ p q b, t.blockAt p = some b → t.blockAt q = some b → p = q
  fresh : ∀ b, t.used < b → b + bitmapSizeInBlocks < N → ∀ i < blockSize, v.disk.block b i = 0

end CS1550.Fs
