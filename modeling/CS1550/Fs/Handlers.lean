/-
The handlers of the filesystem `cs1550.c`, with the packed layout of its blocks. A handler is a
program over the accesses of `Fs.Disk`; its result is what it returns to FUSE.

`open_disk` is taken to succeed, and `free` leaves nothing to model. A request alone does not see what
its stream buffers up to `close_disk`; `Fs.Streams` is about two of them. The `size_t`s are numbers below
2^64 with the wrap-around written out. A `memcpy` longer than the buffer, which C leaves undefined, stops
at its end.
-/
import CS1550.Fs.Disk
import CS1550.Fs.Path

namespace CS1550.Fs

open Bytes

/-! ## Layout -/

/-- `MAX_FILENAME` -/
def maxFilename : Nat := 8

/-- `MAX_EXTENSION` -/
def maxExtension : Nat := 3

/-- `MAX_DIRNAME` -/
def maxDirname : Nat := 8

/-- `sizeof(struct cs1550_file_directory)` -/
def fileEntrySize : Nat := (maxFilename + 1) + (maxExtension + 1) + 8 + 8

/-- `sizeof(struct cs1550_directory)` -/
def dirEntrySize : Nat := (maxDirname + 1) + 8

/-- `MAX_FILES_IN_DIR` -/
def maxFilesInDir : Nat := (blockSize - 4) / fileEntrySize

/-- `MAX_DIRS_IN_ROOT` -/
def maxDirsInRoot : Nat := (blockSize - 4) / dirEntrySize

/-- `MAX_DATA_IN_BLOCK` -/
def maxDataInBlock : Nat := blockSize - 8

/-- `root->nDirectories` -/
def nDirectories (root : Mem) : Int := getInt root 0 4

/-- The address of `directories[i]`, which starts with its `dname`. -/
def directoryAt (i : Nat) : Nat := 4 + dirEntrySize * i

/-- `root->directories[i].nStartBlock` -/
def dirStartBlock (root : Mem) (i : Nat) : Int := getInt root (directoryAt i + 9) 8

/-- `dir->nFiles` -/
def nFiles (dir : Mem) : Int := getInt dir 0 4

/-- The address of `files[i]`, which starts with its `fname`. -/
def fileAt (i : Nat) : Nat := 4 + fileEntrySize * i

/-- `dir->files[i].fsize` -/
def fsize (dir : Mem) (i : Nat) : Nat := getNat dir (fileAt i + 13) 8

/-- `dir->files[i].nStartBlock` -/
def fileStartBlock (dir : Mem) (i : Nat) : Int := getInt dir (fileAt i + 21) 8

/-- The `next` of a block of a file. -/
def next (block : Mem) : Int := getInt block maxDataInBlock 8

/-! ## Numbers -/

/-- Operation not permitted. -/
def EPERM : Int := 1
/-- No such file or directory. -/
def ENOENT : Int := 2
/-- File exists. -/
def EEXIST : Int := 17
/-- Is a directory. -/
def EISDIR : Int := 21
/-- File too large. -/
def EFBIG : Int := 27
/-- No space left on device. -/
def ENOSPC : Int := 28
/-- File name too long. -/
def ENAMETOOLONG : Int := 36

/-- A signed number converted to `size_t`. -/
def asSize (v : Int) : Nat := (v % 2 ^ 64).toNat

/-- A sum of `size_t`s. -/
def addSize (a b : Nat) : Nat := (a + b) % 2 ^ 64

/-- A difference of `size_t`s. -/
def subSize (a b : Nat) : Nat := (a + 2 ^ 64 - b) % 2 ^ 64

/-- A `size_t` returned as an `int`. -/
def asInt (n : Nat) : Int := Int.bmod n (2 ^ 32)

/-! ## Lookup -/

/-- What a request finds in memory that it has not written: the heap behind a block, the local `byte`
of `set_bitmap`, and the arrays that `sscanf` fills. -/
structure Memory where
  heap : Mem
  stack : UInt8
  names : Names

/-- `open_root` -/
def openRoot (mem : Memory) : Req Mem := openBlock mem.heap 0

/-- `save_root` -/
def saveRoot (root : Mem) : Req Unit := writeBlock 0 root

/-- `open_dir` -/
def openDir (mem : Memory) (index : Int) : Req Mem := openBlock mem.heap index

/-- `save_dir` -/
def saveDir (diskDirBlockIndex : Int) (dir : Mem) : Req Unit := writeBlock diskDirBlockIndex dir

/-- The loop over `root->directories`: the first one of that name, or where the loop ends. -/
def findDirectory (root : Mem) (directory : List UInt8) : Nat :=
  (List.range (nDirectories root).toNat).findIdx fun i => strEq root (directoryAt i) directory

/-- The loop over `current_dir->files`. -/
def findFile (dir : Mem) (filename extension : List UInt8) : Nat :=
  (List.range (nFiles dir).toNat).findIdx fun i =>
    strEq dir (fileAt i) filename && strEq dir (fileAt i + 9) extension

/-- The part that the handlers on files have in common: the directory of that name opened, with the index
of its block. -/
def withDirectory {α : Type} (mem : Memory) (directory : CString) (notFound : α) (k : Int → Mem → Req α) : Req α := do
  let root ← openRoot mem
  let dirIndex := findDirectory root directory.1
  if (dirIndex : Int) = nDirectories root then pure notFound
  else do
    let dirBlockLocation := dirStartBlock root dirIndex
    let currentDir ← openDir mem dirBlockLocation
    k dirBlockLocation currentDir

/-- The same with the index of the file in its directory. -/
def withFile {α : Type} (mem : Memory) (names : Names) (noDirectory noFile : α) (k : Int → Mem → Nat → Req α) : Req α :=
  withDirectory mem names.directory noDirectory fun dirBlockLocation currentDir =>
    let fileIndex := findFile currentDir names.filename.1 names.extension.1
    if (fileIndex : Int) = nFiles currentDir then pure noFile else k dirBlockLocation currentDir fileIndex

/-! ## Directories and files -/

/-- `cs1550_mkdir` -/
def cs1550Mkdir (mem : Memory) (path : CString) : Req Int :=
  let (count, names) := sscanf path mem.names
  if count ≠ 1 then pure (-EPERM)
  else if names.directory.1.length > maxDirname then pure (-ENAMETOOLONG)
  else do
    let root ← openRoot mem
    if (findDirectory root names.directory.1 : Int) < nDirectories root then pure (-EEXIST)
    else if asSize (nDirectories root) ≥ maxDirsInRoot then pure (-ENOSPC)
    else do
      let dirIndex := (nDirectories root).toNat
      let root := putInt root 0 4 (nDirectories root + 1)
      let root := strcpy root (directoryAt dirIndex) names.directory.1
      let nextOpenBlock ← findNextFreeBlockIndex
      if nextOpenBlock < 0 then pure (-ENOSPC)
      else do
        let root := putInt root (directoryAt dirIndex + 9) 8 nextOpenBlock
        let _ ← setBitmap mem.stack nextOpenBlock 1
        saveRoot root
        pure 0

/-- `cs1550_mknod` -/
def cs1550Mknod (mem : Memory) (path : CString) : Req Int :=
  let (count, names) := sscanf path mem.names
  if count < 3 then pure (-EPERM)
  else if names.filename.1.length > maxFilename ∨ names.extension.1.length > maxExtension then pure (-ENAMETOOLONG)
  else
    withDirectory mem names.directory (-ENOENT) fun dirBlockLocation currentDir =>
      if (findFile currentDir names.filename.1 names.extension.1 : Int) < nFiles currentDir then pure (-EEXIST)
      else if asSize (nFiles currentDir) > maxFilesInDir then pure (-ENOSPC)
      else do
        let fileIndex := (nFiles currentDir).toNat
        let currentDir := putInt currentDir 0 4 (nFiles currentDir + 1)
        let currentDir := strcpy currentDir (fileAt fileIndex) names.filename.1
        let currentDir := strcpy currentDir (fileAt fileIndex + 9) names.extension.1
        let currentDir := putInt currentDir (fileAt fileIndex + 13) 8 0
        let nextOpenBlock ← findNextFreeBlockIndex
        if nextOpenBlock < 0 then pure (-ENOSPC)
        else do
          let currentDir := putInt currentDir (fileAt fileIndex + 21) 8 nextOpenBlock
          let _ ← setBitmap mem.stack nextOpenBlock 1
          saveDir dirBlockLocation currentDir
          pure 0

/-! ## File contents -/

/-- A block of a chain as `cs1550_read` and `cs1550_write` reach it. -/
structure Cursor where
  blockIndex : Int
  block : Mem
  adjustedOffset : Nat
  /-- The chain did not end before the offset. -/
  reached : Bool

/-- The loop that follows `next` up to the block of the offset, with the number of turns left. -/
def walk (mem : Memory) (offset : Nat) : Nat → Int → Mem → Nat → Nat → Req Cursor
  | 0, blockIndex, block, _, adjustedOffset => pure ⟨blockIndex, block, adjustedOffset, true⟩
  | turns + 1, blockIndex, block, sizeSoFar, adjustedOffset =>
    if offset ≤ sizeSoFar then pure ⟨blockIndex, block, adjustedOffset, true⟩
    else if next block = 0 then pure ⟨blockIndex, block, adjustedOffset, false⟩
    else do
      let blockIndex := next block
      let block ← openBlock mem.heap blockIndex
      walk mem offset turns blockIndex block (addSize sizeSoFar maxDataInBlock) (subSize adjustedOffset maxDataInBlock)

/-- The walk from a file's first block; `offset / MAX_DATA_IN_BLOCK` turns are enough. -/
def walkTo (mem : Memory) (startBlock : Int) (offset : Nat) : Req Cursor := do
  let block ← openBlock mem.heap startBlock
  walk mem offset (offset / maxDataInBlock) startBlock block maxDataInBlock offset

/-- `while (size > 0)` of `cs1550_write`, with the number of turns left; what is left of the buffer
stands for `buf` and `size`. -/
def writeLoop (mem : Memory) (adjustedOffset : Nat) : Nat → Int → Mem → List UInt8 → Req Unit
  | 0, _, _, _ => pure ()
  | turns + 1, blockIndex, block, buf =>
    if buf.length = 0 then pure ()
    else if buf.length > maxDataInBlock then do
      let block := put block adjustedOffset (buf.take maxDataInBlock)
      let nextOpenBlock ← findNextFreeBlockIndex
      writeBlock blockIndex (putInt block maxDataInBlock 8 nextOpenBlock)
      let block ← openBlock mem.heap nextOpenBlock
      writeLoop mem adjustedOffset turns nextOpenBlock block (buf.drop maxDataInBlock)
    else writeBlock blockIndex (put block adjustedOffset buf)

/-- What `cs1550_write` does from the block of the offset on. -/
def writeAt (mem : Memory) (c : Cursor) (buf : List UInt8) : Req Unit :=
  if addSize c.adjustedOffset buf.length > maxDataInBlock then do
    let nextOpenBlock ← findNextFreeBlockIndex
    let block := putInt c.block maxDataInBlock 8 nextOpenBlock
    let _ ← setBitmap mem.stack nextOpenBlock 1
    let sizeWrittenSoFar := subSize maxDataInBlock c.adjustedOffset
    writeBlock c.blockIndex (put block c.adjustedOffset (buf.take sizeWrittenSoFar))
    let buf := buf.drop sizeWrittenSoFar
    let block ← openBlock mem.heap nextOpenBlock
    writeLoop mem 0 (buf.length / maxDataInBlock + 1) nextOpenBlock block buf
  else writeLoop mem c.adjustedOffset (buf.length / maxDataInBlock + 1) c.blockIndex c.block buf

/-- What `cs1550_write` does with the file it has found. -/
def writeFile (mem : Memory) (buf : List UInt8) (offset dirBlockLocation : Int) (currentDir : Mem) (fileIndex : Nat) :
    Req Int :=
  if asSize offset > fsize currentDir fileIndex then pure (-EFBIG)
  else do
    let totalFsize := addSize (asSize offset) buf.length
    let c ← walkTo mem (fileStartBlock currentDir fileIndex) (asSize offset)
    writeAt mem c buf
    saveDir dirBlockLocation (putInt currentDir (fileAt fileIndex + 13) 8 totalFsize)
    pure (asInt buf.length)

/-- `cs1550_write` -/
def cs1550Write (mem : Memory) (path : CString) (buf : List UInt8) (offset : Int) : Req Int :=
  let (count, names) := sscanf path mem.names
  if buf.length = 0 then pure (-EPERM)
  else if count ≠ 3 then pure (-EEXIST)
  else withFile mem names (-EEXIST) (-ENOENT) (writeFile mem buf offset)

/-- `while (size_read < (fsize - offset))` of `cs1550_read`, with the number of turns left; the bytes it
stores at `buf`. It reads to the end of the file, whatever `size` is. -/
def readLoop (mem : Memory) (adjustedOffset : Nat) : Nat → Mem → Nat → Req (List UInt8)
  | 0, _, _ => pure []
  | turns + 1, block, sizeLeft =>
    if sizeLeft = 0 then pure []
    else if sizeLeft > maxDataInBlock then do
      let out := get block adjustedOffset maxDataInBlock
      if next block = 0 then pure out
      else do
        let block ← openBlock mem.heap (next block)
        let rest ← readLoop mem adjustedOffset turns block (sizeLeft - maxDataInBlock)
        pure (out ++ rest)
    else pure (get block adjustedOffset sizeLeft)

/-- What `cs1550_read` does from the block of the offset on, for a file of which `left` bytes follow the
offset: the value returned and the bytes stored at `buf`. -/
def readAt (mem : Memory) (c : Cursor) (size left : Nat) : Req (Int × List UInt8) :=
  if addSize c.adjustedOffset size > maxDataInBlock then do
    let sizeReadSoFar := subSize maxDataInBlock c.adjustedOffset
    let out := get c.block c.adjustedOffset sizeReadSoFar
    if next c.block = 0 then pure (-ENOENT, out)
    else do
      let block ← openBlock mem.heap (next c.block)
      let rest ← readLoop mem 0 (left / maxDataInBlock + 1) block (left - sizeReadSoFar)
      pure (asInt size, out ++ rest)
  else do
    let out ← readLoop mem c.adjustedOffset (left / maxDataInBlock + 1) c.block left
    pure (asInt size, out)

/-- `cs1550_read`: the value returned and the bytes stored at `buf`. -/
def cs1550Read (mem : Memory) (path : CString) (size : Nat) (offset : Int) : Req (Int × List UInt8) :=
  let (count, names) := sscanf path mem.names
  if size = 0 then pure (-EPERM, [])
  else if count ≠ 3 then pure (-EISDIR, [])
  else if names.directory.1.length > maxDirname ∨ names.filename.1.length > maxFilename ∨
      names.extension.1.length > maxExtension then pure (-ENOENT, [])
  else
    withFile mem names (-ENOENT, []) (-ENOENT, []) fun _ currentDir fileIndex => do
      let fsize := fsize currentDir fileIndex
      let left := subSize fsize (asSize offset)
      let size := if addSize (asSize offset) size > fsize then left else size
      let c ← walkTo mem (fileStartBlock currentDir fileIndex) (asSize offset)
      if c.reached then readAt mem c size left else pure (-ENOENT, [])

/-! ## Attributes and listings -/

/-- The fields of `struct stat` that are set. -/
structure Stat where
  mode : Nat
  nlink : Nat
  size : Nat
  deriving DecidableEq

/-- After `memset(stbuf, 0, sizeof(struct stat))`. -/
def Stat.zero : Stat := ⟨0, 0, 0⟩

/-- `S_IFDIR | 0755` -/
def Stat.directory : Stat := ⟨0o040755, 2, 0⟩

/-- `S_IFREG | 0666` -/
def Stat.regular (size : Nat) : Stat := ⟨0o100666, 1, size⟩

/-- `cs1550_getattr`: the value returned and the attributes stored at `stbuf`. -/
def cs1550Getattr (mem : Memory) (path : CString) : Req (Int × Stat) :=
  if path.1 = [slash] then pure (0, .directory)
  else
    let (count, names) := sscanf path mem.names
    if count < 1 then pure (-ENOENT, .zero)
    else do
      let root ← openRoot mem
      let dirIndex := findDirectory root names.directory.1
      if (dirIndex : Int) = nDirectories root then pure (-ENOENT, .zero)
      else if count = 1 then pure (0, .directory)
      else do
        let currentDir ← openDir mem (dirStartBlock root dirIndex)
        let fileIndex := findFile currentDir names.filename.1 names.extension.1
        if (fileIndex : Int) = nFiles currentDir then pure (-ENOENT, .zero)
        else pure (0, .regular (fsize currentDir fileIndex))

/-- The names given to `filler`; a string without a NUL is cut off after the length of a block. -/
def cs1550Readdir (mem : Memory) (path : CString) : Req (Int × List (List UInt8)) := do
  let root ← openRoot mem
  let dots : List (List UInt8) := [[dot], [dot, dot]]
  if path.1 = [slash] then
    pure (0, dots ++ (List.range (nDirectories root).toNat).map fun i => readStr root blockSize (directoryAt i))
  else
    let (count, names) := sscanf path mem.names
    if count > 1 then pure (-ENOENT, dots)
    else
      let dirIndex := findDirectory root names.directory.1
      if (dirIndex : Int) = nDirectories root then pure (-ENOENT, dots)
      else do
        let currentDir ← openDir mem (dirStartBlock root dirIndex)
        pure (0, dots ++ (List.range (nFiles currentDir).toNat).map fun i =>
          readStr currentDir blockSize (fileAt i) ++ dot :: readStr currentDir blockSize (fileAt i + 9))

end CS1550.Fs
