/-
The disk image of the filesystem `cs1550.c` and the accesses its handlers make to it: `open_block`,
`write_block`, the single-byte reads and writes of the bitmap, and the loads and stores of
`next_free_block_index`. Every request opens the image for itself, so the position in the stream is
private to the request; a seek in front of the image fails and leaves it where it was.
-/
import CS1550.Lib.Bytes
import CS1550.Lib.Prog

namespace CS1550.Fs

open Bytes

/-- `BLOCK_SIZE` -/
def blockSize : Nat := 512

/-- `BITMAP_SIZE_IN_BLOCKS` -/
def bitmapSizeInBlocks : Nat := 3

/-- `TOTAL_BLOCKS`, the bound of the allocator's loop. -/
def totalBlocks : Int := 512 * 1024 * 1024 / 512 - 3

/-- The file `.disk`. -/
@[ext] structure Disk where
  size : Nat
  byte : Mem
  /-- What is behind the end is not there: a hole left by a later write reads as zeros. -/
  beyond : ∀ i, size ≤ i → byte i = 0

/-- `fwrite` of `n` bytes at a position; behind the end of the file it makes the file longer. -/
def Disk.write (d : Disk) (pos n : Nat) (f : Mem) : Disk where
  size := max d.size (pos + n)
  byte := splice d.byte pos n f
  beyond i hi := by
    rw [splice_outside (by omega)]
    exact d.beyond i (by omega)

/-- The contents of a block. -/
def Disk.block (d : Disk) (b : Nat) : Mem := shift d.byte (blockSize * b)

/-- What the requests share: the image, and the static `next_free_block_index`. -/
@[ext] structure Volume where
  disk : Disk
  cursor : Int

/-! ## Accesses -/

/-- The accesses of a request to what it shares with others. -/
inductive Op
  | openBlock (index : Int)
  | writeBlock (index : Int) (block : Mem)
  /-- `fseek(disk, position, SEEK_END)` and `fread(&byte, 1, 1, disk)` -/
  | readByte (position : Int)
  /-- `fseek(disk, -1, SEEK_CUR)` and `fwrite(&byte, 1, 1, disk)` -/
  | writeByte (byte : UInt8)
  | loadCursor
  | storeCursor (i : Int)

/-- What an access returns. -/
@[reducible] def Res : Op → Type
  | .openBlock _ => Mem
  | .writeBlock .. => Unit
  -- nothing is read at the end of the file
  | .readByte _ => Option UInt8
  | .writeByte _ => Unit
  | .loadCursor => Int
  | .storeCursor _ => Unit

/-- A request. -/
abbrev Req := Prog Op Res

/-- `fseek(disk, BLOCK_SIZE * index, SEEK_SET)` -/
def seekSet (index : Int) (pos : Nat) : Nat := if 0 ≤ index then blockSize * index.toNat else pos

/-- `fseek(disk, position, SEEK_END)` -/
def seekEnd (d : Disk) (position : Int) (pos : Nat) : Nat :=
  if 0 ≤ d.size + position then (d.size + position).toNat else pos

/-- The bytes of a block, as `calloc` and `fread` leave them. -/
def blockOnly (m : Mem) : Mem := fun i => if i < blockSize then m i else 0

/-- An access made from a position in the stream: what it returns, and the position and the state it leaves. -/
def exec : (op : Op) → Nat → Volume → Res op × Nat × Volume
  | .openBlock index, pos, v =>
    let pos := seekSet index pos
    (blockOnly (shift v.disk.byte pos), max pos (min (pos + blockSize) v.disk.size), v)
  | .writeBlock index block, pos, v =>
    let pos := seekSet index pos
    ((), pos + blockSize, { v with disk := v.disk.write pos blockSize block })
  | .readByte position, pos, v =>
    let pos := seekEnd v.disk position pos
    if pos < v.disk.size then (some (v.disk.byte pos), pos + 1, v) else (none, pos, v)
  -- at position 0 the seek fails
  | .writeByte byte, pos, v => ((), pos - 1 + 1, { v with disk := v.disk.write (pos - 1) 1 fun _ => byte })
  | .loadCursor, pos, v => (v.cursor, pos, v)
  | .storeCursor i, pos, v => ((), pos, { v with cursor := i })

/-- The machine that the requests run on. -/
def machine : Machine Op Res Nat Volume := ⟨exec⟩

/-- A request served alone, on a stream that `open_disk` has just opened. -/
def serve {α : Type} (p : Req α) (v : Volume) : α × Volume := ((machine.run p 0 v).1, (machine.run p 0 v).2.2)

/-- The bytes of a block, as `open_block` reads them. -/
def readBlock (index : Int) : Req Mem := Prog.perform (Op.openBlock index)

/-- `write_block` -/
def writeBlock (index : Int) (block : Mem) : Req Unit := Prog.perform (Op.writeBlock index block)

/-- A byte of the bitmap read. -/
def readByte (position : Int) : Req (Option UInt8) := Prog.perform (Op.readByte position)

/-- The byte read last written back. -/
def writeByte (byte : UInt8) : Req Unit := Prog.perform (Op.writeByte byte)

/-- `next_free_block_index` read. -/
def loadCursor : Req Int := Prog.perform Op.loadCursor

/-- `next_free_block_index` set. -/
def storeCursor (i : Int) : Req Unit := Prog.perform (Op.storeCursor i)

/-- A block in memory, where it is followed by whatever else is on the heap. -/
def onHeap (heap block : Mem) : Mem := fun i => if i < blockSize then block i else heap i

/-- `open_block` -/
def openBlock (heap : Mem) (index : Int) : Req Mem := do
  let block ← readBlock index
  pure (onHeap heap block)

/-! ## Bitmap -/

/-- `get_ith_bit` -/
def getIthBit (byte : UInt8) (position : Int) : Nat := (byte.toNat >>> (8 - position - 1).toNat) &&& 1

/-- The `int` that `set_ith_bit` returns, as it is stored back into an `unsigned char`. -/
def setIthBit (byte : UInt8) (position : Int) (val : Nat) : UInt8 :=
  if val = 1 then UInt8.ofNat (byte.toNat ||| 1 <<< (8 - position - 1).toNat)
  else byte &&& ~~~ UInt8.ofNat (1 <<< (8 - position - 1).toNat)

/-- The position of a block's bit from the end of the image. -/
def bitmapPosition (i : Int) : Int := -(blockSize * bitmapSizeInBlocks) + i.tdiv 8

/-- The loop of `find_next_free_block_index`, with the number of turns left. -/
def findFrom : Nat → Int → Req Int
  | 0, _ => pure (-1)
  | turns + 1, i => do
    let byte ← readByte (bitmapPosition i)
    if getIthBit (byte.getD 0) (i.tmod 8) = 0 then do
      storeCursor i
      loadCursor
    else findFrom turns (i + 1)

/-- `find_next_free_block_index` -/
def findNextFreeBlockIndex : Req Int := do
  let cursor ← loadCursor
  -- a `long` assigned to an `int`
  let i := cursor.bmod (2 ^ 32)
  findFrom (totalBlocks - i).toNat i

/-- The local `byte` is not initialised: `stack` is what it holds when nothing is read into it. -/
def setBitmap (stack : UInt8) (index : Int) (isTaken : Nat) : Req Int := do
  let byte ← readByte (bitmapPosition index)
  writeByte (setIthBit (byte.getD stack) (index.tmod 8) isTaken)
  pure (-1)

end CS1550.Fs
