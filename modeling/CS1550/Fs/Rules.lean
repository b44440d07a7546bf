/-
Judgements on handlers. The handlers are put together from a few accesses, so a judgement on programs that
goes through sequences of them, with what the first part returns as an assumption on the second, holds of
every handler as soon as it holds of these accesses: `Reading` for the handlers that only read, and `Rules`
for all of them.
-/
import CS1550.Fs.Handlers

namespace CS1550.Fs

open Bytes

variable {J : {α : Type} → (α → Prop) → Req α → Prop}

/-- The judgement goes through sequences, and holds of `open_block`. -/
structure Reading (J : {α : Type} → (α → Prop) → Req α → Prop) : Prop where
  pure : ∀ {α : Type} {Q : α → Prop} {a : α}, Q a → J Q (pure a)
  bind : ∀ {α β : Type} {P : α → Prop} {Q : β → Prop} {p : Req α} {f : α → Req β}, J P p → (∀ a, P a → J Q (f a)) →
    J Q (p >>= f)
  openBlock : ∀ heap index, J (fun _ => True) (openBlock heap index)

/-- The judgement also holds of the accesses that change something: an index that was handed out meets
`Handed`, and only such an index is marked. -/
structure Rules (J : {α : Type} → (α → Prop) → Req α → Prop) (Handed : Int → Prop) : Prop extends Reading J where
  writeBlock : ∀ index block, J (fun _ => True) (writeBlock index block)
  findNext : J Handed findNextFreeBlockIndex
  setBitmap : ∀ stack index, Handed index → J (fun _ => True) (setBitmap stack index 1)

/-- Opening a block leaves everything as it is. -/
theorem reading_ensures (I : Volume → Prop) : Reading (fun Q p => machine.Ensures I Q p) where
  pure := .pure
  bind := .bind
  openBlock _ _ _ _ hv := ⟨trivial, hv⟩

/-! ## Handlers that read -/

section Reading

theorem Reading.withDirectory (h : Reading J) {α : Type} {Q : α → Prop} (mem : Memory) (directory : CString)
    {notFound : α} (hnot : Q notFound) {k : Int → Mem → Req α} (hk : ∀ b dir, J Q (k b dir)) :
    J Q (withDirectory mem directory notFound k) := by
  refine h.bind (h.openBlock _ _) fun root _ => ?_
  dsimp only
  split
  · exact h.pure hnot
  · exact h.bind (h.openBlock _ _) fun dir _ => hk _ dir

theorem Reading.withFile (h : Reading J) {α : Type} {Q : α → Prop} (mem : Memory) (names : Names)
    {noDirectory noFile : α} (hdir : Q noDirectory) (hfile : Q noFile) {k : Int → Mem → Nat → Req α}
    (hk : ∀ b dir i, J Q (k b dir i)) : J Q (withFile mem names noDirectory noFile k) := by
  refine h.withDirectory _ _ hdir fun b dir => ?_
  dsimp only
  split
  · exact h.pure hfile
  · exact hk b dir _

theorem Reading.walk (h : Reading J) (mem : Memory) (offset : Nat) : ∀ (turns : Nat) (blockIndex : Int) (block : Mem)
    (sizeSoFar adjustedOffset : Nat), J (fun _ => True) (walk mem offset turns blockIndex block sizeSoFar adjustedOffset)
  | 0, _, _, _, _ => h.pure trivial
  | turns + 1, _, _, _, _ => by
    rw [Fs.walk]
    split
    · exact h.pure trivial
    · split
      · exact h.pure trivial
      · exact h.bind (h.openBlock _ _) fun _ _ => h.walk mem offset turns _ _ _ _

theorem Reading.walkTo (h : Reading J) (mem : Memory) (startBlock : Int) (offset : Nat) :
    J (fun _ => True) (walkTo mem startBlock offset) :=
  h.bind (h.openBlock _ _) fun _ _ => h.walk _ _ _ _ _ _ _

theorem Reading.readLoop (h : Reading J) (mem : Memory) (adjustedOffset : Nat) : ∀ (turns : Nat) (block : Mem)
    (sizeLeft : Nat), J (fun _ => True) (readLoop mem adjustedOffset turns block sizeLeft)
  | 0, _, _ => h.pure trivial
  | turns + 1, _, _ => by
    rw [Fs.readLoop]
    split
    · exact h.pure trivial
    · split
      · dsimp only
        split
        · exact h.pure trivial
        · exact h.bind (h.openBlock _ _) fun _ _ => h.bind (h.readLoop mem adjustedOffset turns _ _) fun _ _ =>
            h.pure trivial
      · exact h.pure trivial

theorem Reading.readAt (h : Reading J) (mem : Memory) (c : Cursor) (size left : Nat) :
    J (fun _ => True) (readAt mem c size left) := by
  unfold Fs.readAt
  split
  · dsimp only
    split
    · exact h.pure trivial
    · exact h.bind (h.openBlock _ _) fun _ _ => h.bind (h.readLoop _ _ _ _ _) fun _ _ => h.pure trivial
  · exact h.bind (h.readLoop _ _ _ _ _) fun _ _ => h.pure trivial

theorem Reading.read (h : Reading J) (mem : Memory) (path : CString) (size : Nat) (offset : Int) :
    J (fun _ => True) (cs1550Read mem path size offset) := by
  unfold cs1550Read
  dsimp only
  split
  · exact h.pure trivial
  split
  · exact h.pure trivial
  split
  · exact h.pure trivial
  refine h.withFile _ _ trivial trivial fun b dir i => h.bind (h.walkTo _ _ _) fun c _ => ?_
  split
  · exact h.readAt _ _ _ _
  · exact h.pure trivial

theorem Reading.getattr (h : Reading J) (mem : Memory) (path : CString) :
    J (fun _ => True) (cs1550Getattr mem path) := by
  unfold cs1550Getattr
  split
  · exact h.pure trivial
  dsimp only
  split
  · exact h.pure trivial
  refine h.bind (h.openBlock _ _) fun root _ => ?_
  split
  · exact h.pure trivial
  split
  · exact h.pure trivial
  refine h.bind (h.openBlock _ _) fun dir _ => ?_
  split
  · exact h.pure trivial
  · exact h.pure trivial

theorem Reading.readdir (h : Reading J) (mem : Memory) (path : CString) :
    J (fun _ => True) (cs1550Readdir mem path) := by
  unfold cs1550Readdir
  refine h.bind (h.openBlock _ _) fun root _ => ?_
  dsimp only
  split
  · exact h.pure trivial
  split
  · exact h.pure trivial
  split
  · exact h.pure trivial
  · exact h.bind (h.openBlock _ _) fun dir _ => h.pure trivial

end Reading

/-! ## Handlers that write -/

section Writing

variable {Handed : Int → Prop}

theorem Rules.mkdir (h : Rules J Handed) (mem : Memory) (path : CString) :
    J (fun _ => True) (cs1550Mkdir mem path) := by
  unfold cs1550Mkdir
  dsimp only
  split
  · exact h.pure trivial
  split
  · exact h.pure trivial
  refine h.bind (h.openBlock _ _) fun root _ => ?_
  split
  · exact h.pure trivial
  split
  · exact h.pure trivial
  refine h.bind h.findNext fun b hb => ?_
  split
  · exact h.pure trivial
  · exact h.bind (h.setBitmap _ _ hb) fun _ _ => h.bind (h.writeBlock _ _) fun _ _ => h.pure trivial

theorem Rules.mknod (h : Rules J Handed) (mem : Memory) (path : CString) :
    J (fun _ => True) (cs1550Mknod mem path) := by
  unfold cs1550Mknod
  dsimp only
  split
  · exact h.pure trivial
  split
  · exact h.pure trivial
  refine h.withDirectory _ _ trivial fun dirBlock dir => ?_
  split
  · exact h.pure trivial
  split
  · exact h.pure trivial
  refine h.bind h.findNext fun b hb => ?_
  split
  · exact h.pure trivial
  · exact h.bind (h.setBitmap _ _ hb) fun _ _ => h.bind (h.writeBlock _ _) fun _ _ => h.pure trivial

theorem Rules.writeLoop (h : Rules J Handed) (mem : Memory) (adjustedOffset : Nat) : ∀ (turns : Nat) (blockIndex : Int)
    (block : Mem) (buf : List UInt8), J (fun _ => True) (writeLoop mem adjustedOffset turns blockIndex block buf)
  | 0, _, _, _ => h.pure trivial
  | turns + 1, _, _, _ => by
    rw [Fs.writeLoop]
    split
    · exact h.pure trivial
    · split
      · exact h.bind h.findNext fun _ _ => h.bind (h.writeBlock _ _) fun _ _ => h.bind (h.openBlock _ _) fun _ _ =>
          h.writeLoop mem adjustedOffset turns _ _ _
      · exact h.writeBlock _ _

theorem Rules.writeAt (h : Rules J Handed) (mem : Memory) (c : Cursor) (buf : List UInt8) :
    J (fun _ => True) (writeAt mem c buf) := by
  unfold Fs.writeAt
  split
  · exact h.bind h.findNext fun _ hb => h.bind (h.setBitmap _ _ hb) fun _ _ => h.bind (h.writeBlock _ _) fun _ _ =>
      h.bind (h.openBlock _ _) fun _ _ => h.writeLoop _ _ _ _ _ _
  · exact h.writeLoop _ _ _ _ _ _

theorem Rules.write (h : Rules J Handed) (mem : Memory) (path : CString) (buf : List UInt8) (offset : Int) :
    J (fun _ => True) (cs1550Write mem path buf offset) := by
  unfold cs1550Write
  dsimp only
  split
  · exact h.pure trivial
  split
  · exact h.pure trivial
  refine h.withFile _ _ trivial trivial fun b dir i => ?_
  unfold writeFile
  split
  · exact h.pure trivial
  · exact h.bind (h.walkTo _ _ _) fun c _ => h.bind (h.writeAt _ c _) fun _ _ => h.bind (h.writeBlock _ _) fun _ _ =>
      h.pure trivial

end Writing

end CS1550.Fs
