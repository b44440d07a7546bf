/-
The cursor of the allocator only saves it a part of its search. As long as the bitmap is changed by
`set_bitmap` alone and the blocks handed out are in front of it, every block in front of the cursor is marked
(`Scanned`): bits are never cleared, and the cursor moves only over marked blocks. So a search from the cursor
and one from block 1 find the same block, and a run on a filesystem that is mounted anew in between cannot be
told from one that is not (`remount_invisible`).
-/
import CS1550.Fs.Rules
import CS1550.Fs.Atomicity

namespace CS1550.Fs

open Bytes

variable {v u w : Volume}

/-! ## Runs with remounts -/

/-- The operations of the filesystem. -/
inductive Operation
  | request (r : Request)
  | read (mem : Memory) (path : CString) (size : Nat) (offset : Int)
  | getattr (mem : Memory) (path : CString)
  | readdir (mem : Memory) (path : CString)

/-- What an operation returns to FUSE. -/
inductive Reply
  | status (r : Int)
  | data (r : Int × List UInt8)
  | attributes (r : Int × Stat)
  | listing (r : Int × List (List UInt8))

/-- The handler of an operation. -/
def Operation.handler : Operation → Req Reply
  | .request r => do
    let ret ← r.handler
    pure (.status ret)
  | .read mem path size offset => do
    let ret ← cs1550Read mem path size offset
    pure (.data ret)
  | .getattr mem path => do
    let ret ← cs1550Getattr mem path
    pure (.attributes ret)
  | .readdir mem path => do
    let ret ← cs1550Readdir mem path
    pure (.listing ret)

/-- An operation, or a remount. -/
inductive Event
  | operation (o : Operation)
  | remount

/-- Whether an event is an operation. -/
def Event.isOperation : Event → Bool
  | .operation _ => true
  | .remount => false

/-- A filesystem mounted anew: `next_free_block_index` has its initial value. -/
def Volume.remount (v : Volume) : Volume := { v with cursor := 1 }

/-- What can be seen of an operation: the reply, the indices handed out, and the image afterwards. -/
structure Outcome where
  reply : Reply
  handed : List Int
  disk : Disk

/-- What can be seen of an operation served in a state. -/
def Operation.outcome (o : Operation) (v : Volume) : Outcome where
  reply := (serve o.handler v).1
  handed := (machine.trace o.handler 0 v).filterMap fun x => handedOut x.1
  disk := (serve o.handler v).2.disk

/-- What can be seen of a run. -/
def outcomes : List Event → Volume → List Outcome
  | [], _ => []
  | .operation o :: es, v => o.outcome v :: outcomes es (serve o.handler v).2
  | .remount :: es, v => outcomes es v.remount

/-- The accesses of a run to the image and to the cursor, with the states they are made in. -/
def accesses : List Event → Volume → List (Op × Nat × Volume)
  | [], _ => []
  | .operation o :: es, v => machine.trace o.handler 0 v ++ accesses es (serve o.handler v).2
  | .remount :: es, v => accesses es v.remount

/-- A block is written in front of the bitmap, and an index that is handed out is one of a block in front of
the bitmap that has a bit in it. -/
def Proper : Op → Nat → Volume → Prop
  | .writeBlock index _, pos, v => seekSet index pos + blockSize + bitmapBytes ≤ v.disk.size
  | .storeCursor i, _, v => i < bitmapBits ∧ blockSize * (i + 1) + bitmapBytes ≤ v.disk.size
  | _, _, _ => True

instance : (op : Op) → (pos : Nat) → (v : Volume) → Decidable (Proper op pos v)
  | .writeBlock .., _, _ => inferInstanceAs (Decidable (_ ≤ _))
  | .storeCursor _, _, _ => inferInstanceAs (Decidable (_ ∧ _))
  | .openBlock _, _, _ => isTrue trivial
  | .readByte _, _, _ => isTrue trivial
  | .writeByte _, _, _ => isTrue trivial
  | .loadCursor, _, _ => isTrue trivial

/-- The search of the allocator over the whole bitmap. -/
def fullScan : Req Int := findFrom (totalBlocks - 1).toNat 1

/-! ## Every block in front of the cursor is marked -/

/-- Every block from 1 up to the cursor is marked. -/
structure Scanned (v : Volume) : Prop where
  past : Past 1 v
  bitmap : bitmapBytes ≤ v.disk.size
  marked : ∀ j : Nat, 1 ≤ j → j < v.cursor → v.disk.taken j = true

/-- The block that a search from block 1 finds. -/
theorem Scanned.first_free (hv : Scanned v) : ∃ n : Nat, 1 ≤ n ∧ v.cursor ≤ n ∧ (n : Int) < totalBlocks ∧
    v.disk.taken n = false ∧ ∀ j, 1 ≤ j → j < n → v.disk.taken j = true := by
  obtain ⟨n, hn, hle, hfree, hbefore⟩ := exists_first_free v.disk 1
  have hend : totalBlocks = 1048573 := rfl
  have hbits : bitmapBits = 12288 := rfl
  refine ⟨n, hn, ?_, by omega, hfree, hbefore⟩
  by_contra hlt
  rw [hv.marked n hn (by omega)] at hfree
  cases hfree

/-- A search from anywhere up to the cursor finds it. -/
theorem Scanned.finds (hv : Scanned v) {n c : Nat} (hc : 1 ≤ c) (hcursor : c ≤ v.cursor) (hn : v.cursor ≤ n)
    (hlt : (n : Int) < totalBlocks) (hfree : v.disk.taken n = false)
    (hbefore : ∀ j, 1 ≤ j → j < n → v.disk.taken j = true) (pos : Nat) :
    Finds (findFrom (totalBlocks - c).toNat c) pos v n := by
  refine findFrom_finds hv.bitmap _ c n pos (by omega) (by omega) (fun j hj => hbefore j (by omega)) hfree

theorem Scanned.findNext_finds (hv : Scanned v) {n : Nat} (hn : v.cursor ≤ n) (hlt : (n : Int) < totalBlocks)
    (hfree : v.disk.taken n = false) (hbefore : ∀ j, 1 ≤ j → j < n → v.disk.taken j = true) (pos : Nat) :
    Finds findNextFreeBlockIndex pos v n := by
  obtain ⟨c, hstart, hc, hpos, -⟩ := hv.past.start_eq
  refine Finds.cons rfl rfl ?_
  change Finds (findFrom (totalBlocks - v.start).toNat v.start) pos v n
  rw [hstart]
  exact hv.finds hpos (le_of_eq hc.symm) hn hlt hfree hbefore pos

/-- The allocator finds what a search of the whole bitmap finds. -/
theorem Scanned.scan_eq (hv : Scanned v) (pos : Nat) :
    (machine.run findNextFreeBlockIndex pos v).1 = (machine.run fullScan pos v).1 := by
  obtain ⟨n, -, hn, hlt, hfree, hbefore⟩ := hv.first_free
  have hfull : Finds fullScan pos v n := hv.finds (c := 1) (le_refl 1) hv.past.1 hn hlt hfree hbefore pos
  rw [(hv.findNext_finds hn hlt hfree hbefore pos).run, hfull.run]

theorem Scanned.remount (hv : Scanned v) : Scanned v.remount where
  past := ⟨le_refl 1, show (1 : Int) < totalBlocks by decide⟩
  bitmap := hv.bitmap
  marked j hj hlt := by
    change (j : Int) < 1 at hlt
    omega

/-- Marking more blocks. -/
theorem Scanned.mono {d : Disk} (hv : Scanned v) (hd : bitmapBytes ≤ d.size)
    (htaken : ∀ j, v.disk.taken j = true → d.taken j = true) : Scanned { v with disk := d } :=
  ⟨hv.past, hd, fun j hj hlt => htaken j (hv.marked j hj hlt)⟩

/-! ## Two cursors on one image -/

/-- The same image, with a cursor up to which it was searched. -/
structure SameImage (u w : Volume) : Prop where
  disk : u.disk = w.disk
  left : Scanned u
  right : Scanned w

/-- Two runs on one image are compared by the indices that are handed out. -/
def cursors : Machine.Pairing Op Nat Volume Int where
  related := SameImage
  allowed := Proper
  holds := Scanned
  watch := handedOut

/-- An index that was handed out has a bit in the bitmap. -/
def HasBit (i : Int) : Prop := ∃ n : Nat, i = n ∧ n < bitmapBits

theorem steady_openBlock (heap : Mem) (index : Int) :
    machine.Steady cursors (fun _ => True) (openBlock heap index) := by
  refine .bind (.perform (fun _ _ h => h.right) fun pos u w h _ => ?_) fun _ _ => .pure trivial
  simp only [machine, exec, h.disk]
  exact ⟨trivial, trivial, h⟩

theorem steady_writeBlock (index : Int) (block : Mem) :
    machine.Steady cursors (fun _ => True) (writeBlock index block) := by
  refine .perform (fun _ _ h => h.right) fun pos u w h hproper => ?_
  obtain ⟨du, cu⟩ := u
  obtain rfl : du = w.disk := h.disk
  change seekSet index pos + blockSize + bitmapBytes ≤ w.disk.size at hproper
  have hsize : bitmapBytes ≤ (w.disk.write (seekSet index pos) blockSize block).size :=
    le_trans h.right.bitmap (le_max_left _ _)
  have htaken : ∀ j, w.disk.taken j = true → (w.disk.write (seekSet index pos) blockSize block).taken j = true := by
    intro j hj
    rwa [Disk.taken, bit_write hproper]
  exact ⟨rfl, rfl, rfl, h.left.mono hsize htaken, h.right.mono hsize htaken⟩

theorem steady_findNext : machine.Steady cursors HasBit findNextFreeBlockIndex := by
  intro pos u w h hproper
  obtain ⟨n, hpos, hn, hlt, hfree, hbefore⟩ := h.right.first_free
  have hw := h.right.findNext_finds hn hlt hfree hbefore pos
  -- the other cursor is not behind the block either
  have hu : Finds findNextFreeBlockIndex pos u n := by
    rw [← h.disk] at hfree hbefore
    refine h.left.findNext_finds ?_ hlt hfree hbefore pos
    by_contra hgt
    rw [h.left.marked n hpos (by omega)] at hfree
    cases hfree
  have hscanned : ∀ x : Volume, x.disk = w.disk → bitmapBytes ≤ x.disk.size → Scanned { x with cursor := n } := by
    intro x hx hbitmap
    refine ⟨⟨?_, hlt⟩, hbitmap, fun j hj hjn => ?_⟩
    · change ((1 : Nat) : Int) ≤ n
      omega
    · change (j : Int) < n at hjn
      rw [hx]
      exact hbefore j hj (by omega)
  refine ⟨?_, ?_, ?_, ?_, fun x hx => ?_, ?_⟩
  · rw [hu.run, hw.run]
  · rw [hu.run, hw.run, h.disk]
  · rw [hu.run, hw.run]
    exact ⟨h.disk, hscanned u h.disk h.left.bitmap, hscanned w rfl h.right.bitmap⟩
  · exact hu.handed.trans hw.handed.symm
  · rcases hw.states x hx with heq | heq
    · rw [heq]
      exact h.right
    · rw [heq]
      exact hscanned w rfl h.right.bitmap
  · obtain ⟨pos', hstore⟩ := hw.stores
    rw [hw.run]
    exact ⟨n, rfl, by exact_mod_cast (hproper _ hstore).1⟩

theorem steady_setBitmap (stack : UInt8) (index : Int) (hindex : HasBit index) :
    machine.Steady cursors (fun _ => True) (setBitmap stack index 1) := by
  obtain ⟨n, rfl, hn⟩ := hindex
  intro pos u w h _
  obtain ⟨du, cu⟩ := u
  obtain rfl : du = w.disk := h.disk
  have hrunw := setBitmap_run stack n pos h.right.bitmap
  have hrunu := setBitmap_run stack n pos h.left.bitmap
  have hsize : bitmapBytes ≤ (w.disk.mark stack n).size := by
    rw [size_mark hn h.right.bitmap]
    exact h.right.bitmap
  have htaken : ∀ j, w.disk.taken j = true → (w.disk.mark stack n).taken j = true := by
    intro j hj
    rw [taken_mark hn h.right.bitmap, hj, Bool.or_true]
  refine ⟨?_, ?_, ?_, rfl, fun x hx => ?_, trivial⟩
  · rw [hrunu, hrunw]
  · rw [hrunu, hrunw]
  · rw [hrunu, hrunw]
    exact ⟨rfl, h.left.mono hsize htaken, h.right.mono hsize htaken⟩
  · rw [setBitmap, Machine.trace_bind, readByte_run n pos h.right.bitmap] at hx
    have hstate : x.2.2 = w := by
      rcases List.mem_cons.1 hx with rfl | hx
      · rfl
      · obtain rfl := List.mem_singleton.1 hx
        rfl
    rw [hstate]
    exact h.right

theorem rules_steady : Rules (fun Q p => machine.Steady cursors Q p) HasBit where
  pure := .pure
  bind := .bind
  openBlock := steady_openBlock
  writeBlock := steady_writeBlock
  findNext := steady_findNext
  setBitmap := steady_setBitmap

theorem steady_handler (o : Operation) : machine.Steady cursors (fun _ => True) o.handler := by
  have hr := rules_steady
  cases o with
  | request r =>
    refine .bind (P := fun _ => True) ?_ fun _ _ => .pure trivial
    obtain ⟨mem, call⟩ := r
    cases call with
    | mkdir path => exact hr.mkdir mem path
    | mknod path => exact hr.mknod mem path
    | write path buf offset => exact hr.write mem path buf offset
  | read mem path size offset => exact .bind (hr.read mem path size offset) fun _ _ => .pure trivial
  | getattr mem path => exact .bind (hr.getattr mem path) fun _ _ => .pure trivial
  | readdir mem path => exact .bind (hr.readdir mem path) fun _ _ => .pure trivial

/-! ## Runs -/

/-- A run with remounts against the same operations without them. -/
theorem SameImage.run (es : List Event) (h : SameImage u w)
    (hproper : ∀ x ∈ accesses (es.filter Event.isOperation) w, Proper x.1 x.2.1 x.2.2) :
    outcomes es u = outcomes (es.filter Event.isOperation) w ∧
      ∀ x ∈ accesses (es.filter Event.isOperation) w, Scanned x.2.2 := by
  induction es generalizing u w with
  | nil => exact ⟨rfl, by rintro x ⟨⟩⟩
  | cons e es ih =>
    cases e with
    | remount =>
      exact ih ⟨h.disk, h.left.remount, h.right⟩ hproper
    | operation o =>
      rw [List.filter_cons_of_pos rfl] at hproper ⊢
      rw [accesses] at hproper
      have ho := steady_handler o 0 u w h fun x hx => hproper x (List.mem_append_left _ hx)
      obtain ⟨hout, hscanned⟩ := ih ho.related fun x hx => hproper x (List.mem_append_right _ hx)
      refine ⟨?_, fun x hx => ?_⟩
      · rw [outcomes, outcomes]
        refine congrArg₂ _ ?_ hout
        rw [Operation.outcome, Operation.outcome, Outcome.mk.injEq]
        exact ⟨ho.result, ho.watched, ho.related.disk⟩
      · rw [accesses] at hx
        rcases List.mem_append.1 hx with hx | hx
        · exact ho.holds x hx
        · exact hscanned x hx

/-- From every image with a bitmap, in every run of operations that writes the bitmap only through
`set_bitmap` and is handed out only blocks in front of it: wherever the allocator is called it returns what a
search of the whole bitmap returns, and with any number of remounts between the operations their replies, the
indices handed out and the images are the same. -/
theorem remount_invisible (v : Volume) (hd : bitmapBytes ≤ v.disk.size) (hc : v.cursor = 1) (es : List Event)
    (hproper : ∀ x ∈ accesses (es.filter Event.isOperation) v, Proper x.1 x.2.1 x.2.2) :
    (∀ x ∈ accesses (es.filter Event.isOperation) v, ∀ pos,
      (machine.run findNextFreeBlockIndex pos x.2.2).1 = (machine.run fullScan pos x.2.2).1) ∧
    outcomes es v = outcomes (es.filter Event.isOperation) v := by
  have hv : Scanned v := by
    refine ⟨⟨le_of_eq hc.symm, ?_⟩, hd, fun j hj hlt => by omega⟩
    rw [hc]
    decide
  obtain ⟨hout, hscanned⟩ := SameImage.run es ⟨rfl, hv, hv⟩ hproper
  exact ⟨fun x hx pos => (hscanned x hx).scan_eq pos, hout⟩

/-- A directory, a remount, and a file in it. -/
theorem remount_invisible_once :
    outcomes [.operation (.request ⟨blank, .mkdir dirPath⟩), .remount, .operation (.request ⟨blank, .mknod filePath⟩)]
      (zeroed 10240) =
    outcomes [.operation (.request ⟨blank, .mkdir dirPath⟩), .operation (.request ⟨blank, .mknod filePath⟩)]
      (zeroed 10240) :=
  (remount_invisible (zeroed 10240) (by decide) rfl [.operation (.request ⟨blank, .mkdir dirPath⟩), .remount,
    .operation (.request ⟨blank, .mknod filePath⟩)] (by decide +kernel)).2

end CS1550.Fs
