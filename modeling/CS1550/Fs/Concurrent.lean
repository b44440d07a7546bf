/-
The cells that the requests on files touch, and what follows for two of them at the same time. A request
on a file reads the root, and has the blocks of its directory to itself; if it needs a new block it also
has the block handed out next, the bitmap and `next_free_block_index`. So two requests in different
directories of which one needs no new block do not disturb each other (`serial_of_directories_differ`).
All others can: no handler takes a lock (`directory_lost`).
-/
import CS1550.Fs.Streams

namespace CS1550.Fs

open Bytes

/-! ## Regions -/

/-- What a request has to itself. -/
structure Region where
  blocks : Set Nat
  /-- The bitmap and the cursor, for a request that needs a new block. -/
  alloc : Prop

/-- The cells of a region, on an image of that size. -/
def Region.changes (g : Region) (size : Nat) : Set Cell
  | .byte i => i < size ∧ (i / blockSize ∈ g.blocks ∨ g.alloc ∧ size ≤ i + bitmapBytes)
  | .cursor => g.alloc

/-- The cells that the request reads: these and the root. -/
def Region.reads (g : Region) (size : Nat) : Set Cell
  | .byte i => i < blockSize ∨ i / blockSize ∈ g.blocks ∨ g.alloc ∧ size ≤ i + bitmapBytes
  | .cursor => g.alloc

/-- The access is one of a request with that region. -/
abbrev Region.Access (g : Region) (size : Nat) : Machine.Access Op Nat → Prop :=
  Within size (g.reads size) (g.changes size)

variable {g : Region} {N size : Nat} {v v' : Volume} {t : Tree} {α : Type}

theorem Region.changes_subset (g : Region) (size : Nat) : g.changes size ⊆ g.reads size := by
  intro c hc
  cases c with
  | byte i => exact .inr hc.2
  | cursor => exact hc

theorem Region.inside (g : Region) (size : Nat) : Inside size (g.changes size) := fun _ hc => hc.1

theorem openBlock_confined (heap : Mem) {b : Nat} (hb : b = 0 ∨ b ∈ g.blocks) (v : Volume) :
    machine.Confined (g.Access size) (openBlock heap b) v := by
  refine .bind_all (.perform fun pos => ⟨fun c hc => ?_, fun c hc => by cases c <;> exact hc.elim⟩) fun _ _ => .pure _ _
  cases c with
  | cursor => exact hc.elim
  | byte i =>
    simp only [Reads, seekSet, if_pos (Int.natCast_nonneg b), Int.toNat_natCast] at hc
    rcases hb with rfl | hb
    · exact .inl (by omega)
    · have hdiv : i / blockSize = b := by simp only [blockSize] at hc ⊢; omega
      exact .inr (.inl (hdiv ▸ hb))

theorem writeBlock_confined {b : Nat} (block : Mem) (hb : b ∈ g.blocks) (hle : blockSize * (b + 1) ≤ size) (v : Volume) :
    machine.Confined (g.Access size) (writeBlock b block) v := by
  refine .perform fun pos => ⟨fun c hc => by cases c <;> exact hc.elim, fun c hc => ?_⟩
  cases c with
  | cursor => exact hc.elim
  | byte i =>
    simp only [Writes, seekSet, if_pos (Int.natCast_nonneg b), Int.toNat_natCast] at hc
    have hdiv : i / blockSize = b := by simp only [blockSize] at hc ⊢; omega
    exact ⟨by simp only [blockSize] at hc hle; omega, .inl (hdiv ▸ hb)⟩

/-! ### The allocator -/

theorem readByte_within (halloc : g.alloc) (hsize : bitmapBytes ≤ size) (n pos : Nat) :
    g.Access size (.readByte (bitmapPosition n), pos) := by
  refine ⟨fun c hc => ?_, fun c hc => by cases c <;> exact hc.elim⟩
  cases c with
  | cursor => exact hc.elim
  | byte i =>
    have hdiv : (n : Int).tdiv 8 = (n / 8 : Nat) := rfl
    simp only [Reads, bitmapPosition, hdiv, blockSize, bitmapSizeInBlocks] at hc
    simp only [bitmapBytes, blockSize, bitmapSizeInBlocks] at hsize
    rw [if_pos (by omega)] at hc
    refine .inr (.inr ⟨halloc, ?_⟩)
    simp only [bitmapBytes, blockSize, bitmapSizeInBlocks]
    omega

theorem loadCursor_confined (halloc : g.alloc) (v : Volume) : machine.Confined (g.Access size) loadCursor v :=
  .perform fun _ => ⟨fun c hc => by cases c <;> first | exact hc.elim | exact halloc, fun c hc => by cases c <;> exact hc.elim⟩

theorem storeCursor_confined (halloc : g.alloc) (i : Int) (v : Volume) :
    machine.Confined (g.Access size) (storeCursor i) v :=
  .perform fun _ => ⟨fun c hc => by cases c <;> exact hc.elim, fun c hc => by cases c <;> first | exact hc.elim | exact halloc⟩

theorem findFrom_confined (halloc : g.alloc) (hsize : bitmapBytes ≤ size) (turns n : Nat) (v : Volume) :
    machine.Confined (g.Access size) (findFrom turns n) v := by
  induction turns generalizing n v with
  | zero => exact .pure _ _
  | succ turns ih =>
    refine .bind_all (.perform fun pos => readByte_within halloc hsize n pos) fun byte v => ?_
    split
    · exact (storeCursor_confined halloc _ v).bind_all fun _ v => loadCursor_confined halloc v
    · exact_mod_cast ih (n + 1) v

theorem findNextFreeBlockIndex_confined (halloc : g.alloc) (hsize : bitmapBytes ≤ size) {c : Nat} (hc : v.cursor = c)
    (hlt : c < 2 ^ 31) : machine.Confined (g.Access size) findNextFreeBlockIndex v := by
  refine (loadCursor_confined halloc v).bind (loadCursor_yields v) ?_
  rw [hc, bmod_natCast_of_lt (by omega)]
  exact findFrom_confined halloc hsize _ c v

theorem setBitmap_confined (halloc : g.alloc) (hv : v.disk.size = size) (hsize : bitmapBytes ≤ size) (stack : UInt8)
    {n : Nat} (hn : n ≤ bitmapBits) : machine.Confined (g.Access size) (setBitmap stack n 1) v := by
  intro pos x hx
  rw [setBitmap, Machine.accesses_bind, readByte_run n pos (by omega), List.mem_append] at hx
  rcases hx with hx | hx
  · obtain rfl := List.mem_singleton.1 hx
    exact readByte_within halloc hsize n pos
  · obtain rfl := List.mem_singleton.1 hx
    refine ⟨fun c hc => by cases c <;> exact hc.elim, fun c hc => ?_⟩
    cases c with
    | cursor => exact hc.elim
    | byte i =>
      have hi : i = v.disk.behindByte n - 1 := hc
      have hbits : bitmapBits = 12288 := rfl
      have hbytes : bitmapBytes = 1536 := rfl
      simp only [Disk.behindByte, Disk.bitmapByte, hv] at hi
      have hbounds : i < size ∧ size ≤ i + bitmapBytes := by
        split at hi <;> omega
      exact ⟨hbounds.1, .inr ⟨halloc, hbounds.2⟩⟩

/-! ### Lookup and walk -/

theorem Listed.withDirectory_confined (h : Listed v.disk t) (mem : Memory) (directory : CString) (notFound : α)
    (k : Int → Mem → Req α) (hk : ∀ D, t.dirs[t.dirIndex directory]? = some D → D.block ∈ g.blocks ∧
      machine.Confined (g.Access size) (k D.block (onHeap mem.heap (v.disk.block D.block))) v) :
    machine.Confined (g.Access size) (Fs.withDirectory mem directory notFound k) v := by
  have hroot := h.root_onHeap mem.heap
  have hn : nDirectories (onHeap mem.heap (v.disk.block 0)) = t.dirs.length := hroot.count
  refine (openBlock_confined mem.heap (.inl rfl) v).bind (openRoot_yields mem v) ?_
  rw [findDirectory_eq hroot, hn]
  dsimp only
  split
  · exact .pure _ _
  · next hne =>
    have hle : t.dirIndex directory ≤ t.dirs.length := List.findIdx_le_length
    have hlt : t.dirIndex directory < t.dirs.length := by omega
    have hD := List.getElem?_eq_getElem hlt
    obtain ⟨hown, hrest⟩ := hk _ hD
    rw [dirStartBlock_eq hroot hD]
    exact (openBlock_confined mem.heap (.inr hown) v).bind (openDir_yields mem _ v) hrest

theorem Listed.withFile_confined (h : Listed v.disk t) (mem : Memory) (names : Names) (notFound missing : α)
    (k : Int → Mem → Nat → Req α) (hown : ∀ D, t.dirs[t.dirIndex names.directory]? = some D → D.block ∈ g.blocks)
    (hk : ∀ D f, t.dirs[t.dirIndex names.directory]? = some D →
      D.files[D.fileIndex names.filename names.extension]? = some f →
      machine.Confined (g.Access size) (k D.block (onHeap mem.heap (v.disk.block D.block))
        (D.fileIndex names.filename names.extension)) v) :
    machine.Confined (g.Access size) (Fs.withFile mem names notFound missing k) v := by
  refine h.withDirectory_confined mem names.directory notFound _ fun D hD => ⟨hown D hD, ?_⟩
  have hdir := h.directory_onHeap mem.heap hD
  have hm : nFiles (onHeap mem.heap (v.disk.block D.block)) = D.files.length := hdir.count
  rw [findFile_eq hdir, hm]
  dsimp only
  split
  · exact .pure _ _
  · next hne =>
    have hle : D.fileIndex names.filename names.extension ≤ D.files.length := List.findIdx_le_length
    have hlt : D.fileIndex names.filename names.extension < D.files.length := by omega
    exact hk D _ hD (List.getElem?_eq_getElem hlt)

theorem walk_confined (mem : Memory) {blocks : Nat → Nat} {offset : Nat} (hth : Threaded v.disk blocks (startBlock offset))
    (hown : ∀ k ≤ startBlock offset, blocks k ∈ g.blocks) (turns k sizeSoFar adjustedOffset : Nat)
    (hk : k ≤ startBlock offset) (hsofar : sizeSoFar = maxDataInBlock * (k + 1)) (hsmall : offset < 2 ^ 63) :
    machine.Confined (g.Access size) (walk mem offset turns (blocks k) (onHeap mem.heap (v.disk.block (blocks k)))
      sizeSoFar adjustedOffset) v := by
  induction turns generalizing k sizeSoFar adjustedOffset with
  | zero => exact .pure _ _
  | succ turns ih =>
    rw [walk]
    split
    · exact .pure _ _
    · next hgt =>
      have hlt : k < startBlock offset := by
        rw [hsofar] at hgt
        simp only [startBlock, maxDataInBlock, blockSize] at hgt ⊢
        omega
      have h1 := hth.pos (k + 1) (by omega)
      rw [next_onHeap, hth.link k hlt, if_neg (by omega)]
      refine (openBlock_confined mem.heap (.inr (hown (k + 1) (by omega))) v).bind (openBlock_yields mem.heap _ v) ?_
      refine ih (k + 1) _ _ (by omega) ?_
      rw [hsofar, addSize_of_lt (by rw [hsofar] at hgt; simp only [maxDataInBlock, blockSize] at hgt ⊢; omega)]
      rfl

/-! ### The handlers -/

/-- The index of the directory where a place is. -/
def Place.directory : Place → Nat
  | .dir i => i
  | .data i _ _ => i

/-- The blocks of a directory and its files. -/
def Directory.blocks (D : Directory) : Set Nat := {b | b = D.block ∨ ∃ f ∈ D.files, b ∈ f.chain}

/-- The name of the directory that a request is for. -/
def Request.directory (r : Request) : CString := (sscanf r.call.path r.mem.names).2.directory

/-- The request makes or writes a file. -/
def Request.OnFile (r : Request) : Prop :=
  match r.call with
  | .mkdir _ => False
  | _ => True

/-- The request needs a new block. -/
def Request.Allocates (r : Request) : Prop :=
  match r.call with
  | .write _ buf offset => maxDataInBlock < adjusted (asSize offset) + buf.length
  | _ => True

instance Request.decidableOnFile : (r : Request) → Decidable r.OnFile
  | ⟨_, .mkdir _⟩ => isFalse id
  | ⟨_, .mknod _⟩ => isTrue trivial
  | ⟨_, .write ..⟩ => isTrue trivial

instance Request.decidableAllocates : (r : Request) → Decidable r.Allocates
  | ⟨_, .mkdir _⟩ => isTrue trivial
  | ⟨_, .mknod _⟩ => isTrue trivial
  | ⟨_, .write _ buf offset⟩ => inferInstanceAs (Decidable (maxDataInBlock < adjusted (asSize offset) + buf.length))

/-- What a request has to itself. -/
def Tree.region (t : Tree) (r : Request) : Region where
  blocks := {b | (∃ D, t.dirs[t.dirIndex r.directory]? = some D ∧ b ∈ D.blocks) ∨ r.Allocates ∧ b = t.used + 1}
  alloc := r.Allocates

section Handlers

variable (h : Rep N v t)
include h

theorem Rep.alloc_confined (halloc : g.alloc) {f : Int → Req α}
    (hf : machine.Confined (g.Access v.disk.size) (f (t.used + 1 : Nat)) { v with cursor := (t.used + 1 : Nat) }) :
    machine.Confined (g.Access v.disk.size) (findNextFreeBlockIndex >>= f) v := by
  have hused := h.used_lt
  have hbits : bitmapBits = 12288 := rfl
  exact (findNextFreeBlockIndex_confined halloc h.bitmap_le h.cursor (by omega)).bind h.alloc hf

theorem Rep.mark_confined (halloc : g.alloc) (stack : UInt8) {cursor : Int} {f : Int → Req α}
    (hf : ∀ v', machine.Confined (g.Access v.disk.size) (f (-1)) v') :
    machine.Confined (g.Access v.disk.size) (setBitmap stack (t.used + 1 : Nat) 1 >>= f) { v with cursor } := by
  have hmarks : machine.Confined (g.Access v.disk.size) (setBitmap stack (t.used + 1 : Nat) 1) { v with cursor } :=
    setBitmap_confined (v := { v with cursor }) halloc rfl h.bitmap_le stack h.used_lt
  exact hmarks.bind (setBitmap_yields stack (t.used + 1) h.bitmap_le) (hf _)

theorem Rep.saveDir_confined {i : Nat} {D : Directory} (hD : t.dirs[i]? = some D) (hown : D.block ∈ g.blocks) (dir : Mem)
    (a : α) (v' : Volume) :
    machine.Confined (g.Access v.disk.size) (do saveDir D.block dir; pure a) v' := by
  have hle := h.block_le (h.place_lt (Tree.blockAt_dir hD))
  exact (writeBlock_confined dir hown (by omega) v').bind_all fun _ _ => .pure _ _

theorem Rep.mknod_confined (mem : Memory) (path : CString) (halloc : g.alloc)
    (hown : ∀ D, t.dirs[t.dirIndex (sscanf path mem.names).2.directory]? = some D → D.block ∈ g.blocks) :
    machine.Confined (g.Access v.disk.size) (cs1550Mknod mem path) v := by
  unfold cs1550Mknod
  generalize sscanf path mem.names = r at hown ⊢
  obtain ⟨count, names⟩ := r
  dsimp only at hown ⊢
  split
  · exact .pure _ _
  split
  · exact .pure _ _
  refine h.listed.withDirectory_confined mem _ _ _ fun D hD => ⟨hown D hD, ?_⟩
  split
  · exact .pure _ _
  split
  · exact .pure _ _
  refine h.alloc_confined halloc ?_
  rw [if_neg (by omega)]
  exact h.mark_confined halloc mem.stack fun v' => h.saveDir_confined hD (hown D hD) _ _ v'

omit h in
/-- The loop of `cs1550_write` for what fits into one block. -/
theorem writeLoop_confined (mem : Memory) (adjustedOffset turns : Nat) {b : Nat} (block : Mem) {buf : List UInt8}
    (hb : b ∈ g.blocks) (hle : blockSize * (b + 1) ≤ size) (hfit : buf.length ≤ maxDataInBlock) (v : Volume) :
    machine.Confined (g.Access size) (writeLoop mem adjustedOffset turns b block buf) v := by
  cases turns with
  | zero => exact .pure _ _
  | succ turns =>
    rw [writeLoop]
    split
    · exact .pure _ _
    · rw [if_neg (by omega)]
      exact writeBlock_confined _ hb hle v

theorem Rep.writeAt_confined (mem : Memory) {c : Cursor} {b : Nat} {buf : List UInt8} (hc : c.blockIndex = b)
    (hb : b ∈ g.blocks) (hle : blockSize * (b + 1) ≤ v.disk.size) (hadj : c.adjustedOffset ≤ maxDataInBlock)
    (hfit : c.adjustedOffset + buf.length ≤ 2 * maxDataInBlock)
    (halloc : maxDataInBlock < c.adjustedOffset + buf.length → g.alloc ∧ t.used + 1 ∈ g.blocks) :
    machine.Confined (g.Access v.disk.size) (writeAt mem c buf) v := by
  have hmax : maxDataInBlock = 504 := rfl
  rw [writeAt, addSize_of_lt (by omega), hc]
  by_cases hover : c.adjustedOffset + buf.length > maxDataInBlock
  · obtain ⟨halloc, hnew⟩ := halloc hover
    have hroom := h.room
    have hnewle : blockSize * (t.used + 1 + 1) ≤ v.disk.size := by
      rw [h.size]
      exact Nat.mul_le_mul_left _ (by simp only [bitmapSizeInBlocks] at hroom; omega)
    rw [if_pos hover, subSize_of_le hadj (by omega)]
    refine h.alloc_confined halloc (h.mark_confined halloc mem.stack fun v₁ => ?_)
    refine (writeBlock_confined _ hb hle v₁).bind_all fun _ v₂ => ?_
    refine (openBlock_confined mem.heap (.inr hnew) v₂).bind_all fun block v₃ => ?_
    exact writeLoop_confined mem 0 _ block hnew hnewle (by rw [List.length_drop]; omega) v₃
  · rw [if_neg hover]
    exact writeLoop_confined mem _ _ _ hb hle (by omega) v

theorem Rep.walkTo_confined (mem : Memory) {i j : Nat} {D : Directory} {f : File} (hD : t.dirs[i]? = some D)
    (hf : D.files[j]? = some f) {offset : Nat} (hoff : offset ≤ f.contents.length) (hown : ∀ b ∈ f.chain, b ∈ g.blocks) :
    machine.Confined (g.Access size) (Fs.walkTo mem (f.chain.headD 0 : Nat) offset) v := by
  have hlt := startBlock_lt (h.file i D j f hD hf) hoff
  have hsmall := h.contents_lt hD hf
  have hblock : ∀ k ≤ startBlock offset, f.blockOf k ∈ g.blocks := fun k hk =>
    hown _ (List.mem_of_getElem? (File.getElem?_chain (by omega)))
  rw [← f.blockOf_zero]
  refine (openBlock_confined mem.heap (.inr (hblock 0 (by omega))) v).bind (openBlock_yields mem.heap _ v) ?_
  exact walk_confined mem ((h.threaded hD hf).mono (by omega)) hblock _ 0 _ _ (by omega) rfl (by omega)

theorem Rep.write_confined (mem : Memory) (path : CString) (buf : List UInt8) (offset : Int)
    (hshort : ShortWrite v mem path buf offset)
    (hown : ∀ D, t.dirs[t.dirIndex (sscanf path mem.names).2.directory]? = some D → D.blocks ⊆ g.blocks)
    (halloc : maxDataInBlock < adjusted (asSize offset) + buf.length → g.alloc ∧ t.used + 1 ∈ g.blocks) :
    machine.Confined (g.Access v.disk.size) (cs1550Write mem path buf offset) v := by
  unfold ShortWrite at hshort
  unfold cs1550Write
  generalize sscanf path mem.names = r at hshort hown ⊢
  obtain ⟨count, names⟩ := r
  dsimp only at hshort hown ⊢
  split
  · exact .pure _ _
  split
  · exact .pure _ _
  next hcount =>
  refine h.listed.withFile_confined mem names _ _ _ (fun D hD => hown D hD (.inl rfl)) fun D f hD hf => ?_
  have hdir := h.listed.directory_onHeap mem.heap hD
  have hchain : ∀ b ∈ f.chain, b ∈ g.blocks := fun b hb => hown D hD (.inr ⟨f, List.mem_of_getElem? hf, hb⟩)
  rw [Fs.writeFile, fsize_eq hdir hf, fileStartBlock_eq hdir hf]
  split
  · exact .pure _ _
  next hbig =>
  have hoff : asSize offset ≤ f.contents.length := by omega
  have hfit := hshort (not_not.1 hcount) f.contents.length (by rw [h.listed.sizeOf_eq, Tree.find_eq hD, hf]; rfl) hoff
  obtain ⟨b, hb, hwalk⟩ := h.walkTo mem hD hf hoff
  have hle := h.block_le (h.place_lt (Tree.blockAt_data hD hf hb))
  refine (h.walkTo_confined mem hD hf hoff hchain).bind hwalk ?_
  refine (h.writeAt_confined mem rfl (hchain b (List.mem_of_getElem? hb)) (by omega) (adjusted_le _) hfit halloc).bind_all
    fun _ v' => h.saveDir_confined hD (hown D hD (.inl rfl)) _ _ v'

/-- The accesses of a request on a file are those of its region. -/
theorem Rep.confined {r : Request} (hfile : r.OnFile) (hshort : r.Short v) :
    machine.Confined ((t.region r).Access v.disk.size) r.handler v := by
  have hown : ∀ D, t.dirs[t.dirIndex r.directory]? = some D → D.blocks ⊆ (t.region r).blocks :=
    fun D hD b hb => .inl ⟨D, hD, hb⟩
  obtain ⟨mem, call⟩ := r
  cases call with
  | mkdir path => exact hfile.elim
  | mknod path => exact h.mknod_confined mem path trivial fun D hD => hown D hD (.inl rfl)
  | write path buf offset =>
    exact h.write_confined mem path buf offset hshort hown fun halloc => ⟨halloc, .inr ⟨halloc, rfl⟩⟩

/-- A block of a directory is handed out, and has its place there. -/
theorem Rep.directory_block {i b : Nat} {D : Directory} (hD : t.dirs[i]? = some D) (hb : b ∈ D.blocks) :
    (1 ≤ b ∧ b ≤ t.used) ∧ ∃ p, t.blockAt p = some b ∧ p.directory = i := by
  rcases hb with rfl | ⟨f, hf, hb⟩
  · exact ⟨h.dir_block hD, _, Tree.blockAt_dir hD, rfl⟩
  · obtain ⟨j, hj⟩ := List.getElem?_of_mem hf
    obtain ⟨n, hp, hle⟩ := h.chain_block hD hj hb
    exact ⟨hle, _, hp, rfl⟩

theorem Rep.region_block {r : Request} {b : Nat} (hb : b ∈ (t.region r).blocks) : 1 ≤ b ∧ b ≤ t.used + 1 := by
  rcases hb with ⟨D, hD, hb⟩ | ⟨-, rfl⟩
  · have hle := (h.directory_block hD hb).1
    omega
  · omega

/-- Requests for different directories, one of which needs no new block, have no block in common. -/
theorem Rep.blocks_disjoint {r₁ r₂ : Request} (hdir : r₁.directory ≠ r₂.directory)
    (halloc : ¬ (r₁.Allocates ∧ r₂.Allocates)) : ∀ b ∈ (t.region r₁).blocks, b ∉ (t.region r₂).blocks := by
  intro b hb₁ hb₂
  rcases hb₁ with ⟨D₁, hD₁, hb₁⟩ | ⟨ha₁, rfl⟩ <;> rcases hb₂ with ⟨D₂, hD₂, hb₂⟩ | ⟨ha₂, hb₂⟩
  · obtain ⟨-, p, hp, hplace₁⟩ := h.directory_block hD₁ hb₁
    obtain ⟨-, q, hq, hplace₂⟩ := h.directory_block hD₂ hb₂
    obtain rfl := h.apart p q b hp hq
    have hindex : t.dirIndex r₁.directory = t.dirIndex r₂.directory := hplace₁.symm.trans hplace₂
    have hsame : D₁ = D₂ := Option.some.inj (hD₁.symm.trans (hindex ▸ hD₂))
    exact hdir ((Tree.dname_of_dirIndex hD₁).symm.trans (hsame ▸ Tree.dname_of_dirIndex hD₂))
  · have hle := (h.directory_block hD₁ hb₁).1
    omega
  · have hle := (h.directory_block hD₂ hb₂).1
    omega
  · exact halloc ⟨ha₁, ha₂⟩

/-- What one request changes the other one does not read. -/
theorem Rep.changes_disjoint {r₁ r₂ : Request} (hdir : r₁.directory ≠ r₂.directory)
    (halloc : ¬ (r₁.Allocates ∧ r₂.Allocates)) :
    ∀ c ∈ (t.region r₁).changes v.disk.size, c ∉ (t.region r₂).reads v.disk.size := by
  have hbytes : bitmapBytes = 1536 := rfl
  have hsize : v.disk.size = 512 * N := h.size
  have hroom : t.used + 3 < N := h.room
  -- a block in a directory is in front of the bitmap
  have hfront : ∀ {r : Request} {i : Nat}, ¬ r.Allocates → i / blockSize ∈ (t.region r).blocks →
      ¬ v.disk.size ≤ i + bitmapBytes := by
    rintro r i hna (⟨D, hD, hb⟩ | ⟨ha, -⟩)
    · have hle : 1 ≤ i / 512 ∧ i / 512 ≤ t.used := (h.directory_block hD hb).1
      omega
    · exact absurd ha hna
  intro c hc₁ hc₂
  cases c with
  | cursor => exact halloc ⟨hc₁, hc₂⟩
  | byte i =>
    obtain ⟨-, hb₁ | ⟨ha₁, hi₁⟩⟩ := hc₁ <;> rcases hc₂ with hi₂ | hb₂ | ⟨ha₂, hi₂⟩
    · have hpos : 1 ≤ i / 512 := (h.region_block hb₁).1
      replace hi₂ : i < 512 := hi₂
      omega
    · exact h.blocks_disjoint hdir halloc _ hb₁ hb₂
    · exact hfront (fun ha₁ => halloc ⟨ha₁, ha₂⟩) hb₁ hi₂
    · replace hi₂ : i < 512 := hi₂
      omega
    · exact hfront (fun ha₂ => halloc ⟨ha₁, ha₂⟩) hb₂ hi₁
    · exact halloc ⟨ha₁, ha₂⟩

end Handlers

theorem Rep.apart_regions (h : Rep N v t) {r₁ r₂ : Request} (hdir : r₁.directory ≠ r₂.directory)
    (halloc : ¬ (r₁.Allocates ∧ r₂.Allocates)) :
    Apart v.disk.size ((t.region r₁).reads v.disk.size) ((t.region r₁).changes v.disk.size)
      ((t.region r₂).reads v.disk.size) ((t.region r₂).changes v.disk.size) where
  inside₁ := Region.inside _ _
  inside₂ := Region.inside _ _
  reads₁ := Region.changes_subset _ _
  reads₂ := Region.changes_subset _ _
  fst := h.changes_disjoint hdir halloc
  snd := h.changes_disjoint hdir.symm fun hboth => halloc hboth.symm

/-! ## Two requests at the same time -/

/-- After every run of short requests, two requests on files in different directories, of which at most one
needs a new block. However their accesses interleave, and whatever their streams have read ahead or not
written yet: they return what they return one after the other, and leave the same image. -/
theorem serial_of_directories_differ {h : List (Volume × Request)} {turns : List (Bool × Turn)} {r₁ r₂ : Request}
    {a₁ a₂ : Int} (hp : RunFrom N h v) (hfront : ∀ x ∈ Run.visited h v, InFront N x.cursor)
    (hfiles : ∀ x ∈ Run.visited h v, FilesWithin x) (hshort : ∀ x ∈ h, x.2.Short x.1)
    (hfile₁ : r₁.OnFile) (hfile₂ : r₂.OnFile) (hshort₁ : r₁.Short v) (hshort₂ : r₂.Short v)
    (hdir : r₁.directory ≠ r₂.directory) (halloc : ¬ (r₁.Allocates ∧ r₂.Allocates))
    (hw : serveBoth turns r₁ r₂ v = some (a₁, a₂, v')) :
    (a₁, a₂, v') = ((r₁.serve v).1, r₂.serve (r₁.serve v).2) ∧
      (a₂, a₁, v') = ((r₂.serve v).1, r₁.serve (r₂.serve v).2) := by
  have hrep := rep_treeAfter hp hfront hfiles hshort
  exact (hrep.apart_regions hdir halloc).serial (hrep.confined hfile₁ hshort₁) (hrep.confined hfile₂ hshort₂) rfl hw

/-- `/b` -/
def secondDir : CString := ⟨[47, 98], by decide⟩

/-- `/b/f.t` -/
def secondFile : CString := ⟨[47, 98, 47, 102, 46, 116], by decide⟩

/-- `/a/n.t` -/
def newFile : CString := ⟨[47, 97, 47, 110, 46, 116], by decide⟩

/-- Two directories with a file each. -/
def twoDirectories : List (Volume × Request) × Volume :=
  serveAll (zeroed 10240) [⟨blank, .mkdir dirPath⟩, ⟨blank, .mkdir secondDir⟩, ⟨blank, .mknod filePath⟩,
    ⟨blank, .mknod secondFile⟩]

/-- Both streams read ahead at first, the accesses come in turns, and what they wrote goes to the image at
the end. -/
def inTurns : List (Bool × Turn) :=
  (true, .fill 0 4096) :: (false, .fill 0 4096) :: (List.replicate 5 [(true, .access), (false, .access)]).flatten ++
    List.replicate 5 (true, .access) ++ [(false, .flush), (true, .flush)]

/-- A file made in one directory, and one written in another. -/
theorem serial_of_mknod_and_write :
    ∃ v', serveBoth inTurns ⟨blank, .mknod newFile⟩ ⟨blank, .write secondFile [2] 0⟩ twoDirectories.2 =
        some (0, 1, v') ∧
      (0, 1, v') = ((Request.serve ⟨blank, .mknod newFile⟩ twoDirectories.2).1,
        Request.serve ⟨blank, .write secondFile [2] 0⟩ (Request.serve ⟨blank, .mknod newFile⟩ twoDirectories.2).2) ∧
      (1, 0, v') = ((Request.serve ⟨blank, .write secondFile [2] 0⟩ twoDirectories.2).1,
        Request.serve ⟨blank, .mknod newFile⟩ (Request.serve ⟨blank, .write secondFile [2] 0⟩ twoDirectories.2).2) := by
  have hrun : (serveBoth inTurns ⟨blank, .mknod newFile⟩ ⟨blank, .write secondFile [2] 0⟩ twoDirectories.2).any
      (fun r => decide (r.1 = 0 ∧ r.2.1 = 1)) = true := by
    decide +kernel
  rw [Option.any_eq_true] at hrun
  obtain ⟨⟨a₁, a₂, v'⟩, hw, hok⟩ := hrun
  obtain ⟨rfl, rfl⟩ := of_decide_eq_true hok
  exact ⟨v', hw, serial_of_directories_differ (run_serveAll 10240 _) (by decide +kernel) (by decide +kernel)
    (by decide +kernel) (by decide) (by decide) (by decide +kernel) (by decide +kernel) (by decide +kernel)
    (by decide +kernel) hw⟩

/-- `/b/n.t` -/
def secondNewFile : CString := ⟨[47, 98, 47, 110, 46, 116], by decide⟩

-- two files made at the same time in different directories: both get block 5
example : (serveBoth (List.replicate 7 (true, .access) ++ List.replicate 9 (false, .access) ++ (false, .flush) ::
      List.replicate 3 (true, .access) ++ [(true, .flush)]) ⟨blank, .mknod newFile⟩ ⟨blank, .mknod secondNewFile⟩
      twoDirectories.2).any (fun r => fileStartBlock (r.2.2.disk.block 1) 1 = 5 ∧
        fileStartBlock (r.2.2.disk.block 2) 1 = 5) = true := by
  decide +kernel

/-- Two directories made at the same time, and one of them is lost: the first request reads the root before
the second one, and writes it back behind it. -/
theorem directory_lost :
    ∃ turns v', serveBoth turns ⟨blank, .mkdir dirPath⟩ ⟨blank, .mkdir secondDir⟩ (zeroed 10240) = some (0, 0, v') ∧
      v'.disk ≠ (Request.serve ⟨blank, .mkdir secondDir⟩ (Request.serve ⟨blank, .mkdir dirPath⟩ (zeroed 10240)).2).2.disk ∧
      v'.disk ≠ (Request.serve ⟨blank, .mkdir dirPath⟩ (Request.serve ⟨blank, .mkdir secondDir⟩ (zeroed 10240)).2).2.disk := by
  have hrun : (serveBoth ((true, .access) :: List.replicate 8 (false, .access) ++ (false, .flush) ::
      List.replicate 8 (true, .access) ++ [(true, .flush)]) ⟨blank, .mkdir dirPath⟩ ⟨blank, .mkdir secondDir⟩
      (zeroed 10240)).any (fun r =>
        decide (r.1 = 0 ∧ r.2.1 = 0 ∧ nDirectories (r.2.2.disk.block 0) = 1)) = true := by
    decide +kernel
  have htwo : nDirectories ((Request.serve ⟨blank, .mkdir secondDir⟩
      (Request.serve ⟨blank, .mkdir dirPath⟩ (zeroed 10240)).2).2.disk.block 0) = 2 := by
    decide +kernel
  have htwo' : nDirectories ((Request.serve ⟨blank, .mkdir dirPath⟩
      (Request.serve ⟨blank, .mkdir secondDir⟩ (zeroed 10240)).2).2.disk.block 0) = 2 := by
    decide +kernel
  rw [Option.any_eq_true] at hrun
  obtain ⟨⟨a₁, a₂, v'⟩, hw, hok⟩ := hrun
  obtain ⟨rfl, rfl, hone⟩ := of_decide_eq_true hok
  dsimp only at hone
  refine ⟨_, v', hw, fun heq => ?_, fun heq => ?_⟩
  · rw [heq, htwo] at hone
    cases hone
  · rw [heq, htwo'] at hone
    cases hone

end CS1550.Fs
