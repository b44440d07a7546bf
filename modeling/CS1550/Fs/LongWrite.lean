/-
A write that needs a third block. The loop of `cs1550_write` takes that block from the allocator without
marking it, so the allocator offers it again at every later turn (`Offers`): the block is linked to itself
and the bytes of all these turns are stored over each other in it (`Stacked`). A file written so has a
block that is not marked, and it is read back as it was written just where those bytes repeat.
-/
import CS1550.Fs.Rules
import CS1550.Fs.Read

namespace CS1550.Fs

open Bytes

variable {N B : Nat} {v : Volume} {t : Tree} {d d' : Disk}

/-! ## The loop on a block that is not marked -/

/-- Writing a block in front of the bitmap does not change the offer. -/
theorem Offers.written (h : Offers N v B) {c : Nat} {block : Mem} (hw : Written v.disk d' c block) :
    Offers N { v with disk := d' } B where
  size := hw.size.trans h.size
  room := h.room
  bits := h.bits
  taken b := (hw.taken b).trans (h.taken b)
  cursor := h.cursor

/-- What the loop leaves in the block that it gets again and again, `block` being what it found there: the
last bytes of the buffer, and a link to itself if there was more than one turn. -/
structure Stacked (B : Nat) (block : Mem) (buf : List UInt8) (last : Mem) : Prop where
  bytes : ∀ p x, buf[p]? = some x → buf.length ≤ p + maxDataInBlock → last (p % maxDataInBlock) = x
  rest : ∀ q, buf.length ≤ q → q < maxDataInBlock → last q = block q
  link : next last = if buf.length ≤ maxDataInBlock then next block else B

/-- One turn that is the last one. -/
theorem stacked_put (B : Nat) (block : Mem) {buf : List UInt8} (hfit : buf.length ≤ maxDataInBlock) :
    Stacked B block buf (put block 0 buf) where
  bytes p x hx _ := by
    have hlt := (List.getElem?_eq_some_iff.1 hx).1
    rw [Nat.mod_eq_of_lt (by omega), ← Nat.zero_add p]
    exact put_inside hx
  rest q hq _ := put_outside (by omega)
  link := by
    rw [if_pos hfit]
    exact getInt_congr fun i hi => put_outside (by omega)

/-- One turn more. -/
theorem Stacked.cons {block block' last : Mem} {buf : List UInt8} (hmore : buf.length > maxDataInBlock)
    (hself : ∀ i < blockSize, block' i = putInt (put block 0 (buf.take maxDataInBlock)) maxDataInBlock 8 B i)
    (hB : B < 2 ^ 63) (hs : Stacked B block' (buf.drop maxDataInBlock) last) : Stacked B block buf last := by
  have hmax : maxDataInBlock = 504 := rfl
  have hblock : blockSize = 512 := rfl
  have hdrop : (buf.drop maxDataInBlock).length = buf.length - maxDataInBlock := List.length_drop
  refine ⟨fun p x hx hp => ?_, fun q hq hlt => by omega, ?_⟩
  · rcases lt_or_ge p maxDataInBlock with hlt | hge
    · -- stored in this turn, and the rest ends in front of it
      rw [Nat.mod_eq_of_lt hlt, hs.rest p (by omega) hlt, hself p (by omega), putInt_outside (by omega), ← Nat.zero_add p]
      exact put_inside (by rw [List.getElem?_take_of_lt hlt, hx])
    · have hmod : p % maxDataInBlock = (p - maxDataInBlock) % maxDataInBlock := Nat.mod_eq_sub_mod hge
      rw [hmod]
      exact hs.bytes _ x (by rw [List.getElem?_drop, Nat.add_sub_cancel' hge, hx]) (by omega)
  · have hlink : next block' = B := next_of_putInt (by omega) fun i hi => hself _ (by omega)
    rw [if_neg (by omega), hs.link, hlink, ite_self]

/-- A turn of the loop that takes the block offered. -/
theorem Offers.turn (h : Offers N v B) (mem : Memory) {adjustedOffset turns b : Nat} {block : Mem} {buf : List UInt8}
    {v' : Volume} (hmore : buf.length > maxDataInBlock)
    (hw : d' = v.disk.writeBlock b (putInt (put block adjustedOffset (buf.take maxDataInBlock)) maxDataInBlock 8 B))
    (hrest : machine.Yields (writeLoop mem adjustedOffset turns B (onHeap mem.heap (d'.block B)) (buf.drop maxDataInBlock))
      ⟨d', B⟩ () v') : machine.Yields (writeLoop mem adjustedOffset (turns + 1) b block buf) v () v' := by
  subst hw
  rw [writeLoop, if_neg (by omega), if_pos hmore]
  exact h.alloc.bind ((writeBlock_yields b _ _).bind ((openBlock_yields mem.heap B _).bind hrest))

/-- The loop from a turn on the block that is not marked. -/
theorem writeLoop_offered (mem : Memory) (adjustedOffset turns : Nat) (block : Mem) (buf : List UInt8)
    (h : Offers N v B) (hin : InFront N B) :
    ∃ v' last, machine.Yields (writeLoop mem adjustedOffset turns B block buf) v () v' ∧ Offers N v' B ∧
      Written v.disk v'.disk B last ∧
      (adjustedOffset = 0 → 0 < buf.length → buf.length ≤ maxDataInBlock * turns → Stacked B block buf last) := by
  induction turns generalizing v block buf with
  | zero => exact ⟨v, _, .pure _ _, h, .refl _ _, by omega⟩
  | succ turns ih =>
    have hbits : bitmapBits = 12288 := rfl
    have hB := h.bits
    have hle := h.block_le hin.lt
    by_cases hempty : buf.length = 0
    · rw [writeLoop, if_pos hempty]
      exact ⟨v, _, .pure _ _, h, .refl _ _, by omega⟩
    by_cases hmore : buf.length > maxDataInBlock
    · have hw : Written v.disk _ B (putInt (put block adjustedOffset (buf.take maxDataInBlock)) maxDataInBlock 8 B) :=
        written_writeBlock _ hle
      obtain ⟨v', last, hy, hoffers, hw', hs⟩ := ih
        (onHeap mem.heap ((v.disk.writeBlock B _).block B)) (buf.drop maxDataInBlock) (h.moved.written hw)
      refine ⟨v', last, h.turn mem hmore rfl hy, hoffers, hw.trans hw', fun hadj _ hturns => ?_⟩
      subst hadj
      have hdrop : (buf.drop maxDataInBlock).length = buf.length - maxDataInBlock := List.length_drop
      rw [Nat.mul_succ] at hturns
      refine Stacked.cons hmore (fun i hi => ?_) (by omega) (hs rfl (by omega) (by omega))
      rw [onHeap_of_lt hi, hw.self i hi]
    · rw [writeLoop, if_neg hempty, if_neg hmore]
      have hw : Written v.disk _ B (put block adjustedOffset buf) := written_writeBlock _ hle
      refine ⟨_, _, writeBlock_yields B _ v, h.written hw, hw, fun hadj _ _ => ?_⟩
      subst hadj
      exact stacked_put B block (by omega)

/-- The loop from the block in front of it on. -/
theorem writeLoop_enter (mem : Memory) (adjustedOffset turns : Nat) {b : Nat} (block : Mem) {buf : List UInt8}
    (h : Offers N v B) (hin : InFront N B) (hb : b + bitmapSizeInBlocks < N) (hmore : buf.length > maxDataInBlock) :
    ∃ d₁ v' last, machine.Yields (writeLoop mem adjustedOffset (turns + 1) b block buf) v () v' ∧
      Written v.disk d₁ b (putInt (put block adjustedOffset (buf.take maxDataInBlock)) maxDataInBlock 8 B) ∧
      Written d₁ v'.disk B last ∧ Offers N v' B ∧
      (adjustedOffset = 0 → buf.length ≤ maxDataInBlock * (turns + 1) →
        Stacked B (onHeap mem.heap (d₁.block B)) (buf.drop maxDataInBlock) last) := by
  have hw : Written v.disk _ b (putInt (put block adjustedOffset (buf.take maxDataInBlock)) maxDataInBlock 8 B) :=
    written_writeBlock _ (h.block_le hb)
  obtain ⟨v', last, hy, hoffers, hw', hs⟩ := writeLoop_offered mem adjustedOffset turns
    (onHeap mem.heap ((v.disk.writeBlock b _).block B)) (buf.drop maxDataInBlock) (h.moved.written hw) hin
  refine ⟨_, v', last, h.turn mem hmore rfl hy, hw, hw', hoffers, fun hadj hturns => hs hadj ?_ ?_⟩
  · rw [List.length_drop]
    omega
  · rw [List.length_drop]
    rw [Nat.mul_succ] at hturns
    omega

theorem InFront.mono {b c : Int} (h : InFront N b) (hle : c ≤ b) : InFront N c :=
  ⟨by have := h.below; omega, by have := h.bit; omega⟩

theorem Rep.offers_marked (h : Rep N v t) (hin : InFront N (t.used + 1 : Nat)) (stack : UInt8) :
    Offers N ⟨v.disk.mark stack (t.used + 1), (t.used + 1 : Nat)⟩ (t.used + 2) := by
  have hm := h.marked hin stack
  refine ⟨hm.size.trans h.size, by have := h.room; omega, by exact_mod_cast hin.bit, fun c => ?_, _, rfl, by omega, by omega⟩
  rw [hm.taken]
  congr 1
  apply propext
  omega

/-! ## The file after such a write -/

/-- One link more. -/
theorem Threaded.extend {blocks blocks' : Nat → Nat} {n : Nat} (h : Threaded d blocks n)
    (hold : ∀ k ≤ n, blocks' k = blocks k) (hnext : next (d.block (blocks n)) = blocks' (n + 1))
    (hpos : 1 ≤ blocks' (n + 1)) : Threaded d blocks' (n + 1) where
  link k hk := by
    rw [hold k (by omega)]
    rcases Nat.lt_or_ge k n with hlt | hge
    · rw [h.link k hlt, hold (k + 1) hlt]
    · obtain rfl : k = n := by omega
      exact hnext
  pos k hk := by
    rcases Nat.lt_or_ge n k with hlt | hge
    · obtain rfl : k = n + 1 := by omega
      exact hpos
    · rw [hold k hge]
      exact h.pos k hge

/-- A file with the entry that its directory gets for a new size. -/
def File.resize (f : File) (size : Nat) : File := { f with contents := List.replicate size 0 }

theorem File.length_resize (f : File) (size : Nat) : (f.resize size).contents.length = size := List.length_replicate

/-- Of the blocks handed out before, at most `b` and `c` were written. -/
def OnlyAt (v : Volume) (t : Tree) (b c : Nat) (d' : Disk) : Prop :=
  ∀ x, x ≤ t.used → x ≠ b → x ≠ c → SameBlock v.disk d' x

section OnlyAt

variable {i j n b : Nat} {D : Directory} {f : File}

/-- The links in front of the block written. -/
theorem Rep.threaded_before (h : Rep N v t) (hD : t.dirs[i]? = some D) (hf : D.files[j]? = some f)
    (hb : f.chain[n]? = some b) (honly : OnlyAt v t b D.block d') : Threaded d' f.blockOf n := by
  have hlt := (List.getElem?_eq_some_iff.1 hb).1
  have hth := (h.threaded hD hf).mono (show n ≤ f.chain.length - 1 by omega)
  refine ⟨fun k hk => ?_, hth.pos⟩
  have hk' := File.getElem?_chain (f := f) (k := k) (by omega)
  have hplace := Tree.blockAt_data hD hf hk'
  have hne : f.blockOf k ≠ b := fun heq => by
    have := h.chain_uniq hD hf hb k (heq ▸ hk')
    omega
  rw [next_congr (honly _ (h.within _ _ hplace).2 hne (h.ne_of_place hplace (Tree.blockAt_dir hD) (by simp)))]
  exact hth.link k hk

/-- The root and the directories with the new size of the file. -/
theorem Rep.listed_resize (h : Rep N v t) (hD : t.dirs[i]? = some D) (hf : D.files[j]? = some f)
    (hb : f.chain[n]? = some b) (honly : OnlyAt v t b D.block d') (heap : Mem) {size : Nat} (hsize : size < 2 ^ 64)
    (hself : ∀ k < blockSize, d'.block D.block k =
      putInt (onHeap heap (v.disk.block D.block)) (fileAt j + 13) 8 size k) (used : Nat) :
    Listed d' (t.modify i (·.set j (f.resize size)) used) := by
  have hplace := Tree.blockAt_data hD hf hb
  have hle := h.within _ _ hplace
  refine h.listed_setFile hD used ?_ (honly 0 (Nat.zero_le _) ?_ ?_) fun i' D' hD' hne => ?_
  · have hdir := holds_setSize (f.resize size) (h.listed.directory_onHeap heap hD) hf rfl rfl rfl
      (by rwa [File.length_resize])
    rw [File.length_resize] at hdir
    exact hdir.congr fun k hk => hself k (lt_of_lt_of_le hk (by decide))
  · omega
  · have := h.dir_block hD
    omega
  · have hplace' := Tree.blockAt_dir hD'
    refine honly _ (h.within _ _ hplace').2 (h.ne_of_place hplace' hplace (by simp)) ?_
    exact h.ne_of_place hplace' (Tree.blockAt_dir hD) (by simpa using hne)

end OnlyAt

/-- A write that needs a third block. -/
theorem Rep.writeAt_long (h : Rep N v t) (hin : InFront N (t.used + 2 : Nat)) (mem : Memory) {c : Cursor} {b : Nat}
    {buf : List UInt8} (hb : c.blockIndex = b) (hbN : b + bitmapSizeInBlocks < N)
    (hadj : c.adjustedOffset ≤ maxDataInBlock) (hover : addSize c.adjustedOffset buf.length > maxDataInBlock)
    (hlong : 2 * maxDataInBlock < c.adjustedOffset + buf.length) :
    ∃ d₁ d₂ v' last, machine.Yields (writeAt mem c buf) v () v' ∧
      Written (v.disk.mark mem.stack (t.used + 1)) d₁ b (put (putInt c.block maxDataInBlock 8 (t.used + 1 : Nat))
        c.adjustedOffset (buf.take (maxDataInBlock - c.adjustedOffset))) ∧
      Written d₁ d₂ (t.used + 1) (putInt (put (onHeap mem.heap (d₁.block (t.used + 1))) 0
        ((buf.drop (maxDataInBlock - c.adjustedOffset)).take maxDataInBlock)) maxDataInBlock 8 (t.used + 2 : Nat)) ∧
      Written d₂ v'.disk (t.used + 2) last ∧ Offers N v' (t.used + 2) ∧
      Stacked (t.used + 2) (onHeap mem.heap (d₂.block (t.used + 2)))
        ((buf.drop (maxDataInBlock - c.adjustedOffset)).drop maxDataInBlock) last := by
  have hmax : maxDataInBlock = 504 := rfl
  have hin' : InFront N (t.used + 1 : Nat) := hin.mono (by omega)
  have hdrop : (buf.drop (maxDataInBlock - c.adjustedOffset)).length = buf.length - (maxDataInBlock - c.adjustedOffset) :=
    List.length_drop
  have hmore : (buf.drop (maxDataInBlock - c.adjustedOffset)).length > maxDataInBlock := by omega
  have hoffers := h.offers_marked hin' mem.stack
  have hw : Written (v.disk.mark mem.stack (t.used + 1)) _ b (put (putInt c.block maxDataInBlock 8 (t.used + 1 : Nat))
      c.adjustedOffset (buf.take (maxDataInBlock - c.adjustedOffset))) := written_writeBlock _ (hoffers.block_le hbN)
  obtain ⟨d₂, v', last, hy, hw₂, hw₃, hoffers', hs⟩ := writeLoop_enter mem 0
    ((buf.drop (maxDataInBlock - c.adjustedOffset)).length / maxDataInBlock)
    (onHeap mem.heap ((Disk.writeBlock _ b _).block (t.used + 1))) (b := t.used + 1)
    (hoffers.written hw) hin hin'.lt hmore
  exact ⟨_, d₂, v', last, (h.writeAt_becomes mem hb hadj hover).yields hy, hw, hw₂, hw₃, hoffers',
    hs rfl (by rw [hmax]; omega)⟩

/-- The blocks that the links of the file come to: those in front of the write, the one that was handed out
and marked, and from there on the one that was not. -/
def File.overrun (f : File) (offset used k : Nat) : Nat :=
  if k ≤ startBlock offset then f.blockOf k else if k = startBlock offset + 1 then used + 1 else used + 2

theorem File.overrun_le {f : File} {offset used k : Nat} (hk : k ≤ startBlock offset) :
    f.overrun offset used k = f.blockOf k := if_pos hk

theorem File.overrun_one (f : File) (offset used : Nat) : f.overrun offset used (startBlock offset + 1) = used + 1 := by
  rw [File.overrun, if_neg (by omega), if_pos rfl]

theorem File.overrun_ge {f : File} {offset used k : Nat} (hk : startBlock offset + 2 ≤ k) :
    f.overrun offset used k = used + 2 := by
  rw [File.overrun, if_neg (by omega), if_neg (by omega)]

/-- The image after a write that needed a third block. -/
structure Overrun (t : Tree) (f : File) (offset : Nat) (buf : List UInt8) (d' : Disk) : Prop where
  threaded : Threaded d' (f.overrun offset t.used) (startBlock offset + 2)
  unmarked : d'.taken (t.used + 2) = false
  data : ∀ p x, buf[p]? = some x → adjusted offset + p < 2 * maxDataInBlock →
    dataAt d' (f.overrun offset t.used) (offset + p) = x
  stacked : ∃ block last, Stacked (t.used + 2) block (buf.drop (2 * maxDataInBlock - adjusted offset)) last ∧
    ∀ i < blockSize, d'.block (t.used + 2) i = last i

theorem Rep.overrun (h : Rep N v t) (hin : InFront N (t.used + 2 : Nat)) (mem : Memory) {i j offset b size : Nat}
    {D : Directory} {f : File} {buf : List UInt8} (hD : t.dirs[i]? = some D) (hf : D.files[j]? = some f)
    (hb : f.chain[startBlock offset]? = some b) (hover : addSize (adjusted offset) buf.length > maxDataInBlock)
    (hlong : 2 * maxDataInBlock < adjusted offset + buf.length) (hsize : size < 2 ^ 64) :
    ∃ v', machine.Yields (writeRest mem buf ⟨b, onHeap mem.heap (v.disk.block b), adjusted offset, true⟩ D.block
        (putInt (onHeap mem.heap (v.disk.block D.block)) (fileAt j + 13) 8 size)) v (asInt buf.length) v' ∧
      Overrun t f offset buf v'.disk ∧
      (∀ p x, p < offset → f.contents[p]? = some x → dataAt v'.disk (f.overrun offset t.used) p = x) ∧
      ∀ used, Listed v'.disk (t.modify i (·.set j (f.resize size)) used) := by
  have hmax : maxDataInBlock = 504 := rfl
  have hblock : blockSize = 512 := rfl
  have hplace := Tree.blockAt_data hD hf hb
  have hble := h.within _ _ hplace
  have hDle := h.dir_block hD
  have hbD : b ≠ D.block := h.ne_of_place hplace (Tree.blockAt_dir hD) (by simp)
  have hroom := hin.lt
  have hused := h.used_lt
  have hbits : bitmapBits = 12288 := rfl
  have hadj := adjusted_le offset
  have hoffset := offset_eq offset
  have hm := h.marked (hin.mono (by omega)) mem.stack
  obtain ⟨d₁, d₂, v₃, last, hy, hw₁, hw₂, hw₃, hoffers, hs⟩ := h.writeAt_long hin mem
    (c := ⟨b, onHeap mem.heap (v.disk.block b), adjusted offset, true⟩) rfl (h.place_lt hplace) hadj hover hlong
  dsimp only at hw₁ hw₂ hs
  rw [List.drop_drop, show maxDataInBlock - adjusted offset + maxDataInBlock = 2 * maxDataInBlock - adjusted offset by
    omega] at hs
  have hw₄ : Written v₃.disk _ D.block (putInt (onHeap mem.heap (v.disk.block D.block)) (fileAt j + 13) 8 size) :=
    written_writeBlock _ (hoffers.block_le (by omega))
  refine ⟨_, hy.bind ((saveDir_yields _ _ _).bind (.pure (asInt buf.length) _)), ?_⟩
  generalize v₃.disk.writeBlock D.block _ = d₄ at hw₄ ⊢
  dsimp only
  -- the three blocks of the write
  have hfst : ∀ k < blockSize, d₄.block b k = put (putInt (onHeap mem.heap (v.disk.block b)) maxDataInBlock 8
      (t.used + 1 : Nat)) (adjusted offset) (buf.take (maxDataInBlock - adjusted offset)) k := fun k hk => by
    rw [hw₄.same b hbD k hk, hw₃.same b (by omega) k hk, hw₂.same b (by omega) k hk, hw₁.self k hk]
  have hsnd : ∀ k < blockSize, d₄.block (t.used + 1) k = putInt (put (onHeap mem.heap (d₁.block (t.used + 1))) 0
      ((buf.drop (maxDataInBlock - adjusted offset)).take maxDataInBlock)) maxDataInBlock 8 (t.used + 2 : Nat) k :=
    fun k hk => by rw [hw₄.same _ (by omega) k hk, hw₃.same _ (by omega) k hk, hw₂.self k hk]
  have htrd : ∀ k < blockSize, d₄.block (t.used + 2) k = last k := fun k hk => by
    rw [hw₄.same _ (by omega) k hk, hw₃.self k hk]
  have honly : OnlyAt v t b D.block d₄ := fun x hx hxb hxD => by
    have hroom := h.room
    exact ((((hm.same x (by omega)).trans (hw₁.same x hxb)).trans (hw₂.same x (by omega))).trans
      (hw₃.same x (by omega))).trans (hw₄.same x hxD)
  have hsmall : t.used + 2 < 2 ^ 63 := by omega
  have hlink₁ : next (d₄.block b) = (t.used + 1 : Nat) := next_of_putInt (Nat.lt_of_succ_lt hsmall) fun i hi => by
    rw [hfst _ (by omega), put_outside (by rw [List.length_take]; omega)]
  have hlink₂ : next (d₄.block (t.used + 1)) = (t.used + 2 : Nat) :=
    next_of_putInt hsmall fun i hi => hsnd _ (by omega)
  refine ⟨⟨?_, ?_, fun p x hx hp => ?_, _, last, hs, htrd⟩, fun p x hp hx => ?_,
    fun used => h.listed_resize hD hf hb honly mem.heap hsize hw₄.self used⟩
  · have hth := h.threaded_before hD hf hb honly
    rw [← File.blockOf_eq hb] at hlink₁
    have hth₁ : Threaded d₄ (f.overrun offset t.used) (startBlock offset + 1) :=
      hth.extend (fun k hk => File.overrun_le hk) (by rw [hlink₁, File.overrun_one])
        (by rw [File.overrun_one]; exact Nat.succ_pos _)
    refine hth₁.extend (fun _ _ => rfl) ?_ (by rw [File.overrun_ge (le_refl _)]; exact Nat.succ_pos _)
    rw [File.overrun_one, hlink₂, File.overrun_ge (le_refl _)]
  · rw [hw₄.taken, hoffers.taken, decide_eq_false_iff_not]
    omega
  · have hlt := (List.getElem?_eq_some_iff.1 hx).1
    rw [dataAt]
    rcases lt_or_ge p (maxDataInBlock - adjusted offset) with hfirst | hsecond
    · obtain ⟨hdiv, hmod⟩ := position_first offset p (by omega)
      rw [hdiv, hmod, File.overrun_le (le_refl _), File.blockOf_eq hb, hfst _ (by omega)]
      exact put_inside (by rw [List.getElem?_take_of_lt hfirst, hx])
    · obtain ⟨hdiv, hmod⟩ := position_second hsecond hp
      rw [hdiv, hmod, File.overrun_one, hsnd _ (by omega), putInt_outside (by omega), ← Nat.zero_add (p - _)]
      exact put_inside (by rw [List.getElem?_take_of_lt (by omega), List.getElem?_drop, Nat.add_sub_cancel' hsecond, hx])
  · obtain ⟨c, hc, rfl⟩ := (h.file i D j f hD hf).data p x hx
    have hmod : p % maxDataInBlock < maxDataInBlock := Nat.mod_lt _ (by decide)
    rw [dataAt, File.overrun_le (startBlock_of_lt hp), File.blockOf_eq hc]
    by_cases hcb : c = b
    · subst hcb
      have hn := h.chain_uniq hD hf hb _ hc
      rw [hfst _ (by omega), put_outside (by rw [hmax] at hoffset hn ⊢; omega), putInt_outside (by omega),
        onHeap_of_lt (by omega)]
    · have hplace' := Tree.blockAt_data hD hf hc
      exact honly c (h.within _ _ hplace').2 hcb (h.ne_of_place hplace' (Tree.blockAt_dir hD) (by simp)) _ (by omega)

/-- The image after a write of a size so large that `adjusted_offset + size` wraps around: the loop takes the
first block already without marking it. -/
theorem Rep.wrapped (h : Rep N v t) (hin : InFront N (t.used + 1 : Nat)) (mem : Memory) {i j offset b size : Nat}
    {D : Directory} {f : File} {buf : List UInt8} (hD : t.dirs[i]? = some D) (hf : D.files[j]? = some f)
    (hb : f.chain[startBlock offset]? = some b) (hwrap : ¬ addSize (adjusted offset) buf.length > maxDataInBlock)
    (hlong : 2 * maxDataInBlock < adjusted offset + buf.length) (hsize : size < 2 ^ 64) :
    ∃ v', machine.Yields (writeRest mem buf ⟨b, onHeap mem.heap (v.disk.block b), adjusted offset, true⟩ D.block
        (putInt (onHeap mem.heap (v.disk.block D.block)) (fileAt j + 13) 8 size)) v (asInt buf.length) v' ∧
      Threaded v'.disk (f.overrun offset t.used) (startBlock offset + 1) ∧ v'.disk.taken (t.used + 1) = false ∧
      ∀ used, Listed v'.disk (t.modify i (·.set j (f.resize size)) used) := by
  have hmax : maxDataInBlock = 504 := rfl
  have hblock : blockSize = 512 := rfl
  have hplace := Tree.blockAt_data hD hf hb
  have hble := h.within _ _ hplace
  have hDle := h.dir_block hD
  have hbD : b ≠ D.block := h.ne_of_place hplace (Tree.blockAt_dir hD) (by simp)
  have hused := h.used_lt
  have hbits : bitmapBits = 12288 := rfl
  have hadj := adjusted_le offset
  have hroom := h.room
  obtain ⟨d₁, v₂, last, hy, hw₁, hw₂, hoffers, -⟩ := writeLoop_enter mem (adjusted offset) (buf.length / maxDataInBlock)
    (onHeap mem.heap (v.disk.block b)) h.offers hin (h.place_lt hplace) (show buf.length > maxDataInBlock by omega)
  have hwrite : machine.Yields (writeAt mem ⟨b, onHeap mem.heap (v.disk.block b), adjusted offset, true⟩ buf) v () v₂ := by
    rw [writeAt, if_neg hwrap]
    exact hy
  have hw₃ : Written v₂.disk _ D.block (putInt (onHeap mem.heap (v.disk.block D.block)) (fileAt j + 13) 8 size) :=
    written_writeBlock _ (hoffers.block_le (by omega))
  refine ⟨_, hwrite.bind ((saveDir_yields _ _ _).bind (.pure (asInt buf.length) _)), ?_⟩
  generalize v₂.disk.writeBlock D.block _ = d₃ at hw₃ ⊢
  dsimp only
  have honly : OnlyAt v t b D.block d₃ := fun x hx hxb hxD =>
    ((hw₁.same x hxb).trans (hw₂.same x (by omega))).trans (hw₃.same x hxD)
  refine ⟨?_, ?_, fun used => h.listed_resize hD hf hb honly mem.heap hsize hw₃.self used⟩
  · have hth := h.threaded_before hD hf hb honly
    refine hth.extend (fun k hk => File.overrun_le hk) ?_ (by rw [File.overrun_one]; omega)
    rw [File.blockOf_eq hb, File.overrun_one]
    exact next_of_putInt (by omega) fun k hk => by
      rw [hw₃.same b hbD _ (by omega), hw₂.same b (by omega) _ (by omega), hw₁.self _ (by omega)]
  · rw [hw₃.taken, hoffers.taken, decide_eq_false_iff_not]
    omega

/-! ## The cursor -/

theorem rules_past (c : Nat) : Rules (fun Q p => machine.Ensures (Past c) Q p) fun _ => True where
  toReading := reading_ensures _
  writeBlock _ _ := (past_writeBlock _ _).ensures
  findNext := past_findNextFreeBlockIndex.ensures
  setBitmap _ _ _ := (past_setBitmap _ _ _).ensures

theorem past_writeLoop (mem : Memory) (adjustedOffset : Nat) {c : Nat} (turns : Nat) (blockIndex : Int) (block : Mem)
    (buf : List UInt8) : machine.Maintains (Past c) (writeLoop mem adjustedOffset turns blockIndex block buf) :=
  ((rules_past c).writeLoop _ _ _ _ _ _).maintains

section Cursor

variable (mem : Memory) {buf : List UInt8}

/-- A turn of the loop that takes the block offered does not give it back. -/
theorem Offers.turn_past (h : Offers N v B) {adjustedOffset turns : Nat} {blockIndex : Int} {block : Mem}
    (hmore : buf.length > maxDataInBlock) :
    ∃ q, machine.Becomes (writeLoop mem adjustedOffset (turns + 1) blockIndex block buf) v q { v with cursor := B } ∧
      ∀ n, machine.Maintains (Past n) q := by
  rw [writeLoop, if_neg (by omega), if_pos hmore]
  exact ⟨_, h.alloc.becomes, fun n => .bind (past_writeBlock _ _) fun _ => .bind (past_openBlock _ _) fun _ =>
    past_writeLoop mem _ _ _ _ _⟩

variable {c : Cursor}

/-- A write that needs a third block takes one, whatever `adjusted_offset + size` wraps around to. -/
theorem Rep.writeAt_first (h : Rep N v t) (hadj : c.adjustedOffset ≤ maxDataInBlock)
    (hlong : 2 * maxDataInBlock < c.adjustedOffset + buf.length) :
    ∃ q, machine.Becomes (writeAt mem c buf) v q { v with cursor := (t.used + 1 : Nat) } ∧
      ∀ n, machine.Maintains (Past n) q := by
  by_cases hover : addSize c.adjustedOffset buf.length > maxDataInBlock
  · rw [writeAt, if_pos hover]
    exact ⟨_, h.alloc.becomes, fun n => .bind (past_setBitmap _ _ _) fun _ => .bind (past_writeBlock _ _) fun _ =>
      .bind (past_openBlock _ _) fun _ => past_writeLoop mem 0 _ _ _ _⟩
  · rw [writeAt, if_neg hover]
    exact h.offers.turn_past mem (by omega)

/-- The second one is the one behind it, if the first one is marked. -/
theorem Rep.writeAt_second (h : Rep N v t) (hin : InFront N (t.used + 1 : Nat)) {b : Nat} (hb : c.blockIndex = b)
    (hbN : b + bitmapSizeInBlocks < N) (hadj : c.adjustedOffset ≤ maxDataInBlock)
    (hover : addSize c.adjustedOffset buf.length > maxDataInBlock)
    (hlong : 2 * maxDataInBlock < c.adjustedOffset + buf.length) :
    ∃ q d', machine.Becomes (writeAt mem c buf) v q ⟨d', (t.used + 2 : Nat)⟩ ∧ ∀ n, machine.Maintains (Past n) q := by
  have hoffers := h.offers_marked hin mem.stack
  have hw : Written (v.disk.mark mem.stack (t.used + 1)) _ b (put (putInt c.block maxDataInBlock 8 (t.used + 1 : Nat))
      c.adjustedOffset (buf.take (maxDataInBlock - c.adjustedOffset))) := written_writeBlock _ (hoffers.block_le hbN)
  have hmore : (buf.drop (maxDataInBlock - c.adjustedOffset)).length > maxDataInBlock := by
    rw [List.length_drop]
    omega
  obtain ⟨q, hq, hpast⟩ := (hoffers.written hw).turn_past mem hmore
  exact ⟨q, _, (h.writeAt_becomes mem hb hadj hover).trans hq, hpast⟩

end Cursor

theorem past_writeRest (mem : Memory) {c : Cursor} {q : Req Unit} {buf : List UInt8} {d' : Disk} {n : Nat}
    {dirBlockLocation : Int} {dir : Mem} (hq : machine.Becomes (writeAt mem c buf) v q ⟨d', n⟩)
    (hpast : machine.Maintains (Past n) q) (hn : n ≤ bitmapBits) (pos : Nat) :
    Past n (machine.run (writeRest mem buf c dirBlockLocation dir) pos v).2.2 := by
  have hbits : bitmapBits = 12288 := rfl
  refine (hq.bind _).maintains (.bind hpast fun _ => .bind (past_writeBlock _ _) fun _ => .pure _) ⟨le_refl _, ?_⟩ pos
  simp only [totalBlocks]
  omega

/-- After a write that needs a third block the links of the file come to a block that is not marked. -/
theorem Rep.stray (h : Rep N v t) (mem : Memory) {names : Names} {D : Directory} {f : File} {buf : List UInt8}
    {offset : Int} (hD : t.dirs[t.dirIndex names.directory]? = some D)
    (hf : D.files[D.fileIndex names.filename names.extension]? = some f) (hoff : asSize offset ≤ f.contents.length)
    (hlong : 2 * maxDataInBlock < adjusted (asSize offset) + buf.length) (notFound missing : Int)
    (hfront : InFront N (serve (withFile mem names notFound missing (Fs.writeFile mem buf offset)) v).2.cursor) :
    ∃ v' n size, machine.Yields (withFile mem names notFound missing (Fs.writeFile mem buf offset)) v (asInt buf.length) v' ∧
      Threaded v'.disk (f.overrun (asSize offset) t.used) n ∧ v'.disk.taken (f.overrun (asSize offset) t.used n) = false ∧
      Listed v'.disk (t.modify (t.dirIndex names.directory)
        (·.set (D.fileIndex names.filename names.extension) (f.resize size)) t.used) := by
  have hadj := adjusted_le (asSize offset)
  have hsize : addSize (asSize offset) buf.length < 2 ^ 64 := Nat.mod_lt _ (by decide)
  obtain ⟨b, hb, hbecomes⟩ := h.writeFile mem buf hD hf hoff notFound missing
  have hbN := h.place_lt (Tree.blockAt_data hD hf hb)
  obtain ⟨pos, hrun⟩ := hbecomes 0
  rw [serve, hrun] at hfront
  -- the cursor does not move back, so the blocks taken are in front of the bitmap as well
  have hin : InFront N (t.used + 1 : Nat) := by
    obtain ⟨q, hq, hpast⟩ := h.writeAt_first mem (c := ⟨b, onHeap mem.heap (v.disk.block b), _, true⟩) hadj hlong
    exact hfront.mono (past_writeRest mem hq (hpast _) h.used_lt pos).1
  by_cases hover : addSize (adjusted (asSize offset)) buf.length > maxDataInBlock
  · have hin₂ : InFront N (t.used + 2 : Nat) := by
      obtain ⟨q, d', hq, hpast⟩ := h.writeAt_second mem hin (c := ⟨b, onHeap mem.heap (v.disk.block b), _, true⟩) rfl hbN
        hadj hover hlong
      exact hfront.mono (past_writeRest mem hq (hpast _) (by exact_mod_cast hin.bit) pos).1
    obtain ⟨v', hy, ho, -, hlisted⟩ := h.overrun hin₂ mem hD hf hb hover hlong hsize
    refine ⟨v', _, _, hbecomes.yields hy, ho.threaded, ?_, hlisted t.used⟩
    rw [File.overrun_ge (le_refl _)]
    exact ho.unmarked
  · obtain ⟨v', hy, hth, hfree, hlisted⟩ := h.wrapped hin mem hD hf hb hover hlong hsize
    refine ⟨v', _, _, hbecomes.yields hy, hth, ?_, hlisted t.used⟩
    rw [File.overrun_one]
    exact hfree

/-! ## Reading it back -/

/-- From position `n` on the buffer repeats itself block by block. -/
def RepeatsFrom (n : Nat) (buf : List UInt8) : Prop :=
  ∀ p, n ≤ p → p + maxDataInBlock < buf.length → buf[p]? = buf[p + maxDataInBlock]?

theorem repeatsFrom_drop {n : Nat} {buf : List UInt8} : RepeatsFrom 0 (buf.drop n) ↔ RepeatsFrom n buf := by
  constructor
  · intro hrep p hn hp
    have heq := hrep (p - n) (Nat.zero_le _) (by rw [List.length_drop]; omega)
    rwa [List.getElem?_drop, List.getElem?_drop, Nat.add_sub_cancel' hn, ← Nat.add_assoc, Nat.add_sub_cancel' hn] at heq
  · intro hrep p _ hp
    rw [List.length_drop] at hp
    rw [List.getElem?_drop, List.getElem?_drop, ← Nat.add_assoc]
    exact hrep (n + p) (by omega) (by omega)

/-- The block holds every byte that was stored in it just where the buffer repeats itself. -/
theorem Stacked.all_iff {block last : Mem} {buf : List UInt8} (hs : Stacked B block buf last) :
    (∀ p x, buf[p]? = some x → last (p % maxDataInBlock) = x) ↔ RepeatsFrom 0 buf := by
  constructor
  · intro hall p _ hp
    have h₁ := List.getElem?_eq_getElem (l := buf) (i := p) (by omega)
    have h₂ := List.getElem?_eq_getElem hp
    have hx := hall _ _ h₁
    have hy := hall _ _ h₂
    rw [Nat.add_mod_right] at hy
    rw [h₁, h₂, ← hx, ← hy]
  · intro hrep p x hx
    -- `n` blocks in front of the last bytes
    obtain ⟨n, hn⟩ : ∃ n, buf.length ≤ p + maxDataInBlock * (n + 1) := ⟨buf.length, by
      simp only [maxDataInBlock, blockSize]
      omega⟩
    induction n generalizing p with
    | zero => exact hs.bytes p x hx (by omega)
    | succ n ih =>
      rcases lt_or_ge (p + maxDataInBlock) buf.length with hlt | hge
      · rw [hrep p (Nat.zero_le _) hlt] at hx
        have hlast := ih (p + maxDataInBlock) hx (by rw [Nat.mul_succ] at hn; omega)
        rwa [Nat.add_mod_right] at hlast
      · exact hs.bytes p x hx hge

/-- As long as the bytes are read, the links go on. -/
theorem Overrun.threaded_upTo {f : File} {offset : Nat} {buf : List UInt8} (ho : Overrun t f offset buf d') :
    ∃ n, Threaded d' (f.overrun offset t.used) n ∧ offset + buf.length ≤ maxDataInBlock * (n + 1) := by
  have hmax : maxDataInBlock = 504 := rfl
  have hblock : blockSize = 512 := rfl
  have hoffset := offset_eq offset
  have hadj := adjusted_le offset
  rcases Nat.lt_or_ge (3 * maxDataInBlock) (adjusted offset + buf.length) with hmore | hfit
  · refine ⟨startBlock offset + 2 + buf.length, ⟨fun k hk => ?_, fun k hk => ?_⟩, by rw [hmax] at hoffset hadj ⊢; omega⟩
    · rcases Nat.lt_or_ge k (startBlock offset + 2) with hlt | hge
      · exact ho.threaded.link k hlt
      · obtain ⟨block, last, hs, hself⟩ := ho.stacked
        have hlink := hs.link
        rw [if_neg (by rw [List.length_drop]; omega)] at hlink
        rw [File.overrun_ge hge, File.overrun_ge (by omega), ← hlink]
        exact getInt_congr fun i hi => hself _ (by omega)
    · rcases Nat.lt_or_ge k (startBlock offset + 2) with hlt | hge
      · exact ho.threaded.pos k (by omega)
      · rw [File.overrun_ge hge]
        omega
  · exact ⟨_, ho.threaded, by rw [hmax] at hoffset hfit ⊢; omega⟩

theorem Overrun.bytesFrom_iff {f : File} {offset : Nat} {buf : List UInt8} (ho : Overrun t f offset buf d') :
    bytesFrom d' (f.overrun offset t.used) offset buf.length = buf ↔
      RepeatsFrom (2 * maxDataInBlock - adjusted offset) buf := by
  have hmax : maxDataInBlock = 504 := rfl
  have hblock : blockSize = 512 := rfl
  have hoffset := offset_eq offset
  have hadj := adjusted_le offset
  obtain ⟨block, last, hs, hself⟩ := ho.stacked
  -- the bytes from the third block on
  have hlast : ∀ q, dataAt d' (f.overrun offset t.used) (offset + (2 * maxDataInBlock - adjusted offset + q)) =
      last (q % maxDataInBlock) := by
    intro q
    have hpos : offset + (2 * maxDataInBlock - adjusted offset + q) = maxDataInBlock * (startBlock offset + 2) + q := by
      rw [hmax] at hoffset hadj ⊢
      omega
    have hmod : q % maxDataInBlock < maxDataInBlock := Nat.mod_lt _ (by decide)
    rw [dataAt, hpos, Nat.mul_add_mod, Nat.mul_add_div (by decide), File.overrun_ge (Nat.le_add_right _ _),
      hself _ (by omega)]
  rw [bytesFrom_eq_iff, ← repeatsFrom_drop, ← hs.all_iff]
  constructor
  · intro hall q x hx
    rw [List.getElem?_drop] at hx
    rw [← hlast]
    exact hall _ x hx
  · intro hall p x hx
    rcases Nat.lt_or_ge (adjusted offset + p) (2 * maxDataInBlock) with hlt | hge
    · exact ho.data p x hx hlt
    · obtain ⟨q, rfl⟩ : ∃ q, p = 2 * maxDataInBlock - adjusted offset + q := ⟨_, (Nat.add_sub_cancel' (by omega)).symm⟩
      rw [hlast]
      exact hall q x (by rw [List.getElem?_drop, hx])

end CS1550.Fs
