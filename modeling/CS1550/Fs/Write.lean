/-
`cs1550_write` on an image that represents a tree does what `Tree.write` says, for a write that ends in
the block it starts in or in the one behind it: the loop of `cs1550_write` then makes one turn, and the
block that it would hand out without marking it is not needed.
-/
import CS1550.Fs.Create
import CS1550.Fs.Image

namespace CS1550.Fs

open Bytes

variable {N : Nat} {v : Volume} {t : Tree} {d d' : Disk}

/-! ## Offsets -/

theorem offset_eq (offset : Nat) : offset = maxDataInBlock * startBlock offset + adjusted offset := by
  simp only [adjusted, startBlock, maxDataInBlock, blockSize]
  omega

theorem adjusted_le (offset : Nat) : adjusted offset ≤ maxDataInBlock := by
  simp only [adjusted, startBlock, maxDataInBlock, blockSize]
  omega

theorem startBlock_of_lt {offset p : Nat} (hp : p < offset) : p / maxDataInBlock ≤ startBlock offset := by
  simp only [startBlock, maxDataInBlock, blockSize]
  omega

/-- Bytes of a write that stay in the block it starts in. -/
theorem position_first (offset q : Nat) (hq : adjusted offset + q < maxDataInBlock) :
    (offset + q) / maxDataInBlock = startBlock offset ∧ (offset + q) % maxDataInBlock = adjusted offset + q := by
  have hmax : maxDataInBlock = 504 := rfl
  have hoffset := offset_eq offset
  rw [hmax] at hoffset hq ⊢
  constructor <;> omega

/-- Bytes of a write that go to the block behind. -/
theorem position_second {offset q : Nat} (hge : maxDataInBlock - adjusted offset ≤ q)
    (hlt : adjusted offset + q < 2 * maxDataInBlock) :
    (offset + q) / maxDataInBlock = startBlock offset + 1 ∧
      (offset + q) % maxDataInBlock = q - (maxDataInBlock - adjusted offset) := by
  have hmax : maxDataInBlock = 504 := rfl
  have hoffset := offset_eq offset
  have hadj := adjusted_le offset
  rw [hmax] at hoffset hadj hge hlt ⊢
  constructor <;> omega

/-! ## The contents written -/

/-- A byte of the contents after a write: one in front of the offset, or one of the buffer. -/
theorem contents_write {f : File} {fresh : Nat} {buf : List UInt8} {offset p : Nat} {x : UInt8}
    (hoff : offset ≤ f.contents.length) (hx : (f.write fresh buf offset).contents[p]? = some x) :
    (p < offset ∧ f.contents[p]? = some x) ∨ ∃ q, p = offset + q ∧ buf[q]? = some x := by
  have hlen : (f.contents.take offset).length = offset := by simp [hoff]
  simp only [File.write] at hx
  rcases lt_or_ge p offset with hlt | hge
  · rw [List.getElem?_append_left (by omega), List.getElem?_take_of_lt hlt] at hx
    exact .inl ⟨hlt, hx⟩
  · rw [List.getElem?_append_right (by omega), hlen] at hx
    exact .inr ⟨p - offset, by omega, hx⟩

theorem length_contents_write {f : File} {fresh : Nat} {buf : List UInt8} {offset : Nat}
    (hoff : offset ≤ f.contents.length) : (f.write fresh buf offset).contents.length = offset + buf.length := by
  simp [File.write, hoff]

/-- A write within one block of the chain. -/
theorem Chained.writeWithin {f : File} (hf : Chained d f) {fresh offset b : Nat} {buf : List UInt8} (heap : Mem)
    (hoff : offset ≤ f.contents.length) (hb : f.chain[startBlock offset]? = some b)
    (huniq : ∀ n, f.chain[n]? = some b → n = startBlock offset) (hfit : adjusted offset + buf.length ≤ maxDataInBlock)
    (hself : ∀ i < blockSize, d'.block b i = put (onHeap heap (d.block b)) (adjusted offset) buf i)
    (hother : ∀ c ∈ f.chain, c ≠ b → SameBlock d d' c) : Chained d' (f.write fresh buf offset) := by
  have hchain : (f.write fresh buf offset).chain = f.chain := if_pos hfit
  have hmax : maxDataInBlock = 504 := rfl
  have hblock : blockSize = 512 := rfl
  have hoffset := offset_eq offset
  have hstart := startBlock_lt hf hoff
  refine ⟨hchain ▸ hf.nonempty, ?_, fun n c hc => ?_, fun p x hx => ?_⟩
  · rw [length_contents_write hoff, hchain]
    rw [hmax] at hoffset hfit ⊢
    omega
  · rw [hchain] at hc ⊢
    rw [← hf.linked n c hc]
    by_cases hcb : c = b
    · subst hcb
      exact getInt_congr fun i hi => by
        rw [hself _ (by omega), put_outside (by omega), onHeap_of_lt (by omega)]
    · exact next_congr (hother c (List.mem_of_getElem? hc) hcb)
  · rw [hchain]
    have hmodlt : p % maxDataInBlock < maxDataInBlock := Nat.mod_lt _ (by decide)
    rcases contents_write hoff hx with ⟨hlt, hold⟩ | ⟨q, rfl, hbuf⟩
    · obtain ⟨c, hc, rfl⟩ := hf.data p x hold
      refine ⟨c, hc, ?_⟩
      by_cases hcb : c = b
      · subst hcb
        have hn := huniq _ hc
        rw [hself _ (by omega), put_outside (by rw [hmax] at hoffset hn ⊢; omega), onHeap_of_lt (by omega)]
      · exact hother c (List.mem_of_getElem? hc) hcb _ (by omega)
    · have hlt : q < buf.length := (List.getElem?_eq_some_iff.1 hbuf).1
      obtain ⟨hdiv, hmod⟩ := position_first offset q (by omega)
      refine ⟨b, by rw [hdiv, hb], ?_⟩
      rw [hmod, hself _ (by omega), put_inside hbuf]

/-- A write that goes on in a fresh block: the chain is cut behind the block it starts in. -/
theorem Chained.writeAcross {f : File} (hf : Chained d f) {fresh offset b : Nat} {buf : List UInt8} (heap heap' : Mem)
    (hoff : offset ≤ f.contents.length) (hb : f.chain[startBlock offset]? = some b)
    (huniq : ∀ n, f.chain[n]? = some b → n = startBlock offset)
    (hover : maxDataInBlock < adjusted offset + buf.length) (hfit : adjusted offset + buf.length ≤ 2 * maxDataInBlock)
    (hfresh : fresh < 2 ^ 63) (hzero : ∀ i < blockSize, d.block fresh i = 0)
    (hself : ∀ i < blockSize, d'.block b i = put (putInt (onHeap heap (d.block b)) maxDataInBlock 8 fresh)
      (adjusted offset) (buf.take (maxDataInBlock - adjusted offset)) i)
    (hnew : ∀ i < blockSize, d'.block fresh i =
      put (onHeap heap' (d.block fresh)) 0 (buf.drop (maxDataInBlock - adjusted offset)) i)
    (hother : ∀ c ∈ f.chain, c ≠ b → SameBlock d d' c) : Chained d' (f.write fresh buf offset) := by
  have hchain : (f.write fresh buf offset).chain = f.chain.take (startBlock offset + 1) ++ [fresh] := if_neg (by omega)
  have hmax : maxDataInBlock = 504 := rfl
  have hblock : blockSize = 512 := rfl
  have hoffset := offset_eq offset
  have hadj := adjusted_le offset
  have hstart := startBlock_lt hf hoff
  have htake : (buf.take (maxDataInBlock - adjusted offset)).length = maxDataInBlock - adjusted offset := by
    rw [List.length_take]; omega
  have hdrop : (buf.drop (maxDataInBlock - adjusted offset)).length = adjusted offset + buf.length - maxDataInBlock := by
    rw [List.length_drop]; omega
  have hlen : (f.chain.take (startBlock offset + 1)).length = startBlock offset + 1 := by
    rw [List.length_take]; omega
  -- the positions of the new chain
  have hold : ∀ n, n ≤ startBlock offset → (f.write fresh buf offset).chain[n]? = f.chain[n]? := fun n hn => by
    rw [hchain, List.getElem?_append_left (by omega), List.getElem?_take_of_lt (by omega)]
  have hlast : (f.write fresh buf offset).chain[startBlock offset + 1]? = some fresh := by
    rw [hchain, List.getElem?_append_right (by omega), hlen, Nat.sub_self]
    rfl
  have hend : ∀ n, startBlock offset + 1 < n → (f.write fresh buf offset).chain[n]? = none := fun n hn => by
    rw [hchain, List.getElem?_eq_none]
    rw [List.length_append, hlen, List.length_singleton]
    omega
  refine ⟨by rw [hchain]; simp, ?_, fun n c hc => ?_, fun p x hx => ?_⟩
  · rw [length_contents_write hoff, hchain, List.length_append, hlen, List.length_singleton]
    rw [hmax] at hoffset hfit ⊢
    omega
  · rcases Nat.lt_trichotomy n (startBlock offset + 1) with hlt | rfl | hgt
    · rw [hold n (by omega)] at hc
      by_cases hn : n = startBlock offset
      · subst hn
        obtain rfl := Option.some.inj (hc.symm.trans hb)
        rw [hlast, Option.getD_some]
        exact next_of_putInt (by omega) fun i hi => by rw [hself _ (by omega), put_outside (by omega)]
      · have hcb : c ≠ b := fun h => hn (huniq n (h ▸ hc))
        rw [next_congr (hother c (List.mem_of_getElem? hc) hcb), hf.linked n c hc, hold (n + 1) (by omega)]
    · obtain rfl := Option.some.inj (hc.symm.trans hlast)
      rw [hend _ (by omega), next, getInt_of_zero fun i hi => ?_]
      · rfl
      · rw [hnew _ (by omega), put_outside (by omega), onHeap_of_lt (by omega), hzero _ (by omega)]
    · rw [hend n hgt] at hc
      cases hc
  · have hmodlt : p % maxDataInBlock < maxDataInBlock := Nat.mod_lt _ (by decide)
    rcases contents_write hoff hx with ⟨hlt, hx⟩ | ⟨q, rfl, hbuf⟩
    · obtain ⟨c, hc, rfl⟩ := hf.data p x hx
      refine ⟨c, by rw [hold _ (startBlock_of_lt hlt), hc], ?_⟩
      by_cases hcb : c = b
      · subst hcb
        have hn := huniq _ hc
        rw [hself _ (by omega), put_outside (by rw [hmax] at hoffset hn ⊢; omega), putInt_outside (by omega),
          onHeap_of_lt (by omega)]
      · exact hother c (List.mem_of_getElem? hc) hcb _ (by omega)
    · have hlt : q < buf.length := (List.getElem?_eq_some_iff.1 hbuf).1
      rcases lt_or_ge q (maxDataInBlock - adjusted offset) with hfst | hsnd
      · obtain ⟨hdiv, hmod⟩ := position_first offset q (by omega)
        refine ⟨b, by rw [hdiv, hold _ (le_refl _), hb], ?_⟩
        rw [hmod, hself _ (by omega), put_inside (by rw [List.getElem?_take_of_lt hfst, hbuf])]
      · obtain ⟨hdiv, hmod⟩ := position_second hsnd (by omega)
        refine ⟨fresh, by rw [hdiv, hlast], ?_⟩
        rw [hmod, hnew _ (by omega), ← Nat.zero_add (q - _), put_inside]
        rw [List.getElem?_drop, Nat.add_sub_cancel' hsnd, hbuf]

/-! ## One file changed -/

theorem Tree.blockAt_setFile {i j used : Nat} {D : Directory} {f' : File} {p : Place} {b : Nat}
    (hD : t.dirs[i]? = some D) (hb : (t.modify i (·.set j f') used).blockAt p = some b) :
    t.blockAt p = some b ∨ ∃ n, p = .data i j n ∧ f'.chain[n]? = some b := by
  cases p with
  | dir i' => exact .inl (by rwa [Tree.blockAt_modify_dir] at hb)
  | data i' j' n =>
    obtain ⟨D', g, hD', hg, hn⟩ := Tree.blockAt_data_some hb
    rcases Tree.modify_some hD' with ⟨rfl, D₀, hD₀, rfl⟩ | ⟨-, hold⟩
    · by_cases hj : j = j'
      · subst hj
        rw [List.getElem?_set_self' ] at hg
        obtain ⟨g₀, hg₀, rfl⟩ := Option.map_eq_some_iff.1 hg
        exact .inr ⟨n, rfl, hn⟩
      · rw [List.getElem?_set_ne hj] at hg
        exact .inl (Tree.blockAt_data hD₀ hg hn)
    · exact .inl (Tree.blockAt_data hold hg hn)

/-- The root and the directories after the entry of one file was changed. -/
theorem Rep.listed_setFile (h : Rep N v t) {i j : Nat} {D : Directory} {f' : File} (hD : t.dirs[i]? = some D) (used : Nat)
    (hdir : Holds fileCodec maxFilesInDir (d'.block D.block) (D.files.set j f')) (hroot : SameBlock v.disk d' 0)
    (hsame : ∀ (i' : Nat) (D' : Directory), t.dirs[i']? = some D' → i' ≠ i → SameBlock v.disk d' D'.block) :
    Listed d' (t.modify i (·.set j f') used) where
  root := holds_modify (holds_root_congr h.root hroot)
  directory i' D' hD' := by
    rcases Tree.modify_some hD' with ⟨rfl, D₀, hD₀, rfl⟩ | ⟨hne, hold⟩
    · obtain rfl := Option.some.inj (hD₀.symm.trans hD)
      exact hdir
    · exact holds_directory_congr (h.directory i' D' hold) (hsame i' D' hold hne)

/-- The image after one file was changed: only its own blocks, the one of its directory and perhaps one
handed out for it are different. -/
theorem Rep.setFile (h : Rep N v t) {i j : Nat} {D : Directory} {f f' : File} (hD : t.dirs[i]? = some D)
    (hf : D.files[j]? = some f) (n₁ : Nat) {used : Nat} {cursor : Int} (hsize : d'.size = v.disk.size)
    (hroom : used + bitmapSizeInBlocks < N) (hused : t.used ≤ used) (hcursor : cursor = (max 1 used : Nat))
    (htaken : ∀ c, d'.taken c = decide (1 ≤ c ∧ c ≤ used))
    (hdir : Holds fileCodec maxFilesInDir (d'.block D.block) (D.files.set j f')) (hchained : Chained d' f')
    (hchain : ∀ n c, f'.chain[n]? = some c → f.chain[n]? = some c ∨ n = n₁ ∧ c = t.used + 1 ∧ t.used + 1 ≤ used)
    (hsame : ∀ c, c ≤ t.used → c ≠ D.block → c ∉ f.chain → SameBlock v.disk d' c)
    (hfresh : ∀ c, used < c → c + bitmapSizeInBlocks < N → SameBlock v.disk d' c) :
    Rep N ⟨d', cursor⟩ (t.modify i (·.set j f') used) := by
  have hat : ∀ p b, (t.modify i (·.set j f') used).blockAt p = some b →
      t.blockAt p = some b ∨ p = .data i j n₁ ∧ b = t.used + 1 ∧ b ≤ used := by
    intro p b hb
    rcases Tree.blockAt_setFile hD hb with hold | ⟨n, rfl, hn⟩
    · exact .inl hold
    · rcases hchain n b hn with hold | ⟨rfl, hb, hle⟩
      · exact .inl (Tree.blockAt_data hD hf hold)
      · exact .inr ⟨rfl, hb, hb ▸ hle⟩
  obtain ⟨hwithin, hapart⟩ := h.grow _ _ hused hat
  -- blocks with another place than those of this file are as before
  have hplace : ∀ p b, t.blockAt p = some b → p ≠ .dir i → (∀ n, p ≠ .data i j n) → SameBlock v.disk d' b := by
    intro p b hb hp hp'
    refine hsame b (h.within p b hb).2 (h.ne_of_place hb (Tree.blockAt_dir hD) hp) fun hmem => ?_
    obtain ⟨n, hn, -⟩ := h.chain_block hD hf hmem
    exact hp' n (h.apart p _ b hb hn)
  have hfile : ∀ (i' : Nat) (D' : Directory) (j' : Nat) (g : File), t.dirs[i']? = some D' → D'.files[j']? = some g →
      (i' ≠ i ∨ j' ≠ j) → Chained d' g := by
    intro i' D' j' g hD' hg hne
    refine (h.file i' D' j' g hD' hg).congr fun b hb => ?_
    obtain ⟨n, hp, -⟩ := h.chain_block hD' hg hb
    refine hplace _ b hp (by simp) fun n' heq => ?_
    simp only [Place.data.injEq] at heq
    omega
  have hroot : SameBlock v.disk d' 0 := by
    refine hsame 0 (Nat.zero_le _) (by have := h.dir_block hD; omega) fun hmem => ?_
    obtain ⟨n, -, hpos, -⟩ := h.chain_block hD hf hmem
    omega
  have hlisted := h.listed_setFile hD used hdir hroot fun i' D' hD' hne =>
    hplace _ _ (Tree.blockAt_dir hD') (by simpa using hne) (by simp)
  refine ⟨hsize.trans h.size, hroom, hcursor, htaken, hlisted.root, hlisted.directory, ?_, hwithin, hapart, ?_⟩
  · intro i' D' j' g hD' hg
    rcases Tree.modify_some hD' with ⟨rfl, D₀, hD₀, rfl⟩ | ⟨hne, hold⟩
    · by_cases hj : j = j'
      · subst hj
        rw [List.getElem?_set_self'] at hg
        obtain ⟨g₀, -, rfl⟩ := Option.map_eq_some_iff.1 hg
        exact hchained
      · rw [List.getElem?_set_ne hj] at hg
        exact hfile _ D₀ j' g hD₀ hg (.inr (Ne.symm hj))
    · exact hfile i' D' j' g hold hg (.inl hne)
  · intro b hb hlt k hk
    change used < b at hb
    rw [hfresh b hb hlt k hk]
    exact h.fresh b (by omega) hlt k hk

/-! ## The handler -/

/-- The loop of `cs1550_write` for what fits into one block. -/
theorem writeLoop_yields (mem : Memory) (adjustedOffset turns b : Nat) (block : Mem) {buf : List UInt8}
    (hpos : 0 < buf.length) (hfit : buf.length ≤ maxDataInBlock) (v : Volume) :
    machine.Yields (writeLoop mem adjustedOffset (turns + 1) b block buf) v ()
      { v with disk := v.disk.writeBlock b (put block adjustedOffset buf) } := by
  rw [writeLoop, if_neg (by omega), if_neg (by omega)]
  exact writeBlock_yields b _ v

theorem writeAt_within (mem : Memory) {c : Cursor} {b : Nat} {buf : List UInt8} (hb : c.blockIndex = b)
    (hpos : 0 < buf.length) (hfit : c.adjustedOffset + buf.length ≤ maxDataInBlock) (v : Volume) :
    machine.Yields (writeAt mem c buf) v ()
      { v with disk := v.disk.writeBlock b (put c.block c.adjustedOffset buf) } := by
  have hmax : maxDataInBlock = 504 := rfl
  rw [writeAt, addSize_of_lt (by omega), if_neg (by omega), hb]
  exact writeLoop_yields mem _ _ b _ hpos (by omega) v

/-- A write that does not fit into the block of the offset marks a block, and goes on there. -/
theorem Rep.writeAt_becomes (h : Rep N v t) (mem : Memory) {c : Cursor} {b : Nat} {buf : List UInt8}
    (hb : c.blockIndex = b) (hadj : c.adjustedOffset ≤ maxDataInBlock)
    (hover : addSize c.adjustedOffset buf.length > maxDataInBlock) :
    let d₁ := (v.disk.mark mem.stack (t.used + 1)).writeBlock b
      (put (putInt c.block maxDataInBlock 8 (t.used + 1 : Nat)) c.adjustedOffset
        (buf.take (maxDataInBlock - c.adjustedOffset)))
    let rest := buf.drop (maxDataInBlock - c.adjustedOffset)
    machine.Becomes (writeAt mem c buf) v (writeLoop mem 0 (rest.length / maxDataInBlock + 1) (t.used + 1 : Nat)
      (onHeap mem.heap (d₁.block (t.used + 1))) rest) ⟨d₁, (t.used + 1 : Nat)⟩ := by
  intro d₁ rest
  have hmax : maxDataInBlock = 504 := rfl
  rw [writeAt, if_pos hover, hb, subSize_of_le hadj (by omega)]
  have hset := setBitmap_yields (v := { v with cursor := (t.used + 1 : Nat) }) mem.stack (t.used + 1) h.bitmap_le
  exact h.alloc.becomes.trans (hset.becomes.trans ((writeBlock_yields b _ _).becomes.trans
    (openBlock_yields mem.heap (t.used + 1) _).becomes))

theorem writeAt_across (h : Rep N v t) (mem : Memory) {c : Cursor} {b : Nat} {buf : List UInt8} (hb : c.blockIndex = b)
    (hadj : c.adjustedOffset ≤ maxDataInBlock) (hover : maxDataInBlock < c.adjustedOffset + buf.length)
    (hfit : c.adjustedOffset + buf.length ≤ 2 * maxDataInBlock) :
    let d₁ := (v.disk.mark mem.stack (t.used + 1)).writeBlock b
      (put (putInt c.block maxDataInBlock 8 (t.used + 1 : Nat)) c.adjustedOffset
        (buf.take (maxDataInBlock - c.adjustedOffset)))
    machine.Yields (writeAt mem c buf) v ()
      ⟨d₁.writeBlock (t.used + 1) (put (onHeap mem.heap (d₁.block (t.used + 1))) 0
        (buf.drop (maxDataInBlock - c.adjustedOffset))), (t.used + 1 : Nat)⟩ := by
  intro d₁
  have hmax : maxDataInBlock = 504 := rfl
  have hdrop : (buf.drop (maxDataInBlock - c.adjustedOffset)).length = c.adjustedOffset + buf.length - maxDataInBlock := by
    rw [List.length_drop]; omega
  exact (h.writeAt_becomes mem hb hadj (by rw [addSize_of_lt (by omega)]; omega)).yields
    (writeLoop_yields mem 0 _ (t.used + 1) _ (by omega) (by omega) ⟨d₁, (t.used + 1 : Nat)⟩)

/-- A directory with the size of one file changed. -/
theorem holds_setSize {dir : Mem} {fs : List File} {j : Nat} {f : File} (f' : File)
    (h : Holds fileCodec maxFilesInDir dir fs) (hf : fs[j]? = some f) (hname : f'.fname = f.fname) (hext : f'.fext = f.fext)
    (hstart : f'.chain.headD 0 = f.chain.headD 0) (hsmall : f'.contents.length < 2 ^ 64) :
    Holds fileCodec maxFilesInDir (putInt dir (fileAt j + 13) 8 f'.contents.length) (fs.set j f') := by
  obtain ⟨h1, h2, h3, h4, -, h6⟩ := h.entry j f hf
  have hslot : fileCodec.slot j = fileAt j := rfl
  have hstride : fileCodec.stride = 29 := rfl
  simp only [maxFilename, maxExtension] at h2 h4
  refine h.set (List.getElem?_eq_some_iff.1 hf).1 (fun i hi => putInt_outside (by omega))
    ⟨?_, by rw [hname]; exact h2, ?_, by rw [hext]; exact h4, ?_, ?_⟩
  · rw [hname]
    exact h1.congr fun i hi => by rw [hslot, shift, putInt_outside (by omega)]; rfl
  · rw [hext]
    exact h3.congr fun i hi => by rw [hslot, shift, putInt_outside (by omega)]; rfl
  · rw [getNat_shift]
    exact getNat_putInt_natCast _ _ 8 hsmall
  · rw [hstart, ← h6]
    exact getInt_congr fun i hi => by rw [hslot, shift, putInt_outside (by omega)]; rfl

theorem Rep.chain_uniq (h : Rep N v t) {i j n b : Nat} {D : Directory} {f : File} (hD : t.dirs[i]? = some D)
    (hf : D.files[j]? = some f) (hb : f.chain[n]? = some b) : ∀ n', f.chain[n']? = some b → n' = n := by
  intro n' hn'
  have heq := h.apart _ _ b (Tree.blockAt_data hD hf hn') (Tree.blockAt_data hD hf hb)
  simpa using heq

theorem headD_write {f : File} {fresh offset : Nat} {buf : List UInt8} (hne : 0 < f.chain.length) :
    (f.write fresh buf offset).chain.headD 0 = f.chain.headD 0 := by
  unfold File.write
  dsimp only
  split
  · rfl
  · cases hch : f.chain with
    | nil => simp [hch] at hne
    | cons b bs => rfl

/-- The image after a write within one block. -/
theorem Rep.writeWithin (h : Rep N v t) (mem : Memory) {i j offset b : Nat} {D : Directory} {f : File}
    {buf : List UInt8} (hD : t.dirs[i]? = some D) (hf : D.files[j]? = some f) (hoff : offset ≤ f.contents.length)
    (hb : f.chain[startBlock offset]? = some b) (hfit : adjusted offset + buf.length ≤ maxDataInBlock) :
    Rep N ⟨(v.disk.writeBlock b (put (onHeap mem.heap (v.disk.block b)) (adjusted offset) buf)).writeBlock D.block
        (putInt (onHeap mem.heap (v.disk.block D.block)) (fileAt j + 13) 8 (offset + buf.length : Nat)), v.cursor⟩
      (t.modify i (·.set j (f.write (t.used + 1) buf offset)) t.used) := by
  have hc := h.file i D j f hD hf
  have hplace := Tree.blockAt_data hD hf hb
  have hbD : b ≠ D.block := h.ne_of_place hplace (Tree.blockAt_dir hD) (by simp)
  have hw₁ : Written v.disk _ b (put (onHeap mem.heap (v.disk.block b)) (adjusted offset) buf) :=
    written_writeBlock _ (h.block_le (h.place_lt hplace))
  generalize v.disk.writeBlock b _ = d₁ at hw₁ ⊢
  have hw₂ : Written d₁ _ D.block
      (putInt (onHeap mem.heap (v.disk.block D.block)) (fileAt j + 13) 8 (offset + buf.length : Nat)) :=
    written_writeBlock _ (by rw [hw₁.size]; exact h.block_le (h.place_lt (Tree.blockAt_dir hD)))
  generalize d₁.writeBlock D.block _ = d₂ at hw₂ ⊢
  have hsame : ∀ c, c ≠ b → c ≠ D.block → SameBlock v.disk d₂ c := fun c hcb hcD => (hw₁.same c hcb).trans (hw₂.same c hcD)
  have hlen : (f.write (t.used + 1) buf offset).contents.length = offset + buf.length := length_contents_write hoff
  have hsmall := h.contents_lt hD hf
  have hmax : maxDataInBlock = 504 := rfl
  refine h.setFile hD hf 0 (hw₂.size.trans hw₁.size) h.room (le_refl _) h.cursor
    (fun c => by rw [hw₂.taken, hw₁.taken, h.taken]) ?_ ?_ (fun n c hn => ?_) (fun c _ hcD hmem => ?_) (fun c hc _ => ?_)
  · have hdir := holds_setSize (f.write (t.used + 1) buf offset) (h.listed.directory_onHeap mem.heap hD) hf rfl rfl
      (headD_write hc.nonempty) (by omega)
    rw [hlen] at hdir
    exact hdir.congr fun k hk => hw₂.self k (lt_of_lt_of_le hk (by decide))
  · refine hc.writeWithin mem.heap hoff hb (h.chain_uniq hD hf hb) hfit (fun k hk => ?_) fun c hmem hcb => ?_
    · rw [hw₂.same b hbD k hk, hw₁.self k hk]
    · obtain ⟨n, hn, -⟩ := h.chain_block hD hf hmem
      exact hsame c hcb (h.ne_of_place hn (Tree.blockAt_dir hD) (by simp))
  · left
    rwa [show (f.write (t.used + 1) buf offset).chain = f.chain from if_pos hfit] at hn
  · exact hsame c (fun hcb => hmem (hcb ▸ List.mem_of_getElem? hb)) hcD
  · have h1 := (h.within _ _ hplace).2
    have h2 := (h.dir_block hD).2
    exact hsame c (by omega) (by omega)

/-- The image after a write that went on in a fresh block. -/
theorem Rep.writeAcross (h : Rep N v t) (hin : InFront N (t.used + 1 : Nat)) (mem : Memory)
    {i j offset b : Nat} {D : Directory} {f : File} {buf : List UInt8} (hD : t.dirs[i]? = some D)
    (hf : D.files[j]? = some f) (hoff : offset ≤ f.contents.length) (hb : f.chain[startBlock offset]? = some b)
    (hover : maxDataInBlock < adjusted offset + buf.length) (hfit : adjusted offset + buf.length ≤ 2 * maxDataInBlock) :
    let d₁ := (v.disk.mark mem.stack (t.used + 1)).writeBlock b
      (put (putInt (onHeap mem.heap (v.disk.block b)) maxDataInBlock 8 (t.used + 1 : Nat)) (adjusted offset)
        (buf.take (maxDataInBlock - adjusted offset)))
    let d₂ := d₁.writeBlock (t.used + 1) (put (onHeap mem.heap (d₁.block (t.used + 1))) 0
        (buf.drop (maxDataInBlock - adjusted offset)))
    Rep N ⟨d₂.writeBlock D.block
        (putInt (onHeap mem.heap (v.disk.block D.block)) (fileAt j + 13) 8 (offset + buf.length : Nat)), (t.used + 1 : Nat)⟩
      (t.modify i (·.set j (f.write (t.used + 1) buf offset)) (t.used + 1)) := by
  intro d₁ d₂
  have hc := h.file i D j f hD hf
  have hplace := Tree.blockAt_data hD hf hb
  have hble := (h.within _ _ hplace).2
  have hDle := (h.dir_block hD).2
  have hbD : b ≠ D.block := h.ne_of_place hplace (Tree.blockAt_dir hD) (by simp)
  have hroom := hin.lt
  have hm := h.marked hin mem.stack
  have hw₁ : Written (v.disk.mark mem.stack (t.used + 1)) d₁ b _ :=
    written_writeBlock _ (by rw [hm.size]; exact h.block_le (h.place_lt hplace))
  have hw₂ : Written d₁ d₂ (t.used + 1) _ :=
    written_writeBlock _ (by rw [hw₁.size, hm.size]; exact h.block_le hroom)
  clear_value d₂ d₁
  have hw₃ : Written d₂ _ D.block
      (putInt (onHeap mem.heap (v.disk.block D.block)) (fileAt j + 13) 8 (offset + buf.length : Nat)) :=
    written_writeBlock _ (by rw [hw₂.size, hw₁.size, hm.size]; exact h.block_le (h.place_lt (Tree.blockAt_dir hD)))
  generalize d₂.writeBlock D.block _ = d₃ at hw₃ ⊢
  have hsame : ∀ c, c ≠ b → c ≠ t.used + 1 → c ≠ D.block → c + bitmapSizeInBlocks < N → SameBlock v.disk d₃ c :=
    fun c hcb hcn hcD hlt => (((hm.same c hlt).trans (hw₁.same c hcb)).trans (hw₂.same c hcn)).trans (hw₃.same c hcD)
  have hlen : (f.write (t.used + 1) buf offset).contents.length = offset + buf.length := length_contents_write hoff
  have hchain : (f.write (t.used + 1) buf offset).chain = f.chain.take (startBlock offset + 1) ++ [t.used + 1] :=
    if_neg (by omega)
  have hused := h.used_lt
  have hbits : bitmapBits = 12288 := rfl
  have hsmall := h.contents_lt hD hf
  have hmax : maxDataInBlock = 504 := rfl
  have hstart := startBlock_lt hc hoff
  refine h.setFile hD hf (startBlock offset + 1) (hw₃.size.trans (hw₂.size.trans (hw₁.size.trans hm.size))) hroom
    (by omega) (by simp) (fun c => by rw [hw₃.taken, hw₂.taken, hw₁.taken, hm.taken]) ?_ ?_ (fun n c hn => ?_)
    (fun c hle hcD hmem => ?_) (fun c hlt hcN => ?_)
  · have hdir := holds_setSize (f.write (t.used + 1) buf offset) (h.listed.directory_onHeap mem.heap hD) hf rfl rfl
      (headD_write hc.nonempty) (by omega)
    rw [hlen] at hdir
    exact hdir.congr fun k hk => hw₃.self k (lt_of_lt_of_le hk (by decide))
  · have hnew : SameBlock v.disk d₁ (t.used + 1) := (hm.same _ hroom).trans (hw₁.same _ (by omega))
    refine hc.writeAcross mem.heap mem.heap hoff hb (h.chain_uniq hD hf hb) hover hfit (by omega)
      (h.fresh _ (by omega) hroom) (fun k hk => ?_) (fun k hk => ?_) fun c hmem hcb => ?_
    · rw [hw₃.same b hbD k hk, hw₂.same b (by omega) k hk, hw₁.self k hk]
    · rw [hw₃.same _ (by omega) k hk, hw₂.self k hk]
      simp only [put, splice, onHeap, if_pos hk, hnew k hk]
    · obtain ⟨n, hn, -, hle⟩ := h.chain_block hD hf hmem
      exact hsame c hcb (by omega) (h.ne_of_place hn (Tree.blockAt_dir hD) (by simp)) (h.place_lt hn)
  · rw [hchain] at hn
    rcases lt_or_ge n (startBlock offset + 1) with hlt | hge
    · left
      rwa [List.getElem?_append_left (by rw [List.length_take]; omega), List.getElem?_take_of_lt hlt] at hn
    · right
      rw [List.getElem?_append_right (by rw [List.length_take]; omega), List.getElem?_singleton] at hn
      rw [List.length_take] at hn
      split at hn
      · exact ⟨by omega, (Option.some.inj hn).symm, le_refl _⟩
      · cases hn
  · have := h.room
    exact hsame c (fun hcb => hmem (hcb ▸ List.mem_of_getElem? hb)) (by omega) hcD (by omega)
  · exact hsame c (by omega) (by omega) (by omega) hcN

theorem asInt_of_lt {n : Nat} (hn : n < 2 ^ 31) : asInt n = n := bmod_natCast_of_lt (by omega)

/-- What is left of `cs1550_write` at the block of the offset. -/
def writeRest (mem : Memory) (buf : List UInt8) (c : Cursor) (dirBlockLocation : Int) (currentDir : Mem) : Req Int := do
  writeAt mem c buf
  saveDir dirBlockLocation currentDir
  pure (asInt buf.length)

/-- A write to a represented file at an offset within it comes to the block of the offset. -/
theorem Rep.writeFile (h : Rep N v t) (mem : Memory) (buf : List UInt8) {names : Names} {D : Directory} {f : File}
    {offset : Int} (hD : t.dirs[t.dirIndex names.directory]? = some D)
    (hf : D.files[D.fileIndex names.filename names.extension]? = some f) (hoff : asSize offset ≤ f.contents.length)
    (notFound missing : Int) :
    ∃ b, f.chain[startBlock (asSize offset)]? = some b ∧
      machine.Becomes (withFile mem names notFound missing (writeFile mem buf offset)) v
        (writeRest mem buf ⟨b, onHeap mem.heap (v.disk.block b), adjusted (asSize offset), true⟩ D.block
          (putInt (onHeap mem.heap (v.disk.block D.block)) (fileAt (D.fileIndex names.filename names.extension) + 13) 8
            (addSize (asSize offset) buf.length))) v := by
  have hdir := h.listed.directory_onHeap mem.heap hD
  obtain ⟨b, hb, hwalk⟩ := h.walkTo mem hD hf hoff
  refine ⟨b, hb, (h.listed.withFile mem hD hf _).trans ?_⟩
  rw [Fs.writeFile, fsize_eq hdir hf, if_neg (by omega), fileStartBlock_eq hdir hf]
  exact hwalk.becomes

/-- A write to a file at an offset within it ends in the block it starts in or in the one behind it. -/
def ShortWrite (v : Volume) (mem : Memory) (path : CString) (buf : List UInt8) (offset : Int) : Prop :=
  (sscanf path mem.names).1 = 3 → ∀ size ∈ v.disk.sizeOf (sscanf path mem.names).2, asSize offset ≤ size →
    adjusted (asSize offset) + buf.length ≤ 2 * maxDataInBlock

theorem Rep.write (h : Rep N v t) (mem : Memory) (path : CString) (buf : List UInt8) (offset : Int)
    (hshort : ShortWrite v mem path buf offset) :
    ∃ v', Refines N (cs1550Write mem path buf offset) v (t.write path mem.names buf offset) v' := by
  unfold ShortWrite at hshort
  unfold cs1550Write Tree.write
  generalize sscanf path mem.names = r at hshort ⊢
  obtain ⟨count, names⟩ := r
  dsimp only at hshort ⊢
  by_cases hempty : buf.length = 0
  · rw [if_pos hempty, if_pos hempty]
    exact ⟨v, h.refuse (.pure _ _)⟩
  rw [if_neg hempty, if_neg hempty]
  by_cases hcount : count ≠ 3
  · rw [if_pos hcount, if_pos hcount]
    exact ⟨v, h.refuse (.pure _ _)⟩
  rw [if_neg hcount, if_neg hcount]
  cases hD : t.dirs[t.dirIndex names.directory]? with
  | none => exact ⟨v, h.refuse (h.listed.noDirectory mem hD _)⟩
  | some D =>
    dsimp only
    cases hf : D.files[D.fileIndex names.filename names.extension]? with
    | none => exact ⟨v, h.refuse (h.listed.noFile mem hD hf _)⟩
    | some f =>
      have hdir := h.listed.directory_onHeap mem.heap hD
      have hsize := fsize_eq hdir hf
      dsimp only
      by_cases hbig : asSize offset > f.contents.length
      · rw [if_pos hbig]
        refine ⟨v, h.refuse ((h.listed.withFile mem hD hf _).yields ?_)⟩
        rw [Fs.writeFile, hsize, if_pos hbig]
        exact .pure _ _
      rw [if_neg hbig]
      have hoff : asSize offset ≤ f.contents.length := by omega
      have hsmall := h.contents_lt hD hf
      have hmax : maxDataInBlock = 504 := rfl
      have hfit : adjusted (asSize offset) + buf.length ≤ 2 * maxDataInBlock :=
        hshort (not_not.1 hcount) f.contents.length (by rw [h.listed.sizeOf_eq, Tree.find_eq hD, hf]; rfl) hoff
      have hret : ¬ asInt buf.length < 0 := by rw [asInt_of_lt (by omega)]; omega
      obtain ⟨b, hb, hbecomes⟩ := h.writeFile mem buf hD hf hoff (-EEXIST) (-ENOENT)
      rw [addSize_of_lt (by omega)] at hbecomes
      by_cases hin : adjusted (asSize offset) + buf.length ≤ maxDataInBlock
      · rw [if_pos hin]
        refine ⟨_, hbecomes.yields ?_, fun hneg => absurd hneg (by dsimp only; exact hret), ?_,
          fun _ _ => h.writeWithin mem hD hf hoff hb hin⟩
        · dsimp only
          exact (writeAt_within mem rfl (by omega) hin v).bind ((saveDir_yields _ _ _).bind (.pure (asInt buf.length) _))
        · exact h.cursor
      · rw [if_neg hin]
        refine ⟨_, hbecomes.yields ?_, fun hneg => absurd hneg (by dsimp only; exact hret), ?_, fun hin _ =>
          h.writeAcross hin mem hD hf hoff hb (by omega) hfit⟩
        · dsimp only
          have hacross := writeAt_across h mem (c := ⟨b, onHeap mem.heap (v.disk.block b), adjusted (asSize offset), true⟩)
            rfl (adjusted_le _) (Nat.lt_of_not_le hin) hfit
          exact hacross.bind ((saveDir_yields _ _ _).bind (.pure (asInt buf.length) _))
        · simp [Tree.modify]

end CS1550.Fs
