/-
The contract of `cs1550_read`: as many bytes as were asked for and are there. The loops of the handler
count up to `fsize - offset` instead of the size that was asked for, and that difference wraps around when
the offset is behind the end of the file. So the contract is kept if and only if the offset is within the
file and the read goes to its end (`read_contract_iff`).
-/
import CS1550.Fs.Contents

namespace CS1550.Fs

open Bytes

variable {v : Volume} {t : Tree} {d : Disk} {blocks : Nat → Nat} {f : File}

/-- The chain of the file has the blocks that its size needs, links its blocks in their order and ends with
the last one. -/
structure WellFormed (d : Disk) (f : File) : Prop where
  chained : Chained d f
  length : f.chain.length = blocksFor f.contents.length
  pos : ∀ b ∈ f.chain, 1 ≤ b

theorem WellFormed.threaded (h : WellFormed d f) : Threaded d f.blockOf (f.chain.length - 1) :=
  h.chained.threaded h.pos

theorem WellFormed.last (h : WellFormed d f) : next (d.block (f.blockOf (f.chain.length - 1))) = 0 := by
  have hne := h.chained.nonempty
  rw [h.chained.linked _ _ (File.getElem?_chain (by omega)), List.getElem?_eq_none (by omega)]
  rfl

/-- What a read of `size` bytes should return and store. -/
def readResult (contents : List UInt8) (offset size : Nat) : Int × List UInt8 :=
  (((contents.drop offset).take size).length, (contents.drop offset).take size)

/-! ## Reads that end before the file does -/

/-- Wherever in the block the loop starts to copy, it copies all that is left of the file. -/
theorem readLoop_length (mem : Memory) (adjustedOffset : Nat) {n : Nat} (hth : Threaded v.disk blocks n)
    (turns k left : Nat) (hleft : maxDataInBlock * k + left ≤ maxDataInBlock * (n + 1))
    (hturns : left ≤ maxDataInBlock * turns) :
    ∃ out, out.length = left ∧
      machine.Yields (readLoop mem adjustedOffset turns (onHeap mem.heap (v.disk.block (blocks k))) left) v out v := by
  have hmax : maxDataInBlock = 504 := rfl
  induction turns generalizing k left with
  | zero =>
    obtain rfl : left = 0 := by omega
    exact ⟨[], rfl, .pure _ _⟩
  | succ turns ih =>
    rw [readLoop]
    by_cases hzero : left = 0
    · rw [if_pos hzero, hzero]
      exact ⟨[], rfl, .pure _ _⟩
    rw [if_neg hzero]
    by_cases hmore : left > maxDataInBlock
    · have hlt : k < n := by rw [hmax] at hmore hleft; omega
      have h1 := hth.pos (k + 1) hlt
      obtain ⟨out, hout, hrest⟩ := ih (k + 1) (left - maxDataInBlock) (by rw [hmax] at hmore hleft ⊢; omega)
        (by rw [hmax] at hturns ⊢; omega)
      rw [if_pos hmore, next_onHeap, hth.link k hlt, if_neg (by omega)]
      refine ⟨_, ?_, (openBlock_yields mem.heap _ v).bind (hrest.bind (.pure _ _))⟩
      rw [List.length_append, length_get, hout]
      omega
    · rw [if_neg hmore]
      exact ⟨_, length_get _ _ _, .pure _ _⟩

theorem readAt_length (mem : Memory) {n offset size left : Nat} (hth : Threaded v.disk blocks n)
    (hleft : offset + left ≤ maxDataInBlock * (n + 1)) (hsize : size ≤ left) (hsmall : offset + left < 2 ^ 63) :
    ∃ r, r.2.length = left ∧
      machine.Yields (readAt mem ⟨blocks (startBlock offset), onHeap mem.heap (v.disk.block (blocks (startBlock offset))),
        adjusted offset, true⟩ size left) v r v := by
  have hmax : maxDataInBlock = 504 := rfl
  have hoffset := offset_eq offset
  have hadj := adjusted_le offset
  rw [readAt]
  dsimp only
  rw [addSize_of_lt (by omega)]
  by_cases hmore : adjusted offset + size > maxDataInBlock
  · have hlt : startBlock offset < n := by rw [hmax] at hmore hoffset hleft; omega
    have h1 := hth.pos (startBlock offset + 1) hlt
    obtain ⟨out, hout, hrest⟩ := readLoop_length mem 0 hth (left / maxDataInBlock + 1) (startBlock offset + 1)
      (left - (maxDataInBlock - adjusted offset)) (by rw [hmax] at hoffset hadj hleft ⊢; omega) (by rw [hmax]; omega)
    rw [if_pos hmore, subSize_of_le hadj (by omega), next_onHeap, hth.link _ hlt, if_neg (by omega)]
    refine ⟨_, ?_, (openBlock_yields mem.heap _ v).bind (hrest.bind (.pure _ _))⟩
    rw [List.length_append, length_get, hout]
    omega
  · obtain ⟨out, hout, hrest⟩ := readLoop_length mem (adjusted offset) hth (left / maxDataInBlock + 1) (startBlock offset)
      left (by omega) (by rw [hmax]; omega)
    rw [if_neg hmore]
    exact ⟨_, hout, hrest.bind (.pure _ _)⟩

/-! ## Reads behind the end -/

/-- A walk to an offset behind the last block of the chain. -/
theorem walk_ends (mem : Memory) {n offset : Nat} (hth : Threaded v.disk blocks n)
    (hlast : next (v.disk.block (blocks n)) = 0) (hn : n < startBlock offset) (hsmall : offset < 2 ^ 63)
    (turns k : Nat) (hk : k ≤ n) (hturns : n < k + turns) :
    ∃ c, c.reached = false ∧ machine.Yields (walk mem offset turns (blocks k) (onHeap mem.heap (v.disk.block (blocks k)))
      (maxDataInBlock * (k + 1)) (offset - maxDataInBlock * k)) v c v := by
  have hmax : maxDataInBlock = 504 := rfl
  have hfar : maxDataInBlock * (n + 1) < offset := by
    simp only [startBlock, hmax] at hn ⊢
    omega
  induction turns generalizing k with
  | zero => omega
  | succ turns ih =>
    have hgt : ¬ offset ≤ maxDataInBlock * (k + 1) := by rw [hmax] at hfar ⊢; omega
    by_cases hkn : k = n
    · subst hkn
      refine ⟨⟨blocks k, onHeap mem.heap (v.disk.block (blocks k)), offset - maxDataInBlock * k, false⟩, rfl, ?_⟩
      rw [walk, if_neg hgt, next_onHeap, hlast, if_pos rfl]
      exact .pure _ _
    · have h1 := hth.pos (k + 1) (by omega)
      have hadd : addSize (maxDataInBlock * (k + 1)) maxDataInBlock = maxDataInBlock * (k + 1 + 1) := by
        rw [addSize_of_lt (by rw [hmax] at hgt ⊢; omega)]
        rfl
      have hsub : subSize (offset - maxDataInBlock * k) maxDataInBlock = offset - maxDataInBlock * (k + 1) := by
        rw [hmax] at hgt ⊢
        rw [subSize_of_le (by omega) (by omega)]
        omega
      obtain ⟨c, hc, hwalk⟩ := ih (k + 1) (by omega) (by omega)
      refine ⟨c, hc, ?_⟩
      rw [walk, if_neg hgt, next_onHeap, hth.link k (by omega), if_neg (by omega), hadd, hsub]
      exact (openBlock_yields mem.heap _ v).bind hwalk

/-- In the last block the loop copies a whole block before it sees that the chain has ended. -/
theorem readAt_behind (mem : Memory) {b offset fsize : Nat} (hlast : next (v.disk.block b) = 0)
    (hbehind : fsize < offset) (hnear : offset - fsize ≤ adjusted offset) (hsmall : offset < 2 ^ 63) :
    ∃ r, r.2.length = maxDataInBlock ∧
      machine.Yields (readAt mem ⟨b, onHeap mem.heap (v.disk.block b), adjusted offset, true⟩
        (subSize fsize offset) (subSize fsize offset)) v r v := by
  have hmax : maxDataInBlock = 504 := rfl
  have hadj := adjusted_le offset
  have hleft : subSize fsize offset = 2 ^ 64 - (offset - fsize) := by
    unfold subSize
    omega
  have hwrap : ¬ addSize (adjusted offset) (subSize fsize offset) > maxDataInBlock := by
    rw [hleft]
    unfold addSize
    omega
  refine ⟨(asInt (subSize fsize offset), get (onHeap mem.heap (v.disk.block b)) (adjusted offset) maxDataInBlock),
    by rw [length_get], ?_⟩
  rw [readAt, if_neg hwrap, readLoop, if_neg (by omega), if_pos (by omega), next_onHeap, hlast, if_pos rfl]
  exact (Machine.Yields.pure _ _).bind (.pure _ _)

/-! ## The contract -/

theorem readResult_length_le (contents : List UInt8) (offset size : Nat) :
    (readResult contents offset size).2.length ≤ size := List.length_take_le _ _

theorem readResult_behind {contents : List UInt8} {offset : Nat} (h : contents.length ≤ offset) (size : Nat) :
    readResult contents offset size = (0, []) := by
  unfold readResult
  rw [List.drop_eq_nil_of_le h, List.take_nil]
  rfl

section Contract

variable (h : Listed v.disk t) (mem : Memory) {path : CString} {names : Names} {size offset : Nat}
  (hscan : sscanf path mem.names = (3, names)) (hfind : t.find names = some f) (hf : WellFormed v.disk f)
  (hpos : 1 ≤ size) (hsize : size < 2 ^ 31) (hoff : offset < 2 ^ 63)

include h hscan hfind hf hpos hsize hoff

omit hf in
theorem Listed.read_natCast :
    machine.Becomes (cs1550Read mem path size offset) v (do
      let c ← walkTo mem (f.blockOf 0) offset
      if c.reached then
        readAt mem c (if offset + size > f.contents.length then subSize f.contents.length offset else size)
          (subSize f.contents.length offset)
      else pure (-ENOENT, [])) v := by
  obtain ⟨D, hD, hfile⟩ := Tree.find_some hfind
  have hbecomes := h.read_becomes mem offset hscan hpos hD hfile
  rw [asSize_natCast (by omega), addSize_of_lt (by omega), ← f.blockOf_zero] at hbecomes
  exact hbecomes

/-- A read that should end before the file does stores all the rest of it. -/
theorem WellFormed.read_short (hfsize : f.contents.length < 2 ^ 63) (hshort : offset + size < f.contents.length) :
    ∃ r, r.2.length = f.contents.length - offset ∧ machine.Yields (cs1550Read mem path size offset) v r v := by
  have hbecomes := h.read_natCast mem hscan hfind hpos hsize hoff
  have hne := hf.chained.nonempty
  have henough := hf.chained.enough
  have hstart : startBlock offset < f.chain.length := startBlock_lt hf.chained (by omega)
  have hth : Threaded v.disk f.blockOf (startBlock offset) := hf.threaded.mono (by omega)
  have hrest : offset + (f.contents.length - offset) ≤ maxDataInBlock * (f.chain.length - 1 + 1) := by
    rw [Nat.sub_add_cancel hne]
    omega
  have hless : size ≤ f.contents.length - offset := by omega
  obtain ⟨r, hr, hy⟩ := readAt_length mem hf.threaded hrest hless (by omega)
  rw [subSize_of_le (by omega) (by omega), if_neg (by omega)] at hbecomes
  refine ⟨r, hr, hbecomes.yields ((hth.walkTo mem hoff).bind ?_)⟩
  rw [if_pos rfl]
  exact hy

/-- A read behind the end fails, or stores a block of what is there. -/
theorem WellFormed.read_behind (hbehind : f.contents.length < offset) :
    ∃ r, r ≠ (0, []) ∧ machine.Yields (cs1550Read mem path size offset) v r v := by
  have hmax : maxDataInBlock = 504 := rfl
  have hbecomes := h.read_natCast mem hscan hfind hpos hsize hoff
  rw [if_pos (by omega)] at hbecomes
  rcases Nat.lt_or_ge (f.chain.length - 1) (startBlock offset) with hfar | hnear
  · obtain ⟨c, hc, hwalk⟩ := walk_ends mem hf.threaded hf.last hfar hoff (offset / maxDataInBlock) 0
      (Nat.zero_le _) (by simp only [startBlock, hmax] at hfar ⊢; omega)
    have hwalkTo : machine.Yields (walkTo mem (f.blockOf 0) offset) v c v :=
      (openBlock_yields mem.heap _ v).bind (by simpa using hwalk)
    refine ⟨(-ENOENT, []), by decide, hbecomes.yields (hwalkTo.bind ?_)⟩
    rw [if_neg (by simp [hc])]
    exact .pure _ _
  · have hlength := hf.length
    have hoffset := offset_eq offset
    have hlast : startBlock offset = f.chain.length - 1 := by
      simp only [blocksFor, startBlock, hmax] at hlength hnear ⊢
      omega
    have hclose : offset - f.contents.length ≤ adjusted offset := by
      simp only [blocksFor, hmax] at hlength hoffset ⊢
      omega
    have hth : Threaded v.disk f.blockOf (startBlock offset) := hf.threaded.mono (by omega)
    have hnext : next (v.disk.block (f.blockOf (startBlock offset))) = 0 := by
      rw [hlast]
      exact hf.last
    obtain ⟨r, hr, hy⟩ := readAt_behind mem hnext hbehind hclose hoff
    refine ⟨r, fun hnil => ?_, hbecomes.yields ((hth.walkTo mem hoff).bind ?_)⟩
    · rw [hnil, hmax] at hr
      cases hr
    · rw [if_pos rfl]
      exact hy

end Contract

/-- In every image whose root and directories can be read, for every file with a well-formed chain: a read
returns and stores what it should if and only if its offset is within the file and it asks for all of the
rest. -/
theorem read_contract_iff (h : Listed v.disk t) (mem : Memory) (path : CString) (names : Names)
    (hscan : sscanf path mem.names = (3, names)) (hfind : t.find names = some f) (hf : WellFormed v.disk f)
    (hfsize : f.contents.length < 2 ^ 63) (size : Nat) (hpos : 1 ≤ size) (hsize : size < 2 ^ 31) (offset : Nat)
    (hoff : offset < 2 ^ 63) :
    (serve (cs1550Read mem path size offset) v).1 = readResult f.contents offset size ↔
      offset ≤ f.contents.length ∧ f.contents.length ≤ offset + size := by
  constructor
  · intro hread
    rcases le_or_gt offset f.contents.length with hle | hbehind
    · refine ⟨hle, ?_⟩
      by_contra hshort
      obtain ⟨r, hr, hy⟩ := hf.read_short h mem hscan hfind hpos hsize hoff hfsize (by omega)
      have hlen := readResult_length_le f.contents offset size
      rw [← hread, serve_of_yields hy, hr] at hlen
      omega
    · obtain ⟨r, hr, hy⟩ := hf.read_behind h mem hscan hfind hpos hsize hoff hbehind
      rw [serve_of_yields hy, readResult_behind (by omega)] at hread
      exact absurd hread hr
  · rintro ⟨hle, hend⟩
    obtain ⟨D, hD, hfile⟩ := Tree.find_some hfind
    have hcast : asSize offset = offset := asSize_natCast (by omega)
    have hy := h.read mem offset hscan hpos (by omega) hD hfile (by rwa [hcast])
      (by rwa [hcast, addSize_of_lt (by omega)]) hfsize hf.threaded f.blockOf_zero
      (by rw [Nat.sub_add_cancel hf.chained.nonempty]; exact hf.chained.enough)
    rw [hcast, hf.chained.bytesFrom_eq, asInt_of_lt (by omega)] at hy
    rw [serve_of_yields hy]
    unfold readResult
    rw [List.take_of_length_le (by rw [List.length_drop]; omega), List.length_drop]

/-- The image after three bytes were written to a new file. -/
def threeBytes : Volume := (serveAll (zeroed 10240) (writeOnce [1, 2, 3] 0)).2

theorem wellFormed_threeBytes : ∃ t f, Listed threeBytes.disk t ∧ t.find (sscanf filePath blank.names).2 = some f ∧
    WellFormed threeBytes.disk f ∧ f.contents = [1, 2, 3] := by
  have hr := rep_treeAfter (run_serveAll 10240 (writeOnce [1, 2, 3] 0)) (by decide +kernel) (by decide +kernel)
    (by decide +kernel)
  have hfind : ((treeAfter (serveAll (zeroed 10240) (writeOnce [1, 2, 3] 0)).1).find (sscanf filePath blank.names).2).map
      (fun f => (f.contents, f.chain)) = some ([1, 2, 3], [2]) := by decide +kernel
  obtain ⟨f, hf, heq⟩ := Option.map_eq_some_iff.1 hfind
  obtain ⟨hcontents, hchain⟩ := Prod.mk.inj heq
  obtain ⟨D, hD, hfile⟩ := Tree.find_some hf
  refine ⟨_, f, hr.listed, hf, ⟨hr.file _ D _ f hD hfile, ?_, hr.chain_pos hD hfile⟩, hcontents⟩
  rw [hchain, hcontents]
  rfl

theorem read_contract_threeBytes : (serve (cs1550Read blank filePath 5 1) threeBytes).1 = (2, [2, 3]) := by
  obtain ⟨t, f, hlisted, hfind, hf, hcontents⟩ := wellFormed_threeBytes
  have hread := (read_contract_iff hlisted blank filePath (sscanf filePath blank.names).2 (by decide +kernel) hfind hf
    (by rw [hcontents]; decide) 5 (by decide) (by decide) 1 (by decide)).2 (by rw [hcontents]; decide)
  rw [hcontents] at hread
  exact hread

/-- One byte is asked for, and the whole file is stored. -/
theorem read_past_size : ∃ (v : Volume) (t : Tree) (f : File) (names : Names), Listed v.disk t ∧
    sscanf filePath blank.names = (3, names) ∧ t.find names = some f ∧ WellFormed v.disk f ∧
    (serve (cs1550Read blank filePath 1 0) v).1 = (1, [1, 2, 3]) ∧
    (serve (cs1550Read blank filePath 1 0) v).1 ≠ readResult f.contents 0 1 := by
  obtain ⟨t, f, hlisted, hfind, hf, hcontents⟩ := wellFormed_threeBytes
  have hread : (serve (cs1550Read blank filePath 1 0) threeBytes).1 = (1, [1, 2, 3]) := by decide +kernel
  refine ⟨threeBytes, t, f, _, hlisted, by decide +kernel, hfind, hf, hread, ?_⟩
  rw [hread, hcontents]
  decide

end CS1550.Fs
