/-
`cs1550_mkdir` and `cs1550_mknod` on an image that represents a tree do what `Tree.mkdir` and
`Tree.mknod` say, as long as the block handed out is in front of the bitmap and no directory gets more
files than it has room for.
-/
import CS1550.Fs.Frame

namespace CS1550.Fs

open Bytes

variable {N : Nat} {v : Volume} {t : Tree}

theorem saveRoot_yields (root : Mem) (v : Volume) :
    machine.Yields (saveRoot root) v () { v with disk := v.disk.writeBlock 0 root } := writeBlock_yields 0 root v

theorem saveDir_yields (b : Nat) (dir : Mem) (v : Volume) :
    machine.Yields (saveDir b dir) v () { v with disk := v.disk.writeBlock b dir } := writeBlock_yields b dir v

theorem asSize_natCast {n : Nat} (h : n < 2 ^ 64) : asSize n = n := by
  unfold asSize
  omega

/-! ## mkdir -/

/-- The root in memory with an entry added. -/
def addDirectory (root : Mem) (i : Nat) (name : List UInt8) (start : Int) : Mem :=
  putInt (strcpy (putInt root 0 4 (nDirectories root + 1)) (directoryAt i) name) (directoryAt i + 9) 8 start

theorem holds_addDirectory {root : Mem} {ds : List Directory} (h : Holds dirCodec maxDirsInRoot root ds)
    (hlen : ds.length < maxDirsInRoot) {name : CString} (hname : name.1.length ≤ maxDirname) (start : Nat)
    (hstart : start < 2 ^ 63) :
    Holds dirCodec maxDirsInRoot (addDirectory root ds.length name.1 start) (ds ++ [⟨name, start, []⟩]) := by
  have h4 : 4 ≤ directoryAt ds.length := Nat.le_add_right ..
  have hcap : maxDirsInRoot = 29 := rfl
  simp only [maxDirname] at hname
  refine h.append hlen ?_ (fun i hi hlt => ?_) ⟨cstr_shift.2 ?_, hname, ?_⟩
  · have hcount : nDirectories root = ds.length := h.count
    have hget : getInt (addDirectory root ds.length name.1 start) 0 4 =
        getInt (putInt root 0 4 (nDirectories root + 1)) 0 4 := getInt_congr fun i hi => by
      rw [addDirectory, putInt_outside (by omega), strcpy_outside (by omega)]
    rw [hget, getInt_putInt, hcount]
    exact_mod_cast bmod_natCast_of_lt (v := ds.length + 1) (by omega)
  · change i < directoryAt ds.length at hlt
    rw [addDirectory, putInt_outside (by omega), strcpy_outside (by omega), putInt_outside (by omega)]
  · exact (cstr_strcpy _ _ name.2).congr fun i hi => by
      rw [addDirectory, putInt_outside]
      · rfl
      · left
        change directoryAt ds.length + 0 + i < _
        omega
  · rw [getInt_shift]
    exact (getInt_putInt _ _ 8 _).trans (bmod_natCast_of_lt (by omega))

theorem Tree.blockAt_append {name : CString} {p : Place} {b : Nat}
    (hb : Tree.blockAt { dirs := t.dirs ++ [⟨name, t.used + 1, []⟩], used := t.used + 1 } p = some b) :
    t.blockAt p = some b ∨ p = .dir t.dirs.length ∧ b = t.used + 1 := by
  cases p with
  | dir i =>
    obtain ⟨D, hD, rfl⟩ := Option.map_eq_some_iff.1 hb
    rcases getElem?_concat hD with hD | ⟨rfl, rfl⟩
    · exact .inl (Tree.blockAt_dir hD)
    · exact .inr ⟨rfl, rfl⟩
  | data i j n =>
    obtain ⟨D, f, hD, hf, hn⟩ := Tree.blockAt_data_some hb
    rcases getElem?_concat hD with hD | ⟨-, rfl⟩
    · exact .inl (Tree.blockAt_data hD hf hn)
    · simp at hf

/-- The image after a directory was made. -/
theorem Rep.addDirectory (h : Rep N v t) (hin : InFront N (t.used + 1 : Nat)) (heap : Mem)
    (stack : UInt8) {name : CString} (hname : name.1.length ≤ maxDirname) (hlen : t.dirs.length < maxDirsInRoot) :
    Rep N ⟨(v.disk.mark stack (t.used + 1)).writeBlock 0
        (Fs.addDirectory (onHeap heap (v.disk.block 0)) t.dirs.length name.1 (t.used + 1 : Nat)), (t.used + 1 : Nat)⟩
      { dirs := t.dirs ++ [⟨name, t.used + 1, []⟩], used := t.used + 1 } := by
  have hroom := hin.lt
  have hm := h.marked hin stack
  have hused := h.used_lt
  have hbits : bitmapBits = 12288 := rfl
  have hw : Written _ _ 0 (Fs.addDirectory (onHeap heap (v.disk.block 0)) t.dirs.length name.1 (t.used + 1 : Nat)) :=
    written_writeBlock _ (by rw [hm.size]; exact h.block_le (by omega))
  generalize (v.disk.mark stack (t.used + 1)).writeBlock 0 _ = d' at hw ⊢
  have hsame : ∀ b, 1 ≤ b → b + bitmapSizeInBlocks < N → SameBlock v.disk d' b := fun b hb hlt =>
    (hm.same b hlt).trans (hw.same b (by omega))
  obtain ⟨hwithin, hapart⟩ := h.grow _ (.dir t.dirs.length) (Nat.le_succ _) fun p b hb =>
    (Tree.blockAt_append hb).imp_right fun ⟨hp, hb⟩ => ⟨hp, hb, hb.le⟩
  refine ⟨hw.size.trans (hm.size.trans h.size), hroom, by simp, fun b => (hw.taken b).trans (hm.taken b), ?_, ?_, ?_,
    hwithin, hapart, fun b hb hlt i hi => ?_⟩
  · have hroot := holds_addDirectory (h.listed.root_onHeap heap) hlen hname (t.used + 1) (by omega)
    exact hroot.congr fun i hi => hw.self i (lt_of_lt_of_le hi (by decide))
  · intro i D hD
    rcases getElem?_concat hD with hold | ⟨-, rfl⟩
    · exact holds_directory_congr (h.directory i D hold)
        (hsame _ (h.dir_block hold).1 (h.place_lt (Tree.blockAt_dir hold)))
    · -- the new directory is empty, as its block was never written
      refine holds_nil fun i hi => ?_
      rw [hsame (t.used + 1) (by omega) hroom i (by simp only [blockSize]; omega)]
      exact h.fresh _ (by omega) hroom i (by simp only [blockSize]; omega)
  · intro i D j f hD hf
    rcases getElem?_concat hD with hold | ⟨-, rfl⟩
    · refine (h.file i D j f hold hf).congr fun b hb => ?_
      obtain ⟨n, hp, hle⟩ := h.chain_block hold hf hb
      exact hsame b hle.1 (h.place_lt hp)
    · simp at hf
  · change t.used + 1 < b at hb
    rw [hsame b (by omega) hlt i hi]
    exact h.fresh b (by omega) hlt i hi

theorem Rep.mkdir (h : Rep N v t) (mem : Memory) (path : CString) :
    ∃ v', Refines N (cs1550Mkdir mem path) v (t.mkdir path mem.names) v' := by
  unfold cs1550Mkdir Tree.mkdir
  generalize sscanf path mem.names = r
  obtain ⟨count, names⟩ := r
  dsimp only
  by_cases hcount : count ≠ 1
  · rw [if_pos hcount, if_pos hcount]
    exact ⟨v, h.refuse (.pure _ _)⟩
  rw [if_neg hcount, if_neg hcount]
  by_cases hname : names.directory.1.length > maxDirname
  · rw [if_pos hname, if_pos hname]
    exact ⟨v, h.refuse (.pure _ _)⟩
  rw [if_neg hname, if_neg hname]
  have hroot := h.listed.root_onHeap mem.heap
  have hfind := findDirectory_eq hroot names.directory
  have hn : nDirectories (onHeap mem.heap (v.disk.block 0)) = t.dirs.length := hroot.count
  by_cases hex : t.dirIndex names.directory < t.dirs.length
  · rw [if_pos hex]
    refine ⟨v, h.refuse ((openRoot_yields mem v).bind ?_)⟩
    rw [hfind, hn, if_pos (by omega)]
    exact .pure _ _
  rw [if_neg hex]
  have hcap : maxDirsInRoot = 29 := rfl
  have hle := hroot.length_le
  have hsize : asSize t.dirs.length = t.dirs.length := asSize_natCast (by omega)
  by_cases hfull : t.dirs.length ≥ maxDirsInRoot
  · rw [if_pos hfull]
    refine ⟨v, h.refuse ((openRoot_yields mem v).bind ?_)⟩
    rw [hfind, hn, if_neg (by omega), hsize, if_pos hfull]
    exact .pure _ _
  rw [if_neg hfull]
  refine ⟨_, ?_, by simp, ?_, fun hin _ => h.addDirectory hin mem.heap mem.stack (by omega) (by omega)⟩
  · refine (openRoot_yields mem v).bind ?_
    rw [hfind, hn, if_neg (by omega), hsize, if_neg hfull]
    refine h.alloc.bind ?_
    rw [if_neg (by omega)]
    have hset := setBitmap_yields (v := { v with cursor := (t.used + 1 : Nat) }) mem.stack (t.used + 1) h.bitmap_le
    refine hset.bind ?_
    rw [Fs.addDirectory, hn]
    exact (saveRoot_yields _ _).bind (.pure _ _)
  · simp

/-! ## mknod -/

/-- A directory in memory with an entry added. -/
def addFile (dir : Mem) (j : Nat) (fname fext : List UInt8) (start : Int) : Mem :=
  putInt (putInt (strcpy (strcpy (putInt dir 0 4 (nFiles dir + 1)) (fileAt j) fname) (fileAt j + 9) fext)
    (fileAt j + 13) 8 0) (fileAt j + 21) 8 start

theorem nFiles_addFile {dir : Mem} {j k : Nat} {fname fext : List UInt8} {start : Int} (hk : nFiles dir = k)
    (hlt : k < 2 ^ 30) : nFiles (addFile dir j fname fext start) = (k + 1 : Nat) := by
  have h4 : 4 ≤ fileAt j := Nat.le_add_right ..
  have hget : nFiles (addFile dir j fname fext start) = getInt (putInt dir 0 4 (nFiles dir + 1)) 0 4 :=
    getInt_congr fun i hi => by
      rw [addFile, putInt_outside (by omega), putInt_outside (by omega), strcpy_outside (by omega),
        strcpy_outside (by omega)]
  rw [hget, getInt_putInt, hk]
  exact_mod_cast bmod_natCast_of_lt (v := k + 1) (by omega)

theorem holds_addFile {dir : Mem} {fs : List File} (h : Holds fileCodec maxFilesInDir dir fs)
    (hlen : fs.length < maxFilesInDir) {fname fext : CString} (hname : fname.1.length ≤ maxFilename)
    (hext : fext.1.length ≤ maxExtension) (start : Nat) (hstart : start < 2 ^ 63) :
    Holds fileCodec maxFilesInDir (addFile dir fs.length fname.1 fext.1 start) (fs ++ [⟨fname, fext, [], [start]⟩]) := by
  have h4 : 4 ≤ fileAt fs.length := Nat.le_add_right ..
  have hcap : maxFilesInDir = 17 := rfl
  simp only [maxFilename, maxExtension] at hname hext
  refine h.append hlen (nFiles_addFile h.count (by omega)) (fun i hi hlt => ?_)
    ⟨cstr_shift.2 ?_, hname, cstr_shift.2 ?_, hext, ?_, ?_⟩
  · change i < fileAt fs.length at hlt
    rw [addFile, putInt_outside (by omega), putInt_outside (by omega), strcpy_outside (by omega),
      strcpy_outside (by omega), putInt_outside (by omega)]
  · refine (cstr_strcpy (putInt dir 0 4 (nFiles dir + 1)) (fileAt fs.length) fname.2).congr fun i hi => ?_
    change addFile dir fs.length fname.1 fext.1 start (fileAt fs.length + 0 + i) = _
    rw [addFile, putInt_outside (by omega), putInt_outside (by omega), strcpy_outside (by omega), Nat.add_zero]
  · refine (cstr_strcpy (strcpy (putInt dir 0 4 (nFiles dir + 1)) (fileAt fs.length) fname.1)
      (fileAt fs.length + 9) fext.2).congr fun i hi => ?_
    change addFile dir fs.length fname.1 fext.1 start (fileAt fs.length + 9 + i) = _
    rw [addFile, putInt_outside (by omega), putInt_outside (by omega)]
  · have hget := getNat_putInt_natCast (strcpy (strcpy (putInt dir 0 4 (nFiles dir + 1)) (fileAt fs.length) fname.1)
      (fileAt fs.length + 9) fext.1) (fileAt fs.length + 13) 8 (v := 0) (by decide)
    rw [getNat_shift]
    refine Eq.trans (getNat_congr fun i hi => ?_) hget
    change addFile dir fs.length fname.1 fext.1 start (fileAt fs.length + 13 + i) = _
    rw [addFile, putInt_outside (by omega)]
    rfl
  · rw [getInt_shift]
    exact (getInt_putInt _ _ 8 _).trans (bmod_natCast_of_lt (by omega))

theorem Tree.blockAt_addFile {i : Nat} {D : Directory} (hD : t.dirs[i]? = some D) {f : File}
    (hf : f.chain = [t.used + 1]) {p : Place} {b : Nat}
    (hb : (t.modify i (· ++ [f]) (t.used + 1)).blockAt p = some b) :
    t.blockAt p = some b ∨ p = .data i D.files.length 0 ∧ b = t.used + 1 := by
  cases p with
  | dir i' => exact .inl (by rwa [Tree.blockAt_modify_dir] at hb)
  | data i' j n =>
    obtain ⟨D', f', hD', hf', hn⟩ := Tree.blockAt_data_some hb
    rcases Tree.modify_some hD' with ⟨rfl, D₀, hD₀, rfl⟩ | ⟨-, hold⟩
    · obtain rfl := Option.some.inj (hD₀.symm.trans hD)
      rcases getElem?_concat hf' with hold | ⟨rfl, rfl⟩
      · exact .inl (Tree.blockAt_data hD₀ hold hn)
      · rw [hf, List.getElem?_singleton] at hn
        split at hn
        · exact .inr ⟨by simp; omega, (Option.some.inj hn).symm⟩
        · cases hn
    · exact .inl (Tree.blockAt_data hold hf' hn)

/-- The image after a file was made. -/
theorem Rep.addFile (h : Rep N v t) (hin : InFront N (t.used + 1 : Nat)) (heap : Mem)
    (stack : UInt8) {i : Nat} {D : Directory} (hD : t.dirs[i]? = some D) {fname fext : CString}
    (hname : fname.1.length ≤ maxFilename) (hext : fext.1.length ≤ maxExtension)
    (hlen : D.files.length < maxFilesInDir) :
    Rep N ⟨(v.disk.mark stack (t.used + 1)).writeBlock D.block
        (Fs.addFile (onHeap heap (v.disk.block D.block)) D.files.length fname.1 fext.1 (t.used + 1 : Nat)),
        (t.used + 1 : Nat)⟩
      (t.modify i (· ++ [⟨fname, fext, [], [t.used + 1]⟩]) (t.used + 1)) := by
  have hroom := hin.lt
  have hm := h.marked hin stack
  have hused := h.used_lt
  have hbits : bitmapBits = 12288 := rfl
  have hDlt := h.place_lt (Tree.blockAt_dir hD)
  have hDpos := (h.dir_block hD).1
  have hw : Written _ _ D.block
      (Fs.addFile (onHeap heap (v.disk.block D.block)) D.files.length fname.1 fext.1 (t.used + 1 : Nat)) :=
    written_writeBlock _ (by rw [hm.size]; exact h.block_le hDlt)
  generalize (v.disk.mark stack (t.used + 1)).writeBlock D.block _ = d' at hw ⊢
  have hsame : ∀ b, b ≠ D.block → b + bitmapSizeInBlocks < N → SameBlock v.disk d' b := fun b hb hlt =>
    (hm.same b hlt).trans (hw.same b hb)
  have hat : ∀ p b, (t.modify i (· ++ [⟨fname, fext, [], [t.used + 1]⟩]) (t.used + 1)).blockAt p = some b →
      t.blockAt p = some b ∨ p = .data i D.files.length 0 ∧ b = t.used + 1 ∧ b ≤ t.used + 1 := by
    intro p b hb
    rcases Tree.blockAt_addFile hD rfl hb with hold | ⟨hp, hb⟩
    · exact .inl hold
    · exact .inr ⟨hp, hb, hb.le⟩
  obtain ⟨hwithin, hapart⟩ := h.grow _ _ (Nat.le_succ _) hat
  -- the blocks of the files made before are not the directory's
  have hfile : ∀ (i' : Nat) (D' : Directory) (j : Nat) (f : File), t.dirs[i']? = some D' → D'.files[j]? = some f →
      Chained d' f := by
    intro i' D' j f hD' hf
    refine (h.file i' D' j f hD' hf).congr fun b hb => ?_
    obtain ⟨n, hp, -⟩ := h.chain_block hD' hf hb
    exact hsame b (h.ne_of_place hp (Tree.blockAt_dir hD) (by simp)) (h.place_lt hp)
  have hfresh : ∀ b, t.used < b → b + bitmapSizeInBlocks < N → ∀ k < blockSize, d'.block b k = 0 := by
    intro b hb hlt k hk
    have := (h.dir_block hD).2
    rw [hsame b (by omega) hlt k hk]
    exact h.fresh b hb hlt k hk
  refine ⟨hw.size.trans (hm.size.trans h.size), hroom, by simp [Tree.modify], fun b => (hw.taken b).trans (hm.taken b),
    holds_modify (holds_root_congr h.root (hsame 0 (by omega) (by omega))), fun i' D' hD' => ?_,
    fun i' D' j f hD' hf => ?_, hwithin, hapart, fun b hb => hfresh b (by simp only [Tree.modify] at hb; omega)⟩
  · rcases Tree.modify_some hD' with ⟨rfl, D₀, hD₀, rfl⟩ | ⟨hne, hold⟩
    · obtain rfl := Option.some.inj (hD₀.symm.trans hD)
      have htable := holds_addFile (h.listed.directory_onHeap heap hD₀) hlen hname hext (t.used + 1) (by omega)
      exact htable.congr fun k hk => hw.self k (lt_of_lt_of_le hk (by decide))
    · refine holds_directory_congr (h.directory i' D' hold) (hsame _ ?_ (h.place_lt (Tree.blockAt_dir hold)))
      exact h.ne_of_place (Tree.blockAt_dir hold) (Tree.blockAt_dir hD) (by simpa using hne)
  · rcases Tree.modify_some hD' with ⟨rfl, D₀, hD₀, rfl⟩ | ⟨hne, hold⟩
    · rcases getElem?_concat hf with hold | ⟨-, rfl⟩
      · exact hfile _ D₀ j f hD₀ hold
      · refine ⟨by simp, by simp, fun n b hb => ?_, fun p x hx => by simp at hx⟩
        rw [List.getElem?_singleton] at hb
        split at hb
        · obtain rfl := Option.some.inj hb
          rw [next, getInt_of_zero fun k hk => hfresh _ (by omega) hroom _ (by simp only [maxDataInBlock, blockSize]; omega)]
          simp
        · cases hb
    · exact hfile i' D' j f hold hf

/-- The test in `cs1550_mknod` lets one file too many through, and then the count in the directory says
so. -/
theorem Rep.not_filesWithin (h : Rep N v t) (hin : InFront N (t.used + 1 : Nat)) (heap : Mem)
    (stack : UInt8) {i : Nat} {D : Directory} (hD : t.dirs[i]? = some D) {fname fext : List UInt8} {c start : Int}
    (hlen : D.files.length = maxFilesInDir) :
    ¬ FilesWithin ⟨(v.disk.mark stack (t.used + 1)).writeBlock D.block
        (Fs.addFile (onHeap heap (v.disk.block D.block)) D.files.length fname fext start), c⟩ := by
  intro hwithin
  have hroom := hin.lt
  have hm := h.marked hin stack
  have hDpos := (h.dir_block hD).1
  have hw : Written _ _ D.block (Fs.addFile (onHeap heap (v.disk.block D.block)) D.files.length fname fext start) :=
    written_writeBlock _ (by rw [hm.size]; exact h.block_le (h.place_lt (Tree.blockAt_dir hD)))
  unfold FilesWithin at hwithin
  generalize (v.disk.mark stack (t.used + 1)).writeBlock D.block _ = d' at hw hwithin
  have hroot : Holds dirCodec maxDirsInRoot (d'.block 0) t.dirs :=
    holds_root_congr h.root ((hm.same 0 (by omega)).trans (hw.same 0 (by omega)))
  have hi : i < t.dirs.length := (List.getElem?_eq_some_iff.1 hD).1
  have hcount : nDirectories (d'.block 0) = t.dirs.length := hroot.count
  have hfiles : nFiles (d'.block D.block) = (D.files.length + 1 : Nat) := by
    have hold : nFiles (onHeap heap (v.disk.block D.block)) = D.files.length := (h.listed.directory_onHeap heap hD).count
    have hcap : maxFilesInDir = 17 := rfl
    rw [← nFiles_addFile hold (by omega)]
    exact getInt_congr fun k hk => hw.self _ (by simp only [blockSize]; omega)
  have hle := hwithin i (by rw [hcount]; simpa using hi)
  rw [dirStartBlock_eq hroot hD, Int.toNat_natCast, hfiles] at hle
  omega

theorem Rep.mknod (h : Rep N v t) (mem : Memory) (path : CString) :
    ∃ v', Refines N (cs1550Mknod mem path) v (t.mknod path mem.names) v' := by
  unfold cs1550Mknod Tree.mknod
  generalize sscanf path mem.names = r
  obtain ⟨count, names⟩ := r
  dsimp only
  by_cases hcount : count < 3
  · rw [if_pos hcount, if_pos hcount]
    exact ⟨v, h.refuse (.pure _ _)⟩
  rw [if_neg hcount, if_neg hcount]
  by_cases hnames : names.filename.1.length > maxFilename ∨ names.extension.1.length > maxExtension
  · rw [if_pos hnames, if_pos hnames]
    exact ⟨v, h.refuse (.pure _ _)⟩
  rw [if_neg hnames, if_neg hnames]
  cases hD : t.dirs[t.dirIndex names.directory]? with
  | none => exact ⟨v, h.refuse (h.listed.noDirectory mem hD _)⟩
  | some D =>
    have hdir := h.listed.directory_onHeap mem.heap hD
    have hfile := findFile_eq hdir names.filename names.extension
    have hm : nFiles (onHeap mem.heap (v.disk.block D.block)) = D.files.length := hdir.count
    dsimp only
    by_cases hex : D.fileIndex names.filename names.extension < D.files.length
    · rw [if_pos hex]
      refine ⟨v, h.refuse ((h.listed.withDirectory mem hD _).yields ?_)⟩
      rw [hfile, hm, if_pos (by omega)]
      exact .pure _ _
    rw [if_neg hex]
    have hcap : maxFilesInDir = 17 := rfl
    have hle := hdir.length_le
    have hsize : asSize D.files.length = D.files.length := asSize_natCast (by omega)
    refine ⟨⟨(v.disk.mark mem.stack (t.used + 1)).writeBlock D.block
      (Fs.addFile (onHeap mem.heap (v.disk.block D.block)) D.files.length names.filename.1 names.extension.1
        (t.used + 1 : Nat)), (t.used + 1 : Nat)⟩, ?_, by simp, by simp [Tree.modify], fun hin hfits => ?_⟩
    · refine (h.listed.withDirectory mem hD _).yields ?_
      rw [hfile, hm, if_neg (by omega), hsize, if_neg (by omega)]
      refine h.alloc.bind ?_
      rw [if_neg (by omega)]
      have hset := setBitmap_yields (v := { v with cursor := (t.used + 1 : Nat) }) mem.stack (t.used + 1) h.bitmap_le
      refine hset.bind ?_
      rw [Fs.addFile, hm]
      exact (saveDir_yields _ _ _).bind (.pure _ _)
    · by_cases hfull : D.files.length < maxFilesInDir
      · exact h.addFile hin mem.heap mem.stack hD (by omega) (by omega) hfull
      · exfalso
        rcases hfits with hfits | hfits
        · exact h.not_filesWithin hin mem.heap mem.stack hD (by omega) hfits
        · have := hfits _ (List.mem_of_getElem? (Tree.modify_self hD))
          simp at this
          omega

end CS1550.Fs
