/-
The capacity of a directory. The test in `cs1550_mknod` is off by one: in a directory that is full it lets
another file through, whose entry does not fit into the block. The capacity is respected, with every file
stored in its directory block and found again, in exactly the runs that ask for no new file in a full
directory (`capacity_iff`).
-/
import CS1550.Fs.Namespace
import CS1550.Fs.Atomicity

namespace CS1550.Fs

open Bytes

variable {N : Nat} {v : Volume} {t : Tree} {r : Request} {h : List (Volume × Request)}

instance : (r : Request) → Decidable r.MakesNames
  | ⟨_, .mkdir _⟩ => isTrue trivial
  | ⟨_, .mknod _⟩ => isTrue trivial
  | ⟨_, .write ..⟩ => isFalse id

/-- The entry of the file is stored in the block of its directory, with size 0 and the first block `start`,
and `getattr` finds it. -/
structure StoredEmpty (v : Volume) (path : CString) (names : Names) (start : Int) : Prop where
  entry : ∃ (i j b : Nat), v.disk.dirStart i = some (b : Int) ∧ CStr (v.disk.block 0) (directoryAt i) names.directory.1 ∧
    fileAt j + fileEntrySize ≤ blockSize ∧ CStr (v.disk.block b) (fileAt j) names.filename.1 ∧
    CStr (v.disk.block b) (fileAt j + 9) names.extension.1 ∧ fsize (v.disk.block b) j = 0 ∧
    fileStartBlock (v.disk.block b) j = start
  found : ∀ mem, serve (cs1550Getattr mem path) v = ((0, .regular 0), v)

/-- What the capacity of the directories asks of a run. -/
structure CapacityKept (h : List (Volume × Request)) (v : Volume) : Prop where
  within : ∀ x ∈ Run.visited h v, FilesWithin x
  refused : ∀ x ∈ h, ∀ b, x.2.NewFile x.1 b → maxFilesInDir ≤ nFiles (x.1.disk.block b) →
    (x.2.serve x.1).1 = -ENOSPC ∧ (x.2.serve x.1).2.disk = x.1.disk
  stored : ∀ x ∈ h, ∀ path, x.2.call = .mknod path → (x.2.serve x.1).1 = 0 →
    StoredEmpty v path (sscanf path x.2.mem.names).2 (x.2.serve x.1).2.cursor
  /-- Calls of `getattr` in between change nothing. -/
  getattr : ∀ x ∈ Run.visited h v, ∀ mem path, (serve (cs1550Getattr mem path) x).2 = x

/-! ## Represented images -/

theorem Rep.filesWithin (hr : Rep N v t) : FilesWithin v := by
  intro i hi
  have hn : nDirectories (v.disk.block 0) = t.dirs.length := hr.root.count
  rw [hn, Int.toNat_natCast] at hi
  have hD := List.getElem?_eq_getElem hi
  rw [dirStartBlock_eq hr.root hD, Int.toNat_natCast, hr.nFiles_eq hD]
  exact_mod_cast (hr.directory i _ hD).length_le

theorem Tree.getattr_file {path : CString} {before names : Names} {count : Int} {f : File}
    (hscan : sscanf path before = (count, names)) (hcount : 1 < count) (hf : t.find names = some f) :
    t.getattr path before = (0, .regular f.contents.length) := by
  obtain ⟨D, hD, hfile⟩ := Tree.find_some hf
  have hpath : ¬ path.1 = [slash] := by
    intro hslash
    obtain ⟨s, hs⟩ := path
    subst hslash
    obtain rfl : -1 = count := congrArg Prod.fst hscan
    omega
  unfold Tree.getattr
  rw [if_neg hpath, hscan]
  dsimp only
  rw [if_neg (by omega), hD]
  dsimp only
  rw [if_neg (by omega), hfile]

theorem Rep.serve_getattr (hr : Rep N v t) (mem : Memory) (path : CString) :
    serve (cs1550Getattr mem path) v = (t.getattr path mem.names, v) := serve_of_yields (hr.listed.getattr mem path)

/-- An empty file of the tree is stored as it should be. -/
theorem Rep.storedEmpty (hr : Rep N v t) {mem : Memory} {path : CString} {names : Names} {f : File}
    (hscan : sscanf path mem.names = (3, names)) (hf : t.find names = some f) (hempty : f.contents = []) :
    StoredEmpty v path names (f.chain.headD 0 : Nat) where
  entry := by
    obtain ⟨D, hD, hfile⟩ := Tree.find_some hf
    have hdir := hr.directory _ D hD
    have hname := cstr_shift.1 (hr.root.entry _ D hD).dname
    have hentry := hdir.entry _ f hfile
    have hfname := cstr_shift.1 hentry.fname
    have hfext := cstr_shift.1 hentry.fext
    rw [Tree.dname_of_dirIndex hD] at hname
    rw [(Directory.names_of_fileIndex hfile).1] at hfname
    rw [(Directory.names_of_fileIndex hfile).2] at hfext
    refine ⟨_, _, D.block, ?_, hname, ?_, hfname, hfext, ?_, fileStartBlock_eq hdir hfile⟩
    · rw [hr.listed.dirStart_eq, hD]
      rfl
    · have hj := (List.getElem?_eq_some_iff.1 hfile).1
      have hle := hdir.length_le
      simp only [fileAt, fileEntrySize, maxFilename, maxExtension, maxFilesInDir, blockSize] at hle ⊢
      omega
    · rw [fsize_eq hdir hfile, hempty]
      rfl
  found mem' := by
    rw [hr.serve_getattr, Tree.getattr_file (sscanf_three hscan _) (by decide) hf, hempty]
    rfl

/-- A full directory does not keep `cs1550_mknod` from making another file. -/
theorem Rep.mknod_new (hr : Rep N v t) {b : Nat} (hnew : r.NewFile v b) : (r.serve v).1 = 0 := by
  obtain ⟨mem, call⟩ := r
  cases call with
  | mkdir path => exact hnew.elim
  | write path buf offset => exact hnew.elim
  | mknod path =>
    obtain ⟨names, hscan⟩ : ∃ names, sscanf path mem.names = (3, names) := ⟨_, Prod.ext hnew.1 rfl⟩
    obtain ⟨hname, hext, D, hD, -, hfile⟩ := (hr.newFile_iff mem path hscan b).1 hnew
    have hge := List.getElem?_eq_none_iff.1 hfile
    obtain ⟨v', href⟩ := hr.mknod mem path
    have hret := href.ret
    unfold Tree.mknod at hret
    rw [hscan] at hret
    dsimp only at hret
    rw [if_neg (by decide), if_neg (by omega), hD] at hret
    dsimp only at hret
    rw [if_neg (by omega)] at hret
    exact hret

/-- After it that directory has too many. -/
theorem Rep.full_not_within (hr : Rep N v t) (hb : t.Bare) (hN : roomForNames < N) {b : Nat} (hnew : r.NewFile v b)
    (hfull : maxFilesInDir ≤ nFiles (v.disk.block b)) : ¬ FilesWithin (r.serve v).2 := by
  intro hwithin
  have hzero := hr.mknod_new hnew
  obtain ⟨mem, call⟩ := r
  cases call with
  | mkdir path => exact hnew.elim
  | write path buf offset => exact hnew.elim
  | mknod path =>
    have href := hr.step (r := ⟨mem, .mknod path⟩) trivial
    have hret : (t.mknod path mem.names).1 = 0 := by rw [← hzero]; exact href.ret.symm
    rcases t.mknod_cases path mem.names with ⟨hneg, -⟩ | ⟨names, D, hscan, -, -, hD, -, heq⟩
    · omega
    obtain ⟨-, -, D', hD', rfl, -⟩ := (hr.newFile_iff mem path hscan b).1 hnew
    obtain rfl := Option.some.inj (hD'.symm.trans hD)
    simp only [Tree.step] at href
    rw [heq] at href
    have hused := hb.used_le
    have hfront : InFront N (Request.serve ⟨mem, .mknod path⟩ v).2.cursor := by
      rw [href.cursor]
      simp only [roomForNames, maxDirsInRoot, maxFilesInDir, dirEntrySize, fileEntrySize, blockSize, maxDirname,
        maxFilename, maxExtension, bitmapSizeInBlocks, Tree.modify] at hused hN ⊢
      constructor
      · simp only [bitmapSizeInBlocks]
        omega
      · simp only [bitmapBits, bitmapBytes, blockSize, bitmapSizeInBlocks]
        omega
    have hle := ((href.rep hfront (.inl hwithin)).directory _ _ (Tree.modify_self hD)).length_le
    rw [hr.nFiles_eq hD] at hfull
    rw [List.length_append, List.length_singleton] at hle
    omega

/-! ## Runs -/

/-- A file of the tree stays as it is while directories and files are made. -/
theorem Tree.find_step {names : Names} {f : File} (hn : r.MakesNames) (hf : t.find names = some f) :
    (t.step r).2.find names = some f := by
  obtain ⟨mem, call⟩ := r
  cases call with
  | mkdir path =>
    rcases t.mkdir_cases path mem.names with ⟨-, heq⟩ | ⟨names', -, -, -, -, heq⟩
    · simp only [Tree.step]
      rwa [heq]
    · simp only [Tree.step]
      rwa [heq, Tree.find_addDirectory]
  | mknod path =>
    rcases t.mknod_cases path mem.names with ⟨-, heq⟩ | ⟨names', D, -, -, -, hD, -, heq⟩
    · simp only [Tree.step]
      rwa [heq]
    · simp only [Tree.step]
      rw [heq, Tree.find_addFile hD, hf]
      rfl
  | write path buf offset => exact hn.elim

/-- The file that `cs1550_mknod` has just made. -/
theorem Rep.find_mknod (hr : Rep N v t) {mem : Memory} {path : CString}
    (h0 : (Request.serve ⟨mem, .mknod path⟩ v).1 = 0) :
    ∃ names f, sscanf path mem.names = (3, names) ∧ (t.step ⟨mem, .mknod path⟩).2.find names = some f ∧
      f.contents = [] ∧ ((f.chain.headD 0 : Nat) : Int) = (Request.serve ⟨mem, .mknod path⟩ v).2.cursor := by
  have href := hr.step (r := ⟨mem, .mknod path⟩) trivial
  have hret : (t.mknod path mem.names).1 = 0 := by rw [← h0]; exact href.ret.symm
  have hcursor := href.cursor
  simp only [Tree.step] at hcursor ⊢
  rcases t.mknod_cases path mem.names with ⟨hneg, -⟩ | ⟨names, D, hscan, -, -, hD, hnew, heq⟩
  · omega
  · refine ⟨names, ⟨names.filename, names.extension, [], [t.used + 1]⟩, hscan, ?_, rfl, ?_⟩
    · rw [heq, Tree.find_addFile hD, Tree.find_eq hD, hnew, Option.none_or, if_pos ⟨rfl, rfl, rfl⟩]
    · rw [hcursor, heq]
      simp [Tree.modify]

theorem roomy_run (hN : roomForNames ≤ N) (hp : RunFrom N h v) (hn : ∀ x ∈ h, x.2.MakesNames)
    (hroomy : ∀ x ∈ h, x.2.Roomy x.1) : Rep N v (treeAfter h) ∧ (treeAfter h).Bare := by
  have hzero := named_zeroed hN
  refine hp.simulate (R := fun v t => Rep N v t ∧ t.Bare) (fun t r => (t.step r).2)
    (fun v r => r.MakesNames ∧ r.Roomy v) (fun _ => True) ⟨hzero.rep, hzero.bare⟩ (fun v r v' t => ?_)
    (fun x hx => ⟨hn x hx, hroomy x hx⟩) fun _ _ => trivial
  rintro ⟨hr, hb⟩ ⟨hn, hroomy⟩ - rfl
  exact hr.serve_bare hb hN hroomy hn

theorem treeAfter_concat (h : List (Volume × Request)) (x : Volume × Request) :
    treeAfter (h ++ [x]) = ((treeAfter h).step x.2).2 := by
  unfold treeAfter
  rw [List.foldl_append]
  rfl

/-- Every file made in a roomy run is in the tree. -/
theorem find_of_run (hN : roomForNames ≤ N) (hp : RunFrom N h v) (hn : ∀ x ∈ h, x.2.MakesNames)
    (hroomy : ∀ x ∈ h, x.2.Roomy x.1) : ∀ x ∈ h, ∀ path, x.2.call = .mknod path → (x.2.serve x.1).1 = 0 →
      ∃ names f, sscanf path x.2.mem.names = (3, names) ∧ (treeAfter h).find names = some f ∧ f.contents = [] ∧
        ((f.chain.headD 0 : Nat) : Int) = (x.2.serve x.1).2.cursor := by
  induction hp with
  | start => simp
  | @step h v v' r hp hs ih =>
    have hn' : ∀ x ∈ h, x.2.MakesNames := fun x hx => hn x (List.mem_append_left _ hx)
    have hroomy' : ∀ x ∈ h, x.2.Roomy x.1 := fun x hx => hroomy x (List.mem_append_left _ hx)
    intro x hx path hcall h0
    rw [treeAfter_concat]
    rcases List.mem_append.1 hx with hold | hlast
    · obtain ⟨names, f, hscan, hf, hempty, hstart⟩ := ih hn' hroomy' x hold path hcall h0
      exact ⟨names, f, hscan, Tree.find_step (hn (v, r) (by simp)) hf, hempty, hstart⟩
    · obtain rfl := List.mem_singleton.1 hlast
      obtain ⟨mem, call⟩ := r
      subst hcall
      exact (roomy_run hN hp hn' hroomy').1.find_mknod h0

/-- A run that is refused the files that do not fit has not asked for one. -/
theorem roomy_of_refused (hN : roomForNames ≤ N) (hp : RunFrom N h v) (hn : ∀ x ∈ h, x.2.MakesNames)
    (href : ∀ x ∈ h, ∀ b, x.2.NewFile x.1 b → maxFilesInDir ≤ nFiles (x.1.disk.block b) →
      (x.2.serve x.1).1 = -ENOSPC) : ∀ x ∈ h, x.2.Roomy x.1 := by
  induction hp with
  | start => simp
  | @step h v v' r hp hs ih =>
    have hn' : ∀ x ∈ h, x.2.MakesNames := fun x hx => hn x (List.mem_append_left _ hx)
    have hroomy := ih hn' fun x hx => href x (List.mem_append_left _ hx)
    intro x hx
    rcases List.mem_append.1 hx with hold | hlast
    · exact hroomy x hold
    · obtain rfl := List.mem_singleton.1 hlast
      intro b hnew
      by_contra hfull
      have hzero := (roomy_run hN hp hn' hroomy).1.mknod_new hnew
      rw [href (v, r) (by simp) b hnew (by omega)] at hzero
      exact absurd hzero (by decide)

/-- A run in which no directory ever has too many files has not asked for one. The block that the file after the
last one that fits gets is still in front of the bitmap. -/
theorem roomy_of_within (hN : roomForNames < N) (hp : RunFrom N h v) (hn : ∀ x ∈ h, x.2.MakesNames)
    (hfiles : ∀ x ∈ Run.visited h v, FilesWithin x) : ∀ x ∈ h, x.2.Roomy x.1 := by
  induction hp with
  | start => simp
  | @step h v v' r hp hs ih =>
    have hn' : ∀ x ∈ h, x.2.MakesNames := fun x hx => hn x (List.mem_append_left _ hx)
    have hroomy := ih hn' fun x hx => hfiles x (Run.mem_visited_append.2 (.inl hx))
    obtain ⟨hr, hb⟩ := roomy_run hN.le hp hn' hroomy
    intro x hx
    rcases List.mem_append.1 hx with hold | hlast
    · exact hroomy x hold
    obtain rfl := List.mem_singleton.1 hlast
    intro b hnew
    by_contra hfull
    have hwithin : FilesWithin (r.serve v).2 := hs ▸ hfiles v' (List.mem_append_right _ (by simp))
    exact hr.full_not_within hb hN hnew (not_lt.1 hfull) hwithin

/-- In every run of `mkdir` and `mknod` the capacity of the directories is kept if and only if no file with a
new name is asked for in a directory that is full. -/
theorem capacity_iff (hN : roomForNames ≤ N) (hp : RunFrom N h v) (hn : ∀ x ∈ h, x.2.MakesNames) :
    CapacityKept h v ↔ ∀ x ∈ h, x.2.Roomy x.1 := by
  constructor
  · intro hkept
    exact roomy_of_refused hN hp hn fun x hx b hnew hfull => (hkept.refused x hx b hnew hfull).1
  · intro hroomy
    refine ⟨fun x hx => ?_, fun x hx b hnew hfull => ?_, fun x hx path hcall h0 => ?_,
      fun x _ mem path => ((reading_ensures (· = x)).getattr mem path 0 x rfl).2⟩
    · obtain ⟨h', hpre, hp'⟩ := hp.visited hx
      have hrep := roomy_run hN hp' (fun y hy => hn y (hpre.subset hy)) fun y hy => hroomy y (hpre.subset hy)
      exact hrep.1.filesWithin
    · exact absurd (hroomy x hx b hnew) (by omega)
    · obtain ⟨names, f, hscan, hf, hempty, hstart⟩ := find_of_run hN hp hn hroomy x hx path hcall h0
      rw [hscan, ← hstart]
      exact (roomy_run hN hp hn hroomy).1.storedEmpty hscan hf hempty

theorem capacity_oneFile :
    StoredEmpty (serveAll (zeroed 10240) [⟨blank, .mkdir dirPath⟩, ⟨blank, .mknod filePath⟩]).2 filePath
      ⟨⟨[97], by decide⟩, ⟨[102], by decide⟩, ⟨[116], by decide⟩⟩ 2 := by
  have hc : ∀ x ∈ (serveAll (zeroed 10240) [⟨blank, .mkdir dirPath⟩, ⟨blank, .mknod filePath⟩]).1, x.2.Creates x.1 := by
    decide +kernel
  have hkept := (capacity_iff (N := 10240) (by decide)
    (run_serveAll 10240 [⟨blank, .mkdir dirPath⟩, ⟨blank, .mknod filePath⟩]) fun x hx => (hc x hx).makesNames).2
    fun x hx => (hc x hx).roomy
  exact hkept.stored _ (List.mem_cons_of_mem _ (List.mem_singleton.2 rfl)) filePath rfl (by decide +kernel)

/-- `/a/f.A`, `/a/f.B` and so on. -/
def numbered (i : Fin 18) : CString :=
  ⟨[47, 97, 47, 102, 46, 65 + UInt8.ofNat i], by revert i; decide⟩

/-- A directory, and one file more than it has room for. -/
def overfull : List Request :=
  ⟨blank, .mkdir dirPath⟩ :: (List.finRange 18).map fun i => ⟨blank, .mknod (numbered i)⟩

theorem eighteenth_file_made :
    ∃ h v, RunFrom 10240 h v ∧ (∀ x ∈ h, x.2.MakesNames) ∧ ¬ FilesWithin v ∧ ¬ CapacityKept h v := by
  have hover : ¬ FilesWithin (serveAll (zeroed 10240) overfull).2 := by decide +kernel
  refine ⟨_, _, run_serveAll 10240 overfull, by decide +kernel, hover, fun hkept => hover ?_⟩
  exact hkept.within _ (List.mem_append_right _ (List.mem_singleton.2 rfl))

end CS1550.Fs
