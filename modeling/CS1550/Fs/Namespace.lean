/-
The names in the filesystem. The abstract state is an ordered map from the names of directories to the
ordered lists of their files, without duplicates. The root and the directory blocks represent it under
`cs1550_mkdir` and `cs1550_mknod` from an image of zeros on (`named_of_run`), and `cs1550_readdir` lists it.
-/
import CS1550.Fs.Contents
import Mathlib.Algebra.Order.BigOperators.Group.List

namespace CS1550.Fs

open Bytes

variable {N : Nat} {v : Volume} {t : Tree} {h : List (Volume × Request)}

/-! ## The ordered map -/

/-- Directories by name, in order, each with the names of its files. -/
structure Namespace where
  /-- Each directory with the names and extensions of its files. -/
  dirs : List (List UInt8 × List (List UInt8 × List UInt8))
  distinct : (dirs.map Prod.fst).Nodup
  apart : ∀ e ∈ dirs, e.2.Nodup

namespace Namespace

/-- No directories. -/
def empty : Namespace := ⟨[], by simp, by simp⟩

/-- A new directory, behind the others. -/
def addDirectory (m : Namespace) (directory : List UInt8) (hnew : directory ∉ m.dirs.map Prod.fst) : Namespace where
  dirs := m.dirs ++ [(directory, [])]
  distinct := by
    rw [List.map_append, List.nodup_append]
    refine ⟨m.distinct, by simp, ?_⟩
    rintro a ha b hb rfl
    simp only [List.map_cons, List.map_nil, List.mem_singleton] at hb
    exact hnew (hb ▸ ha)
  apart e he := by
    rcases List.mem_append.1 he with he | he
    · exact m.apart e he
    · rw [List.mem_singleton.1 he]
      exact List.nodup_nil

/-- The entry with the file added, if it is the one of the directory. -/
def withFile (directory : List UInt8) (file : List UInt8 × List UInt8) (e : List UInt8 × List (List UInt8 × List UInt8)) :
    List UInt8 × List (List UInt8 × List UInt8) := if e.1 = directory then (e.1, e.2 ++ [file]) else e

theorem withFile_fst (directory : List UInt8) (file : List UInt8 × List UInt8)
    (e : List UInt8 × List (List UInt8 × List UInt8)) : (withFile directory file e).1 = e.1 := by
  unfold withFile
  split <;> rfl

/-- A new file in a directory, behind the others. -/
def addFile (m : Namespace) (directory : List UInt8) (file : List UInt8 × List UInt8)
    (hnew : ¬ ∃ e ∈ m.dirs, e.1 = directory ∧ file ∈ e.2) : Namespace where
  dirs := m.dirs.map (withFile directory file)
  distinct := by
    rw [List.map_map, show Prod.fst ∘ withFile directory file = Prod.fst from funext (withFile_fst directory file)]
    exact m.distinct
  apart e' he' := by
    obtain ⟨e, he, rfl⟩ := List.mem_map.1 he'
    unfold withFile
    split
    · next heq =>
      rw [List.nodup_append]
      refine ⟨m.apart e he, by simp, ?_⟩
      rintro a ha b hb rfl
      exact hnew ⟨e, he, heq, List.mem_singleton.1 hb ▸ ha⟩
    · exact m.apart e he

/-- What `mkdir` does to the names. -/
def mkdir (m : Namespace) (path : CString) (names : Names) : Int × Namespace :=
  let (count, names) := sscanf path names
  if count ≠ 1 then (-EPERM, m)
  else if names.directory.1.length > maxDirname then (-ENAMETOOLONG, m)
  else if hnew : names.directory.1 ∉ m.dirs.map Prod.fst then
    if maxDirsInRoot ≤ m.dirs.length then (-ENOSPC, m) else (0, m.addDirectory names.directory.1 hnew)
  else (-EEXIST, m)

/-- What `mknod` does to the names. -/
def mknod (m : Namespace) (path : CString) (names : Names) : Int × Namespace :=
  let (count, names) := sscanf path names
  if count ≠ 3 then (-EPERM, m)
  else if names.filename.1.length > maxFilename ∨ names.extension.1.length > maxExtension then (-ENAMETOOLONG, m)
  else if names.directory.1 ∉ m.dirs.map Prod.fst then (-ENOENT, m)
  else if hnew : ¬ ∃ e ∈ m.dirs, e.1 = names.directory.1 ∧ (names.filename.1, names.extension.1) ∈ e.2 then
    (0, m.addFile names.directory.1 (names.filename.1, names.extension.1) hnew)
  else (-EEXIST, m)

/-- What a request does to the names. -/
def step (m : Namespace) (r : Request) : Int × Namespace :=
  match r.call with
  | .mkdir path => m.mkdir path r.mem.names
  | .mknod path => m.mknod path r.mem.names
  | .write .. => (0, m)

end Namespace

/-- The names after a run. -/
def namespaceAfter (h : List (Volume × Request)) : Namespace := h.foldl (fun m x => (m.step x.2).2) .empty

/-- The names as they stand in the root and the directory blocks. -/
def Disk.names (d : Disk) : List (List UInt8 × List (List UInt8 × List UInt8)) :=
  (List.range (nDirectories (d.block 0)).toNat).map fun i =>
    let dir := d.block (dirStartBlock (d.block 0) i).toNat
    (readStr (d.block 0) blockSize (directoryAt i), (List.range (nFiles dir).toNat).map fun j =>
      (readStr dir blockSize (fileAt j), readStr dir blockSize (fileAt j + 9)))

/-! ## The names of a tree -/

/-- The name of a directory and those of its files. -/
def Directory.names (D : Directory) : List UInt8 × List (List UInt8 × List UInt8) :=
  (D.dname.1, D.files.map fun f => (f.fname.1, f.fext.1))

/-- The names in a tree. -/
def Tree.names (t : Tree) : List (List UInt8 × List (List UInt8 × List UInt8)) := t.dirs.map Directory.names

theorem map_range_eq {α β : Type} {xs : List α} {f : Nat → β} {g : α → β}
    (hfg : ∀ i x, xs[i]? = some x → f i = g x) : (List.range xs.length).map f = xs.map g := by
  apply List.ext_getElem?
  intro i
  rcases lt_or_ge i xs.length with hlt | hge
  · simp [hlt, hfg i xs[i] (List.getElem?_eq_getElem hlt)]
  · simp [hge]

theorem readStr_dname {root : Mem} {ds : List Directory} (hs : Holds dirCodec maxDirsInRoot root ds) {i : Nat}
    {D : Directory} (hD : ds[i]? = some D) : readStr root blockSize (directoryAt i) = D.dname.1 := by
  have hentry := hs.entry i D hD
  have hshort := hentry.short
  simp only [maxDirname] at hshort
  exact (cstr_shift.1 hentry.dname).readStr (by simp only [blockSize]; omega)

theorem readStr_file {dir : Mem} {fs : List File} (hs : Holds fileCodec maxFilesInDir dir fs) {j : Nat} {f : File}
    (hf : fs[j]? = some f) :
    readStr dir blockSize (fileAt j) = f.fname.1 ∧ readStr dir blockSize (fileAt j + 9) = f.fext.1 := by
  have hentry := hs.entry j f hf
  have hfname := hentry.fnameShort
  have hfext := hentry.fextShort
  simp only [maxFilename, maxExtension] at hfname hfext
  exact ⟨(cstr_shift.1 hentry.fname).readStr (by simp only [blockSize]; omega),
    (cstr_shift.1 hentry.fext).readStr (by simp only [blockSize]; omega)⟩

theorem Rep.names_eq (hr : Rep N v t) : v.disk.names = t.names := by
  have hn : nDirectories (v.disk.block 0) = t.dirs.length := hr.root.count
  unfold Disk.names Tree.names
  rw [hn, Int.toNat_natCast]
  refine map_range_eq fun i D hD => ?_
  have hdir := hr.directory i D hD
  have hm : nFiles (v.disk.block D.block) = D.files.length := hdir.count
  dsimp only
  rw [dirStartBlock_eq hr.root hD, Int.toNat_natCast, hm, Int.toNat_natCast, readStr_dname hr.root hD]
  refine congrArg (Prod.mk _) (map_range_eq fun j f hf => ?_)
  rw [(readStr_file hdir hf).1, (readStr_file hdir hf).2]

theorem Tree.mem_names {directory : CString} :
    directory.1 ∈ t.names.map Prod.fst ↔ t.dirIndex directory < t.dirs.length := by
  unfold Tree.names Tree.dirIndex
  rw [List.findIdx_lt_length, List.map_map, List.mem_map]
  simp only [Function.comp, Directory.names, beq_iff_eq]
  simp only [Subtype.ext_iff]

theorem Tree.index_of_dname (hnodup : (t.names.map Prod.fst).Nodup) {i k : Nat} {D D' : Directory}
    (hD : t.dirs[i]? = some D) (hD' : t.dirs[k]? = some D') (hname : D'.dname = D.dname) : k = i := by
  have hkey : ∀ {n : Nat} {E : Directory}, t.dirs[n]? = some E → (t.names.map Prod.fst)[n]? = some E.dname.1 := by
    intro n E hE
    simp [Tree.names, hE, Directory.names]
  refine (List.getElem?_inj ?_ hnodup).1 ?_
  · simpa [Tree.names] using (List.getElem?_eq_some_iff.1 hD').1
  · rw [hkey hD, hkey hD', hname]

/-- A file added to one directory. -/
theorem Tree.names_addFile (hnodup : (t.names.map Prod.fst).Nodup) {i used : Nat} {D : Directory} {f : File}
    (hD : t.dirs[i]? = some D) :
    (t.modify i (· ++ [f]) used).names = t.names.map (Namespace.withFile D.dname.1 (f.fname.1, f.fext.1)) := by
  unfold Tree.names Tree.modify
  dsimp only
  rw [List.map_map]
  apply List.ext_getElem?
  intro k
  rw [List.getElem?_map, List.getElem?_map, List.getElem?_modify]
  cases hk : t.dirs[k]? with
  | none => rfl
  | some E =>
    simp only [Option.map_eq_map, Option.map_some, Function.comp]
    by_cases hik : i = k
    · subst hik
      obtain rfl := Option.some.inj (hk.symm.trans hD)
      rw [if_pos rfl]
      simp [Directory.names, Namespace.withFile]
    · rw [if_neg hik]
      have hne : E.dname.1 ≠ D.dname.1 := fun heq => hik (Tree.index_of_dname hnodup hD hk (Subtype.ext heq)).symm
      simp [Directory.names, Namespace.withFile, hne]

theorem Tree.mem_names_files (hnodup : (t.names.map Prod.fst).Nodup) {names : Names} {D : Directory}
    (hD : t.dirs[t.dirIndex names.directory]? = some D) :
    (∃ e ∈ t.names, e.1 = names.directory.1 ∧ (names.filename.1, names.extension.1) ∈ e.2) ↔
      D.fileIndex names.filename names.extension < D.files.length := by
  have hname := Tree.dname_of_dirIndex hD
  unfold Directory.fileIndex
  rw [List.findIdx_lt_length]
  constructor
  · rintro ⟨e, he, hdir, hmem⟩
    obtain ⟨D', hD', rfl⟩ := List.mem_map.1 he
    obtain ⟨k, hk⟩ := List.getElem?_of_mem hD'
    have hki := Tree.index_of_dname hnodup hD hk (Subtype.ext (hdir.trans (congrArg Subtype.val hname.symm)))
    subst hki
    obtain rfl := Option.some.inj (hk.symm.trans hD)
    obtain ⟨f, hf, heq⟩ := List.mem_map.1 hmem
    rw [Prod.mk.injEq] at heq
    refine ⟨f, hf, ?_⟩
    rw [Bool.and_eq_true, beq_iff_eq, beq_iff_eq]
    exact ⟨Subtype.ext heq.1, Subtype.ext heq.2⟩
  · rintro ⟨f, hf, heq⟩
    rw [Bool.and_eq_true, beq_iff_eq, beq_iff_eq] at heq
    refine ⟨D.names, List.mem_map_of_mem (List.mem_of_getElem? hD), congrArg Subtype.val hname, ?_⟩
    exact List.mem_map.2 ⟨f, hf, by rw [heq.1, heq.2]⟩

/-! ## The requests on the map -/

variable {m : Namespace}

theorem Tree.mkdir_names (hm : t.names = m.dirs) (path : CString) (names : Names) :
    (t.mkdir path names).1 = (m.mkdir path names).1 ∧ (t.mkdir path names).2.names = (m.mkdir path names).2.dirs := by
  have hlen : m.dirs.length = t.dirs.length := by rw [← hm, Tree.names, List.length_map]
  unfold Tree.mkdir Namespace.mkdir
  generalize sscanf path names = r
  obtain ⟨count, names'⟩ := r
  dsimp only
  by_cases hcount : count ≠ 1
  · rw [if_pos hcount, if_pos hcount]
    exact ⟨rfl, hm⟩
  rw [if_neg hcount, if_neg hcount]
  by_cases hname : names'.directory.1.length > maxDirname
  · rw [if_pos hname, if_pos hname]
    exact ⟨rfl, hm⟩
  rw [if_neg hname, if_neg hname]
  by_cases hex : t.dirIndex names'.directory < t.dirs.length
  · rw [if_pos hex, dif_neg (by rw [← hm, Tree.mem_names]; exact not_not.2 hex)]
    exact ⟨rfl, hm⟩
  rw [if_neg hex, dif_pos (by rw [← hm, Tree.mem_names]; exact hex)]
  by_cases hfull : t.dirs.length ≥ maxDirsInRoot
  · rw [if_pos hfull, if_pos (by rwa [hlen])]
    exact ⟨rfl, hm⟩
  rw [if_neg hfull, if_neg (by rwa [hlen])]
  refine ⟨rfl, ?_⟩
  simp only [Tree.names, List.map_append, List.map_cons, List.map_nil, Namespace.addDirectory]
  rw [← hm]
  rfl

theorem Tree.mknod_names (hm : t.names = m.dirs) (path : CString) (names : Names) :
    (t.mknod path names).1 = (m.mknod path names).1 ∧ (t.mknod path names).2.names = (m.mknod path names).2.dirs := by
  have hnodup : (t.names.map Prod.fst).Nodup := hm ▸ m.distinct
  have hthree := sscanf_le_three path names
  unfold Tree.mknod Namespace.mknod
  generalize sscanf path names = r at hthree
  obtain ⟨count, names'⟩ := r
  dsimp only at hthree ⊢
  by_cases hcount : count ≠ 3
  · rw [if_pos (show count < 3 by omega), if_pos hcount]
    exact ⟨rfl, hm⟩
  rw [if_neg (show ¬ count < 3 by omega), if_neg hcount]
  by_cases hname : names'.filename.1.length > maxFilename ∨ names'.extension.1.length > maxExtension
  · rw [if_pos hname, if_pos hname]
    exact ⟨rfl, hm⟩
  rw [if_neg hname, if_neg hname]
  cases hD : t.dirs[t.dirIndex names'.directory]? with
  | none =>
    rw [if_pos (by rw [← hm, Tree.mem_names]; exact not_lt.2 (List.getElem?_eq_none_iff.1 hD))]
    exact ⟨rfl, hm⟩
  | some D =>
    have hfiles := Tree.mem_names_files hnodup hD
    rw [hm] at hfiles
    rw [if_neg (by rw [← hm, Tree.mem_names]; exact not_not.2 (List.getElem?_eq_some_iff.1 hD).1)]
    dsimp only
    by_cases hex : D.fileIndex names'.filename names'.extension < D.files.length
    · rw [if_pos hex, dif_neg (not_not.2 (hfiles.2 hex))]
      exact ⟨rfl, hm⟩
    rw [if_neg hex, dif_pos (mt hfiles.1 hex)]
    refine ⟨rfl, ?_⟩
    rw [Tree.names_addFile hnodup hD, hm, Tree.dname_of_dirIndex hD]
    rfl

/-! ## Listings -/

/-- The two names that `cs1550_readdir` lists first. -/
def dots : List (List UInt8) := [[dot], [dot, dot]]

theorem Rep.readdir_root (hr : Rep N v t) (mem : Memory) {path : CString} (hpath : path.1 = [slash]) :
    machine.Yields (cs1550Readdir mem path) v (0, dots ++ t.names.map Prod.fst) v := by
  have hroot := hr.listed.root_onHeap mem.heap
  have hn : nDirectories (onHeap mem.heap (v.disk.block 0)) = t.dirs.length := hroot.count
  have hlist : (List.range t.dirs.length).map (fun i => readStr (onHeap mem.heap (v.disk.block 0)) blockSize (directoryAt i)) =
      t.names.map Prod.fst := by
    rw [Tree.names, List.map_map]
    exact map_range_eq fun i D hD => readStr_dname hroot hD
  refine (openRoot_yields mem v).bind ?_
  rw [if_pos hpath, hn, Int.toNat_natCast, hlist]
  exact .pure _ _

theorem Rep.readdir (hr : Rep N v t) (mem : Memory) {path : CString} {names : Names}
    (hscan : sscanf path mem.names = (1, names)) :
    machine.Yields (cs1550Readdir mem path) v
      (match t.dirs[t.dirIndex names.directory]? with
        | none => (-ENOENT, dots)
        | some D => (0, dots ++ D.names.2.map fun f => f.1 ++ dot :: f.2)) v := by
  have hpath : path.1 ≠ [slash] := by
    intro hpath
    unfold sscanf at hscan
    simp [hpath, CString.drop] at hscan
  have hroot := hr.listed.root_onHeap mem.heap
  have hn : nDirectories (onHeap mem.heap (v.disk.block 0)) = t.dirs.length := hroot.count
  refine (openRoot_yields mem v).bind ?_
  rw [if_neg hpath, hscan]
  dsimp only
  rw [if_neg (by decide), findDirectory_eq hroot, hn]
  cases hD : t.dirs[t.dirIndex names.directory]? with
  | none =>
    have hge := List.getElem?_eq_none_iff.1 hD
    have hle : t.dirIndex names.directory ≤ t.dirs.length := List.findIdx_le_length
    rw [if_pos (by omega)]
    exact .pure _ _
  | some D =>
    have hlt := (List.getElem?_eq_some_iff.1 hD).1
    have hdir := hr.listed.directory_onHeap mem.heap hD
    have hm : nFiles (onHeap mem.heap (v.disk.block D.block)) = D.files.length := hdir.count
    rw [if_neg (by omega), dirStartBlock_eq hroot hD]
    refine (openDir_yields mem D.block v).bind ?_
    have hlist : (List.range D.files.length).map (fun j =>
        readStr (onHeap mem.heap (v.disk.block D.block)) blockSize (fileAt j) ++
          dot :: readStr (onHeap mem.heap (v.disk.block D.block)) blockSize (fileAt j + 9)) =
        D.names.2.map fun f => f.1 ++ dot :: f.2 := by
      rw [Directory.names, List.map_map]
      refine map_range_eq fun j f hf => ?_
      rw [(readStr_file hdir hf).1, (readStr_file hdir hf).2]
      rfl
    rw [hm, Int.toNat_natCast, hlist]
    exact .pure _ _

/-! ## Runs -/

/-- A request for a directory, or for a file in a directory that is not full. -/
def Request.Creates (v : Volume) (r : Request) : Prop :=
  match r.call with
  | .mkdir _ => True
  | .mknod path =>
    (sscanf path r.mem.names).1 = 3 →
      ∀ b ∈ v.disk.dirStart (findDirectory (v.disk.block 0) (sscanf path r.mem.names).2.directory.1),
        nFiles (v.disk.block b.toNat) < maxFilesInDir
  | .write .. => False

instance (v : Volume) : (r : Request) → Decidable (r.Creates v)
  | ⟨_, .mkdir _⟩ => isTrue trivial
  | ⟨mem, .mknod path⟩ => inferInstanceAs (Decidable ((sscanf path mem.names).1 = 3 → _))
  | ⟨_, .write ..⟩ => isFalse id

/-- The request is for a file with a new and valid name in the directory with the block `b`. -/
def Request.NewFile (v : Volume) (r : Request) (b : Nat) : Prop :=
  match r.call with
  | .mknod path =>
    let names := (sscanf path r.mem.names).2
    (sscanf path r.mem.names).1 = 3 ∧ names.filename.1.length ≤ maxFilename ∧
      names.extension.1.length ≤ maxExtension ∧
      v.disk.dirStart (findDirectory (v.disk.block 0) names.directory.1) = some (b : Int) ∧
      (findFile (v.disk.block b) names.filename.1 names.extension.1 : Int) = nFiles (v.disk.block b)
  | _ => False

/-- No file is asked for in a directory that is full. -/
def Request.Roomy (v : Volume) (r : Request) : Prop := ∀ b, r.NewFile v b → nFiles (v.disk.block b) < maxFilesInDir

/-- The request is for a directory or for a file. -/
def Request.MakesNames (r : Request) : Prop :=
  match r.call with
  | .write .. => False
  | _ => True

theorem Request.Creates.roomy {r : Request} (hc : r.Creates v) : r.Roomy v := by
  obtain ⟨mem, call⟩ := r
  intro b hb
  cases call with
  | mkdir path => exact hb.elim
  | mknod path => exact hc hb.1 b hb.2.2.2.1
  | write path buf offset => exact hb.elim

theorem Request.Creates.makesNames {r : Request} (hc : r.Creates v) : r.MakesNames := by
  obtain ⟨mem, call⟩ := r
  cases call with
  | mkdir path => trivial
  | mknod path => trivial
  | write path buf offset => exact hc

theorem Request.MakesNames.short {r : Request} (hn : r.MakesNames) : r.Short v := by
  obtain ⟨mem, call⟩ := r
  cases call with
  | mkdir path => trivial
  | mknod path => trivial
  | write path buf offset => exact hn.elim

theorem Rep.nFiles_eq (hr : Rep N v t) {i : Nat} {D : Directory} (hD : t.dirs[i]? = some D) :
    nFiles (v.disk.block D.block) = D.files.length := (hr.directory i D hD).count

/-- A new file, as the image and as the tree show it. -/
theorem Rep.newFile_iff (hr : Rep N v t) (mem : Memory) (path : CString) {names : Names}
    (hscan : sscanf path mem.names = (3, names)) (b : Nat) :
    Request.NewFile v ⟨mem, .mknod path⟩ b ↔ names.filename.1.length ≤ maxFilename ∧
      names.extension.1.length ≤ maxExtension ∧ ∃ D, t.dirs[t.dirIndex names.directory]? = some D ∧ D.block = b ∧
        D.files[D.fileIndex names.filename names.extension]? = none := by
  simp only [Request.NewFile, hscan, true_and]
  rw [findDirectory_eq hr.root, hr.listed.dirStart_eq]
  refine and_congr_right fun _ => and_congr_right fun _ => ?_
  constructor
  · rintro ⟨hstart, hnew⟩
    obtain ⟨D, hD, hb⟩ := Option.map_eq_some_iff.1 hstart
    obtain rfl : D.block = b := by exact_mod_cast hb
    rw [findFile_eq (hr.directory _ D hD), hr.nFiles_eq hD] at hnew
    exact ⟨D, hD, rfl, List.getElem?_eq_none (by omega)⟩
  · rintro ⟨D, hD, rfl, hnew⟩
    have hge := List.getElem?_eq_none_iff.1 hnew
    have hle : D.fileIndex names.filename names.extension ≤ D.files.length := List.findIdx_le_length
    rw [hD, findFile_eq (hr.directory _ D hD), hr.nFiles_eq hD]
    exact ⟨rfl, by omega⟩

/-- The number of directories and files. -/
def Tree.entries (t : Tree) : Nat := t.dirs.length + (t.dirs.map fun D => D.files.length).sum

theorem sum_modify_succ {ds : List Directory} {i : Nat} {D : Directory} {f : File} (hD : ds[i]? = some D) :
    ((ds.modify i fun D => { D with files := D.files ++ [f] }).map fun D => D.files.length).sum =
      (ds.map fun D => D.files.length).sum + 1 := by
  induction ds generalizing i with
  | nil => simp at hD
  | cons E ds ih =>
    cases i with
    | zero => simp; omega
    | succ i => simp [ih (by simpa using hD)]; omega

/-- Without a write, the blocks handed out are one for each directory and one for each file. -/
structure Tree.Bare (t : Tree) : Prop where
  used : t.used = t.entries
  length_le : t.dirs.length ≤ maxDirsInRoot
  fits : t.Fits
  empty : ∀ (i : Nat) (D : Directory) (j : Nat) (f : File), t.dirs[i]? = some D → D.files[j]? = some f → f.contents = []

theorem Tree.Bare.used_le (hb : t.Bare) : t.used ≤ maxDirsInRoot + maxDirsInRoot * maxFilesInDir := by
  have hsum : (t.dirs.map fun D => D.files.length).sum ≤ t.dirs.length * maxFilesInDir := by
    have hle := List.sum_le_card_nsmul (t.dirs.map fun D => D.files.length) maxFilesInDir fun x hx => by
      obtain ⟨D, hD, rfl⟩ := List.mem_map.1 hx
      exact hb.fits D hD
    rw [List.length_map] at hle
    exact hle
  have hmul := Nat.mul_le_mul_right maxFilesInDir hb.length_le
  have hlen := hb.length_le
  rw [hb.used, Tree.entries]
  omega

theorem Rep.bare_step (hr : Rep N v t) (hb : t.Bare) {r : Request} (hroomy : r.Roomy v) (hn : r.MakesNames) :
    (t.step r).2.Bare := by
  obtain ⟨mem, call⟩ := r
  cases call with
  | mkdir path =>
    rcases t.mkdir_cases path mem.names with ⟨-, heq⟩ | ⟨names', -, -, -, hlt, heq⟩
    · simp only [Tree.step]
      rwa [heq]
    · simp only [Tree.step]
      rw [heq]
      refine ⟨?_, ?_, fun D hD => ?_, fun i D j f hD hf => ?_⟩
      · rw [hb.used]
        simp only [Tree.entries, List.length_append, List.map_append, List.sum_append, List.length_singleton,
          List.map_cons, List.map_nil, List.length_nil, List.sum_cons, List.sum_nil]
        omega
      · rw [List.length_append, List.length_singleton]
        omega
      · rcases List.mem_append.1 hD with hold | hnew
        · exact hb.fits D hold
        · rw [List.mem_singleton.1 hnew]
          exact Nat.zero_le _
      · rcases getElem?_concat hD with hold | ⟨-, rfl⟩
        · exact hb.empty i D j f hold hf
        · simp at hf
  | mknod path =>
    rcases t.mknod_cases path mem.names with ⟨-, heq⟩ | ⟨names', D, hscan, hname, hext, hD, hnew, heq⟩
    · simp only [Tree.step]
      rwa [heq]
    · have hroom : D.files.length < maxFilesInDir := by
        have hlt := hroomy D.block ((hr.newFile_iff mem path hscan _).2 ⟨hname, hext, D, hD, rfl, hnew⟩)
        rw [hr.nFiles_eq hD] at hlt
        exact_mod_cast hlt
      simp only [Tree.step]
      rw [heq]
      refine ⟨?_, ?_, fun D' hD' => ?_, fun i D' j f hD' hf => ?_⟩
      · rw [Tree.entries, Tree.modify]
        dsimp only
        rw [sum_modify_succ hD, List.length_modify, hb.used, Tree.entries, Nat.add_assoc]
      · rw [Tree.modify, List.length_modify]
        exact hb.length_le
      · obtain ⟨i, hi⟩ := List.getElem?_of_mem hD'
        rcases Tree.modify_some hi with ⟨rfl, D₀, hD₀, rfl⟩ | ⟨-, hold⟩
        · obtain rfl := Option.some.inj (hD₀.symm.trans hD)
          rw [List.length_append, List.length_singleton]
          exact hroom
        · exact hb.fits D' (List.mem_of_getElem? hold)
      · rcases Tree.modify_some hD' with ⟨rfl, D₀, hD₀, rfl⟩ | ⟨-, hold⟩
        · rcases getElem?_concat hf with hold | ⟨-, rfl⟩
          · exact hb.empty _ D₀ j f hD₀ hold
          · rfl
        · exact hb.empty i D' j f hold hf
  | write path buf offset => exact hn.elim

/-- The image represents a tree with the names of the map. -/
structure Named (N : Nat) (v : Volume) (t : Tree) (m : Namespace) : Prop where
  rep : Rep N v t
  names : t.names = m.dirs
  bare : t.Bare

/-- Blocks enough for every directory and every file, behind the root and in front of the bitmap. -/
def roomForNames : Nat := 1 + (maxDirsInRoot + maxDirsInRoot * maxFilesInDir) + bitmapSizeInBlocks

/-- A request for a directory or a file finds a block, and the image represents the tree it leaves. -/
theorem Rep.serve_bare (hr : Rep N v t) (hb : t.Bare) (hN : roomForNames ≤ N) {r : Request} (hroomy : r.Roomy v)
    (hn : r.MakesNames) : Rep N (r.serve v).2 (t.step r).2 ∧ (t.step r).2.Bare := by
  have hbare := hr.bare_step hb hroomy hn
  have href := hr.step hn.short
  have hused := hbare.used_le
  have hfront : InFront N (r.serve v).2.cursor := by
    rw [href.cursor]
    constructor
    · simp only [roomForNames, maxDirsInRoot, maxFilesInDir, dirEntrySize, fileEntrySize, blockSize, maxDirname,
        maxFilename, maxExtension, bitmapSizeInBlocks] at hused hN ⊢
      omega
    · simp only [maxDirsInRoot, maxFilesInDir, dirEntrySize, fileEntrySize, blockSize, maxDirname, maxFilename,
        maxExtension, bitmapSizeInBlocks, bitmapBits, bitmapBytes] at hused ⊢
      omega
  exact ⟨href.rep hfront (.inr hbare.fits), hbare⟩

theorem Named.step (hn : Named N v t m) (hN : roomForNames ≤ N) {r : Request} (hc : r.Creates v) :
    Named N (r.serve v).2 (t.step r).2 (m.step r).2 ∧ (r.serve v).1 = (m.step r).1 ∧
      ((r.serve v).1 < 0 → (r.serve v).2 = v) := by
  obtain ⟨hrep, hbare⟩ := hn.rep.serve_bare hn.bare hN hc.roomy hc.makesNames
  have href := hn.rep.step hc.makesNames.short
  have hnames : (t.step r).1 = (m.step r).1 ∧ (t.step r).2.names = (m.step r).2.dirs := by
    obtain ⟨mem, call⟩ := r
    cases call with
    | mkdir path => exact Tree.mkdir_names hn.names path mem.names
    | mknod path => exact Tree.mknod_names hn.names path mem.names
    | write path buf offset => exact hc.elim
  have hret : (r.serve v).1 = (t.step r).1 := href.ret
  refine ⟨⟨hrep, hnames.2, hbare⟩, hret.trans hnames.1, fun hneg => ?_⟩
  exact href.refused (hret ▸ hneg)

theorem named_zeroed (hN : roomForNames ≤ N) : Named N (zeroed N) .empty .empty where
  rep := rep_zeroed (by simp only [roomForNames] at hN; omega)
  names := rfl
  bare := ⟨rfl, Nat.zero_le _, fun D hD => by simp [Tree.empty] at hD, fun i D j f hD => by simp [Tree.empty] at hD⟩

theorem named_of_run (hN : roomForNames ≤ N) (hp : RunFrom N h v) (hc : ∀ x ∈ h, x.2.Creates x.1) :
    ∃ t, Named N v t (namespaceAfter h) := by
  refine hp.simulate (R := fun v m => ∃ t, Named N v t m) (fun m r => (m.step r).2) (fun v r => r.Creates v)
    (fun _ => True) ⟨_, named_zeroed hN⟩ (fun v r v' m => ?_) hc fun _ _ => trivial
  rintro ⟨t, hn⟩ hc - rfl
  exact ⟨_, (hn.step hN hc).1⟩

theorem Named.readdir_none (hn : Named N v t m) (mem : Memory) {path : CString} {names : Names}
    (hscan : sscanf path mem.names = (1, names)) (hdir : names.directory.1 ∉ m.dirs.map Prod.fst) :
    machine.Yields (cs1550Readdir mem path) v (-ENOENT, dots) v := by
  have hread := hn.rep.readdir mem hscan
  rw [← hn.names, Tree.mem_names, not_lt] at hdir
  rwa [List.getElem?_eq_none hdir] at hread

theorem Named.readdir (hn : Named N v t m) (mem : Memory) {path : CString} {names : Names}
    (hscan : sscanf path mem.names = (1, names)) {files : List (List UInt8 × List UInt8)}
    (hdir : (names.directory.1, files) ∈ m.dirs) :
    machine.Yields (cs1550Readdir mem path) v (0, dots ++ files.map fun f => f.1 ++ dot :: f.2) v := by
  have hread := hn.rep.readdir mem hscan
  have hnodup : (t.names.map Prod.fst).Nodup := hn.names ▸ m.distinct
  rw [← hn.names] at hdir
  obtain ⟨D, hD, heq⟩ := List.mem_map.1 hdir
  obtain ⟨k, hk⟩ := List.getElem?_of_mem hD
  have hlt : t.dirIndex names.directory < t.dirs.length :=
    Tree.mem_names.1 (List.mem_map.2 ⟨_, hdir, rfl⟩)
  have hD' := List.getElem?_eq_getElem hlt
  have hname : D.dname = names.directory := Subtype.ext (congrArg Prod.fst heq)
  have hki := Tree.index_of_dname hnodup hD' hk (hname.trans (Tree.dname_of_dirIndex hD').symm)
  rw [← hki, hk] at hread
  dsimp only at hread
  rwa [show D.names.2 = files from congrArg Prod.snd heq] at hread

end CS1550.Fs
