/-
Which paths the names of the filesystem have. A name that is listed is found again under the path that is put
together from it (`listed_resolve`): the three names of a file are read back by `sscanf`, and no two entries
have the same names. The other way round, `cs1550_getattr` takes the number of conversions for the kind of the
path, so a path that is none of a stored entry can be taken for one; it resolves the paths exactly where what
was converted makes up the whole path (`resolved_iff`).
-/
import CS1550.Fs.Capacity

namespace CS1550.Fs

open Bytes

variable {N : Nat} {v : Volume} {t : Tree} {r : Request} {h : List (Volume × Request)}

/-- The path is the root's or that of a directory. -/
def NamesDirectory (d : Disk) (path : CString) : Prop :=
  path.1 = [slash] ∨ ∃ e ∈ d.names, path.1 = slash :: e.1

/-- The path is that of a file of this size. -/
def NamesFile (d : Disk) (path : CString) (size : Nat) : Prop :=
  ∃ (i j : Nat) (e : List UInt8 × List (List UInt8 × List UInt8)) (f : List UInt8 × List UInt8), d.names[i]? = some e ∧
    e.2[j]? = some f ∧ d.sizeAt i j = some size ∧ path.1 = slash :: e.1 ++ slash :: f.1 ++ dot :: f.2

/-- `cs1550_getattr` reports for the path what it is the path of. -/
structure Resolved (v : Volume) (mem : Memory) (path : CString) : Prop where
  directory : (serve (cs1550Getattr mem path) v).1 = (0, .directory) ↔ NamesDirectory v.disk path
  file : ∀ size, (serve (cs1550Getattr mem path) v).1 = (0, .regular size) ↔ NamesFile v.disk path size
  other : ¬ NamesDirectory v.disk path → (∀ size, ¬ NamesFile v.disk path size) →
    (serve (cs1550Getattr mem path) v).1 = (-ENOENT, .zero)

/-- The entry that the names lead to, if they lead to one, is that of the path. -/
structure Canonical (v : Volume) (mem : Memory) (path : CString) : Prop where
  directory : ∀ names, sscanf path mem.names = (1, names) → names.directory.1 ∈ v.disk.names.map Prod.fst →
    path = directoryPath names.directory
  /-- The array `extension` is not written. -/
  unfinished : ∀ names, sscanf path mem.names = (2, names) → v.disk.sizeOf names = none
  file : ∀ names, sscanf path mem.names = (3, names) → v.disk.sizeOf names ≠ none →
    path = fullPath names.directory names.filename names.extension

/-- The names that `readdir` lists are those under which `getattr` finds the entries. -/
structure ListedResolve (v : Volume) : Prop where
  root : ∀ mem path, path.1 = [slash] → ∃ listed, serve (cs1550Readdir mem path) v = ((0, dots ++ listed), v) ∧
    ∀ d ∈ listed, IsDirectory d ∧ ∀ mem' path', path'.1 = slash :: d →
      serve (cs1550Getattr mem' path') v = ((0, .directory), v)
  directory : ∀ d, IsDirectory d → ∀ mem path, path.1 = slash :: d →
    ∃ ret listed, serve (cs1550Readdir mem path) v = ((ret, dots ++ listed), v) ∧
      ∀ (j : Nat) (s : List UInt8), listed[j]? = some s → ∃ i files f size, v.disk.names[i]? = some (d, files) ∧
        files[j]? = some f ∧ s = f.1 ++ dot :: f.2 ∧ v.disk.sizeAt i j = some size ∧
        ∀ mem' path', path'.1 = slash :: d ++ slash :: s → serve (cs1550Getattr mem' path') v = ((0, .regular size), v)

/-! ## Trees with names that are read back -/

/-- The names in a tree can be read back from a path, and name one entry each. -/
structure Tree.Spelled (t : Tree) : Prop where
  directory : ∀ (i : Nat) (D : Directory), t.dirs[i]? = some D → IsDirectory D.dname.1
  file : ∀ (i : Nat) (D : Directory) (j : Nat) (f : File), t.dirs[i]? = some D → D.files[j]? = some f →
    IsFile f.fname.1 f.fext.1
  unique : ∃ m : Namespace, t.names = m.dirs

theorem Tree.Spelled.step (hs : t.Spelled) (hn : r.MakesNames) : (t.step r).2.Spelled := by
  obtain ⟨m, hm⟩ := hs.unique
  obtain ⟨mem, call⟩ := r
  cases call with
  | mkdir path =>
    have hunique : ∃ m : Namespace, (t.mkdir path mem.names).2.names = m.dirs := ⟨_, (Tree.mkdir_names hm path mem.names).2⟩
    simp only [Tree.step]
    rcases t.mkdir_cases path mem.names with ⟨-, heq⟩ | ⟨names', hscan, -, -, -, heq⟩
    · rwa [heq]
    · have hspelled := parts_spelled path
      rw [parts_of_one hscan] at hspelled
      rw [heq] at hunique ⊢
      refine ⟨fun i D hD => ?_, fun i D j f hD hf => ?_, hunique⟩
      · rcases getElem?_concat hD with hold | ⟨-, rfl⟩
        · exact hs.directory i D hold
        · exact hspelled
      · rcases getElem?_concat hD with hold | ⟨-, rfl⟩
        · exact hs.file i D j f hold hf
        · simp at hf
  | mknod path =>
    have hunique : ∃ m : Namespace, (t.mknod path mem.names).2.names = m.dirs := ⟨_, (Tree.mknod_names hm path mem.names).2⟩
    simp only [Tree.step]
    rcases t.mknod_cases path mem.names with ⟨-, heq⟩ | ⟨names', D, hscan, -, -, hD, -, heq⟩
    · rwa [heq]
    · have hspelled := parts_spelled path
      rw [parts_of_three hscan] at hspelled
      rw [heq] at hunique ⊢
      refine ⟨fun i D' hD' => ?_, fun i D' j f hD' hf => ?_, hunique⟩
      · rcases Tree.modify_some hD' with ⟨rfl, D₀, hD₀, rfl⟩ | ⟨-, hold⟩
        · exact hs.directory _ D₀ hD₀
        · exact hs.directory i D' hold
      · rcases Tree.modify_some hD' with ⟨rfl, D₀, hD₀, rfl⟩ | ⟨-, hold⟩
        · rcases getElem?_concat hf with hold | ⟨-, rfl⟩
          · exact hs.file _ D₀ j f hD₀ hold
          · exact hspelled.2
        · exact hs.file i D' j f hold hf
  | write path buf offset => exact hn.elim

theorem spelled_treeAfter (hn : ∀ x ∈ h, x.2.MakesNames) : (treeAfter h).Spelled := by
  induction h using List.reverseRecOn with
  | nil =>
    have hnone : ∀ (i : Nat) (D : Directory), (treeAfter []).dirs[i]? ≠ some D := by simp [treeAfter, Tree.empty]
    exact ⟨fun i D hD => absurd hD (hnone i D), fun i D j f hD => absurd hD (hnone i D), .empty, rfl⟩
  | append_singleton h x ih =>
    rw [treeAfter_concat]
    exact (ih fun y hy => hn y (List.mem_append_left _ hy)).step (hn x (by simp))

/-! ## Entries under their own names -/

theorem Tree.Spelled.dirIndex (hs : t.Spelled) {i : Nat} {D : Directory} (hD : t.dirs[i]? = some D) :
    t.dirIndex D.dname = i := by
  obtain ⟨m, hm⟩ := hs.unique
  have hnodup : (t.names.map Prod.fst).Nodup := hm ▸ m.distinct
  have hlt : t.dirIndex D.dname < t.dirs.length :=
    List.findIdx_lt_length.2 ⟨D, List.mem_of_getElem? hD, beq_self_eq_true _⟩
  have hD' := List.getElem?_eq_getElem hlt
  exact Tree.index_of_dname hnodup hD hD' (Tree.dname_of_dirIndex hD')

theorem Tree.Spelled.fileIndex (hs : t.Spelled) {i j : Nat} {D : Directory} {f : File} (hD : t.dirs[i]? = some D)
    (hf : D.files[j]? = some f) : D.fileIndex f.fname f.fext = j := by
  obtain ⟨m, hm⟩ := hs.unique
  have hnodup : D.names.2.Nodup := m.apart D.names (hm ▸ List.mem_map_of_mem (List.mem_of_getElem? hD))
  have hlt : D.fileIndex f.fname f.fext < D.files.length :=
    List.findIdx_lt_length.2 ⟨f, List.mem_of_getElem? hf, by simp⟩
  have hf' := List.getElem?_eq_getElem hlt
  obtain ⟨hname, hext⟩ := Directory.names_of_fileIndex hf'
  refine (List.getElem?_inj (by simpa [Directory.names] using hlt) hnodup).1 ?_
  simp only [Directory.names, List.getElem?_map, hf, hf', Option.map_some, hname, hext]

theorem Tree.getattr_directory {path : CString} {before names : Names} {D : Directory}
    (hscan : sscanf path before = (1, names)) (hD : t.dirs[t.dirIndex names.directory]? = some D) :
    t.getattr path before = (0, .directory) := by
  unfold Tree.getattr
  by_cases hpath : path.1 = [slash]
  · rw [if_pos hpath]
  rw [if_neg hpath, hscan]
  dsimp only
  rw [if_neg (by decide), hD]
  dsimp only
  rw [if_pos rfl]

theorem Tree.Spelled.getattr_directoryPath (hs : t.Spelled) {i : Nat} {D : Directory} (hD : t.dirs[i]? = some D)
    (names : Names) : t.getattr (directoryPath D.dname) names = (0, .directory) := by
  have hscan := sscanf_directoryPath (hs.directory i D hD) names
  refine Tree.getattr_directory (D := D) hscan ?_
  rw [hs.dirIndex hD]
  exact hD

theorem Tree.Spelled.find (hs : t.Spelled) {i j : Nat} {D : Directory} {f : File} (hD : t.dirs[i]? = some D)
    (hf : D.files[j]? = some f) : t.find ⟨D.dname, f.fname, f.fext⟩ = some f := by
  rw [Tree.find, hs.dirIndex hD, hD, Option.bind_some, hs.fileIndex hD hf, hf]

theorem Tree.Spelled.getattr_fullPath (hs : t.Spelled) {i j : Nat} {D : Directory} {f : File} (hD : t.dirs[i]? = some D)
    (hf : D.files[j]? = some f) (names : Names) :
    t.getattr (fullPath D.dname f.fname f.fext) names = (0, .regular f.contents.length) :=
  Tree.getattr_file (sscanf_fullPath (hs.directory i D hD) (hs.file i D j f hD hf) names) (by decide) (hs.find hD hf)

/-- An entry of the tree, as the image shows it. -/
theorem Rep.entry (hr : Rep N v t) {i j : Nat} {D : Directory} {f : File} (hD : t.dirs[i]? = some D)
    (hf : D.files[j]? = some f) : v.disk.names[i]? = some D.names ∧ D.names.2[j]? = some (f.fname.1, f.fext.1) ∧
      v.disk.sizeAt i j = some f.contents.length := by
  rw [hr.names_eq, Tree.names, List.getElem?_map, hD, Directory.names, List.getElem?_map, hf, hr.listed.sizeAt_eq, hD,
    Option.bind_some, hf]
  exact ⟨rfl, rfl, rfl⟩

/-! ## Listed names -/

theorem Rep.root_resolves (hr : Rep N v t) (hs : t.Spelled) (mem : Memory) {path : CString} (hpath : path.1 = [slash]) :
    ∃ listed, serve (cs1550Readdir mem path) v = ((0, dots ++ listed), v) ∧
      ∀ d ∈ listed, IsDirectory d ∧ ∀ mem' path', path'.1 = slash :: d →
        serve (cs1550Getattr mem' path') v = ((0, .directory), v) := by
  refine ⟨_, serve_of_yields (hr.readdir_root mem hpath), fun d hd => ?_⟩
  rw [Tree.names, List.map_map, List.mem_map] at hd
  obtain ⟨D, hD, rfl⟩ := hd
  obtain ⟨i, hi⟩ := List.getElem?_of_mem hD
  refine ⟨hs.directory i D hi, fun mem' path' hpath' => ?_⟩
  obtain rfl : path' = directoryPath D.dname := Subtype.ext hpath'
  rw [hr.serve_getattr, hs.getattr_directoryPath hi]

theorem Rep.directory_resolves (hr : Rep N v t) (hs : t.Spelled) {d : List UInt8} (hd : IsDirectory d) (mem : Memory)
    {path : CString} (hpath : path.1 = slash :: d) :
    ∃ ret listed, serve (cs1550Readdir mem path) v = ((ret, dots ++ listed), v) ∧
      ∀ (j : Nat) (s : List UInt8), listed[j]? = some s → ∃ i files f size, v.disk.names[i]? = some (d, files) ∧
        files[j]? = some f ∧ s = f.1 ++ dot :: f.2 ∧ v.disk.sizeAt i j = some size ∧
        ∀ mem' path', path'.1 = slash :: d ++ slash :: s →
          serve (cs1550Getattr mem' path') v = ((0, .regular size), v) := by
  have hnul : NulFree d := fun h0 => path.2 (hpath ▸ List.mem_cons_of_mem _ h0)
  obtain rfl : path = directoryPath ⟨d, hnul⟩ := Subtype.ext hpath
  have hread := hr.readdir mem (sscanf_directoryPath (d := ⟨d, hnul⟩) hd mem.names)
  dsimp only at hread
  cases hD : t.dirs[t.dirIndex ⟨d, hnul⟩]? with
  | none =>
    rw [hD] at hread
    exact ⟨_, [], serve_of_yields hread, fun j s hs => by simp at hs⟩
  | some D =>
    rw [hD] at hread
    refine ⟨_, _, serve_of_yields hread, fun j s hj => ?_⟩
    rw [Directory.names, List.map_map, List.getElem?_map, Option.map_eq_some_iff] at hj
    obtain ⟨f, hf, rfl⟩ := hj
    have hname := Tree.dname_of_dirIndex hD
    obtain ⟨hdir, hfile, hsize⟩ := hr.entry hD hf
    rw [Directory.names, hname] at hdir
    refine ⟨_, _, _, _, hdir, hfile, rfl, hsize, fun mem' path' hpath' => ?_⟩
    · obtain rfl : path' = fullPath D.dname f.fname f.fext := Subtype.ext (by simp [hpath', fullPath, hname])
      rw [hr.serve_getattr, hs.getattr_fullPath hD hf]

/-- Three names are read back from the path put together from them. So after every run of `mkdir` and `mknod`
in which no directory has more files than fit, the directories that `readdir` lists are found by `getattr`, and
the files that it lists in one with the size in their entry. -/
theorem listed_resolve (hN : roomForNames < N) (hp : RunFrom N h v) (hn : ∀ x ∈ h, x.2.MakesNames)
    (hfiles : ∀ x ∈ Run.visited h v, FilesWithin x) :
    (∀ path before before' names, sscanf path before = (3, names) →
      sscanf (fullPath names.directory names.filename names.extension) before' = (3, names)) ∧ ListedResolve v := by
  have hs := spelled_treeAfter hn
  obtain ⟨hr, -⟩ := roomy_run hN.le hp hn (roomy_of_within hN hp hn hfiles)
  refine ⟨fun path before before' names hscan => sscanf_again hscan before', fun mem path hpath => ?_,
    fun d hd mem path hpath => ?_⟩
  · exact hr.root_resolves hs mem hpath
  · exact hr.directory_resolves hs hd mem hpath

theorem listed_resolve_oneFile :
    let v := (serveAll (zeroed 10240) [⟨blank, .mkdir dirPath⟩, ⟨blank, .mknod filePath⟩]).2
    v.disk.names = [([97], [([102], [116])])] ∧ ListedResolve v := by
  refine ⟨by decide +kernel, ?_⟩
  exact (listed_resolve (N := 10240) (by decide) (run_serveAll 10240 _) (by decide +kernel) (by decide +kernel)).2

/-! ## Paths that are resolved -/

/-- What `cs1550_getattr` finds on the tree. -/
theorem Tree.getattr_cases (t : Tree) (path : CString) (before : Names) :
    path.1 = [slash] ∧ t.getattr path before = (0, .directory) ∨
    (∃ names D, sscanf path before = (1, names) ∧ t.dirs[t.dirIndex names.directory]? = some D ∧
      t.getattr path before = (0, .directory)) ∨
    (∃ count names f, sscanf path before = (count, names) ∧ 1 < count ∧ t.find names = some f ∧
      t.getattr path before = (0, .regular f.contents.length)) ∨
    t.getattr path before = (-ENOENT, .zero) := by
  unfold Tree.getattr
  by_cases hpath : path.1 = [slash]
  · exact .inl ⟨hpath, if_pos hpath⟩
  rw [if_neg hpath]
  refine .inr ?_
  generalize sscanf path before = p
  obtain ⟨count, names⟩ := p
  dsimp only
  by_cases hcount : count < 1
  · exact .inr (.inr (if_pos hcount))
  rw [if_neg hcount]
  cases hD : t.dirs[t.dirIndex names.directory]? with
  | none => exact .inr (.inr rfl)
  | some D =>
    dsimp only
    by_cases hone : count = 1
    · exact .inl ⟨names, D, by rw [hone], hD, if_pos hone⟩
    rw [if_neg hone]
    cases hf : D.files[D.fileIndex names.filename names.extension]? with
    | none => exact .inr (.inr rfl)
    | some f => exact .inr (.inl ⟨count, names, f, rfl, by omega, by rw [Tree.find_eq hD, hf], rfl⟩)

theorem Rep.namesDirectory_iff (hr : Rep N v t) {path : CString} :
    NamesDirectory v.disk path ↔
      path.1 = [slash] ∨ ∃ (i : Nat) (D : Directory), t.dirs[i]? = some D ∧ path = directoryPath D.dname := by
  unfold NamesDirectory
  rw [hr.names_eq]
  refine or_congr_right ?_
  constructor
  · rintro ⟨e, he, hpath⟩
    obtain ⟨D, hD, rfl⟩ := List.mem_map.1 he
    obtain ⟨i, hi⟩ := List.getElem?_of_mem hD
    exact ⟨i, D, hi, Subtype.ext hpath⟩
  · rintro ⟨i, D, hD, rfl⟩
    exact ⟨D.names, List.mem_map_of_mem (List.mem_of_getElem? hD), rfl⟩

theorem Rep.namesFile_iff (hr : Rep N v t) {path : CString} {size : Nat} :
    NamesFile v.disk path size ↔ ∃ (i j : Nat) (D : Directory) (f : File), t.dirs[i]? = some D ∧ D.files[j]? = some f ∧
      f.contents.length = size ∧ path = fullPath D.dname f.fname f.fext := by
  unfold NamesFile
  rw [hr.names_eq]
  constructor
  · rintro ⟨i, j, e, f, he, hf, hsize, hpath⟩
    obtain ⟨D, hD, rfl⟩ : ∃ D, t.dirs[i]? = some D ∧ D.names = e := by
      rwa [Tree.names, List.getElem?_map, Option.map_eq_some_iff] at he
    rw [Directory.names, List.getElem?_map, Option.map_eq_some_iff] at hf
    obtain ⟨f, hf, rfl⟩ := hf
    rw [hr.listed.sizeAt_eq, hD, Option.bind_some, hf, Option.map_some, Option.some.injEq] at hsize
    exact ⟨i, j, D, f, hD, hf, hsize, Subtype.ext hpath⟩
  · rintro ⟨i, j, D, f, hD, hf, rfl, rfl⟩
    obtain ⟨hdir, hfile, hsize⟩ := hr.entry hD hf
    exact ⟨i, j, D.names, (f.fname.1, f.fext.1), hr.names_eq ▸ hdir, hfile, hsize, rfl⟩

theorem Rep.canonical (hr : Rep N v t) (hs : t.Spelled) {mem : Memory} {path : CString} (hres : Resolved v mem path) :
    Canonical v mem path := by
  have hout : (serve (cs1550Getattr mem path) v).1 = t.getattr path mem.names := by rw [hr.serve_getattr]
  -- a file that is found is that of the path
  have hfile : ∀ {count names f}, sscanf path mem.names = (count, names) → 1 < count → t.find names = some f →
      count = 3 ∧ path = fullPath names.directory names.filename names.extension := by
    intro count names f hscan hcount hf
    have hfound := (hres.file _).1 (hout.trans (Tree.getattr_file hscan hcount hf))
    obtain ⟨i, j, D, g, hD, hg, -, rfl⟩ := hr.namesFile_iff.1 hfound
    have hscan' := sscanf_fullPath (hs.directory i D hD) (hs.file i D j g hD hg) mem.names
    obtain ⟨rfl, rfl⟩ := Prod.mk.inj (hscan.symm.trans hscan')
    exact ⟨rfl, rfl⟩
  have hsome : ∀ {names}, v.disk.sizeOf names ≠ none → ∃ f, t.find names = some f := by
    intro names hsize
    rw [hr.listed.sizeOf_eq, Ne, Option.map_eq_none_iff] at hsize
    exact Option.ne_none_iff_exists'.1 hsize
  refine ⟨fun names hscan hstored => ?_, fun names hscan => ?_, fun names hscan hsize => ?_⟩
  · rw [hr.names_eq, Tree.mem_names] at hstored
    have hdir := hres.directory.1 (hout.trans (Tree.getattr_directory hscan (List.getElem?_eq_getElem hstored)))
    rcases hr.namesDirectory_iff.1 hdir with hroot | ⟨i, D, hD, rfl⟩
    · obtain rfl : path = ⟨[slash], by decide⟩ := Subtype.ext hroot
      cases hscan
    · rw [sscanf_directoryPath (hs.directory i D hD)] at hscan
      obtain ⟨-, rfl⟩ := Prod.mk.inj hscan
      rfl
  · by_contra hsize
    obtain ⟨f, hf⟩ := hsome hsize
    exact absurd (hfile hscan (by decide) hf).1 (by decide)
  · obtain ⟨f, hf⟩ := hsome hsize
    exact (hfile hscan (by decide) hf).2

/-- What is found under a path that is put together from the names is what it is the path of. -/
theorem Rep.found (hr : Rep N v t) {mem : Memory} {path : CString} (hc : Canonical v mem path) :
    NamesDirectory v.disk path ∧ t.getattr path mem.names = (0, .directory) ∨
    (∃ size, NamesFile v.disk path size ∧ t.getattr path mem.names = (0, .regular size)) ∨
    t.getattr path mem.names = (-ENOENT, .zero) := by
  rcases t.getattr_cases path mem.names with ⟨hpath, heq⟩ | ⟨names, D, hscan, hD, heq⟩ |
    ⟨count, names, f, hscan, hcount, hf, heq⟩ | heq
  · exact .inl ⟨.inl hpath, heq⟩
  · have hstored := Tree.mem_names.2 (List.getElem?_eq_some_iff.1 hD).1
    rw [← hr.names_eq] at hstored
    have hpath := hc.directory names hscan hstored
    rw [← Tree.dname_of_dirIndex hD] at hpath
    exact .inl ⟨hr.namesDirectory_iff.2 (.inr ⟨_, D, hD, hpath⟩), heq⟩
  · have hsize : v.disk.sizeOf names ≠ none := by
      rw [hr.listed.sizeOf_eq, hf]
      exact Option.some_ne_none _
    have hthree := sscanf_le_three path mem.names
    rw [hscan] at hthree
    rcases (show count = 2 ∨ count = 3 by dsimp only at hthree; omega) with rfl | rfl
    · exact absurd (hc.unfinished names hscan) hsize
    · have hpath := hc.file names hscan hsize
      obtain ⟨D, hD, hfile⟩ := Tree.find_some hf
      rw [← Tree.dname_of_dirIndex hD, ← (Directory.names_of_fileIndex hfile).1,
        ← (Directory.names_of_fileIndex hfile).2] at hpath
      exact .inr (.inl ⟨_, hr.namesFile_iff.2 ⟨_, _, D, f, hD, hfile, rfl, hpath⟩, heq⟩)
  · exact .inr (.inr heq)

theorem Rep.resolved (hr : Rep N v t) (hs : t.Spelled) {mem : Memory} {path : CString} (hc : Canonical v mem path) :
    Resolved v mem path := by
  have hout : (serve (cs1550Getattr mem path) v).1 = t.getattr path mem.names := by rw [hr.serve_getattr]
  have hfound := hr.found hc
  constructor
  · rw [hout]
    constructor
    · intro heq
      rcases hfound with ⟨hdir, -⟩ | ⟨size, -, heq'⟩ | heq'
      · exact hdir
      · cases heq.symm.trans heq'
      · cases heq.symm.trans heq'
    · intro hdir
      rcases hr.namesDirectory_iff.1 hdir with hroot | ⟨i, D, hD, rfl⟩
      · rw [Tree.getattr, if_pos hroot]
      · exact hs.getattr_directoryPath hD mem.names
  · intro size
    rw [hout]
    constructor
    · intro heq
      rcases hfound with ⟨-, heq'⟩ | ⟨size', hfile, heq'⟩ | heq'
      · cases heq.symm.trans heq'
      · cases heq.symm.trans heq'
        exact hfile
      · cases heq.symm.trans heq'
    · intro hfile
      obtain ⟨i, j, D, f, hD, hf, rfl, rfl⟩ := hr.namesFile_iff.1 hfile
      exact hs.getattr_fullPath hD hf mem.names
  · intro hdir hfile
    rw [hout]
    rcases hfound with ⟨hdir', -⟩ | ⟨size, hfile', -⟩ | heq
    · exact absurd hdir' hdir
    · exact absurd hfile' (hfile size)
    · exact heq

/-- After every run of `mkdir` and `mknod` that asks for no file in a full directory, `getattr` resolves a path
exactly if and only if the names it finds in the path, where they are those of an entry, make up the path. -/
theorem resolved_iff (hN : roomForNames ≤ N) (hp : RunFrom N h v) (hn : ∀ x ∈ h, x.2.MakesNames)
    (hroomy : ∀ x ∈ h, x.2.Roomy x.1) (mem : Memory) (path : CString) : Resolved v mem path ↔ Canonical v mem path := by
  have hs := spelled_treeAfter hn
  obtain ⟨hr, -⟩ := roomy_run hN hp hn hroomy
  constructor
  · intro hres
    exact hr.canonical hs hres
  · intro hc
    exact hr.resolved hs hc

theorem resolved_iff_oneFile :
    Resolved (serveAll (zeroed 10240) [⟨blank, .mkdir dirPath⟩, ⟨blank, .mknod filePath⟩]).2 blank filePath := by
  have hc : ∀ x ∈ (serveAll (zeroed 10240) [⟨blank, .mkdir dirPath⟩, ⟨blank, .mknod filePath⟩]).1, x.2.Creates x.1 := by
    decide +kernel
  refine (resolved_iff (N := 10240) (by decide) (run_serveAll 10240 _) (fun x hx => (hc x hx).makesNames)
    (fun x hx => (hc x hx).roomy) blank filePath).2 ⟨fun names hscan => ?_, fun names hscan => ?_, fun names hscan _ => ?_⟩
  · cases hscan
  · cases hscan
  · cases hscan
    rfl

/-- `/a/.b` -/
def hiddenPath : CString := ⟨[47, 97, 47, 46, 98], by decide⟩

/-- `%[^.]` finds nothing in front of the dot, so that only the directory is converted. -/
theorem hidden_file_is_a_directory :
    ∃ h v, RunFrom 10240 h v ∧ (∀ x ∈ h, x.2.Creates x.1) ∧ (serve (cs1550Getattr blank hiddenPath) v).1 = (0, .directory) ∧
      ¬ NamesDirectory v.disk hiddenPath ∧ ¬ Resolved v blank hiddenPath := by
  have hnames : (serveAll (zeroed 10240) [⟨blank, .mkdir dirPath⟩]).2.disk.names = [([97], [])] := by decide +kernel
  have hreply : (serve (cs1550Getattr blank hiddenPath) (serveAll (zeroed 10240) [⟨blank, .mkdir dirPath⟩]).2).1 =
      (0, .directory) := by decide +kernel
  have hnot : ¬ NamesDirectory (serveAll (zeroed 10240) [⟨blank, .mkdir dirPath⟩]).2.disk hiddenPath := by
    unfold NamesDirectory
    rw [hnames]
    decide
  exact ⟨_, _, run_serveAll 10240 _, by decide +kernel, hreply, hnot, fun hres => hnot (hres.directory.1 hreply)⟩

end CS1550.Fs
