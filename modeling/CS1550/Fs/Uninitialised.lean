/-
What the handlers do with arrays that `sscanf` has not written. Each of them tests the number of conversions, and
four of the tests suffice. `cs1550_getattr` compares the array `extension` after two conversions, and
`cs1550_readdir` the array `directory` after none; their results do not depend on what these happened to hold if
and only if no entry could be equal to it (`independent_iff`).
-/
import CS1550.Fs.Namespace

namespace CS1550.Fs

open Bytes

variable {v : Volume} {mem : Memory} {path : CString}

/-- The results and the images left are the same whatever the arrays held before. -/
structure Independent (v : Volume) (mem : Memory) (path : CString) : Prop where
  getattr : ∀ names names', serve (cs1550Getattr { mem with names := names } path) v =
    serve (cs1550Getattr { mem with names := names' } path) v
  readdir : ∀ names names', serve (cs1550Readdir { mem with names := names } path) v =
    serve (cs1550Readdir { mem with names := names' } path) v
  mkdir : ∀ names names', serve (cs1550Mkdir { mem with names := names } path) v =
    serve (cs1550Mkdir { mem with names := names' } path) v
  mknod : ∀ names names', serve (cs1550Mknod { mem with names := names } path) v =
    serve (cs1550Mknod { mem with names := names' } path) v
  read : ∀ size offset names names', serve (cs1550Read { mem with names := names } path size offset) v =
    serve (cs1550Read { mem with names := names' } path size offset) v
  write : ∀ buf offset names names', serve (cs1550Write { mem with names := names } path buf offset) v =
    serve (cs1550Write { mem with names := names' } path buf offset) v

/-- The root in memory. -/
def rootOf (mem : Memory) (v : Volume) : Mem := onHeap mem.heap (v.disk.block 0)

/-- The lookup of the name ends with this directory in memory. -/
def Opens (mem : Memory) (v : Volume) (directory : CString) (dir : Mem) : Prop :=
  serve (withDirectory mem directory none fun _ currentDir => pure (some currentDir)) v = (some dir, v)

/-- No entry could be equal to what an array happens to hold. -/
structure Determined (v : Volume) (mem : Memory) (path : CString) : Prop where
  directory : path.1 ≠ [slash] → ∀ eof, parts path = .nothing eof →
    ∀ i : Nat, (i : Int) < nDirectories (rootOf mem v) → ∀ s, ¬ CStr (rootOf mem v) (directoryAt i) s
  extension : ∀ d f, parts path = .filename d f → ∀ dir, Opens mem v d dir →
    ∀ j : Nat, (j : Int) < nFiles dir → CStr dir (fileAt j) f.1 → ∀ s, ¬ CStr dir (fileAt j + 9) s

/-! ## Arrays that are written -/

section Fill

variable {p : Parts}

theorem Parts.directory_fill (h : 1 ≤ p.count) (names names' : Names) :
    (p.fill names).directory = (p.fill names').directory := by
  rcases p with ⟨_ | _⟩ | d | ⟨d, f⟩ | ⟨d, f, e⟩
  case nothing.false => exact absurd h (by simp [Parts.count])
  case nothing.true => exact absurd h (by simp [Parts.count])
  all_goals rfl

theorem Parts.fill_three (h : 3 ≤ p.count) (names names' : Names) : p.fill names = p.fill names' := by
  rcases p with ⟨_ | _⟩ | d | ⟨d, f⟩ | ⟨d, f, e⟩
  case extension => rfl
  all_goals exact absurd h (by simp [Parts.count])

theorem Parts.one_le (hp : ∀ eof, p ≠ .nothing eof) : 1 ≤ p.count := by
  rcases p with eof | d | ⟨d, f⟩ | ⟨d, f, e⟩
  case nothing => exact absurd rfl (hp eof)
  all_goals simp [Parts.count]

theorem Parts.three_le (hp : ∀ d f, p ≠ .filename d f) (h : 1 < p.count) : 3 ≤ p.count := by
  rcases p with ⟨_ | _⟩ | d | ⟨d, f⟩ | ⟨d, f, e⟩
  case filename => exact absurd rfl (hp d f)
  case extension => exact le_refl _
  all_goals exact absurd h (by simp [Parts.count])

end Fill

/-! ## Programs that do not read the arrays -/

section Names

variable (mem : Memory) (names names' : Names)

theorem walk_names (offset turns : Nat) (blockIndex : Int) (block : Mem) (sizeSoFar adjustedOffset : Nat) :
    walk { mem with names := names } offset turns blockIndex block sizeSoFar adjustedOffset =
      walk mem offset turns blockIndex block sizeSoFar adjustedOffset := by
  induction turns generalizing blockIndex block sizeSoFar adjustedOffset with
  | zero => rfl
  | succ turns ih => simp only [walk, ih]

theorem writeLoop_names (adjustedOffset turns : Nat) (blockIndex : Int) (block : Mem) (buf : List UInt8) :
    writeLoop { mem with names := names } adjustedOffset turns blockIndex block buf =
      writeLoop mem adjustedOffset turns blockIndex block buf := by
  induction turns generalizing blockIndex block buf with
  | zero => rfl
  | succ turns ih => simp only [writeLoop, ih]

theorem readLoop_names (adjustedOffset turns : Nat) (block : Mem) (sizeLeft : Nat) :
    readLoop { mem with names := names } adjustedOffset turns block sizeLeft =
      readLoop mem adjustedOffset turns block sizeLeft := by
  induction turns generalizing block sizeLeft with
  | zero => rfl
  | succ turns ih => simp only [readLoop, ih]

theorem mkdir_names (path : CString) :
    cs1550Mkdir { mem with names := names } path = cs1550Mkdir { mem with names := names' } path := by
  unfold cs1550Mkdir
  simp only [sscanf_eq]
  by_cases hcount : (parts path).count ≠ 1
  · rw [if_pos hcount, if_pos hcount]
  · rw [if_neg hcount, if_neg hcount, Parts.directory_fill (not_not.1 hcount).ge names names']
    rfl

theorem mknod_names (path : CString) :
    cs1550Mknod { mem with names := names } path = cs1550Mknod { mem with names := names' } path := by
  unfold cs1550Mknod
  simp only [sscanf_eq]
  by_cases hcount : (parts path).count < 3
  · rw [if_pos hcount, if_pos hcount]
  · rw [Parts.fill_three (not_lt.1 hcount) names names']
    rfl

theorem read_names (path : CString) (size : Nat) (offset : Int) :
    cs1550Read { mem with names := names } path size offset = cs1550Read { mem with names := names' } path size offset := by
  unfold cs1550Read walkTo readAt
  simp only [sscanf_eq, walk_names, readLoop_names]
  by_cases hcount : (parts path).count ≠ 3
  · simp only [if_pos hcount]
  · rw [Parts.fill_three (not_not.1 hcount).ge names names']
    rfl

theorem write_names (path : CString) (buf : List UInt8) (offset : Int) :
    cs1550Write { mem with names := names } path buf offset = cs1550Write { mem with names := names' } path buf offset := by
  unfold cs1550Write writeFile writeAt walkTo
  simp only [sscanf_eq, walk_names, writeLoop_names]
  by_cases hcount : (parts path).count ≠ 3
  · simp only [if_pos hcount]
  · rw [Parts.fill_three (not_not.1 hcount).ge names names']
    rfl

end Names

/-! ## Lookups -/

theorem serve_bind {α β : Type} {p : Req α} {f : α → Req β} {a : α} {pos : Nat} {v v' : Volume}
    (h : machine.run p 0 v = (a, pos, v')) :
    serve (p >>= f) v = ((machine.run (f a) pos v').1, (machine.run (f a) pos v').2.2) := by
  unfold serve
  rw [Machine.run_bind, h]

theorem openRoot_run (mem : Memory) (v : Volume) : ∃ pos, machine.run (openRoot mem) 0 v = (rootOf mem v, pos, v) :=
  openRoot_yields mem v 0

theorem serve_notFound {α : Type} {directory : CString}
    (htest : (findDirectory (rootOf mem v) directory.1 : Int) = nDirectories (rootOf mem v)) (notFound : α)
    (k : Int → Mem → Req α) : serve (withDirectory mem directory notFound k) v = (notFound, v) := by
  obtain ⟨pos, hroot⟩ := openRoot_run mem v
  rw [withDirectory, serve_bind hroot, if_pos htest]
  rfl

/-- A lookup that does not stop opens a directory, whichever block that is. -/
theorem exists_opens {directory : CString}
    (htest : (findDirectory (rootOf mem v) directory.1 : Int) ≠ nDirectories (rootOf mem v)) :
    ∃ dir, Opens mem v directory dir ∧ ∀ {α : Type} (notFound : α) (g : Mem → α),
      serve (withDirectory mem directory notFound fun _ currentDir => pure (g currentDir)) v = (g dir, v) := by
  obtain ⟨pos, hroot⟩ := openRoot_run mem v
  obtain ⟨dir, pos', hdir⟩ : ∃ dir pos', machine.run (openBlock mem.heap
      (dirStartBlock (rootOf mem v) (findDirectory (rootOf mem v) directory.1))) pos v = (dir, pos', v) :=
    ⟨_, _, openBlock_run ..⟩
  have hgo : ∀ {α : Type} (notFound : α) (g : Mem → α),
      serve (withDirectory mem directory notFound fun _ currentDir => pure (g currentDir)) v = (g dir, v) := by
    intro α notFound g
    rw [withDirectory, serve_bind hroot, if_neg htest, Machine.run_bind, openDir, hdir]
    rfl
  exact ⟨dir, hgo none some, hgo⟩

theorem Opens.unique {directory : CString} {dir dir' : Mem} (h : Opens mem v directory dir) (h' : Opens mem v directory dir') :
    dir = dir' := Option.some.inj (Prod.mk.inj (h.symm.trans h')).1

theorem Opens.found {directory : CString} {dir : Mem} (h : Opens mem v directory dir) :
    (findDirectory (rootOf mem v) directory.1 : Int) ≠ nDirectories (rootOf mem v) := by
  intro htest
  have hnone := h.symm.trans (serve_notFound htest none _)
  cases (Prod.mk.inj hnone).1

theorem Opens.serve_eq {directory : CString} {dir : Mem} (h : Opens mem v directory dir) {α : Type} (notFound : α)
    (g : Mem → α) : serve (withDirectory mem directory notFound fun _ currentDir => pure (g currentDir)) v = (g dir, v) := by
  obtain ⟨dir', h', hgo⟩ := exists_opens h.found
  rw [h.unique h']
  exact hgo notFound g

/-- Names that lead to the same entry lead to the same directory. -/
theorem serve_withDirectory_congr {α : Type} {d d' : CString}
    (h : findDirectory (rootOf mem v) d.1 = findDirectory (rootOf mem v) d'.1) (notFound : α) (k : Int → Mem → Req α) :
    serve (withDirectory mem d notFound k) v = serve (withDirectory mem d' notFound k) v := by
  obtain ⟨pos, hroot⟩ := openRoot_run mem v
  rw [withDirectory, withDirectory, serve_bind hroot, serve_bind hroot, h]

/-- A loop that finds nothing ends at its bound. -/
theorem findIdx_range_of_none {p : Nat → Bool} {n : Int} (h : ∀ i : Nat, (i : Int) < n → ¬ p i = true) :
    (List.range n.toNat).findIdx p = n.toNat := by
  have hall : (List.range n.toNat).findIdx p = (List.range n.toNat).length := by
    refine List.findIdx_eq_length.2 fun i hi => ?_
    have := List.mem_range.1 hi
    exact Bool.eq_false_iff.2 (h i (by omega))
  rwa [List.length_range] at hall

theorem findIdx_range_lt {p : Nat → Bool} {n : Int} {i : Nat} (hi : (i : Int) < n) (hp : p i = true) :
    ((List.range n.toNat).findIdx p : Int) < n := by
  have hlt : (List.range n.toNat).findIdx p < (List.range n.toNat).length :=
    List.findIdx_lt_length.2 ⟨i, List.mem_range.2 (by omega), hp⟩
  rw [List.length_range] at hlt
  omega

theorem findDirectory_of_none {root : Mem} {d : CString}
    (hnone : ∀ i : Nat, (i : Int) < nDirectories root → ¬ CStr root (directoryAt i) d.1) :
    findDirectory root d.1 = (nDirectories root).toNat := by
  refine findIdx_range_of_none fun i hi => ?_
  rw [strEq_iff d.2]
  exact hnone i hi

theorem findDirectory_lt {root : Mem} {d : CString} {i : Nat} (hi : (i : Int) < nDirectories root)
    (hd : CStr root (directoryAt i) d.1) : (findDirectory root d.1 : Int) < nDirectories root :=
  findIdx_range_lt hi ((strEq_iff d.2).2 hd)

theorem findFile_of_none {dir : Mem} {f e : CString}
    (hnone : ∀ j : Nat, (j : Int) < nFiles dir → CStr dir (fileAt j) f.1 → ¬ CStr dir (fileAt j + 9) e.1) :
    findFile dir f.1 e.1 = (nFiles dir).toNat := by
  refine findIdx_range_of_none fun j hj => ?_
  rw [Bool.and_eq_true, strEq_iff f.2, strEq_iff e.2, not_and]
  exact hnone j hj

theorem findFile_lt {dir : Mem} {f e : CString} {j : Nat} (hj : (j : Int) < nFiles dir) (hf : CStr dir (fileAt j) f.1)
    (he : CStr dir (fileAt j + 9) e.1) : (findFile dir f.1 e.1 : Int) < nFiles dir := by
  refine findIdx_range_lt hj ?_
  rw [Bool.and_eq_true, strEq_iff f.2, strEq_iff e.2]
  exact ⟨hf, he⟩

/-- A string that is none of those at the places. -/
theorem exists_unmatched (m : Mem) (off : Nat → Nat) (n : Nat) : ∃ s : CString, ∀ i < n, ¬ CStr m (off i) s.1 := by
  obtain ⟨k, hk⟩ := exists_longer m off n
  refine ⟨⟨List.replicate k 1, by simp [NulFree]⟩, fun i hi hs => ?_⟩
  have hlt := hk i hi _ hs
  rw [List.length_replicate] at hlt
  exact absurd hlt (lt_irrefl k)

/-! ## `cs1550_getattr` -/

/-- What `cs1550_getattr` finds in the directory. -/
def attributesIn (dir : Mem) (f e : CString) : Int × Stat :=
  if (findFile dir f.1 e.1 : Int) = nFiles dir then (-ENOENT, .zero) else (0, .regular (fsize dir (findFile dir f.1 e.1)))

theorem getattr_names (names names' : Names) (hp : ∀ d f, parts path ≠ .filename d f) :
    cs1550Getattr { mem with names := names } path = cs1550Getattr { mem with names := names' } path := by
  unfold cs1550Getattr
  simp only [sscanf_eq]
  by_cases hnone : (parts path).count < 1
  · simp only [if_pos hnone]
  by_cases hone : (parts path).count = 1
  · simp only [if_pos hone, Parts.directory_fill hone.ge names names']
    rfl
  · rw [Parts.fill_three (Parts.three_le hp (by omega)) names names']
    rfl

theorem path_ne_slash {d f : CString} (hp : parts path = .filename d f) : ¬ path.1 = [slash] := by
  intro hpath
  obtain rfl : path = ⟨[slash], by decide⟩ := Subtype.ext hpath
  cases hp

theorem getattr_filename {d f : CString} (hp : parts path = .filename d f) (names : Names) :
    cs1550Getattr { mem with names := names } path =
      withDirectory mem d (-ENOENT, .zero) fun _ currentDir => pure (attributesIn currentDir f names.extension) := by
  unfold cs1550Getattr withDirectory attributesIn
  rw [if_neg (path_ne_slash hp)]
  simp only [sscanf_eq, hp, Parts.count, Parts.fill, apply_ite (pure : _ → Req (Int × Stat))]
  rfl

theorem getattr_independent_iff {d f : CString} (hp : parts path = .filename d f) :
    (∀ names names', serve (cs1550Getattr { mem with names := names } path) v =
      serve (cs1550Getattr { mem with names := names' } path) v) ↔
    ∀ dir, Opens mem v d dir → ∀ j : Nat, (j : Int) < nFiles dir → CStr dir (fileAt j) f.1 →
      ∀ s, ¬ CStr dir (fileAt j + 9) s := by
  simp only [getattr_filename hp]
  constructor
  · intro hsame dir hdir j hj hf s hs
    obtain ⟨e, he⟩ := exists_unmatched dir (fun j => fileAt j + 9) (nFiles dir).toNat
    have hfound := findFile_lt (e := ⟨s, hs.nulFree⟩) hj hf hs
    have hnone : findFile dir f.1 e.1 = (nFiles dir).toNat := findFile_of_none fun j hj _ => he j (by omega)
    have heq := hsame ⟨d, f, ⟨s, hs.nulFree⟩⟩ ⟨d, f, e⟩
    rw [hdir.serve_eq, hdir.serve_eq] at heq
    have hret : (attributesIn dir f ⟨s, hs.nulFree⟩).1 = (attributesIn dir f e).1 := congrArg (fun r => r.1.1) heq
    rw [attributesIn, if_neg (by omega), attributesIn, if_pos (by omega)] at hret
    exact absurd (show (0 : Int) = -ENOENT from hret) (by decide)
  · intro hnone names names'
    by_cases htest : (findDirectory (rootOf mem v) d.1 : Int) = nDirectories (rootOf mem v)
    · rw [serve_notFound htest, serve_notFound htest]
    obtain ⟨dir, hdir, -⟩ := exists_opens htest
    have hcount : ∀ e : CString, findFile dir f.1 e.1 = (nFiles dir).toNat := fun e =>
      findFile_of_none fun j hj hf => hnone dir hdir j hj hf e.1
    rw [hdir.serve_eq, hdir.serve_eq, attributesIn, hcount, attributesIn, hcount]

/-! ## `cs1550_readdir` -/

theorem readdir_names (names names' : Names) (hp : path.1 = [slash] ∨ ∀ eof, parts path ≠ .nothing eof) :
    cs1550Readdir { mem with names := names } path = cs1550Readdir { mem with names := names' } path := by
  unfold cs1550Readdir
  simp only [sscanf_eq]
  rcases hp with hpath | hp
  · simp only [if_pos hpath]
    rfl
  · simp only [Parts.directory_fill (Parts.one_le hp) names names']
    rfl

/-- The names of the files, as they are given to `filler`. -/
def listingOf (dir : Mem) : List (List UInt8) :=
  (List.range (nFiles dir).toNat).map fun i =>
    readStr dir blockSize (fileAt i) ++ dot :: readStr dir blockSize (fileAt i + 9)

theorem readdir_nothing {eof : Bool} (hp : parts path = .nothing eof) (hpath : path.1 ≠ [slash]) (names : Names) :
    cs1550Readdir { mem with names := names } path =
      withDirectory mem names.directory (-ENOENT, dots) fun _ currentDir => pure (0, dots ++ listingOf currentDir) := by
  have hcount : ¬ (parts path).count > 1 := by
    rw [hp]
    cases eof <;> decide
  unfold cs1550Readdir withDirectory listingOf
  simp only [sscanf_eq, if_neg hpath, if_neg hcount]
  simp only [hp, Parts.fill]
  rfl

theorem readdir_independent_iff {eof : Bool} (hp : parts path = .nothing eof) (hpath : path.1 ≠ [slash]) :
    (∀ names names', serve (cs1550Readdir { mem with names := names } path) v =
      serve (cs1550Readdir { mem with names := names' } path) v) ↔
    ∀ i : Nat, (i : Int) < nDirectories (rootOf mem v) → ∀ s, ¬ CStr (rootOf mem v) (directoryAt i) s := by
  simp only [readdir_nothing hp hpath]
  constructor
  · intro hsame i hi s hs
    obtain ⟨d, hd⟩ := exists_unmatched (rootOf mem v) directoryAt (nDirectories (rootOf mem v)).toNat
    have hfound := findDirectory_lt (d := ⟨s, hs.nulFree⟩) hi hs
    have hnone : findDirectory (rootOf mem v) d.1 = (nDirectories (rootOf mem v)).toNat :=
      findDirectory_of_none fun i hi => hd i (by omega)
    obtain ⟨dir, hdir⟩ : ∃ dir, Opens mem v ⟨s, hs.nulFree⟩ dir := (exists_opens (ne_of_lt hfound)).imp fun _ h => h.1
    have heq := hsame ⟨⟨s, hs.nulFree⟩, d, d⟩ ⟨d, d, d⟩
    have htest : (findDirectory (rootOf mem v) d.1 : Int) = nDirectories (rootOf mem v) := by omega
    rw [hdir.serve_eq, serve_notFound htest] at heq
    have hret : (0 : Int) = -ENOENT := congrArg (fun r => r.1.1) heq
    exact absurd hret (by decide)
  · intro hnone names names'
    refine serve_withDirectory_congr ?_ _ _
    rw [findDirectory_of_none fun i hi => hnone i hi names.directory.1,
      findDirectory_of_none fun i hi => hnone i hi names'.directory.1]

/-- On every image, the results of the six handlers for a path do not depend on what the arrays held before if
and only if, where nothing is converted, no name in the root is equal to what `directory` could hold, and, where the
extension is not converted, no file of that name has an extension that `extension` could hold. -/
theorem independent_iff (v : Volume) (mem : Memory) (path : CString) : Independent v mem path ↔ Determined v mem path := by
  constructor
  · intro hi
    exact ⟨fun hpath eof hp => (readdir_independent_iff hp hpath).1 hi.readdir,
      fun d f hp => (getattr_independent_iff hp).1 hi.getattr⟩
  · intro hd
    refine ⟨fun names names' => ?_, fun names names' => ?_, fun names names' => by rw [mkdir_names],
      fun names names' => by rw [mknod_names], fun size offset names names' => by rw [read_names],
      fun buf offset names names' => by rw [write_names]⟩
    · by_cases hp : ∃ d f, parts path = .filename d f
      · obtain ⟨d, f, hp⟩ := hp
        exact (getattr_independent_iff hp).2 (hd.extension d f hp) names names'
      · rw [getattr_names names names' fun d f hf => hp ⟨d, f, hf⟩]
    · by_cases hp : path.1 ≠ [slash] ∧ ∃ eof, parts path = .nothing eof
      · obtain ⟨hpath, eof, hp⟩ := hp
        exact (readdir_independent_iff hp hpath).2 (hd.directory hpath eof hp) names names'
      · rw [readdir_names names names']
        rw [not_and_or, not_not, not_exists] at hp
        exact hp

/-- `/a/f` -/
def barePath : CString := ⟨[47, 97, 47, 102], by decide⟩

/-- `//a` -/
def emptyPath : CString := ⟨[47, 47, 97], by decide⟩

/-- The image with the file `/a/f.t`. -/
def oneFile : Volume := (serveAll (zeroed 10240) [⟨blank, .mkdir dirPath⟩, ⟨blank, .mknod filePath⟩]).2

/-- `a` in `directory` and `t` in `extension` -/
def staleNames : Names := ⟨dirPath.drop 1, dirPath.drop 2, filePath.drop 5⟩

/-- With the extension of an earlier call in its array `/a/f` is the file `/a/f.t`, and with its directory in the
array `//a` is the directory `/a`. -/
theorem stale_names_found :
    ∃ v, (serve (cs1550Getattr blank barePath) v).1 = (-ENOENT, .zero) ∧
      (serve (cs1550Getattr { blank with names := staleNames } barePath) v).1 = (0, .regular 0) ∧
      (serve (cs1550Readdir blank emptyPath) v).1 = (-ENOENT, dots) ∧
      (serve (cs1550Readdir { blank with names := staleNames } emptyPath) v).1 = (0, dots ++ [[102, 46, 116]]) ∧
      ¬ Independent v blank barePath ∧ ¬ Independent v blank emptyPath := by
  have hgetattr : (serve (cs1550Getattr blank barePath) oneFile).1 = (-ENOENT, .zero) := by decide +kernel
  have hgetattr' : (serve (cs1550Getattr { blank with names := staleNames } barePath) oneFile).1 = (0, .regular 0) := by
    decide +kernel
  have hreaddir : (serve (cs1550Readdir blank emptyPath) oneFile).1 = (-ENOENT, dots) := by decide +kernel
  have hreaddir' : (serve (cs1550Readdir { blank with names := staleNames } emptyPath) oneFile).1 =
      (0, dots ++ [[102, 46, 116]]) := by decide +kernel
  refine ⟨oneFile, hgetattr, hgetattr', hreaddir, hreaddir', fun hi => ?_, fun hi => ?_⟩
  · have heq := congrArg Prod.fst (hi.getattr blank.names staleNames)
    exact absurd (hgetattr.symm.trans (heq.trans hgetattr')) (by decide)
  · have heq := congrArg Prod.fst (hi.readdir blank.names staleNames)
    exact absurd (hreaddir.symm.trans (heq.trans hreaddir')) (by decide)

end CS1550.Fs
