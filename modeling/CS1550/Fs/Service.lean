/-
The filesystem `cs1550.c` as what is mounted. Of the files and directories a user sees their names, in the order in
which they were made, and the contents: `FileSystem` has no more than that, and no blocks. Whatever is asked of the
handlers in `hello_oper`, one request after the other, they answer as it does (`service_refines`), as long as the
requests keep clear of what the handlers get wrong.
-/
import CS1550.Fs.Buffers
import CS1550.Fs.ReadContract

namespace CS1550.Fs

open Bytes

/-! ## The handlers that do nothing -/

/-- `cs1550_rmdir`, which is not implemented. -/
def cs1550Rmdir (_path : CString) : Req Int := pure 0

/-- `cs1550_unlink`, which is not implemented. -/
def cs1550Unlink (_path : CString) : Req Int := pure 0

/-- `cs1550_truncate`, which is not implemented. -/
def cs1550Truncate (_path : CString) (_size : Int) : Req Int := pure 0

/-- `cs1550_open` -/
def cs1550Open (_path : CString) : Req Int := pure 0

/-- `cs1550_flush` -/
def cs1550Flush (_path : CString) : Req Int := pure 0

/-! ## Requests -/

/-- The members of `hello_oper`, with what is passed to them. -/
inductive FuseCall
  | getattr (path : CString)
  | readdir (path : CString)
  | mkdir (path : CString)
  | rmdir (path : CString)
  | read (path : CString) (size offset : Nat)
  | write (path : CString) (buf : List UInt8) (offset : Nat)
  | mknod (path : CString)
  | unlink (path : CString)
  | truncate (path : CString) (size : Int)
  | flush (path : CString)
  | open (path : CString)

/-- What a handler gives back. -/
inductive Answer
  | code (ret : Int)
  | stat (ret : Int) (stbuf : Stat)
  | listing (ret : Int) (names : List (List UInt8))
  | data (ret : Int) (buf : List UInt8)
  deriving DecidableEq

/-- An operation, with the memory that the handler finds. -/
structure Message where
  mem : Memory
  op : FuseCall

/-- The handler of an operation. -/
def Message.handler (r : Message) : Req Answer :=
  match r.op with
  | .getattr path => do
    let (ret, stbuf) ← cs1550Getattr r.mem path
    pure (.stat ret stbuf)
  | .readdir path => do
    let (ret, names) ← cs1550Readdir r.mem path
    pure (.listing ret names)
  | .mkdir path => .code <$> cs1550Mkdir r.mem path
  | .rmdir path => .code <$> cs1550Rmdir path
  | .read path size offset => do
    let (ret, buf) ← cs1550Read r.mem path size offset
    pure (.data ret buf)
  | .write path buf offset => .code <$> cs1550Write r.mem path buf offset
  | .mknod path => .code <$> cs1550Mknod r.mem path
  | .unlink path => .code <$> cs1550Unlink path
  | .truncate path size => .code <$> cs1550Truncate path size
  | .flush path => .code <$> cs1550Flush path
  | .open path => .code <$> cs1550Open path

/-- An operation served alone. -/
def Message.serve (r : Message) (v : Volume) : Answer × Volume := Fs.serve r.handler v

/-! ## What a user sees -/

/-- What a user sees: the names, and the contents of the files. -/
structure FileSystem where
  directories : List CString
  /-- The files of a directory, by name and extension. -/
  files : CString → List (CString × CString)
  contents : Names → List UInt8

namespace FileSystem

/-- Nothing is there. -/
def empty : FileSystem := ⟨[], fun _ => [], fun _ => []⟩

/-- What a user sees of `mkdir`. -/
def mkdir (s : FileSystem) (path : CString) : Int × FileSystem :=
  match parts path with
  | .directory d =>
    if d.1.length > maxDirname then (-ENAMETOOLONG, s)
    else if d ∈ s.directories then (-EEXIST, s)
    else if maxDirsInRoot ≤ s.directories.length then (-ENOSPC, s)
    else (0, { s with directories := s.directories ++ [d] })
  | _ => (-EPERM, s)

/-- What a user sees of `mknod`. -/
def mknod (s : FileSystem) (path : CString) : Int × FileSystem :=
  match parts path with
  | .extension d f e =>
    if f.1.length > maxFilename ∨ e.1.length > maxExtension then (-ENAMETOOLONG, s)
    else if d ∉ s.directories then (-ENOENT, s)
    else if (f, e) ∈ s.files d then (-EEXIST, s)
    else (0, { s with files := Function.update s.files d (s.files d ++ [(f, e)]) })
  | _ => (-EPERM, s)

/-- The file ends with what is written. -/
def write (s : FileSystem) (path : CString) (buf : List UInt8) (offset : Nat) : Int × FileSystem :=
  if buf = [] then (-EPERM, s)
  else
    match parts path with
    | .extension d f e =>
      if d ∉ s.directories then (-EEXIST, s)
      else if (f, e) ∉ s.files d then (-ENOENT, s)
      else if offset > (s.contents ⟨d, f, e⟩).length then (-EFBIG, s)
      else (buf.length, { s with
        contents := Function.update s.contents ⟨d, f, e⟩ ((s.contents ⟨d, f, e⟩).take offset ++ buf) })
    | _ => (-EEXIST, s)

/-- What a user sees of `read`. -/
def read (s : FileSystem) (path : CString) (size offset : Nat) : Int × List UInt8 :=
  if size = 0 then (-EPERM, [])
  else
    match parts path with
    | .extension d f e =>
      if d ∈ s.directories ∧ (f, e) ∈ s.files d then readResult (s.contents ⟨d, f, e⟩) offset size else (-ENOENT, [])
    | _ => (-EISDIR, [])

/-- What a user sees of `getattr`. -/
def getattr (s : FileSystem) (path : CString) : Int × Stat :=
  if path.1 = [slash] then (0, .directory)
  else
    match parts path with
    | .directory d => if d ∈ s.directories then (0, .directory) else (-ENOENT, .zero)
    | .extension d f e =>
      if d ∈ s.directories ∧ (f, e) ∈ s.files d then (0, .regular (s.contents ⟨d, f, e⟩).length) else (-ENOENT, .zero)
    | _ => (-ENOENT, .zero)

/-- What a user sees of `readdir`. -/
def readdir (s : FileSystem) (path : CString) : Int × List (List UInt8) :=
  if path.1 = [slash] then (0, dots ++ s.directories.map Subtype.val)
  else
    match parts path with
    | .directory d =>
      if d ∈ s.directories then (0, dots ++ (s.files d).map fun f => f.1.1 ++ dot :: f.2.1) else (-ENOENT, dots)
    | _ => (-ENOENT, dots)

/-- Nothing is ever removed. -/
def answer (s : FileSystem) : FuseCall → Answer × FileSystem
  | .getattr path => (.stat (s.getattr path).1 (s.getattr path).2, s)
  | .readdir path => (.listing (s.readdir path).1 (s.readdir path).2, s)
  | .mkdir path => (.code (s.mkdir path).1, (s.mkdir path).2)
  | .read path size offset => (.data (s.read path size offset).1 (s.read path size offset).2, s)
  | .write path buf offset => (.code (s.write path buf offset).1, (s.write path buf offset).2)
  | .mknod path => (.code (s.mknod path).1, (s.mknod path).2)
  | .rmdir _ | .unlink _ | .truncate _ _ | .flush _ | .open _ => (.code 0, s)

end FileSystem

/-! ## The tree and what is seen of it -/

variable {N : Nat} {v : Volume} {t : Tree} {s : FileSystem} {D : Directory}

/-- The names of the files in a directory of a tree. -/
def Tree.listing (t : Tree) (d : CString) : List (CString × CString) :=
  (t.dirs[t.dirIndex d]?.map fun D => D.files.map fun f => (f.fname, f.fext)).getD []

/-- A user sees the names and the contents of a tree. -/
structure Shows (t : Tree) (s : FileSystem) : Prop where
  directories : t.dirs.map Directory.dname = s.directories
  files : ∀ d, t.listing d = s.files d
  contents : ∀ names, t.contentsOf names = s.contents names

theorem shows_empty : Shows .empty .empty := ⟨rfl, fun _ => rfl, fun _ => rfl⟩

theorem Shows.length (h : Shows t s) : s.directories.length = t.dirs.length := by
  rw [← h.directories, List.length_map]

theorem Shows.mem_directories (h : Shows t s) {d : CString} : d ∈ s.directories ↔ t.dirIndex d < t.dirs.length := by
  rw [← h.directories, Tree.dirIndex, List.findIdx_lt_length, List.mem_map]
  constructor
  · rintro ⟨D, hD, rfl⟩
    exact ⟨D, hD, beq_self_eq_true _⟩
  · rintro ⟨D, hD, hname⟩
    exact ⟨D, hD, beq_iff_eq.1 hname⟩

theorem Tree.listing_eq {d : CString} (hD : t.dirs[t.dirIndex d]? = some D) :
    t.listing d = D.files.map fun f => (f.fname, f.fext) := by
  rw [Tree.listing, hD]
  rfl

theorem Shows.mem_files (h : Shows t s) {d f e : CString} (hD : t.dirs[t.dirIndex d]? = some D) :
    (f, e) ∈ s.files d ↔ D.fileIndex f e < D.files.length := by
  rw [← h.files, Tree.listing_eq hD, Directory.fileIndex, List.findIdx_lt_length, List.mem_map]
  constructor
  · rintro ⟨file, hfile, heq⟩
    obtain ⟨rfl, rfl⟩ := Prod.mk.inj heq
    exact ⟨file, hfile, by simp⟩
  · rintro ⟨file, hfile, heq⟩
    rw [Bool.and_eq_true, beq_iff_eq, beq_iff_eq] at heq
    exact ⟨file, hfile, by rw [heq.1, heq.2]⟩

theorem Tree.listing_addDirectory {name : CString} {block used : Nat} (d : CString) :
    Tree.listing { dirs := t.dirs ++ [⟨name, block, []⟩], used } d = t.listing d := by
  unfold Tree.listing Tree.dirIndex
  dsimp only
  rw [List.findIdx_append]
  split
  · next hlt => rw [List.getElem?_append_left hlt]
  · next hge =>
    rw [List.getElem?_append_right (by omega), List.getElem?_eq_none (l := t.dirs) (by omega), List.getElem?_singleton]
    split <;> rfl

theorem Tree.listing_modify {i used : Nat} {g : List File → List File} (hD : t.dirs[i]? = some D) (d : CString) :
    (t.modify i g used).listing d =
      if t.dirIndex d = i then (g D.files).map fun f => (f.fname, f.fext) else t.listing d := by
  rw [Tree.listing, Tree.dirIndex_modify]
  by_cases hi : t.dirIndex d = i
  · subst hi
    rw [if_pos rfl, Tree.modify_self hD]
    rfl
  · rw [if_neg hi, Tree.modify, List.getElem?_modify, Tree.listing]
    simp [Ne.symm hi]

theorem Tree.dirIndex_inj {d d' : CString} (hD : t.dirs[t.dirIndex d]? = some D) :
    t.dirIndex d' = t.dirIndex d ↔ d' = d := by
  constructor
  · intro heq
    rw [← heq] at hD
    have hname := Tree.dname_of_dirIndex hD
    rw [heq] at hD
    exact hname.symm.trans (Tree.dname_of_dirIndex hD)
  · rintro rfl
    rfl

theorem Tree.dnames_modify {i used : Nat} {g : List File → List File} :
    (t.modify i g used).dirs.map Directory.dname = t.dirs.map Directory.dname := by
  apply List.ext_getElem?
  intro k
  rw [Tree.modify, List.getElem?_map, List.getElem?_map, List.getElem?_modify]
  cases t.dirs[k]? with
  | none => rfl
  | some D =>
    simp only [Option.map_eq_map, Option.map_some]
    split <;> rfl

theorem Tree.contentsOf_setFile {d f e : CString} {file : File} (file' : File) {used : Nat}
    (hD : t.dirs[t.dirIndex d]? = some D) (hf : D.files[D.fileIndex f e]? = some file)
    (hname : file'.fname = file.fname) (hext : file'.fext = file.fext) (names : Names) :
    (t.modify (t.dirIndex d) (·.set (D.fileIndex f e) file') used).contentsOf names =
      if names = ⟨d, f, e⟩ then file'.contents else t.contentsOf names := by
  have hset := @Tree.find_setFile t ⟨d, f, e⟩ D file file' used hD hf hname hext names
  dsimp only at hset
  rw [Tree.contentsOf, hset]
  split <;> rfl

/-! ## The requests on both -/

/-- The tree answers as the file system, and shows it afterwards. -/
structure Agrees (r : Int × Tree) (a : Int × FileSystem) : Prop where
  ret : r.1 = a.1
  shows : Shows r.2 a.2

theorem Shows.refuse (h : Shows t s) (e : Int) : Agrees (e, t) (e, s) := ⟨rfl, h⟩

theorem Shows.mkdir (h : Shows t s) (path : CString) (names : Names) : Agrees (t.mkdir path names) (s.mkdir path) := by
  unfold Tree.mkdir FileSystem.mkdir
  have hscan := sscanf_eq path names
  generalize parts path = parts at hscan ⊢
  rcases parts with ⟨_ | _⟩ | d | ⟨d, f⟩ | ⟨d, f, e⟩
  case directory =>
    replace hscan : sscanf path names = (1, { names with directory := d }) := hscan
    rw [hscan]
    dsimp only
    rw [if_neg (by decide)]
    by_cases hname : d.1.length > maxDirname
    · rw [if_pos hname, if_pos hname]
      exact h.refuse _
    rw [if_neg hname, if_neg hname]
    by_cases hex : d ∈ s.directories
    · rw [if_pos hex, if_pos (h.mem_directories.1 hex)]
      exact h.refuse _
    rw [if_neg hex, if_neg (mt h.mem_directories.2 hex), h.length]
    by_cases hfull : maxDirsInRoot ≤ t.dirs.length
    · rw [if_pos hfull, if_pos hfull]
      exact h.refuse _
    rw [if_neg hfull, if_neg hfull]
    refine ⟨rfl, ?_, fun d' => ?_, fun names' => ?_⟩
    · rw [List.map_append, h.directories]
      rfl
    · rw [Tree.listing_addDirectory]
      exact h.files d'
    · rw [Tree.contentsOf, Tree.find_addDirectory]
      exact h.contents names'
  all_goals
    rw [hscan]
    dsimp only
    rw [if_pos (by simp [Parts.count])]
    exact h.refuse _

theorem Shows.mknod (h : Shows t s) (path : CString) (names : Names) : Agrees (t.mknod path names) (s.mknod path) := by
  unfold Tree.mknod FileSystem.mknod
  have hscan := sscanf_eq path names
  generalize parts path = parts at hscan ⊢
  rcases parts with ⟨_ | _⟩ | d | ⟨d, f⟩ | ⟨d, f, e⟩
  case extension =>
    replace hscan : sscanf path names = (3, ⟨d, f, e⟩) := hscan
    rw [hscan]
    dsimp only
    rw [if_neg (by decide)]
    by_cases hname : f.1.length > maxFilename ∨ e.1.length > maxExtension
    · rw [if_pos hname, if_pos hname]
      exact h.refuse _
    rw [if_neg hname, if_neg hname]
    cases hD : t.dirs[t.dirIndex d]? with
    | none =>
      rw [if_pos fun hd => absurd (h.mem_directories.1 hd) (not_lt.2 (List.getElem?_eq_none_iff.1 hD))]
      exact h.refuse _
    | some D =>
      have hd : d ∈ s.directories := h.mem_directories.2 (List.getElem?_eq_some_iff.1 hD).1
      rw [if_neg (not_not.2 hd)]
      dsimp only
      by_cases hex : (f, e) ∈ s.files d
      · rw [if_pos hex, if_pos ((h.mem_files hD).1 hex)]
        exact h.refuse _
      rw [if_neg hex, if_neg (mt (h.mem_files hD).2 hex)]
      refine ⟨rfl, ?_, fun d' => ?_, fun names' => ?_⟩
      · rw [Tree.dnames_modify]
        exact h.directories
      · rw [Tree.listing_modify hD]
        dsimp only
        by_cases hd' : d' = d
        · subst hd'
          rw [if_pos rfl, Function.update_self, List.map_append, ← Tree.listing_eq hD, h.files]
          rfl
        · rw [if_neg (mt (Tree.dirIndex_inj hD).1 hd'), Function.update_of_ne hd']
          exact h.files d'
      · rw [Tree.contentsOf_addFile hD rfl]
        exact h.contents names'
  all_goals
    rw [hscan]
    dsimp only
    rw [if_pos (by simp [Parts.count])]
    exact h.refuse _

theorem asSize_offset {offset : Nat} (hoff : offset < 2 ^ 63) : asSize offset = offset := asSize_natCast (by omega)

/-- A file gets new contents under its name. -/
theorem Shows.setFile (h : Shows t s) {d f e : CString} {file : File} (file' : File) {used : Nat}
    (hD : t.dirs[t.dirIndex d]? = some D) (hf : D.files[D.fileIndex f e]? = some file)
    (hname : file'.fname = file.fname) (hext : file'.fext = file.fext) :
    Shows (t.modify (t.dirIndex d) (·.set (D.fileIndex f e) file') used)
      { s with contents := Function.update s.contents ⟨d, f, e⟩ file'.contents } := by
  refine ⟨?_, fun d' => ?_, fun names => ?_⟩
  · rw [Tree.dnames_modify]
    exact h.directories
  · rw [Tree.listing_modify hD]
    by_cases hd' : d' = d
    · subst hd'
      rw [if_pos rfl, ← h.files, Tree.listing_eq hD]
      apply List.ext_getElem?
      intro j
      rw [List.getElem?_map, List.getElem?_map]
      by_cases hj : D.fileIndex f e = j
      · subst hj
        rw [List.getElem?_set_self (List.getElem?_eq_some_iff.1 hf).1, hf, Option.map_some, Option.map_some, hname, hext]
      · rw [List.getElem?_set_ne hj]
    · rw [if_neg (mt (Tree.dirIndex_inj hD).1 hd')]
      exact h.files d'
  · dsimp only
    rw [Tree.contentsOf_setFile file' hD hf hname hext]
    by_cases hnames : names = ⟨d, f, e⟩
    · subst hnames
      rw [if_pos rfl, Function.update_self]
    · rw [if_neg hnames, Function.update_of_ne hnames]
      exact h.contents names

theorem Shows.write (h : Shows t s) (path : CString) (names : Names) {buf : List UInt8} {offset : Nat}
    (hlen : buf.length < 2 ^ 31) (hoff : offset < 2 ^ 63) :
    Agrees (t.write path names buf offset) (s.write path buf offset) := by
  unfold Tree.write FileSystem.write
  have hscan := sscanf_eq path names
  rw [asSize_offset hoff, asInt_of_lt hlen]
  generalize parts path = parts at hscan ⊢
  rw [hscan]
  dsimp only
  by_cases hempty : buf = []
  · rw [if_pos hempty, if_pos (by rw [hempty]; rfl)]
    exact h.refuse _
  rw [if_neg hempty, if_neg (by rwa [List.length_eq_zero_iff])]
  rcases parts with ⟨_ | _⟩ | d | ⟨d, f⟩ | ⟨d, f, e⟩
  case extension =>
    rw [if_neg (by simp [Parts.count])]
    dsimp only [Parts.fill]
    cases hD : t.dirs[t.dirIndex d]? with
    | none =>
      rw [if_pos fun hd => absurd (h.mem_directories.1 hd) (not_lt.2 (List.getElem?_eq_none_iff.1 hD))]
      exact h.refuse _
    | some D =>
      have hd : d ∈ s.directories := h.mem_directories.2 (List.getElem?_eq_some_iff.1 hD).1
      rw [if_neg (not_not.2 hd)]
      dsimp only
      cases hf : D.files[D.fileIndex f e]? with
      | none =>
        rw [if_pos fun hin => absurd ((h.mem_files hD).1 hin) (not_lt.2 (List.getElem?_eq_none_iff.1 hf))]
        exact h.refuse _
      | some file =>
        rw [if_neg (not_not.2 ((h.mem_files hD).2 (List.getElem?_eq_some_iff.1 hf).1))]
        dsimp only
        have hfind : t.find ⟨d, f, e⟩ = some file := (Tree.find_eq hD).trans hf
        have hcontents : s.contents ⟨d, f, e⟩ = file.contents := by
          rw [← h.contents, Tree.contentsOf_eq hfind]
        rw [hcontents]
        by_cases hbig : offset > file.contents.length
        · rw [if_pos hbig, if_pos hbig]
          exact h.refuse _
        rw [if_neg hbig, if_neg hbig]
        exact ⟨rfl, h.setFile (file.write (t.used + 1) buf offset) hD hf rfl rfl⟩
  all_goals
    rw [if_pos (by simp [Parts.count])]
    exact h.refuse _

/-! ## Requests that change nothing -/

theorem Listed.read_missing (h : Listed v.disk t) (mem : Memory) {path : CString} {names : Names} {size : Nat}
    (offset : Int) (hscan : sscanf path mem.names = (3, names)) (hpos : 0 < size) (hfind : t.find names = none) :
    machine.Yields (cs1550Read mem path size offset) v (-ENOENT, []) v := by
  unfold cs1550Read
  rw [hscan]
  dsimp only
  rw [if_neg (by omega), if_neg (by decide)]
  split
  · exact .pure _ _
  · cases hD : t.dirs[t.dirIndex names.directory]? with
    | none => exact h.noDirectory mem hD _
    | some D => exact h.noFile mem hD ((Tree.find_eq hD).symm.trans hfind) _

theorem Shows.find_isSome (h : Shows t s) (d f e : CString) :
    (t.find ⟨d, f, e⟩).isSome ↔ d ∈ s.directories ∧ (f, e) ∈ s.files d := by
  cases hD : t.dirs[t.dirIndex d]? with
  | none =>
    have hd : d ∉ s.directories := fun hd => absurd (h.mem_directories.1 hd) (not_lt.2 (List.getElem?_eq_none_iff.1 hD))
    have hnone : t.find ⟨d, f, e⟩ = none := by
      rw [Tree.find, hD]
      rfl
    rw [hnone]
    simp [hd]
  | some D =>
    have hd : d ∈ s.directories := h.mem_directories.2 (List.getElem?_eq_some_iff.1 hD).1
    rw [@Tree.find_eq t ⟨d, f, e⟩ D hD, h.mem_files hD, and_iff_right hd]
    simp

theorem Rep.read_shows (hr : Rep N v t) (h : Shows t s) (mem : Memory) (path : CString) {size offset : Nat}
    (hsize : size < 2 ^ 31) (hoff : offset < 2 ^ 63)
    (hend : (sscanf path mem.names).1 = 3 →
      ∀ fsize ∈ v.disk.sizeOf (sscanf path mem.names).2, offset ≤ fsize ∧ fsize ≤ offset + size) :
    machine.Yields (cs1550Read mem path size offset) v (s.read path size offset) v := by
  have hscan := sscanf_eq path mem.names
  unfold FileSystem.read
  by_cases hzero : size = 0
  · rw [if_pos hzero]
    unfold cs1550Read
    rw [hscan]
    dsimp only
    rw [if_pos hzero]
    exact .pure _ _
  rw [if_neg hzero]
  generalize parts path = parts at hscan ⊢
  rcases parts with ⟨_ | _⟩ | d | ⟨d, f⟩ | ⟨d, f, e⟩
  case extension =>
    replace hscan : sscanf path mem.names = (3, ⟨d, f, e⟩) := hscan
    have hsome := h.find_isSome d f e
    dsimp only
    cases hfind : t.find ⟨d, f, e⟩ with
    | none =>
      rw [hfind] at hsome
      rw [if_neg fun hin => by simpa using hsome.2 hin]
      exact hr.listed.read_missing mem offset hscan (by omega) hfind
    | some file =>
      rw [hfind] at hsome
      rw [if_pos (hsome.1 rfl), ← h.contents, Tree.contentsOf_eq hfind]
      rw [hscan, hr.listed.sizeOf_eq, hfind] at hend
      obtain ⟨hle, hall⟩ : offset ≤ file.contents.length ∧ file.contents.length ≤ offset + size := hend rfl _ rfl
      obtain ⟨D, hD, hf⟩ := Tree.find_some hfind
      have hcast := asSize_offset hoff
      have hadd : addSize offset size = offset + size := addSize_of_lt (by omega)
      have hy := hr.read mem offset hscan (show 0 < size by omega) (by omega) hD hf (by rwa [hcast])
        (by rwa [hcast, hadd])
      rw [hcast, asInt_of_lt (by omega)] at hy
      unfold readResult
      rwa [List.take_of_length_le (by rw [List.length_drop]; omega), List.length_drop]
  all_goals
    unfold cs1550Read
    rw [hscan]
    dsimp only
    rw [if_neg hzero, if_pos (by simp [Parts.count])]
    exact .pure _ _

theorem Rep.getattr_shows (hr : Rep N v t) (h : Shows t s) (mem : Memory) (path : CString)
    (htwo : (sscanf path mem.names).1 = 2 → v.disk.sizeOf (sscanf path mem.names).2 = none) :
    machine.Yields (cs1550Getattr mem path) v (s.getattr path) v := by
  have hscan := sscanf_eq path mem.names
  have hy := hr.listed.getattr mem path
  suffices heq : t.getattr path mem.names = s.getattr path by rwa [heq] at hy
  unfold Tree.getattr FileSystem.getattr
  by_cases hpath : path.1 = [slash]
  · rw [if_pos hpath, if_pos hpath]
  rw [if_neg hpath, if_neg hpath]
  generalize parts path = parts at hscan ⊢
  rw [hscan] at htwo
  rw [hscan]
  rcases parts with ⟨_ | _⟩ | d | ⟨d, f⟩ | ⟨d, f, e⟩
  case directory =>
    dsimp only [Parts.count, Parts.fill]
    rw [if_neg (by decide)]
    cases hD : t.dirs[t.dirIndex d]? with
    | none =>
      rw [if_neg fun hd => absurd (h.mem_directories.1 hd) (not_lt.2 (List.getElem?_eq_none_iff.1 hD))]
    | some D =>
      rw [if_pos (h.mem_directories.2 (List.getElem?_eq_some_iff.1 hD).1)]
      rfl
  case filename =>
    -- the extension is what the array held before
    have hnone : t.find ⟨d, f, mem.names.extension⟩ = none := by
      have hsize := htwo rfl
      rwa [hr.listed.sizeOf_eq, Option.map_eq_none_iff] at hsize
    dsimp only [Parts.count, Parts.fill]
    rw [if_neg (by decide)]
    cases hD : t.dirs[t.dirIndex d]? with
    | none => rfl
    | some D =>
      have hf : D.files[D.fileIndex f mem.names.extension]? = none :=
        (@Tree.find_eq t ⟨d, f, mem.names.extension⟩ D hD).symm.trans hnone
      dsimp only
      rw [if_neg (by decide), hf]
  case extension =>
    have hsome := h.find_isSome d f e
    dsimp only [Parts.count, Parts.fill]
    rw [if_neg (by decide)]
    cases hD : t.dirs[t.dirIndex d]? with
    | none =>
      rw [if_neg fun hin => absurd (h.mem_directories.1 hin.1) (not_lt.2 (List.getElem?_eq_none_iff.1 hD))]
    | some D =>
      have hfind := @Tree.find_eq t ⟨d, f, e⟩ D hD
      dsimp only at hfind ⊢
      rw [if_neg (by decide)]
      cases hf : D.files[D.fileIndex f e]? with
      | none =>
        rw [hfind, hf] at hsome
        rw [if_neg fun hin => by simpa using hsome.2 hin]
      | some file =>
        rw [hf] at hfind
        rw [hfind] at hsome
        rw [if_pos (hsome.1 rfl), ← h.contents, Tree.contentsOf_eq hfind]
  all_goals rfl

theorem Rep.readdir_shows (hr : Rep N v t) (h : Shows t s) (mem : Memory) (path : CString)
    (hone : path.1 = [slash] ∨ 1 ≤ (sscanf path mem.names).1) :
    machine.Yields (cs1550Readdir mem path) v (s.readdir path) v := by
  unfold FileSystem.readdir
  by_cases hpath : path.1 = [slash]
  · have hy := hr.readdir_root mem hpath
    rw [if_pos hpath, ← h.directories, List.map_map]
    rw [Tree.names, List.map_map] at hy
    exact hy
  rw [if_neg hpath]
  have hscan := sscanf_eq path mem.names
  have hone := hone.resolve_left hpath
  generalize parts path = parts at hscan ⊢
  rw [hscan] at hone
  rcases parts with ⟨_ | _⟩ | d | ⟨d, f⟩ | ⟨d, f, e⟩
  case directory =>
    have hy := hr.readdir mem (show sscanf path mem.names = (1, { mem.names with directory := d }) from hscan)
    dsimp only at hy ⊢
    cases hD : t.dirs[t.dirIndex d]? with
    | none =>
      rw [hD] at hy
      rwa [if_neg fun hd => absurd (h.mem_directories.1 hd) (not_lt.2 (List.getElem?_eq_none_iff.1 hD))]
    | some D =>
      rw [hD] at hy
      rw [if_pos (h.mem_directories.2 (List.getElem?_eq_some_iff.1 hD).1), ← h.files, Tree.listing_eq hD, List.map_map]
      dsimp only at hy
      rw [Directory.names, List.map_map] at hy
      exact hy
  case nothing.false => simp [Parts.count] at hone
  case nothing.true => simp [Parts.count] at hone
  all_goals
    refine (openRoot_yields mem v).bind ?_
    rw [if_neg hpath, hscan]
    dsimp only
    rw [if_pos (by simp [Parts.count])]
    exact .pure _ _

/-! ## Runs -/

/-- The handlers that store strings. -/
def Message.operation (r : Message) : Option Operation :=
  match r.op with
  | .getattr path => some (.getattr r.mem path)
  | .readdir path => some (.readdir r.mem path)
  | .mkdir path => some (.request ⟨r.mem, .mkdir path⟩)
  | .read path size offset => some (.read r.mem path size offset)
  | .write path buf offset => some (.request ⟨r.mem, .write path buf offset⟩)
  | .mknod path => some (.request ⟨r.mem, .mknod path⟩)
  | .rmdir _ | .unlink _ | .truncate _ _ | .flush _ | .open _ => none

/-- What is asked of a handler keeps clear of what it gets wrong: a path of two parts, for which `cs1550_getattr`
compares an extension that it has not read; a path of none, for which `cs1550_readdir` does so with the directory;
a read that ends before the file does; and a write that needs a third block. -/
def Message.Clear (v : Volume) (r : Message) : Prop :=
  match r.op with
  | .getattr path => (sscanf path r.mem.names).1 = 2 → v.disk.sizeOf (sscanf path r.mem.names).2 = none
  | .readdir path => path.1 = [slash] ∨ 1 ≤ (sscanf path r.mem.names).1
  | .read path size offset => size < 2 ^ 31 ∧ offset < 2 ^ 63 ∧ ((sscanf path r.mem.names).1 = 3 →
      ∀ fsize ∈ v.disk.sizeOf (sscanf path r.mem.names).2, offset ≤ fsize ∧ fsize ≤ offset + size)
  | .write path buf offset => buf.length < 2 ^ 31 ∧ offset < 2 ^ 63 ∧ ShortWrite v r.mem path buf offset
  | _ => True

/-- It is clear of these, the names in its path fit into the arrays of `sscanf`, and no file that it lists has a name
too long for `current_filename`. -/
structure Message.Proper (v : Volume) (r : Message) : Prop where
  clear : r.Clear v
  bounded : ∀ o ∈ r.operation, o.Bounded v

/-- It is proper, and leaves the blocks handed out in front of the bitmap and no directory with too many files. -/
structure Message.Allowed (N : Nat) (v : Volume) (r : Message) : Prop where
  proper : r.Proper v
  front : InFront N (r.serve v).2.cursor
  files : FilesWithin (r.serve v).2

instance (v : Volume) (mem : Memory) (path : CString) (buf : List UInt8) (offset : Int) :
    Decidable (ShortWrite v mem path buf offset) :=
  inferInstanceAs (Decidable ((sscanf path mem.names).1 = 3 → ∀ size ∈ v.disk.sizeOf (sscanf path mem.names).2, _))

instance Message.decidableClear (v : Volume) (r : Message) : Decidable (r.Clear v) := by
  unfold Message.Clear
  cases r.op <;> dsimp only <;> infer_instance

instance Message.decidableProper (v : Volume) (r : Message) : Decidable (r.Proper v) :=
  decidable_of_iff (r.Clear v ∧ ∀ o ∈ r.operation, o.Bounded v) ⟨fun h => ⟨h.1, h.2⟩, fun h => ⟨h.clear, h.bounded⟩⟩

instance Message.decidableAllowed (N : Nat) (v : Volume) (r : Message) : Decidable (r.Allowed N v) :=
  decidable_of_iff (r.Proper v ∧ InFront N (r.serve v).2.cursor ∧ FilesWithin (r.serve v).2)
    ⟨fun h => ⟨h.1, h.2.1, h.2.2⟩, fun h => ⟨h.proper, h.front, h.files⟩⟩

/-- Requests one after the other, with the states they are served in. -/
abbrev Dialogue (N : Nat) : List (Volume × Message) → Volume → Prop :=
  Run.Path (fun v r v' => (r.serve v).2 = v') (zeroed N)

/-- What a user sees after a run. -/
def filesAfter (h : List (Volume × Message)) : FileSystem := h.foldl (fun s x => (s.answer x.2.op).2) .empty

/-- The image represents what is seen. -/
def Seen (N : Nat) (v : Volume) (s : FileSystem) : Prop := ∃ t, Rep N v t ∧ Shows t s

/-- A handler that only looks. -/
theorem Seen.looks {r : Message} {reply : Answer} (h : Seen N v s) (hy : machine.Yields r.handler v reply v)
    (hanswer : s.answer r.op = (reply, s)) : (r.serve v).1 = (s.answer r.op).1 ∧ Seen N (r.serve v).2 (s.answer r.op).2 := by
  rw [Message.serve, serve_of_yields hy, hanswer]
  exact ⟨rfl, h⟩

/-- A handler that changes the image as it changes the tree. -/
theorem Rep.changes {r : Message} {p : Req Int} {a : Int × Tree} {a' : Int × FileSystem} {v' : Volume}
    (href : Refines N p v a v') (hagrees : Agrees a a') (hhandler : r.handler = Answer.code <$> p)
    (hanswer : s.answer r.op = (.code a'.1, a'.2)) (hr : r.Allowed N v) :
    (r.serve v).1 = (s.answer r.op).1 ∧ Seen N (r.serve v).2 (s.answer r.op).2 := by
  have hy : machine.Yields r.handler v (.code a.1) v' := by
    rw [hhandler]
    exact href.yields.bind (.pure _ _)
  have hserve : r.serve v = (.code a.1, v') := serve_of_yields hy
  have hfront := hr.front
  have hfiles := hr.files
  rw [hserve] at hfront hfiles ⊢
  rw [hanswer, hagrees.ret]
  exact ⟨rfl, a.2, href.rep hfront (.inl hfiles), hagrees.shows⟩

theorem Seen.step {r : Message} (h : Seen N v s) (hr : r.Allowed N v) :
    (r.serve v).1 = (s.answer r.op).1 ∧ Seen N (r.serve v).2 (s.answer r.op).2 := by
  obtain ⟨t, hrep, hshows⟩ := h
  obtain ⟨mem, op⟩ := r
  have hclear := hr.proper.clear
  cases op with
  | getattr path =>
    exact Seen.looks ⟨t, hrep, hshows⟩ ((hrep.getattr_shows hshows mem path hclear).bind (.pure _ _)) rfl
  | readdir path =>
    exact Seen.looks ⟨t, hrep, hshows⟩ ((hrep.readdir_shows hshows mem path hclear).bind (.pure _ _)) rfl
  | read path size offset =>
    obtain ⟨hsize, hoff, hend⟩ := hclear
    exact Seen.looks ⟨t, hrep, hshows⟩ ((hrep.read_shows hshows mem path hsize hoff hend).bind (.pure _ _)) rfl
  | mkdir path =>
    obtain ⟨v', href⟩ := hrep.mkdir mem path
    exact Rep.changes href (hshows.mkdir path mem.names) rfl rfl hr
  | mknod path =>
    obtain ⟨v', href⟩ := hrep.mknod mem path
    exact Rep.changes href (hshows.mknod path mem.names) rfl rfl hr
  | write path buf offset =>
    obtain ⟨hlen, hoff, hshort⟩ := hclear
    obtain ⟨v', href⟩ := hrep.write mem path buf offset hshort
    exact Rep.changes href (hshows.write path mem.names hlen hoff) rfl rfl hr
  | rmdir | unlink | truncate | flush | «open» => exact Seen.looks ⟨t, hrep, hshows⟩ (.pure _ _) rfl

theorem seen_of_dialogue {h : List (Volume × Message)} (hN : bitmapSizeInBlocks < N) (hp : Dialogue N h v)
    (hallowed : ∀ x ∈ h, x.2.Allowed N x.1) : Seen N v (filesAfter h) := by
  refine hp.simulate (fun (s : FileSystem) (r : Message) => (s.answer r.op).2) (fun v r => r.Allowed N v) (fun _ => True)
    ⟨.empty, rep_zeroed hN, shows_empty⟩ (fun v r v' s hseen hr _ hserve => ?_) hallowed fun _ _ => trivial
  subst hserve
  exact (hseen.step hr).2

/-- In every dialogue, the reply to every request is the one that the files and directories made so far give, and no
string that a handler stores is too long for its array. -/
theorem service_refines {h : List (Volume × Message)} (hN : bitmapSizeInBlocks < N) (hp : Dialogue N h v)
    (hallowed : ∀ x ∈ h, x.2.Allowed N x.1) {r : Message} (hr : r.Allowed N v) :
    (r.serve v).1 = ((filesAfter h).answer r.op).1 ∧ ∀ o ∈ r.operation, o.Fits v :=
  ⟨((seen_of_dialogue hN hp hallowed).step hr).1, fun o ho => (o.fits_iff v).2 (hr.proper.bounded o ho)⟩

/-- The states that requests lead to. -/
def dialogue : Volume → List Message → List (Volume × Message) × Volume
  | v, [] => ([], v)
  | v, r :: rs => ((v, r) :: (dialogue (r.serve v).2 rs).1, (dialogue (r.serve v).2 rs).2)

theorem path_dialogue {h : List (Volume × Message)} (hp : Dialogue N h v) (rs : List Message) :
    Dialogue N (h ++ (dialogue v rs).1) (dialogue v rs).2 := by
  induction rs generalizing h v with
  | nil => simpa [dialogue] using hp
  | cons r rs ih =>
    have hrest := ih (hp.step (a := r) rfl)
    rwa [List.append_assoc] at hrest

/-- A file is made, written and removed, and read afterwards. -/
def removed : List Message :=
  [⟨blank, .mkdir dirPath⟩, ⟨blank, .mknod filePath⟩, ⟨blank, .write filePath [1, 2, 3] 0⟩, ⟨blank, .unlink filePath⟩]

theorem service_refines_removed :
    (Message.serve ⟨blank, .read filePath 5 1⟩ (dialogue (zeroed 10240) removed).2).1 = .data 2 [2, 3] := by
  have hanswer : ((filesAfter (dialogue (zeroed 10240) removed).1).answer (.read filePath 5 1)).1 = .data 2 [2, 3] := by
    decide +kernel
  exact (service_refines (N := 10240) (by decide) (path_dialogue .start removed) (by decide +kernel)
    (by decide +kernel)).1.trans hanswer

end CS1550.Fs
