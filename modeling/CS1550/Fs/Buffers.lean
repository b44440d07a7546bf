/-
The arrays that the handlers store strings in. The handlers are written once more with every string that they store
recorded, and the array it goes to; without the record they are the handlers (`Operation.logs`). The strings
stored in the entries of a directory always fit. The other ones fit if and only if the names in the paths are not
too long for the arrays of `sscanf`, which has no widths, and no file that is listed has a name on the disk that needs
the byte for the dot that `current_filename` does not have (`stores_fit_iff`). Where the names in the paths fit, the
image simulates the ordered map of names (`namespace_simulated`).
-/
import CS1550.Lib.Logged
import CS1550.Fs.Remount
import CS1550.Fs.Namespace

namespace CS1550.Fs

open Bytes Machine

/-- The arrays that the handlers store strings in. -/
inductive Buffer
  | directory
  | filename
  | extension
  | dname
  | fname
  | fext
  | currentFilename

/-- The size it is declared with. -/
def Buffer.size : Buffer → Nat
  | .directory => maxDirname + 1
  | .filename => maxFilename + 1
  | .extension => maxExtension + 1
  | .dname => maxDirname + 1
  | .fname => maxFilename + 1
  | .fext => maxExtension + 1
  | .currentFilename => maxFilename + maxExtension + 1

/-- It is a field of an entry of the root or of a directory. -/
def Buffer.InEntry : Buffer → Prop
  | .dname => True
  | .fname => True
  | .fext => True
  | _ => False

/-- A string stored in an array, without its NUL. -/
structure Store where
  buffer : Buffer
  string : List UInt8

/-- The string and its NUL are not longer than the array. -/
def Store.Fits (w : Store) : Prop := w.string.length + 1 ≤ w.buffer.size

instance (w : Store) : Decidable w.Fits := inferInstanceAs (Decidable (_ ≤ _))

/-- A request with the strings it stores. -/
abbrev Stored := Logged Store Op Res

/-- The strings that `sscanf` stores, in their order. -/
def Parts.stores : Parts → List Store
  | .nothing _ => []
  | .directory d => [⟨.directory, d.1⟩]
  | .filename d f => [⟨.directory, d.1⟩, ⟨.filename, f.1⟩]
  | .extension d f e => [⟨.directory, d.1⟩, ⟨.filename, f.1⟩, ⟨.extension, e.1⟩]

namespace Stored

open Logged

/-- `sscanf` with the strings it stores. -/
def scan (path : CString) (names : Names) : Stored (Int × Names) := do
  record (parts path).stores
  pure (sscanf path names)

/-- `strcpy` to a field of an entry. -/
def copy (buffer : Buffer) (m : Mem) (off : Nat) (s : List UInt8) : Stored Mem := do
  record [⟨buffer, s⟩]
  pure (strcpy m off s)

/-- `cs1550_mkdir` with the strings it stores. -/
def mkdir (mem : Memory) (path : CString) : Stored Int := do
  let r ← scan path mem.names
  let names := r.2
  if r.1 ≠ 1 then pure (-EPERM)
  else if names.directory.1.length > maxDirname then pure (-ENAMETOOLONG)
  else do
    let root ← lift (openRoot mem)
    if (findDirectory root names.directory.1 : Int) < nDirectories root then pure (-EEXIST)
    else if asSize (nDirectories root) ≥ maxDirsInRoot then pure (-ENOSPC)
    else do
      let dirIndex := (nDirectories root).toNat
      let root := putInt root 0 4 (nDirectories root + 1)
      let root ← copy .dname root (directoryAt dirIndex) names.directory.1
      let nextOpenBlock ← lift findNextFreeBlockIndex
      if nextOpenBlock < 0 then pure (-ENOSPC)
      else do
        let root := putInt root (directoryAt dirIndex + 9) 8 nextOpenBlock
        let _ ← lift (setBitmap mem.stack nextOpenBlock 1)
        lift (saveRoot root)
        pure 0

/-- `cs1550_mknod` with the strings it stores. -/
def mknod (mem : Memory) (path : CString) : Stored Int := do
  let r ← scan path mem.names
  let names := r.2
  if r.1 < 3 then pure (-EPERM)
  else if names.filename.1.length > maxFilename ∨ names.extension.1.length > maxExtension then pure (-ENAMETOOLONG)
  else do
    let root ← lift (openRoot mem)
    let dirIndex := findDirectory root names.directory.1
    if (dirIndex : Int) = nDirectories root then pure (-ENOENT)
    else do
      let dirBlockLocation := dirStartBlock root dirIndex
      let currentDir ← lift (openDir mem dirBlockLocation)
      if (findFile currentDir names.filename.1 names.extension.1 : Int) < nFiles currentDir then pure (-EEXIST)
      else if asSize (nFiles currentDir) > maxFilesInDir then pure (-ENOSPC)
      else do
        let fileIndex := (nFiles currentDir).toNat
        let currentDir := putInt currentDir 0 4 (nFiles currentDir + 1)
        let currentDir ← copy .fname currentDir (fileAt fileIndex) names.filename.1
        let currentDir ← copy .fext currentDir (fileAt fileIndex + 9) names.extension.1
        let currentDir := putInt currentDir (fileAt fileIndex + 13) 8 0
        let nextOpenBlock ← lift findNextFreeBlockIndex
        if nextOpenBlock < 0 then pure (-ENOSPC)
        else do
          let currentDir := putInt currentDir (fileAt fileIndex + 21) 8 nextOpenBlock
          let _ ← lift (setBitmap mem.stack nextOpenBlock 1)
          lift (saveDir dirBlockLocation currentDir)
          pure 0

/-- The rest of `cs1550_write` stores no strings. -/
def write (mem : Memory) (path : CString) (buf : List UInt8) (offset : Int) : Stored Int := do
  let _ ← scan path mem.names
  lift (cs1550Write mem path buf offset)

/-- `cs1550_read` with the strings it stores. -/
def read (mem : Memory) (path : CString) (size : Nat) (offset : Int) : Stored (Int × List UInt8) := do
  let _ ← scan path mem.names
  lift (cs1550Read mem path size offset)

/-- `cs1550_getattr` with the strings it stores. -/
def getattr (mem : Memory) (path : CString) : Stored (Int × Stat) :=
  if path.1 = [slash] then lift (cs1550Getattr mem path)
  else do
    let _ ← scan path mem.names
    lift (cs1550Getattr mem path)

/-- The name of `files[i]`, as `strcpy` and two `strcat`s put it together. -/
def joinName (dir : Mem) (i : Nat) : Stored (List UInt8) := do
  let fname := readStr dir blockSize (fileAt i)
  let fext := readStr dir blockSize (fileAt i + 9)
  record [⟨.currentFilename, fname⟩, ⟨.currentFilename, fname ++ [dot]⟩, ⟨.currentFilename, fname ++ dot :: fext⟩]
  pure (fname ++ dot :: fext)

/-- The names of files given to `filler`, each put together in an array. -/
def joinNames (dir : Mem) : List Nat → Stored (List (List UInt8))
  | [] => pure []
  | i :: is => do
    let name ← joinName dir i
    let names ← joinNames dir is
    pure (name :: names)

/-- `cs1550_readdir` with the strings it stores. -/
def readdir (mem : Memory) (path : CString) : Stored (Int × List (List UInt8)) := do
  let root ← lift (openRoot mem)
  if path.1 = [slash] then
    pure (0, dots ++ (List.range (nDirectories root).toNat).map fun i => readStr root blockSize (directoryAt i))
  else do
    let r ← scan path mem.names
    if r.1 > 1 then pure (-ENOENT, dots)
    else do
      let dirIndex := findDirectory root r.2.directory.1
      if (dirIndex : Int) = nDirectories root then pure (-ENOENT, dots)
      else do
        let currentDir ← lift (openDir mem (dirStartBlock root dirIndex))
        let names ← joinNames currentDir (List.range (nFiles currentDir).toNat)
        pure (0, dots ++ names)

end Stored

/-- A request with the strings it stores. -/
def Request.stored (r : Request) : Stored Int :=
  match r.call with
  | .mkdir path => Stored.mkdir r.mem path
  | .mknod path => Stored.mknod r.mem path
  | .write path buf offset => Stored.write r.mem path buf offset

/-- An operation with the strings it stores. -/
def Operation.stored : Operation → Stored Reply
  | .request r => do
    let ret ← r.stored
    pure (.status ret)
  | .read mem path size offset => do
    let ret ← Stored.read mem path size offset
    pure (.data ret)
  | .getattr mem path => do
    let ret ← Stored.getattr mem path
    pure (.attributes ret)
  | .readdir mem path => do
    let ret ← Stored.readdir mem path
    pure (.listing ret)

/-- The path that an operation is for. -/
def Operation.path : Operation → CString
  | .request r => r.call.path
  | .read _ path .. => path
  | .getattr _ path => path
  | .readdir _ path => path

/-- The strings stored by operations that are served one after the other. -/
def stores : List Operation → Volume → List Store
  | [], _ => []
  | o :: os, v => (o.stored.run machine 0 v).1.1 ++ stores os (o.stored.run machine 0 v).2.2

/-- The operations with the states they are served in. -/
def served : List Operation → Volume → List (Volume × Operation)
  | [], _ => []
  | o :: os, v => (v, o) :: served os (serve o.handler v).2

/-- The names in the path fit into the arrays of `sscanf`. -/
def Parts.Short : Parts → Prop
  | .nothing _ => True
  | .directory d => d.1.length ≤ maxDirname
  | .filename d f => d.1.length ≤ maxDirname ∧ f.1.length ≤ maxFilename
  | .extension d f e => d.1.length ≤ maxDirname ∧ f.1.length ≤ maxFilename ∧ e.1.length ≤ maxExtension

instance : (p : Parts) → Decidable p.Short
  | .nothing _ => isTrue trivial
  | .directory _ => inferInstanceAs (Decidable (_ ≤ _))
  | .filename .. => inferInstanceAs (Decidable (_ ∧ _))
  | .extension .. => inferInstanceAs (Decidable (_ ∧ _ ∧ _))

/-- The names and extensions of the files in the directory of a path, as they stand on the disk. -/
def Disk.listed (d : Disk) (mem : Memory) (path : CString) : List (List UInt8 × List UInt8) :=
  let (count, names) := sscanf path mem.names
  let root := onHeap mem.heap (d.block 0)
  let dirIndex := findDirectory root names.directory.1
  if path.1 = [slash] ∨ count > 1 ∨ (dirIndex : Int) = nDirectories root then []
  else
    -- a seek in front of the image fails, and the stream is still behind the root
    let dir := onHeap mem.heap (shift d.byte (seekSet (dirStartBlock root dirIndex) (min blockSize d.size)))
    (List.range (nFiles dir).toNat).map fun i => (readStr dir blockSize (fileAt i), readStr dir blockSize (fileAt i + 9))

/-- A name and an extension that leave room for the dot in `current_filename`. -/
def Joinable (file : List UInt8 × List UInt8) : Prop := file.1.length + file.2.length < maxFilename + maxExtension

instance (file : List UInt8 × List UInt8) : Decidable (Joinable file) := inferInstanceAs (Decidable (_ < _))

/-- The files that an operation lists, as they stand on the disk before it. -/
def Operation.lists (v : Volume) : Operation → List (List UInt8 × List UInt8)
  | .readdir mem path => v.disk.listed mem path
  | _ => []

/-- The names in the path fit into their arrays, and no file is listed with eight and three characters. -/
structure Operation.Bounded (v : Volume) (o : Operation) : Prop where
  path : (parts o.path).Short
  listing : ∀ file ∈ o.lists v, Joinable file

instance Operation.decidableBounded (v : Volume) (o : Operation) : Decidable (o.Bounded v) :=
  decidable_of_iff ((parts o.path).Short ∧ ∀ file ∈ o.lists v, Joinable file)
    ⟨fun h => ⟨h.1, h.2⟩, fun h => ⟨h.path, h.listing⟩⟩

/-! ## What one handler stores -/

/-- The names listed fit into `current_filename`. -/
def Reply.Short : Reply → Prop
  | .listing r => ∀ name ∈ r.2, name.length + 1 ≤ Buffer.currentFilename.size
  | _ => True

/-- The log has the strings of `sscanf` and other ones, which fit if and only if `short` holds. -/
def Records (path : CString) (short : Prop) (log : List Store) : Prop :=
  ∃ others, log = (parts path).stores ++ others ∧ (∀ w ∈ others, w.buffer.InEntry → w.Fits) ∧
    ((∀ w ∈ others, w.Fits) ↔ short)

theorem records_fit {path : CString} {log others : List Store} (hlog : log = (parts path).stores)
    (hfit : ∀ w ∈ others, w.Fits) : Records path True (log ++ others) :=
  ⟨others, by rw [hlog], fun w hw _ => hfit w hw, iff_of_true hfit trivial⟩

theorem scan_logs (path : CString) (names : Names) :
    machine.Logs (Stored.scan path names) (pure (sscanf path names)) fun log _ => log = (parts path).stores := by
  refine (Logs.record _).pure_bind fun log hlog => Logs.pure ?_
  rw [hlog, List.append_nil]

theorem copy_logs (buffer : Buffer) (m : Mem) (off : Nat) (s : List UInt8) :
    machine.Logs (Stored.copy buffer m off s) (pure (strcpy m off s)) fun log _ => log = [⟨buffer, s⟩] := by
  refine (Logs.record _).pure_bind fun log hlog => Logs.pure ?_
  rw [hlog, List.append_nil]

theorem mkdir_logs (mem : Memory) (path : CString) :
    machine.Logs (Stored.mkdir mem path) (cs1550Mkdir mem path) fun log _ => Records path True log := by
  unfold Stored.mkdir cs1550Mkdir
  refine (scan_logs path mem.names).pure_bind fun log hlog => ?_
  refine Logs.imp ?_ fun others _ => records_fit hlog
  generalize sscanf path mem.names = r
  obtain ⟨count, names⟩ := r
  have hnil : ∀ w ∈ ([] : List Store), w.Fits := by simp
  dsimp only
  refine .ite (fun _ => .pure hnil) fun _ => .ite (fun _ => .pure hnil) fun hlen => .lift_bind fun root => ?_
  refine .ite (fun _ => .pure hnil) fun _ => .ite (fun _ => .pure hnil) fun _ => ?_
  refine (copy_logs .dname _ _ _).pure_bind fun copied hcopied => .lift_bind fun nextOpenBlock => ?_
  have hfits : ∀ w ∈ copied ++ [], w.Fits := by
    rw [hcopied]
    simp only [List.append_nil, List.mem_singleton, forall_eq, Store.Fits, Buffer.size]
    omega
  exact .ite (fun _ => .pure hfits) fun _ => .lift_bind fun _ => .lift_bind fun _ => .pure hfits

theorem mknod_logs (mem : Memory) (path : CString) :
    machine.Logs (Stored.mknod mem path) (cs1550Mknod mem path) fun log _ => Records path True log := by
  unfold Stored.mknod cs1550Mknod withDirectory
  refine (scan_logs path mem.names).pure_bind fun log hlog => ?_
  refine Logs.imp ?_ fun others _ => records_fit hlog
  generalize sscanf path mem.names = r
  obtain ⟨count, names⟩ := r
  have hnil : ∀ w ∈ ([] : List Store), w.Fits := by simp
  dsimp only
  refine .ite (fun _ => .pure hnil) fun _ => .ite (fun _ => .pure hnil) fun hlen => .lift_bind fun root => ?_
  refine .ite (fun _ => .pure hnil) fun _ => .lift_bind fun currentDir => ?_
  refine .ite (fun _ => .pure hnil) fun _ => .ite (fun _ => .pure hnil) fun _ => ?_
  refine (copy_logs .fname _ _ _).pure_bind fun fname hfname => (copy_logs .fext _ _ _).pure_bind fun fext hfext => ?_
  have hfits : ∀ w ∈ fname ++ (fext ++ []), w.Fits := by
    rw [hfname, hfext]
    simp only [List.append_nil, List.cons_append, List.nil_append, List.mem_cons, List.not_mem_nil, or_false,
      forall_eq_or_imp, forall_eq, Store.Fits, Buffer.size]
    omega
  refine .lift_bind fun nextOpenBlock => ?_
  exact .ite (fun _ => .pure hfits) fun _ => .lift_bind fun _ => .lift_bind fun _ => .pure hfits

/-- A handler that stores the strings of `sscanf` only. -/
theorem scan_then {α : Type} (path : CString) (names : Names) (q : Req α) :
    machine.Logs (Stored.scan path names >>= fun _ => .lift q) q fun log _ => Records path True log := by
  refine (scan_logs path names).pure_bind fun log hlog => (Logs.lift q).imp fun others _ hothers => ?_
  rw [hothers]
  exact records_fit hlog (by simp)

theorem parts_slash {path : CString} (hpath : path.1 = [slash]) : (parts path).stores = [] := by
  obtain rfl : path = ⟨[slash], by decide⟩ := Subtype.ext hpath
  rfl

theorem getattr_logs (mem : Memory) (path : CString) :
    machine.Logs (Stored.getattr mem path) (cs1550Getattr mem path) fun log _ => Records path True log := by
  unfold Stored.getattr
  by_cases hpath : path.1 = [slash]
  · rw [if_pos hpath]
    refine (Logs.lift _).imp fun log _ hlog => ?_
    rw [hlog]
    exact records_fit (parts_slash hpath).symm (by simp)
  · rw [if_neg hpath]
    exact scan_then path mem.names _

/-- The last of the three strings is the longest. -/
theorem joinName_logs (dir : Mem) (i : Nat) :
    machine.Logs (Stored.joinName dir i)
      (pure (readStr dir blockSize (fileAt i) ++ dot :: readStr dir blockSize (fileAt i + 9))) fun log name =>
        (∀ w ∈ log, ¬ w.buffer.InEntry) ∧
          ((∀ w ∈ log, w.Fits) ↔ name.length + 1 ≤ Buffer.currentFilename.size) := by
  refine (Logs.record _).pure_bind fun log hlog => Logs.pure ?_
  rw [hlog]
  simp only [List.append_nil, List.mem_cons, List.not_mem_nil, or_false, forall_eq_or_imp, forall_eq, Store.Fits,
    Buffer.InEntry, not_false_eq_true, and_self, true_and, List.length_append, List.length_cons, List.length_nil]
  omega

theorem joinNames_logs (dir : Mem) (is : List Nat) :
    machine.Logs (Stored.joinNames dir is)
      (pure (is.map fun i => readStr dir blockSize (fileAt i) ++ dot :: readStr dir blockSize (fileAt i + 9)))
      fun log names => (∀ w ∈ log, ¬ w.buffer.InEntry) ∧
        ((∀ w ∈ log, w.Fits) ↔ ∀ name ∈ names, name.length + 1 ≤ Buffer.currentFilename.size) := by
  induction is with
  | nil => exact .pure ⟨by simp, by simp⟩
  | cons i is ih =>
    refine (joinName_logs dir i).pure_bind fun log hlog => ih.pure_bind fun log' hlog' => .pure ?_
    simp only [List.append_nil, List.mem_append, List.mem_cons, or_imp, forall_and, forall_eq]
    exact ⟨⟨hlog.1, hlog'.1⟩, and_congr hlog.2 hlog'.2⟩

theorem readdir_logs (mem : Memory) (path : CString) :
    machine.Logs (Stored.readdir mem path) (cs1550Readdir mem path) fun log r =>
      Records path (path.1 ≠ [slash] → ∀ name ∈ r.2, name.length + 1 ≤ Buffer.currentFilename.size) log := by
  unfold Stored.readdir cs1550Readdir
  refine .lift_bind fun root => .ite (fun hpath => .pure ?_) fun hpath => ?_
  · refine ⟨[], by rw [parts_slash hpath, List.append_nil], by simp, by simp [hpath]⟩
  refine (scan_logs path mem.names).pure_bind fun log hlog => ?_
  have hdots : ∀ name ∈ dots, name.length + 1 ≤ Buffer.currentFilename.size := by decide
  have hnone : Records path (path.1 ≠ [slash] → ∀ name ∈ dots, name.length + 1 ≤ Buffer.currentFilename.size) (log ++ []) :=
    ⟨[], by rw [hlog], by simp, iff_of_true (by simp) fun _ => hdots⟩
  generalize sscanf path mem.names = r
  obtain ⟨count, names⟩ := r
  dsimp only
  refine .ite (fun _ => .pure hnone) fun _ => .ite (fun _ => .pure hnone) fun _ => .lift_bind fun currentDir => ?_
  refine (joinNames_logs currentDir _).pure_bind fun others hothers => .pure ?_
  refine ⟨others, by rw [hlog, List.append_nil], fun w hw hin => absurd hin (hothers.1 w hw), hothers.2.trans ?_⟩
  rw [forall_prop_of_true hpath]
  simp only [List.mem_append, or_imp, forall_and]
  exact (and_iff_right hdots).symm

/-- Without the strings it stores, an operation is the operation. -/
theorem Operation.logs (o : Operation) :
    machine.Logs o.stored o.handler fun log reply => Records o.path (o.path.1 ≠ [slash] → reply.Short) log := by
  -- the replies that are no listings
  have hother : ∀ {α : Type} {p : Stored α} {q : Req α} {path : CString} {g : α → Reply} (_ : ∀ a, (g a).Short),
      machine.Logs p q (fun log _ => Records path True log) →
      machine.Logs (p >>= fun a => pure (g a)) (q >>= fun a => pure (g a)) fun log reply =>
        Records path (path.1 ≠ [slash] → reply.Short) log := by
    intro α p q path g hg hp
    refine hp.bind fun log a hlog => .pure ?_
    rw [List.append_nil]
    rwa [eq_true fun _ => hg a]
  cases o with
  | request r =>
    refine hother (fun _ => trivial) ?_
    obtain ⟨mem, call⟩ := r
    cases call with
    | mkdir path => exact mkdir_logs mem path
    | mknod path => exact mknod_logs mem path
    | write path buf offset => exact scan_then path mem.names _
  | read mem path size offset => exact hother (fun _ => trivial) (scan_then path mem.names _)
  | getattr mem path => exact hother (fun _ => trivial) (getattr_logs mem path)
  | readdir mem path =>
    refine (readdir_logs mem path).bind fun log r hlog => .pure ?_
    rw [List.append_nil]
    exact hlog

theorem readdir_listed (mem : Memory) {path : CString} (hpath : path.1 ≠ [slash]) (v : Volume) :
    (serve (cs1550Readdir mem path) v).1.2 = dots ++ (v.disk.listed mem path).map fun file => file.1 ++ dot :: file.2 := by
  have hblock : shift v.disk.byte (seekSet 0 0) = v.disk.block 0 := rfl
  have hpos : max (seekSet 0 0) (min (seekSet 0 0 + blockSize) v.disk.size) = min blockSize v.disk.size := by
    simp [seekSet]
  unfold cs1550Readdir Disk.listed serve openRoot openDir
  rw [Machine.run_bind, openBlock_run, hblock, hpos, if_neg hpath]
  dsimp only
  by_cases hcount : (sscanf path mem.names).1 > 1
  · rw [if_pos hcount, if_pos (.inr (.inl hcount))]
    rfl
  rw [if_neg hcount]
  by_cases hfound : (findDirectory (onHeap mem.heap (v.disk.block 0)) (sscanf path mem.names).2.directory.1 : Int) =
      nDirectories (onHeap mem.heap (v.disk.block 0))
  · rw [if_pos hfound, if_pos (.inr (.inr hfound))]
    rfl
  rw [if_neg hfound, if_neg (by simp only [hpath, hcount, hfound, or_self, not_false_eq_true]), Machine.run_bind,
    openBlock_run, List.map_map]
  rfl

theorem serve_bind_pure {α β : Type} (p : Req α) (f : α → β) (v : Volume) :
    (serve (p >>= fun a => pure (f a)) v).1 = f (serve p v).1 := by
  unfold serve
  rw [Machine.run_bind]
  rfl

/-- What is listed fits if and only if what stands on the disk before the call leaves room for the dots. -/
theorem Operation.short_iff (o : Operation) (v : Volume) :
    (o.path.1 ≠ [slash] → (serve o.handler v).1.Short) ↔ ∀ file ∈ o.lists v, Joinable file := by
  cases o with
  | readdir mem path =>
    by_cases hpath : path.1 = [slash]
    · have hnone : v.disk.listed mem path = [] := if_pos (.inl hpath)
      change (path.1 ≠ [slash] → _) ↔ ∀ file ∈ v.disk.listed mem path, Joinable file
      rw [hnone]
      constructor
      · rintro - file ⟨⟩
      · intro _ hne
        exact absurd hpath hne
    · change (path.1 ≠ [slash] → _) ↔ ∀ file ∈ v.disk.listed mem path, Joinable file
      unfold Operation.handler
      rw [forall_prop_of_true hpath, serve_bind_pure, Reply.Short, readdir_listed mem hpath]
      simp only [List.mem_append, List.mem_map, or_imp, forall_and, forall_exists_index, and_imp, forall_apply_eq_imp_iff₂]
      rw [and_iff_right (by decide)]
      refine forall₂_congr fun file _ => ?_
      simp only [Joinable, Buffer.size, List.length_append, List.length_cons]
      omega
  | _ =>
    -- nothing is listed
    unfold Operation.handler
    rw [serve_bind_pure]
    exact iff_of_true (fun _ => trivial) (by simp [Operation.lists])

/-! ## Runs -/

theorem Parts.stores_fit (p : Parts) : (∀ w ∈ p.stores, w.Fits) ↔ p.Short := by
  rcases p with _ | d | ⟨d, f⟩ | ⟨d, f, e⟩ <;> simp [Parts.stores, Parts.Short, Store.Fits, Buffer.size]

theorem Parts.not_inEntry (p : Parts) : ∀ w ∈ p.stores, ¬ w.buffer.InEntry := by
  rcases p with _ | d | ⟨d, f⟩ | ⟨d, f, e⟩ <;> simp [Parts.stores, Buffer.InEntry]

theorem Records.fits {path : CString} {short : Prop} {log : List Store} (h : Records path short log) :
    (∀ w ∈ log, w.buffer.InEntry → w.Fits) ∧ ((∀ w ∈ log, w.Fits) ↔ (parts path).Short ∧ short) := by
  obtain ⟨others, rfl, hentry, hothers⟩ := h
  simp only [List.mem_append, or_imp, forall_and]
  refine ⟨⟨fun w hw hin => absurd hin ((parts path).not_inEntry w hw), hentry⟩, and_congr (parts path).stores_fit hothers⟩

/-- One operation: the state it leaves, and the strings it stores. -/
theorem Operation.stored_run (o : Operation) (v : Volume) :
    (o.stored.run machine 0 v).2.2 = (serve o.handler v).2 ∧
      (∀ w ∈ (o.stored.run machine 0 v).1.1, w.buffer.InEntry → w.Fits) ∧
      ((∀ w ∈ (o.stored.run machine 0 v).1.1, w.Fits) ↔ o.Bounded v) := by
  obtain ⟨log, hrun, hlog⟩ := o.logs 0 v
  obtain ⟨hentry, hfits⟩ := hlog.fits
  rw [hrun]
  refine ⟨rfl, hentry, hfits.trans ?_⟩
  constructor
  · rintro ⟨hpath, hlisting⟩
    exact ⟨hpath, (o.short_iff v).1 hlisting⟩
  · intro hb
    exact ⟨hb.path, (o.short_iff v).2 hb.listing⟩

/-- In every run of the handlers the strings stored in entries fit, and all the strings fit if and only if in every
call the names in the path and the names listed do. -/
theorem stores_fit_iff (os : List Operation) (v : Volume) :
    (∀ w ∈ stores os v, w.buffer.InEntry → w.Fits) ∧
      ((∀ w ∈ stores os v, w.Fits) ↔ ∀ x ∈ served os v, x.2.Bounded x.1) := by
  induction os generalizing v with
  | nil => simp [stores, served]
  | cons o os ih =>
    obtain ⟨hstate, hentry, hfits⟩ := o.stored_run v
    obtain ⟨hentry', hfits'⟩ := ih (serve o.handler v).2
    rw [stores, served, hstate]
    simp only [List.mem_append, List.mem_cons, or_imp, forall_and, forall_eq]
    exact ⟨⟨hentry, hentry'⟩, and_congr hfits hfits'⟩

/-- `/a/abcdefgh.txt` -/
def longestPath : CString := ⟨[47, 97, 47, 97, 98, 99, 100, 101, 102, 103, 104, 46, 116, 120, 116], by decide⟩

/-- `/abcdefghi` -/
def overlongPath : CString := ⟨[47, 97, 98, 99, 100, 101, 102, 103, 104, 105], by decide⟩

/-- A file with a name of eight and an extension of three characters overruns `current_filename` when it is listed,
and a directory name of nine characters overruns the array that it is read into. -/
theorem listing_overruns :
    (∃ os, (∀ o ∈ os, (parts o.path).Short) ∧ ¬ ∀ w ∈ stores os (zeroed 10240), w.Fits) ∧
      ¬ ∀ w ∈ stores [.getattr blank overlongPath] (zeroed 10240), w.Fits := by
  refine ⟨⟨[.request ⟨blank, .mkdir dirPath⟩, .request ⟨blank, .mknod longestPath⟩, .readdir blank dirPath], ?_, ?_⟩, ?_⟩
  · decide
  · decide +kernel
  · decide +kernel

/-! ## Names that fit -/

variable {N : Nat} {v : Volume} {t : Tree} {m : Namespace} {h : List (Volume × Request)}

/-- An operation that overruns none of the arrays. -/
def Operation.Fits (v : Volume) (o : Operation) : Prop := ∀ w ∈ stores [o] v, w.Fits

/-- The image shows the names of the map. Whatever fits into the arrays of the handlers is answered as it is on the
map, and overruns none of them. -/
structure Simulates (v : Volume) (m : Namespace) : Prop where
  names : v.disk.names = m.dirs
  distinct : (v.disk.names.map Prod.fst).Nodup
  apart : ∀ e ∈ v.disk.names, e.2.Nodup
  empty : ∀ i j size, v.disk.sizeAt i j = some size → size = 0
  request : ∀ r : Request, r.Creates v → (parts r.call.path).Short →
    (Operation.request r).Fits v ∧ (r.serve v).1 = (m.step r).1 ∧ ((r.serve v).1 < 0 → (r.serve v).2 = v)
  root : ∀ mem path, path.1 = [slash] →
    (Operation.readdir mem path).Fits v ∧ serve (cs1550Readdir mem path) v = ((0, dots ++ m.dirs.map Prod.fst), v)
  absent : ∀ mem path names, sscanf path mem.names = (1, names) → (parts path).Short →
    names.directory.1 ∉ m.dirs.map Prod.fst →
      (Operation.readdir mem path).Fits v ∧ serve (cs1550Readdir mem path) v = ((-ENOENT, dots), v)
  listing : ∀ mem path names files, sscanf path mem.names = (1, names) → (parts path).Short →
    (names.directory.1, files) ∈ m.dirs → (∀ file ∈ files, Joinable file) →
      (Operation.readdir mem path).Fits v ∧
        serve (cs1550Readdir mem path) v = ((0, dots ++ files.map fun file => file.1 ++ dot :: file.2), v)

theorem Operation.fits_iff (o : Operation) (v : Volume) : o.Fits v ↔ o.Bounded v := by
  unfold Operation.Fits
  rw [stores, stores, List.append_nil]
  exact (o.stored_run v).2.2

theorem request_fits_iff (r : Request) (v : Volume) : (Operation.request r).Fits v ↔ (parts r.call.path).Short := by
  rw [Operation.fits_iff]
  exact ⟨fun hb => hb.path, fun hpath => ⟨hpath, by simp [Operation.lists]⟩⟩

/-- Requests list nothing: whether their strings fit does not depend on the image. -/
theorem requests_fit_iff (rs : List Request) (v : Volume) :
    (∀ w ∈ stores (rs.map .request) v, w.Fits) ↔ ∀ r ∈ rs, (parts r.call.path).Short := by
  induction rs generalizing v with
  | nil => simp [stores]
  | cons r rs ih =>
    have hr := request_fits_iff r v
    rw [Operation.Fits, stores, stores, List.append_nil] at hr
    rw [List.map_cons, stores]
    simp only [List.mem_append, List.mem_cons, or_imp, forall_and, forall_eq]
    exact and_congr hr (ih _)

theorem readdir_fits (mem : Memory) {path : CString} (hshort : (parts path).Short)
    (hnames : path.1 ≠ [slash] → ∀ name ∈ (serve (cs1550Readdir mem path) v).1.2,
      name.length + 1 ≤ Buffer.currentFilename.size) : (Operation.readdir mem path).Fits v := by
  rw [Operation.fits_iff]
  refine ⟨hshort, ((Operation.readdir mem path).short_iff v).1 fun hpath => ?_⟩
  unfold Operation.handler
  rw [serve_bind_pure]
  exact hnames hpath

theorem Named.simulates (hN : roomForNames ≤ N) (hn : Named N v t m) : Simulates v m := by
  have hnames : v.disk.names = m.dirs := hn.rep.names_eq.trans hn.names
  have hdots : ∀ name ∈ dots, name.length + 1 ≤ Buffer.currentFilename.size := by decide
  refine ⟨hnames, hnames ▸ m.distinct, hnames ▸ m.apart, fun i j size hsize => ?_, fun r hc hshort => ?_,
    fun mem path hpath => ?_, fun mem path names hscan hshort hdir => ?_,
    fun mem path names files hscan hshort hdir hfiles => ?_⟩
  · rw [hn.rep.listed.sizeAt_eq] at hsize
    obtain ⟨D, hD, hsize⟩ := Option.bind_eq_some_iff.1 hsize
    obtain ⟨f, hf, rfl⟩ := Option.map_eq_some_iff.1 hsize
    rw [hn.bare.empty i D j f hD hf, List.length_nil]
  · exact ⟨(request_fits_iff r v).2 hshort, (hn.step hN hc).2⟩
  · have hserve := serve_of_yields (hn.rep.readdir_root mem hpath)
    rw [hn.names] at hserve
    refine ⟨readdir_fits mem ?_ fun hne => absurd hpath hne, hserve⟩
    rw [← Parts.stores_fit, parts_slash hpath]
    simp
  · have hserve := serve_of_yields (hn.readdir_none mem hscan hdir)
    refine ⟨readdir_fits mem hshort fun _ => ?_, hserve⟩
    rw [hserve]
    exact hdots
  · have hserve := serve_of_yields (hn.readdir mem hscan hdir)
    refine ⟨readdir_fits mem hshort fun _ name hname => ?_, hserve⟩
    rw [hserve] at hname
    rcases List.mem_append.1 hname with hdot | hfile
    · exact hdots name hdot
    · obtain ⟨file, hmem, rfl⟩ := List.mem_map.1 hfile
      have hlt := hfiles file hmem
      simp only [Joinable, Buffer.size, List.length_append, List.length_cons] at hlt ⊢
      omega

/-- A run of `mkdir` and `mknod` from an image of zeros on overruns no array and simulates the ordered map if and only
if every name in its paths fits into the array that `sscanf` stores it in. -/
theorem namespace_simulated (hN : roomForNames ≤ N) (hp : RunFrom N h v) (hc : ∀ x ∈ h, x.2.Creates x.1) :
    ((∀ w ∈ stores (h.map fun x => .request x.2) (zeroed N), w.Fits) ∧ Simulates v (namespaceAfter h)) ↔
      ∀ x ∈ h, (parts x.2.call.path).Short := by
  obtain ⟨t, hn⟩ := named_of_run hN hp hc
  rw [and_iff_left (hn.simulates hN)]
  have hfit := requests_fit_iff (h.map Prod.snd) (zeroed N)
  rw [List.map_map, List.forall_mem_map] at hfit
  exact hfit

/-- A directory with a file, and then the same file again. -/
theorem namespace_simulated_twice :
    (serveAll (zeroed 10240) [⟨blank, .mkdir dirPath⟩, ⟨blank, .mknod filePath⟩]).2.disk.names = [([97], [([102], [116])])] ∧
      (Request.serve ⟨blank, .mknod filePath⟩
        (serveAll (zeroed 10240) [⟨blank, .mkdir dirPath⟩, ⟨blank, .mknod filePath⟩]).2).1 = -EEXIST := by
  have hsim := ((namespace_simulated (N := 10240) (by decide)
    (run_serveAll 10240 [⟨blank, .mkdir dirPath⟩, ⟨blank, .mknod filePath⟩]) (by decide +kernel)).2 (by decide +kernel)).2
  refine ⟨hsim.names.trans (by decide +kernel), ?_⟩
  have hnext := hsim.request ⟨blank, .mknod filePath⟩ (by decide +kernel) (by decide)
  exact hnext.2.1.trans (by decide +kernel)

/-- `/a/f.text` -/
def overlongFile : CString := ⟨[47, 97, 47, 102, 46, 116, 101, 120, 116], by decide⟩

/-- `cs1550_mkdir` with a name of nine characters and `cs1550_mknod` with an extension of four overrun their arrays
before they come to the test that refuses them. -/
theorem long_names_overrun :
    (Request.Creates (zeroed 10240) ⟨blank, .mkdir overlongPath⟩ ∧
      ¬ ∀ w ∈ stores [.request ⟨blank, .mkdir overlongPath⟩] (zeroed 10240), w.Fits) ∧
    Request.Creates (zeroed 10240) ⟨blank, .mknod overlongFile⟩ ∧
      ¬ ∀ w ∈ stores [.request ⟨blank, .mknod overlongFile⟩] (zeroed 10240), w.Fits := by
  refine ⟨⟨?_, ?_⟩, ?_, ?_⟩ <;> decide +kernel

end CS1550.Fs
