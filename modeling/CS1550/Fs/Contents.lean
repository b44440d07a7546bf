/-
What is in a file. `Tree.find` is the file of a name, and a request changes at most the one it names.
In a run of appends the contents of a file are the buffers appended to it, one after the other, and a
read returns them from its offset on; a write that is read back gives the buffer written.
-/
import CS1550.Fs.Ownership

namespace CS1550.Fs

open Bytes

variable {N : Nat} {v : Volume} {t : Tree} {h : List (Volume × Request)}

/-! ## The requests on the tree -/

/-- The request has returned an error and had no effect. -/
def Tree.Refused (t : Tree) (r : Int × Tree) : Prop := r.1 < 0 ∧ r.2 = t

theorem Tree.refused {e : Int} (he : e < 0) : t.Refused (e, t) := ⟨he, rfl⟩

theorem Tree.mkdir_cases (t : Tree) (path : CString) (names : Names) :
    t.Refused (t.mkdir path names) ∨
      ∃ names', sscanf path names = (1, names') ∧ names'.directory.1.length ≤ maxDirname ∧
        t.dirs[t.dirIndex names'.directory]? = none ∧ t.dirs.length < maxDirsInRoot ∧
        t.mkdir path names = (0, { dirs := t.dirs ++ [⟨names'.directory, t.used + 1, []⟩], used := t.used + 1 }) := by
  unfold Tree.mkdir
  generalize sscanf path names = r
  obtain ⟨count, names'⟩ := r
  dsimp only
  by_cases hcount : count ≠ 1
  · rw [if_pos hcount]
    exact .inl (Tree.refused (by decide))
  rw [if_neg hcount]
  by_cases hname : names'.directory.1.length > maxDirname
  · rw [if_pos hname]
    exact .inl (Tree.refused (by decide))
  rw [if_neg hname]
  by_cases hex : t.dirIndex names'.directory < t.dirs.length
  · rw [if_pos hex]
    exact .inl (Tree.refused (by decide))
  rw [if_neg hex]
  by_cases hfull : t.dirs.length ≥ maxDirsInRoot
  · rw [if_pos hfull]
    exact .inl (Tree.refused (by decide))
  rw [if_neg hfull]
  exact .inr ⟨names', by rw [not_not.1 hcount], by omega, List.getElem?_eq_none (by omega), by omega, rfl⟩

theorem Tree.mknod_cases (t : Tree) (path : CString) (names : Names) :
    t.Refused (t.mknod path names) ∨
      ∃ names' D, sscanf path names = (3, names') ∧ names'.filename.1.length ≤ maxFilename ∧
        names'.extension.1.length ≤ maxExtension ∧ t.dirs[t.dirIndex names'.directory]? = some D ∧
        D.files[D.fileIndex names'.filename names'.extension]? = none ∧
        t.mknod path names = (0, t.modify (t.dirIndex names'.directory)
          (· ++ [⟨names'.filename, names'.extension, [], [t.used + 1]⟩]) (t.used + 1)) := by
  have hthree := sscanf_le_three path names
  unfold Tree.mknod
  generalize sscanf path names = r at hthree
  obtain ⟨count, names'⟩ := r
  dsimp only
  by_cases hcount : count < 3
  · rw [if_pos hcount]
    exact .inl (Tree.refused (by decide))
  rw [if_neg hcount]
  by_cases hnames : names'.filename.1.length > maxFilename ∨ names'.extension.1.length > maxExtension
  · rw [if_pos hnames]
    exact .inl (Tree.refused (by decide))
  rw [if_neg hnames]
  cases hD : t.dirs[t.dirIndex names'.directory]? with
  | none => exact .inl (Tree.refused (by decide))
  | some D =>
    dsimp only
    by_cases hex : D.fileIndex names'.filename names'.extension < D.files.length
    · rw [if_pos hex]
      exact .inl (Tree.refused (by decide))
    rw [if_neg hex]
    obtain rfl : count = 3 := le_antisymm hthree (not_lt.1 hcount)
    exact .inr ⟨names', D, rfl, by omega, by omega, hD, List.getElem?_eq_none (by omega), rfl⟩

/-- The number of blocks handed out for a write. -/
def Tree.usedBy (t : Tree) (buf : List UInt8) (offset : Nat) : Nat :=
  if adjusted offset + buf.length ≤ maxDataInBlock then t.used else t.used + 1

theorem Tree.write_cases (t : Tree) (path : CString) (names : Names) (buf : List UInt8) (offset : Int) :
    t.Refused (t.write path names buf offset) ∨
      ∃ names' D f, sscanf path names = (3, names') ∧ 0 < buf.length ∧
        t.dirs[t.dirIndex names'.directory]? = some D ∧
        D.files[D.fileIndex names'.filename names'.extension]? = some f ∧ asSize offset ≤ f.contents.length ∧
        t.write path names buf offset = (asInt buf.length, t.modify (t.dirIndex names'.directory)
          (·.set (D.fileIndex names'.filename names'.extension) (f.write (t.used + 1) buf (asSize offset)))
          (t.usedBy buf (asSize offset))) := by
  unfold Tree.write
  generalize sscanf path names = r
  obtain ⟨count, names'⟩ := r
  dsimp only
  by_cases hempty : buf.length = 0
  · rw [if_pos hempty]
    exact .inl (Tree.refused (by decide))
  rw [if_neg hempty]
  by_cases hcount : count ≠ 3
  · rw [if_pos hcount]
    exact .inl (Tree.refused (by decide))
  rw [if_neg hcount]
  cases hD : t.dirs[t.dirIndex names'.directory]? with
  | none => exact .inl (Tree.refused (by decide))
  | some D =>
    dsimp only
    cases hf : D.files[D.fileIndex names'.filename names'.extension]? with
    | none => exact .inl (Tree.refused (by decide))
    | some f =>
      dsimp only
      by_cases hbig : asSize offset > f.contents.length
      · rw [if_pos hbig]
        exact .inl (Tree.refused (by decide))
      rw [if_neg hbig]
      exact .inr ⟨names', D, f, by rw [not_not.1 hcount], by omega, hD, hf, by omega, rfl⟩

theorem Rep.fits (hr : Rep N v t) : t.Fits := by
  intro D hD
  obtain ⟨i, hi⟩ := List.getElem?_of_mem hD
  exact (hr.directory i D hi).length_le

/-- A write makes no file. -/
theorem Tree.fits_write (hfits : t.Fits) (path : CString) (names : Names) (buf : List UInt8) (offset : Int) :
    (t.write path names buf offset).2.Fits := by
  rcases t.write_cases path names buf offset with ⟨-, heq⟩ | ⟨names', D, f, -, -, hD, -, -, heq⟩
  · rwa [heq]
  · rw [heq]
    intro D' hD'
    obtain ⟨i, hi⟩ := List.getElem?_of_mem hD'
    rcases Tree.modify_some hi with ⟨rfl, D₀, hD₀, rfl⟩ | ⟨-, hold⟩
    · rw [List.length_set]
      exact hfits D₀ (List.mem_of_getElem? hD₀)
    · exact hfits D' (List.mem_of_getElem? hold)

/-! ## The file of a name -/

theorem Tree.dirIndex_modify {i used : Nat} {g : List File → List File} (directory : CString) :
    (t.modify i g used).dirIndex directory = t.dirIndex directory := by
  have hmap : ∀ ds : List Directory,
      ds.findIdx (·.dname == directory) = (ds.map Directory.dname).findIdx (· == directory) := fun ds => by
    rw [List.findIdx_map]
    rfl
  rw [Tree.dirIndex, Tree.dirIndex, hmap, hmap]
  congr 1
  apply List.ext_getElem?
  intro k
  rw [Tree.modify, List.getElem?_map, List.getElem?_map, List.getElem?_modify]
  cases t.dirs[k]? with
  | none => rfl
  | some D =>
    simp only [Option.map_eq_map, Option.map_some]
    split <;> rfl

/-- A new directory is empty. -/
theorem Tree.find_addDirectory {name : CString} {block used : Nat} (names : Names) :
    Tree.find { dirs := t.dirs ++ [⟨name, block, []⟩], used } names = t.find names := by
  unfold Tree.find Tree.dirIndex
  dsimp only
  rw [List.findIdx_append]
  split
  · next hlt => rw [List.getElem?_append_left hlt]
  · next hge =>
    rw [List.getElem?_append_right (by omega), List.getElem?_eq_none (l := t.dirs) (by omega), List.getElem?_singleton]
    split <;> rfl

theorem Tree.find_modify_ne {i used : Nat} {g : List File → List File} {names : Names}
    (hi : t.dirIndex names.directory ≠ i) : (t.modify i g used).find names = t.find names := by
  rw [Tree.find, Tree.dirIndex_modify, Tree.modify, List.getElem?_modify, Tree.find]
  simp [Ne.symm hi]

theorem Tree.find_modify {used : Nat} {g : List File → List File} {names : Names} {D : Directory}
    (hD : t.dirs[t.dirIndex names.directory]? = some D) :
    (t.modify (t.dirIndex names.directory) g used).find names =
      (g D.files)[(g D.files).findIdx fun f => f.fname == names.filename && f.fext == names.extension]? := by
  rw [Tree.find, Tree.dirIndex_modify, Tree.modify_self hD]
  rfl

/-- The contents of a file; none where there is no such file. -/
def Tree.contentsOf (t : Tree) (names : Names) : List UInt8 := ((t.find names).map File.contents).getD []

/-- A new file is found under its name, unless there was one of that name. -/
theorem Tree.find_addFile {i used : Nat} {D : Directory} {f : File} (hD : t.dirs[i]? = some D) (names : Names) :
    (t.modify i (· ++ [f]) used).find names = (t.find names).or
      (if t.dirIndex names.directory = i ∧ f.fname = names.filename ∧ f.fext = names.extension then some f else none) := by
  by_cases hi : t.dirIndex names.directory = i
  · subst hi
    rw [Tree.find_modify hD, Tree.find_eq hD, List.findIdx_append, Directory.fileIndex]
    split
    · next hlt =>
      rw [List.getElem?_append_left hlt, List.getElem?_eq_getElem hlt]
      rfl
    · next hge =>
      rw [List.getElem?_append_right (by omega), List.getElem?_eq_none (l := D.files) (by omega), Option.none_or]
      have hiff : (f.fname == names.filename && f.fext == names.extension) = true ↔
          f.fname = names.filename ∧ f.fext = names.extension := by
        rw [Bool.and_eq_true, beq_iff_eq, beq_iff_eq]
      by_cases hnames : f.fname = names.filename ∧ f.fext = names.extension
      · rw [if_pos ⟨rfl, hnames⟩, List.findIdx_cons, hiff.2 hnames]
        simp
      · rw [if_neg fun hboth => hnames hboth.2, List.findIdx_cons, Bool.eq_false_of_not_eq_true (mt hiff.1 hnames)]
        simp
  · rw [Tree.find_modify_ne hi, if_neg fun hboth => hi hboth.1, Option.or_none]

/-- A new file is empty. -/
theorem Tree.contentsOf_addFile {i used : Nat} {D : Directory} {f : File} (hD : t.dirs[i]? = some D)
    (hf : f.contents = []) (names : Names) :
    (t.modify i (· ++ [f]) used).contentsOf names = t.contentsOf names := by
  unfold Tree.contentsOf
  rw [Tree.find_addFile hD]
  cases t.find names with
  | some f' => rfl
  | none =>
    rw [Option.none_or]
    split
    · exact hf
    · rfl

theorem findIdx_set {α : Type} {p : α → Bool} {xs : List α} {j : Nat} {x x' : α} (hx : xs[j]? = some x)
    (hp : p x' = p x) : (xs.set j x').findIdx p = xs.findIdx p := by
  have hmap : ∀ ys : List α, ys.findIdx p = (ys.map p).findIdx id := fun ys => by
    rw [List.findIdx_map]
    rfl
  rw [hmap, hmap]
  congr 1
  apply List.ext_getElem?
  intro k
  rw [List.getElem?_map, List.getElem?_map]
  by_cases hk : j = k
  · subst hk
    rw [List.getElem?_set_self (List.getElem?_eq_some_iff.1 hx).1, hx, Option.map_some, Option.map_some, hp]
  · rw [List.getElem?_set_ne hk]

/-- A file replaced by one of the same name. -/
theorem Tree.find_setFile {names : Names} {D : Directory} {f : File} (f' : File) (used : Nat)
    (hD : t.dirs[t.dirIndex names.directory]? = some D)
    (hf : D.files[D.fileIndex names.filename names.extension]? = some f) (hname : f'.fname = f.fname)
    (hext : f'.fext = f.fext) (names' : Names) :
    (t.modify (t.dirIndex names.directory) (·.set (D.fileIndex names.filename names.extension) f') used).find names' =
      if names' = names then some f' else t.find names' := by
  obtain ⟨hfname, hfext⟩ := Directory.names_of_fileIndex hf
  by_cases hi : t.dirIndex names'.directory = t.dirIndex names.directory
  · have hD' : t.dirs[t.dirIndex names'.directory]? = some D := hi ▸ hD
    have hdir : names'.directory = names.directory :=
      (Tree.dname_of_dirIndex hD').symm.trans (Tree.dname_of_dirIndex hD)
    rw [← hi, Tree.find_modify hD', Tree.find_eq hD',
      findIdx_set hf (by rw [hname, hext]), ← Directory.fileIndex]
    by_cases hj : D.fileIndex names'.filename names'.extension = D.fileIndex names.filename names.extension
    · obtain ⟨hfname', hfext'⟩ := Directory.names_of_fileIndex (hj ▸ hf)
      have hnames : names' = names := by
        cases names
        cases names'
        simp_all
      rw [if_pos hnames, hj, List.getElem?_set_self (List.getElem?_eq_some_iff.1 hf).1]
    · rw [if_neg fun hnames => hj (by rw [hnames]), List.getElem?_set_ne (Ne.symm hj)]
  · rw [Tree.find_modify_ne hi, if_neg fun hnames => hi (by rw [hnames])]

/-! ## Appends -/

/-- The number of blocks that a file of that size needs. -/
def blocksFor (size : Nat) : Nat := max 1 ((size + (maxDataInBlock - 1)) / maxDataInBlock)

/-- A write that adds up to a block at the end of the file it names, if there is one. -/
def Request.Appends (v : Volume) (r : Request) : Prop :=
  match r.call with
  | .write path buf offset =>
    1 ≤ buf.length ∧ buf.length ≤ maxDataInBlock ∧
      ((sscanf path r.mem.names).1 = 3 → ∀ size ∈ v.disk.sizeOf (sscanf path r.mem.names).2, asSize offset = size)
  | _ => True

instance (v : Volume) : (r : Request) → Decidable (r.Appends v)
  | ⟨_, .mkdir _⟩ => isTrue trivial
  | ⟨_, .mknod _⟩ => isTrue trivial
  | ⟨_, .write _ buf _⟩ => inferInstanceAs (Decidable (1 ≤ buf.length ∧ _))

/-- What a request has appended to the file of that name: the buffer of a write that has returned its
size. -/
def Request.appended (names : Names) (v : Volume) (r : Request) : List UInt8 :=
  match r.call with
  | .write path buf _ => if sscanf path r.mem.names = (3, names) ∧ (r.serve v).1 = buf.length then buf else []
  | _ => []

/-- The buffers appended to the file of that name in a run. -/
def appended (names : Names) (h : List (Volume × Request)) : List UInt8 := h.flatMap fun x => x.2.appended names x.1

theorem Request.Appends.short {r : Request} (ha : r.Appends v) : r.Short v := by
  obtain ⟨mem, call⟩ := r
  cases call with
  | mkdir path => trivial
  | mknod path => trivial
  | write path buf offset =>
    intro _ size _ _
    have hadj := adjusted_le (asSize offset)
    have hlen := ha.2.1
    omega

/-- No chain has a block too many. -/
def Tree.Tight (t : Tree) : Prop :=
  ∀ (i : Nat) (D : Directory) (j : Nat) (f : File), t.dirs[i]? = some D → D.files[j]? = some f →
    f.chain.length = blocksFor f.contents.length

theorem tight_write {f : File} {fresh : Nat} {buf : List UInt8} (hf : f.chain.length = blocksFor f.contents.length)
    (hlen : buf.length ≤ maxDataInBlock) :
    (f.write fresh buf f.contents.length).chain.length =
      blocksFor (f.write fresh buf f.contents.length).contents.length := by
  have hmax : maxDataInBlock = 504 := rfl
  have hoffset := offset_eq f.contents.length
  have hadj := adjusted_le f.contents.length
  have hstart : startBlock f.contents.length = (f.contents.length - 1) / maxDataInBlock := rfl
  have hcontents : (f.write fresh buf f.contents.length).contents.length = f.contents.length + buf.length :=
    length_contents_write (le_refl _)
  rw [hcontents]
  simp only [blocksFor, hmax] at hf hoffset hadj hstart hlen ⊢
  unfold File.write
  dsimp only
  split
  · next hfit =>
    rw [hmax] at hfit
    omega
  · next hover =>
    rw [hmax] at hover
    rw [List.length_append, List.length_take, List.length_singleton]
    omega

/-- One append, on the tree. -/
theorem Rep.append (hr : Rep N v t) (htight : t.Tight) {r : Request} (ha : r.Appends v) :
    (t.step r).2.Tight ∧
      ∀ names, (t.step r).2.contentsOf names = t.contentsOf names ++ r.appended names v := by
  have hret : (r.serve v).1 = (t.step r).1 := (hr.step ha.short).ret
  obtain ⟨mem, call⟩ := r
  cases call with
  | mkdir path =>
    simp only [Tree.step, Request.appended, List.append_nil]
    rcases t.mkdir_cases path mem.names with ⟨-, heq⟩ | ⟨names', -, -, -, -, heq⟩
    · rw [heq]
      exact ⟨htight, fun _ => rfl⟩
    · rw [heq]
      refine ⟨fun i D j f hD hf => ?_, fun names => ?_⟩
      · rcases getElem?_concat hD with hold | ⟨-, rfl⟩
        · exact htight i D j f hold hf
        · simp at hf
      · rw [Tree.contentsOf, Tree.find_addDirectory, Tree.contentsOf]
  | mknod path =>
    simp only [Tree.step, Request.appended, List.append_nil]
    rcases t.mknod_cases path mem.names with ⟨-, heq⟩ | ⟨names', D, -, -, -, hD, -, heq⟩
    · rw [heq]
      exact ⟨htight, fun _ => rfl⟩
    · rw [heq]
      refine ⟨fun i D' j f hD' hf => ?_, fun names => Tree.contentsOf_addFile hD rfl names⟩
      rcases Tree.modify_some hD' with ⟨rfl, D₀, hD₀, rfl⟩ | ⟨-, hold⟩
      · rcases getElem?_concat hf with hold | ⟨-, rfl⟩
        · exact htight _ D₀ j f hD₀ hold
        · simp [blocksFor, maxDataInBlock, blockSize]
      · exact htight i D' j f hold hf
  | write path buf offset =>
    obtain ⟨hpos, hlen, hsize⟩ := ha
    have hmax : maxDataInBlock = 504 := rfl
    simp only [Tree.step] at hret ⊢
    rcases t.write_cases path mem.names buf offset with ⟨hneg, heq⟩ | ⟨names', D, f, hscan, -, hD, hf, hoff, heq⟩
    · rw [heq]
      refine ⟨htight, fun names => ?_⟩
      simp only [Request.appended]
      rw [if_neg, List.append_nil]
      rintro ⟨-, hok⟩
      rw [hret] at hok
      omega
    · simp only [hscan, hr.listed.sizeOf_eq, Tree.find_eq hD, hf] at hsize
      have hend : asSize offset = f.contents.length := hsize trivial _ rfl
      rw [hend] at heq
      rw [heq]
      have hok : (Request.serve ⟨mem, .write path buf offset⟩ v).1 = buf.length := by
        have hval := asInt_of_lt (n := buf.length) (by omega)
        rw [hret, heq]
        dsimp only
        exact hval
      refine ⟨fun i D' j g hD' hg => ?_, fun names => ?_⟩
      · rcases Tree.modify_some hD' with ⟨rfl, D₀, hD₀, rfl⟩ | ⟨-, hold⟩
        · obtain rfl := Option.some.inj (hD₀.symm.trans hD)
          by_cases hj : D₀.fileIndex names'.filename names'.extension = j
          · subst hj
            rw [List.getElem?_set_self (List.getElem?_eq_some_iff.1 hf).1] at hg
            obtain rfl := Option.some.inj hg
            exact tight_write (htight _ D₀ _ f hD hf) hlen
          · rw [List.getElem?_set_ne hj] at hg
            exact htight _ D₀ j g hD hg
        · exact htight i D' j g hold hg
      · have hfind := Tree.find_setFile (f.write (t.used + 1) buf f.contents.length) (t.usedBy buf f.contents.length) hD hf
          rfl rfl names
        simp only [Request.appended, hscan, Tree.contentsOf]
        rw [hfind]
        by_cases hnames : names = names'
        · rw [if_pos hnames, if_pos ⟨by rw [hnames], hok⟩, hnames, Tree.find_eq hD, hf]
          simp [File.write]
        · rw [if_neg hnames, if_neg fun h => hnames (by simpa using h.1.symm), List.append_nil]

theorem Tree.contentsOf_eq {names : Names} {f : File} (hf : t.find names = some f) : t.contentsOf names = f.contents := by
  rw [Tree.contentsOf, hf]
  rfl

/-- After every run of appends, on the tree. -/
theorem rep_appended (hp : RunFrom N h v) (hfront : ∀ x ∈ Run.visited h v, InFront N x.cursor)
    (hfiles : ∀ x ∈ Run.visited h v, FilesWithin x) (happend : ∀ x ∈ h, x.2.Appends x.1) :
    Rep N v (treeAfter h) ∧ (treeAfter h).Tight ∧ ∀ names, (treeAfter h).contentsOf names = appended names h := by
  refine ⟨rep_treeAfter hp hfront hfiles fun x hx => (happend x hx).short, ?_⟩
  induction hp with
  | start => exact ⟨fun i D j f hD => by simp [treeAfter, Tree.empty] at hD, fun names => rfl⟩
  | @step h v v' r hp hs ih =>
    have hfront' : ∀ x ∈ Run.visited h v, InFront N x.cursor := fun x hx => hfront x (Run.mem_visited_append.2 (.inl hx))
    have hfiles' : ∀ x ∈ Run.visited h v, FilesWithin x := fun x hx => hfiles x (Run.mem_visited_append.2 (.inl hx))
    have happend' : ∀ x ∈ h, x.2.Appends x.1 := fun x hx => happend x (List.mem_append_left _ hx)
    obtain ⟨htight, hlog⟩ := ih hfront' hfiles' happend'
    have hr := rep_treeAfter hp hfront' hfiles' fun x hx => (happend' x hx).short
    obtain ⟨htight', hstep⟩ := hr.append htight (happend (v, r) (by simp))
    have htree : treeAfter (h ++ [(v, r)]) = ((treeAfter h).step r).2 := List.foldl_append ..
    rw [htree]
    refine ⟨htight', fun names => ?_⟩
    rw [hstep, hlog, appended, appended, List.flatMap_append, List.flatMap_singleton]

/-- In every run of appends each file has just the blocks it needs, and a read up to the end of a file
returns what was appended to it, from the offset on. -/
theorem appends_isolated (hp : RunFrom N h v) (hfront : ∀ x ∈ Run.visited h v, InFront N x.cursor)
    (hfiles : ∀ x ∈ Run.visited h v, FilesWithin x) (happend : ∀ x ∈ h, x.2.Appends x.1) :
    (∀ i j size, v.disk.sizeAt i j = some size →
      ∀ n, (v.disk.blockAt (.data i j n)).isSome ↔ n < blocksFor size) ∧
    ∀ mem path names fsize, sscanf path mem.names = (3, names) → v.disk.sizeOf names = some fsize →
      (appended names h).length = fsize ∧
      ∀ size offset, 1 ≤ size → size < 2 ^ 64 → asSize offset ≤ fsize → fsize ≤ addSize (asSize offset) size →
        serve (cs1550Read mem path size offset) v =
          ((((fsize - asSize offset : Nat) : Int), (appended names h).drop (asSize offset)), v) := by
  obtain ⟨hr, htight, hlog⟩ := rep_appended hp hfront hfiles happend
  constructor
  · intro i j size hsize n
    rw [hr.listed.sizeAt_eq] at hsize
    obtain ⟨D, hD, hsize⟩ := Option.bind_eq_some_iff.1 hsize
    obtain ⟨f, hf, rfl⟩ := Option.map_eq_some_iff.1 hsize
    rw [hr.blockAt_eq, Option.isSome_map, Tree.blockAt, hD, Option.bind_some, hf, Option.bind_some,
      ← htight i D j f hD hf]
    simp
  · intro mem path names fsize hscan hsize
    rw [hr.listed.sizeOf_eq] at hsize
    obtain ⟨f, hfind, rfl⟩ := Option.map_eq_some_iff.1 hsize
    obtain ⟨D, hD, hf⟩ := Tree.find_some hfind
    rw [← hlog names, Tree.contentsOf_eq hfind]
    refine ⟨rfl, fun size offset hpos hsize hoff hend => ?_⟩
    have hsmall := hr.contents_lt hD hf
    have hy := hr.read mem offset hscan (by omega) hsize hD hf hoff hend
    rw [asInt_of_lt (by omega)] at hy
    exact serve_of_yields hy

/-- `/a/g.t` -/
def otherPath : CString := ⟨[47, 97, 47, 103, 46, 116], by decide⟩

/-- A file that needs a second block, with an append to another one in between. -/
def twoFiles : List Request :=
  [⟨blank, .mkdir dirPath⟩, ⟨blank, .mknod filePath⟩, ⟨blank, .mknod otherPath⟩,
    ⟨blank, .write filePath (List.replicate 504 1) 0⟩, ⟨blank, .write otherPath [5, 6, 7] 0⟩,
    ⟨blank, .write filePath [2, 3] 504⟩]

theorem appends_isolated_twoFiles :
    serve (cs1550Read blank filePath 100 503) (serveAll (zeroed 10240) twoFiles).2 =
      ((3, [1, 2, 3]), (serveAll (zeroed 10240) twoFiles).2) := by
  have hread := (appends_isolated (run_serveAll 10240 twoFiles) (by decide +kernel) (by decide +kernel)
    (by decide +kernel)).2 blank filePath (sscanf filePath blank.names).2 506 (by decide +kernel) (by decide +kernel)
  have hlog : (appended (sscanf filePath blank.names).2 (serveAll (zeroed 10240) twoFiles).1).drop 503 = [1, 2, 3] := by
    decide +kernel
  have h3 := hread.2 100 503 (by decide) (by decide) (by decide) (by decide)
  rw [show asSize 503 = 503 from rfl, hlog] at h3
  exact h3

/-! ## A write read back -/

section WriteFound

variable {path : CString} {names : Names} {D : Directory} {f : File} {buf : List UInt8} {offset : Int}

/-- A write to an existing file that ends in the block it starts in or in the one behind it. -/
theorem Rep.write_short (hr : Rep N v t) (mem : Memory) (hscan : sscanf path mem.names = (3, names))
    (hD : t.dirs[t.dirIndex names.directory]? = some D)
    (hf : D.files[D.fileIndex names.filename names.extension]? = some f) (hpos : 1 ≤ buf.length)
    (hoff : asSize offset ≤ f.contents.length) (hshort : adjusted (asSize offset) + buf.length ≤ 2 * maxDataInBlock)
    (hin : InFront N (max 1 (t.usedBy buf (asSize offset)) : Nat)) :
    ∃ v' t', machine.Yields (cs1550Write mem path buf offset) v (asInt buf.length) v' ∧ Rep N v' t' ∧
      t'.used = t.usedBy buf (asSize offset) ∧ t'.find names = some (f.write (t.used + 1) buf (asSize offset)) := by
  obtain ⟨v', href⟩ := hr.write mem path buf offset fun _ _ _ _ => hshort
  have heq : t.write path mem.names buf offset = (asInt buf.length, t.modify (t.dirIndex names.directory)
      (·.set (D.fileIndex names.filename names.extension) (f.write (t.used + 1) buf (asSize offset)))
      (t.usedBy buf (asSize offset))) := by
    unfold Tree.write
    rw [hscan]
    dsimp only
    rw [if_neg (by omega), if_neg (by simp), hD]
    dsimp only
    rw [hf]
    dsimp only
    rw [if_neg (by omega)]
    rfl
  have hcursor := href.cursor
  have hfits := Tree.fits_write hr.fits path mem.names buf offset
  rw [heq] at hcursor hfits
  have hr' := href.rep (hcursor ▸ hin) (.inr (heq ▸ hfits))
  have hy := href.yields
  rw [heq] at hr' hy
  dsimp only at hr' hy
  have hfind := Tree.find_setFile (f.write (t.used + 1) buf (asSize offset)) (t.usedBy buf (asSize offset)) hD hf
    rfl rfl names
  rw [if_pos rfl] at hfind
  exact ⟨v', _, hy, hr', rfl, hfind⟩

/-- A write to an existing file that needs a third block. -/
theorem Rep.write_long (hr : Rep N v t) (mem : Memory) (hscan : sscanf path mem.names = (3, names))
    (hD : t.dirs[t.dirIndex names.directory]? = some D)
    (hf : D.files[D.fileIndex names.filename names.extension]? = some f) (hsize : buf.length < 2 ^ 31)
    (hoff : asSize offset ≤ f.contents.length) (hlong : 2 * maxDataInBlock < adjusted (asSize offset) + buf.length)
    (hin : InFront N (t.used + 2 : Nat)) :
    ∃ v' t', machine.Yields (cs1550Write mem path buf offset) v (asInt buf.length) v' ∧
      Overrun t f (asSize offset) buf v'.disk ∧
      (∀ p x, p < asSize offset → f.contents[p]? = some x →
        dataAt v'.disk (f.overrun (asSize offset) t.used) p = x) ∧
      Listed v'.disk t' ∧ t'.find names = some (f.resize (asSize offset + buf.length)) := by
  have hmax : maxDataInBlock = 504 := rfl
  have hadj := adjusted_le (asSize offset)
  have hsmall := hr.contents_lt hD hf
  obtain ⟨b, hb, hbecomes⟩ := hr.writeFile mem buf hD hf hoff (-EEXIST) (-ENOENT)
  rw [addSize_of_lt (by omega)] at hbecomes
  obtain ⟨v', hy, ho, hbefore, hlisted⟩ := hr.overrun hin mem hD hf hb (by rw [addSize_of_lt (by omega)]; omega) hlong
    (show asSize offset + buf.length < 2 ^ 64 by omega)
  refine ⟨v', _, ?_, ho, hbefore, hlisted t.used, ?_⟩
  · unfold cs1550Write
    rw [hscan]
    dsimp only
    rw [if_neg (by omega), if_neg (by simp)]
    exact hbecomes.yields hy
  · rw [Tree.find_setFile (f.resize (asSize offset + buf.length)) t.used hD hf rfl rfl names, if_pos rfl]

end WriteFound

/-- A write that ends in the block it starts in or in the one behind it, read back. -/
theorem Rep.read_after_short (hr : Rep N v t) (mem mem' : Memory) {path : CString} {names : Names} {D : Directory}
    {f : File} {buf : List UInt8} {offset : Int} (hscan : sscanf path mem.names = (3, names))
    (hD : t.dirs[t.dirIndex names.directory]? = some D)
    (hf : D.files[D.fileIndex names.filename names.extension]? = some f) (hpos : 1 ≤ buf.length)
    (hsize : buf.length < 2 ^ 31) (hoff : asSize offset ≤ f.contents.length)
    (hshort : adjusted (asSize offset) + buf.length ≤ 2 * maxDataInBlock)
    (hin : InFront N (max 1 (t.usedBy buf (asSize offset)) : Nat)) :
    (serve (cs1550Write mem path buf offset) v).1 = buf.length ∧
      (serve (cs1550Read mem' path buf.length offset) (serve (cs1550Write mem path buf offset) v).2).1 =
        ((buf.length : Int), buf) := by
  obtain ⟨v', t', hy, hr', -, hfind⟩ := hr.write_short mem hscan hD hf hpos hoff hshort hin
  obtain ⟨D', hD', hf'⟩ := Tree.find_some hfind
  have hlen : (f.write (t.used + 1) buf (asSize offset)).contents.length = asSize offset + buf.length :=
    length_contents_write hoff
  have hsmall := hr.contents_lt hD hf
  have hend : addSize (asSize offset) buf.length = asSize offset + buf.length := addSize_of_lt (by omega)
  have hread := hr'.read mem' offset (sscanf_three hscan _) hpos (by omega) hD' hf' (by omega) (by omega)
  have hdrop : (f.write (t.used + 1) buf (asSize offset)).contents.drop (asSize offset) = buf :=
    List.drop_left' (by rw [List.length_take]; omega)
  rw [hlen, Nat.add_sub_cancel_left, hdrop, asInt_of_lt hsize] at hread
  rw [serve_of_yields hy, serve_of_yields hread]
  dsimp only
  exact ⟨asInt_of_lt hsize, rfl⟩

/-- A write that needs a third block is read back just where its bytes from there on repeat. -/
theorem Rep.read_after_long (hr : Rep N v t) (mem mem' : Memory) {path : CString} {names : Names} {D : Directory}
    {f : File} {buf : List UInt8} {offset : Int} (hscan : sscanf path mem.names = (3, names))
    (hD : t.dirs[t.dirIndex names.directory]? = some D)
    (hf : D.files[D.fileIndex names.filename names.extension]? = some f) (hpos : 1 ≤ buf.length)
    (hsize : buf.length < 2 ^ 31) (hoff : asSize offset ≤ f.contents.length)
    (hlong : 2 * maxDataInBlock < adjusted (asSize offset) + buf.length) (hin : InFront N (t.used + 2 : Nat)) :
    (serve (cs1550Write mem path buf offset) v).1 = buf.length ∧
      ((serve (cs1550Read mem' path buf.length offset) (serve (cs1550Write mem path buf offset) v).2).1 =
        ((buf.length : Int), buf) ↔ RepeatsFrom (2 * maxDataInBlock - adjusted (asSize offset)) buf) := by
  have hsmall := hr.contents_lt hD hf
  have hadd : addSize (asSize offset) buf.length = asSize offset + buf.length := addSize_of_lt (by omega)
  obtain ⟨v', t', hy, ho, -, hlisted, hfind⟩ := hr.write_long mem hscan hD hf hsize hoff hlong hin
  obtain ⟨n, hth, hn⟩ := ho.threaded_upTo
  obtain ⟨D', hD', hf'⟩ := Tree.find_some hfind
  have hlen := f.length_resize (asSize offset + buf.length)
  have hread := hlisted.read mem' offset (sscanf_three hscan _) hpos (by omega) hD' hf' (by omega) (by omega)
    (by omega) hth (by rw [File.overrun_le (Nat.zero_le _), File.blockOf_zero]; rfl) (by omega)
  rw [hlen, Nat.add_sub_cancel_left, asInt_of_lt hsize] at hread
  rw [serve_of_yields hy, serve_of_yields hread, ← ho.bytesFrom_iff]
  dsimp only
  rw [Prod.mk.injEq, asInt_of_lt hsize]
  exact ⟨rfl, and_iff_right rfl⟩

/-- The number of blocks that a write of `n` bytes takes from the allocator. -/
def blocksTaken (offset n : Nat) : Nat := (adjusted offset + n - 1) / maxDataInBlock

/-- In a run of short writes a write to an existing file, with blocks enough for it, returns its size, and it
is read back as it was written if and only if its bytes from the third block on repeat block by block. -/
theorem read_after_write_iff (hp : RunFrom N h v) (hfront : ∀ x ∈ Run.visited h v, InFront N x.cursor)
    (hfiles : ∀ x ∈ Run.visited h v, FilesWithin x) (hshort : ∀ x ∈ h, x.2.Short x.1) (mem mem' : Memory)
    (path : CString) (buf : List UInt8) (offset : Int) (names : Names) (fsize : Nat)
    (hscan : sscanf path mem.names = (3, names)) (hfile : v.disk.sizeOf names = some fsize) (hpos : 1 ≤ buf.length)
    (hsize : buf.length < 2 ^ 31) (hoff : asSize offset ≤ fsize)
    (hfree : InFront N (v.cursor + blocksTaken (asSize offset) buf.length)) :
    (serve (cs1550Write mem path buf offset) v).1 = buf.length ∧
      ((serve (cs1550Read mem' path buf.length offset) (serve (cs1550Write mem path buf offset) v).2).1 =
        ((buf.length : Int), buf) ↔ RepeatsFrom (2 * maxDataInBlock - adjusted (asSize offset)) buf) := by
  have hmax : maxDataInBlock = 504 := rfl
  have hadj := adjusted_le (asSize offset)
  have hr := rep_treeAfter hp hfront hfiles hshort
  generalize treeAfter h = t at hr
  rw [hr.listed.sizeOf_eq] at hfile
  obtain ⟨f, hfind, rfl⟩ := Option.map_eq_some_iff.1 hfile
  obtain ⟨D, hD, hf⟩ := Tree.find_some hfind
  have hcursor := hr.cursor
  rw [hcursor, ← Nat.cast_add] at hfree
  rcases Nat.lt_or_ge (2 * maxDataInBlock) (adjusted (asSize offset) + buf.length) with hlong | hfit
  · refine hr.read_after_long mem mem' hscan hD hf hpos hsize hoff hlong (hfree.mono ?_)
    have hblocks : 2 ≤ blocksTaken (asSize offset) buf.length := by
      simp only [blocksTaken, hmax] at hlong ⊢
      omega
    omega
  · have hblocks : t.usedBy buf (asSize offset) ≤ t.used + blocksTaken (asSize offset) buf.length := by
      simp only [Tree.usedBy, blocksTaken, hmax]
      split <;> omega
    obtain ⟨hret, hread⟩ := hr.read_after_short mem mem' hscan hD hf hpos hsize hoff hfit (hfree.mono (by omega))
    refine ⟨hret, fun _ p hp hlt => by omega, fun _ => hread⟩

/-- A write of three whole blocks. -/
theorem read_after_write_three_blocks :
    (serve (cs1550Read blank filePath 1512 0) (serve (cs1550Write blank filePath (List.replicate 1512 7) 0)
      (serveAll (zeroed 10240) [⟨blank, .mkdir dirPath⟩, ⟨blank, .mknod filePath⟩]).2).2).1 =
      (1512, List.replicate 1512 7) := by
  have hread := (read_after_write_iff (run_serveAll 10240 [⟨blank, .mkdir dirPath⟩, ⟨blank, .mknod filePath⟩])
    (by decide +kernel) (by decide +kernel) (by decide +kernel) blank blank filePath (List.replicate 1512 7) 0
    (sscanf filePath blank.names).2 0 (by decide +kernel) (by decide +kernel) (by decide +kernel)
    (by decide +kernel) (by decide +kernel) (by decide +kernel)).2.2 fun p _ hp => by
      simp only [List.length_replicate, maxDataInBlock, blockSize] at hp
      rw [List.getElem?_replicate_of_lt (by omega), List.getElem?_replicate_of_lt (by simp only [maxDataInBlock, blockSize]; omega)]
  rw [List.length_replicate] at hread
  exact hread

/-- A fourth block: the loop of `cs1550_write` gets the block that it did not mark a second time, and what
it had written there is lost. -/
theorem fourth_block_lost :
    ∃ h v buf, RunFrom 10240 h v ∧ (∀ x ∈ Run.visited h v, InFront 10240 x.cursor) ∧
      (∀ x ∈ Run.visited h v, FilesWithin x) ∧ buf.length < 2 ^ 31 ∧
      InFront 10240 (serve (cs1550Write blank filePath buf 0) v).2.cursor ∧
      (serve (cs1550Write blank filePath buf 0) v).1 = buf.length ∧
      (serve (cs1550Read blank filePath buf.length 0) (serve (cs1550Write blank filePath buf 0) v).2).1 ≠
        ((buf.length : Int), buf) := by
  refine ⟨_, _, List.replicate 1512 7 ++ [8],
    run_serveAll 10240 [⟨blank, .mkdir dirPath⟩, ⟨blank, .mknod filePath⟩],
    by decide +kernel, by decide +kernel, by decide +kernel, by decide +kernel, by decide +kernel, fun heq => ?_⟩
  have hbyte := congrArg (fun r : Int × List UInt8 => r.2[1008]?) heq
  revert hbyte
  decide +kernel

end CS1550.Fs
