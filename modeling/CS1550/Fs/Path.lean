/-
How the handlers take a path apart: `sscanf(path, "/%[^/]/%[^.].%s", directory, filename, extension)`
with the C standard's rules. A conversion that is not reached leaves its array as it was. A name that is
longer than its array overruns it, which C leaves undefined; here it is taken to harm nothing else.

What is found in a path does not depend on the arrays (`sscanf_eq`). Names that were found once are found again in
the path that is put together from them (`sscanf_again`).
-/
import CS1550.Lib.Bytes
import Mathlib.Data.List.TakeWhile

namespace CS1550.Fs

open Bytes

/-- A string: bytes without a NUL. -/
abbrev CString := { s : List UInt8 // NulFree s }

namespace CString

/-- The characters in front of the first one that is not in a class. -/
def takeWhile (p : UInt8 → Bool) (s : CString) : CString :=
  ⟨s.1.takeWhile p, fun h => s.2 ((List.takeWhile_sublist p).subset h)⟩

/-- The rest of the string from there on. -/
def dropWhile (p : UInt8 → Bool) (s : CString) : CString :=
  ⟨s.1.dropWhile p, fun h => s.2 ((List.dropWhile_sublist p).subset h)⟩

/-- The string without its first characters. -/
def drop (n : Nat) (s : CString) : CString := ⟨s.1.drop n, fun h => s.2 (List.mem_of_mem_drop h)⟩

theorem val_takeWhile (p : UInt8 → Bool) (s : CString) : (s.takeWhile p).1 = s.1.takeWhile p := rfl

theorem val_dropWhile (p : UInt8 → Bool) (s : CString) : (s.dropWhile p).1 = s.1.dropWhile p := rfl

theorem val_drop (n : Nat) (s : CString) : (s.drop n).1 = s.1.drop n := rfl

end CString

/-- The character `/`. -/
def slash : UInt8 := 47

/-- The character `.`. -/
def dot : UInt8 := 46

/-- `isspace` in the C locale. -/
def isSpace (c : UInt8) : Bool := c == 32 || (9 ≤ c && c ≤ 13)

/-- The arrays `directory`, `filename` and `extension` of a handler, as the strings they hold. -/
structure Names where
  directory : CString
  filename : CString
  extension : CString
  deriving DecidableEq

/-- The number of conversions made, or `EOF` where the input ends before the first one, and the arrays
after them. -/
def sscanf (path : CString) (names : Names) : Int × Names :=
  if path.1 = [] then (-1, names)
  else if path.1.head? ≠ some slash then (0, names)
  else
    let rest := path.drop 1
    if rest.1 = [] then (-1, names)
    else
      -- %[^/]
      let directory := rest.takeWhile (· != slash)
      if directory.1 = [] then (0, names)
      else
        let names := { names with directory }
        let rest := rest.dropWhile (· != slash)
        if rest.1 = [] then (1, names)
        else
          -- %[^.]
          let rest := rest.drop 1
          let filename := rest.takeWhile (· != dot)
          if filename.1 = [] then (1, names)
          else
            let names := { names with filename }
            let rest := rest.dropWhile (· != dot)
            if rest.1 = [] then (2, names)
            else
              -- %s
              let extension := ((rest.drop 1).dropWhile isSpace).takeWhile fun c => !isSpace c
              if extension.1 = [] then (2, names) else (3, { names with extension })

/-! ## The conversions -/

/-- What the conversions find in a path. -/
inductive Parts
  /-- Nothing; the flag says that the input ends before the first conversion. -/
  | nothing (eof : Bool)
  | directory (d : CString)
  | filename (d f : CString)
  | extension (d f e : CString)

/-- What `sscanf` returns, where -1 is `EOF`. -/
def Parts.count : Parts → Int
  | .nothing true => -1
  | .nothing false => 0
  | .directory _ => 1
  | .filename .. => 2
  | .extension .. => 3

/-- The arrays after the conversions. -/
def Parts.fill (names : Names) : Parts → Names
  | .nothing _ => names
  | .directory d => { names with directory := d }
  | .filename d f => { names with directory := d, filename := f }
  | .extension d f e => ⟨d, f, e⟩

/-- What `sscanf` converts of a path with the format of the handlers. -/
def parts (path : CString) : Parts :=
  if path.1 = [] then .nothing true
  else if path.1.head? ≠ some slash then .nothing false
  else
    let rest := path.drop 1
    if rest.1 = [] then .nothing true
    else
      let directory := rest.takeWhile (· != slash)
      if directory.1 = [] then .nothing false
      else
        let rest := rest.dropWhile (· != slash)
        if rest.1 = [] then .directory directory
        else
          let rest := rest.drop 1
          let filename := rest.takeWhile (· != dot)
          if filename.1 = [] then .directory directory
          else
            let rest := rest.dropWhile (· != dot)
            if rest.1 = [] then .filename directory filename
            else
              let extension := ((rest.drop 1).dropWhile isSpace).takeWhile fun c => !isSpace c
              if extension.1 = [] then .filename directory filename else .extension directory filename extension

theorem ite_eq_apply {α β : Type} {c : Prop} [Decidable c] {F : α → β} {a b : α} {x y : β} (ha : x = F a) (hb : y = F b) :
    (if c then x else y) = F (if c then a else b) := by
  split
  · exact ha
  · exact hb

/-- Which conversions are made does not depend on the arrays. -/
theorem sscanf_eq (path : CString) (names : Names) : sscanf path names = ((parts path).count, (parts path).fill names) := by
  unfold sscanf parts
  -- the two go through the same tests
  iterate 8 refine ite_eq_apply (F := fun p : Parts => (p.count, p.fill names)) rfl ?_
  rfl

theorem parts_of_one {path : CString} {before names : Names} (h : sscanf path before = (1, names)) :
    parts path = .directory names.directory := by
  rw [sscanf_eq] at h
  generalize parts path = p at h ⊢
  rcases p with ⟨_ | _⟩ | d | ⟨d, f⟩ | ⟨d, f, e⟩
  case directory =>
    obtain rfl : { before with directory := d } = names := congrArg Prod.snd h
    rfl
  all_goals cases h

theorem parts_of_three {path : CString} {before names : Names} (h : sscanf path before = (3, names)) :
    parts path = .extension names.directory names.filename names.extension := by
  rw [sscanf_eq] at h
  generalize parts path = p at h ⊢
  rcases p with ⟨_ | _⟩ | d | ⟨d, f⟩ | ⟨d, f, e⟩
  case extension =>
    obtain rfl : ⟨d, f, e⟩ = names := congrArg Prod.snd h
    rfl
  all_goals cases h

/-- Three conversions leave nothing of what the arrays held before. -/
theorem sscanf_three {path : CString} {before names : Names} (h : sscanf path before = (3, names)) (before' : Names) :
    sscanf path before' = (3, names) := by
  rw [sscanf_eq, parts_of_three h]
  rfl

theorem sscanf_le_three (path : CString) (before : Names) : (sscanf path before).1 ≤ 3 := by
  rw [sscanf_eq]
  rcases parts path with ⟨_ | _⟩ | d | ⟨d, f⟩ | ⟨d, f, e⟩ <;> simp [Parts.count]

/-! ## Names that are read back -/

/-- A name that `%[^/]` can have found. -/
structure IsDirectory (d : List UInt8) : Prop where
  nonempty : d ≠ []
  noSlash : slash ∉ d

/-- A name and an extension that `%[^.]` and `%s` can have found. -/
structure IsFile (f e : List UInt8) : Prop where
  nonempty : f ≠ []
  noDot : dot ∉ f
  hasExtension : e ≠ []
  noSpace : ∀ c ∈ e, isSpace c = false

/-- The components are strings that the conversions can read. -/
def Parts.Spelled : Parts → Prop
  | .nothing _ => True
  | .directory d => IsDirectory d.1
  | .filename d _ => IsDirectory d.1
  | .extension d f e => IsDirectory d.1 ∧ IsFile f.1 e.1

theorem not_mem_takeWhile {c : UInt8} {s : List UInt8} : c ∉ s.takeWhile (· != c) := by
  intro hc
  simpa using List.mem_takeWhile_imp hc

theorem Parts.spelled_ite {c : Prop} [Decidable c] {p p' : Parts} (hpos : c → p.Spelled) (hneg : ¬ c → p'.Spelled) :
    (if c then p else p').Spelled := by
  split
  · exact hpos ‹_›
  · exact hneg ‹_›

theorem parts_spelled (path : CString) : (parts path).Spelled := by
  unfold parts
  iterate 3 refine Parts.spelled_ite (fun _ => trivial) fun _ => ?_
  refine Parts.spelled_ite (fun _ => trivial) fun hd => ?_
  have hdir : IsDirectory ((path.drop 1).takeWhile (· != slash)).1 := ⟨hd, not_mem_takeWhile⟩
  refine Parts.spelled_ite (fun _ => hdir) fun _ => Parts.spelled_ite (fun _ => hdir) fun hf => ?_
  refine Parts.spelled_ite (fun _ => hdir) fun _ => Parts.spelled_ite (fun _ => hdir) fun he => ?_
  refine ⟨hdir, hf, not_mem_takeWhile, he, fun c hc => ?_⟩
  simpa using List.mem_takeWhile_imp hc

/-- `/d` -/
def directoryPath (d : CString) : CString := ⟨slash :: d.1, by simpa [NulFree, slash] using d.2⟩

/-- `/d/f.e` -/
def fullPath (d f e : CString) : CString :=
  ⟨slash :: d.1 ++ slash :: f.1 ++ dot :: e.1, by simpa [NulFree, slash, dot] using ⟨d.2, f.2, e.2⟩⟩

theorem ne_of_not_mem {c : UInt8} {s : List UInt8} (hs : c ∉ s) : ∀ a ∈ s, (a != c) = true := by
  intro a ha
  rw [bne_iff_ne]
  rintro rfl
  exact hs ha

/-- A name up to the character that ends it. -/
theorem CString.span_ne {c : UInt8} {s name : CString} {rest : List UInt8} (hs : s.1 = name.1 ++ c :: rest)
    (hc : c ∉ name.1) : s.takeWhile (· != c) = name ∧ (s.dropWhile (· != c)).1 = c :: rest := by
  have hne := ne_of_not_mem hc
  refine ⟨Subtype.ext ?_, ?_⟩
  · rw [CString.val_takeWhile, hs, List.takeWhile_append_of_pos hne]
    simp
  · rw [CString.val_dropWhile, hs, List.dropWhile_append_of_pos hne]
    simp

theorem parts_directoryPath {d : CString} (hd : IsDirectory d.1) : parts (directoryPath d) = .directory d := by
  have hne := ne_of_not_mem hd.noSlash
  have hrest : (directoryPath d).drop 1 = d := rfl
  have htake : d.takeWhile (· != slash) = d := Subtype.ext (List.takeWhile_eq_self_iff.2 hne)
  have hend : (d.dropWhile (· != slash)).1 = [] := List.dropWhile_eq_nil_iff.2 hne
  unfold parts
  dsimp only
  rw [if_neg (by simp [directoryPath]), if_neg (by simp [directoryPath]), hrest, htake, if_neg hd.nonempty,
    if_neg hd.nonempty, if_pos hend]

theorem parts_fullPath {d f e : CString} (hd : IsDirectory d.1) (hf : IsFile f.1 e.1) :
    parts (fullPath d f e) = .extension d f e := by
  have hrest : ((fullPath d f e).drop 1).1 = d.1 ++ slash :: (f.1 ++ dot :: e.1) := by
    simp [fullPath, CString.val_drop]
  obtain ⟨hdir, hslash⟩ := CString.span_ne hrest hd.noSlash
  have hrest' : ((((fullPath d f e).drop 1).dropWhile (· != slash)).drop 1).1 = f.1 ++ dot :: e.1 := by
    rw [CString.val_drop, hslash, List.drop_one, List.tail_cons]
  obtain ⟨hfile, hdot⟩ := CString.span_ne hrest' hf.noDot
  have hext : (((((fullPath d f e).drop 1).dropWhile (· != slash)).drop 1).dropWhile (· != dot)).drop 1 = e := by
    refine Subtype.ext ?_
    rw [CString.val_drop, hdot, List.drop_one, List.tail_cons]
  have hskip : e.dropWhile isSpace = e := by
    refine Subtype.ext (List.dropWhile_eq_self_iff.2 fun hlt => ?_)
    rw [hf.noSpace _ (List.getElem_mem hlt)]
    exact Bool.false_ne_true
  have htake : e.takeWhile (fun c => !isSpace c) = e := by
    refine Subtype.ext (List.takeWhile_eq_self_iff.2 fun c hc => ?_)
    rw [hf.noSpace c hc]
    rfl
  unfold parts
  dsimp only
  rw [if_neg (by simp [fullPath]), if_neg (by simp [fullPath]), if_neg (by simp [hrest]), hdir, if_neg hd.nonempty,
    if_neg (by simp [hslash]), hfile, if_neg hf.nonempty, if_neg (by simp [hdot]), hext, hskip, htake,
    if_neg hf.hasExtension]

theorem sscanf_directoryPath {d : CString} (hd : IsDirectory d.1) (before : Names) :
    sscanf (directoryPath d) before = (1, { before with directory := d }) := by
  rw [sscanf_eq, parts_directoryPath hd]
  rfl

theorem sscanf_fullPath {d f e : CString} (hd : IsDirectory d.1) (hf : IsFile f.1 e.1) (before : Names) :
    sscanf (fullPath d f e) before = (3, ⟨d, f, e⟩) := by
  rw [sscanf_eq, parts_fullPath hd hf]
  rfl

/-- Three names are read back from the path that is put together from them. -/
theorem sscanf_again {path : CString} {before names : Names} (h : sscanf path before = (3, names)) (before' : Names) :
    sscanf (fullPath names.directory names.filename names.extension) before' = (3, names) := by
  have hspelled := parts_spelled path
  rw [parts_of_three h] at hspelled
  exact sscanf_fullPath hspelled.1 hspelled.2 before'

end CS1550.Fs
