/-
Runs of the filesystem: requests served one after the other, on an image that is all zeros at first.
The tree after a run is what the requests make of the empty one; it is represented by the state that
the run has reached (`rep_treeAfter`).
-/
import CS1550.Lib.Run
import CS1550.Fs.Read

namespace CS1550.Fs

open Bytes

/-- The calls that change the image. -/
inductive Call
  | mkdir (path : CString)
  | mknod (path : CString)
  | write (path : CString) (buf : List UInt8) (offset : Int)

/-- The path that a call is for. -/
def Call.path : Call → CString
  | .mkdir path => path
  | .mknod path => path
  | .write path .. => path

/-- A call, with the memory that its handler finds. -/
structure Request where
  mem : Memory
  call : Call

/-- The handler of a request. -/
def Request.handler (r : Request) : Req Int :=
  match r.call with
  | .mkdir path => cs1550Mkdir r.mem path
  | .mknod path => cs1550Mknod r.mem path
  | .write path buf offset => cs1550Write r.mem path buf offset

/-- A request served alone. -/
def Request.serve (r : Request) (v : Volume) : Int × Volume := Fs.serve r.handler v

/-- An image of `N` blocks that are all zero, and the initial `next_free_block_index`. -/
def zeroed (N : Nat) : Volume where
  disk := ⟨blockSize * N, fun _ => 0, fun _ _ => rfl⟩
  cursor := 1

/-- The request leads from one state to the other. -/
def Served (v : Volume) (r : Request) (v' : Volume) : Prop := (r.serve v).2 = v'

/-- The requests of a run with the states they were served in, and the state it has reached. -/
abbrev RunFrom (N : Nat) : List (Volume × Request) → Volume → Prop := Run.Path Served (zeroed N)

/-- No directories, and no block handed out. -/
def Tree.empty : Tree := ⟨[], 0⟩

/-- A request on the abstract state. -/
def Tree.step (t : Tree) (r : Request) : Int × Tree :=
  match r.call with
  | .mkdir path => t.mkdir path r.mem.names
  | .mknod path => t.mknod path r.mem.names
  | .write path buf offset => t.write path r.mem.names buf offset

/-- The abstract state after a run. -/
def treeAfter (h : List (Volume × Request)) : Tree := h.foldl (fun t x => (t.step x.2).2) .empty

/-- A write is a short one. -/
def Request.Short (v : Volume) (r : Request) : Prop :=
  match r.call with
  | .write path buf offset => ShortWrite v r.mem path buf offset
  | _ => True

instance (N : Nat) (b : Int) : Decidable (InFront N b) :=
  decidable_of_iff (b + bitmapSizeInBlocks < N ∧ b < bitmapBits) ⟨fun h => ⟨h.1, h.2⟩, fun h => ⟨h.below, h.bit⟩⟩

instance (v : Volume) : Decidable (FilesWithin v) :=
  inferInstanceAs (Decidable (∀ i : Nat, i < (nDirectories (v.disk.block 0)).toNat → _))

instance (v : Volume) : (r : Request) → Decidable (r.Short v)
  | ⟨_, .mkdir _⟩ => isTrue trivial
  | ⟨_, .mknod _⟩ => isTrue trivial
  | ⟨mem, .write path _ _⟩ =>
    inferInstanceAs (Decidable ((sscanf path mem.names).1 = 3 → ∀ size ∈ v.disk.sizeOf (sscanf path mem.names).2, _))

/-- Requests served one after the other: the history and the last state. -/
def serveAll : Volume → List Request → List (Volume × Request) × Volume
  | v, [] => ([], v)
  | v, r :: rs => ((v, r) :: (serveAll (r.serve v).2 rs).1, (serveAll (r.serve v).2 rs).2)

/-- Memory that holds zeros. -/
def blank : Memory := ⟨fun _ => 0, 0, ⟨⟨[], by decide⟩, ⟨[], by decide⟩, ⟨[], by decide⟩⟩⟩

/-- `/a` -/
def dirPath : CString := ⟨[47, 97], by decide⟩

/-- `/a/f.t` -/
def filePath : CString := ⟨[47, 97, 47, 102, 46, 116], by decide⟩

/-- A directory and a file in it, and then one write to it. -/
def writeOnce (buf : List UInt8) (offset : Int) : List Request :=
  [⟨blank, .mkdir dirPath⟩, ⟨blank, .mknod filePath⟩, ⟨blank, .write filePath buf offset⟩]

variable {N : Nat} {v v' : Volume} {t : Tree} {r : Request} {h : List (Volume × Request)}

theorem path_serveAll {v₀ : Volume} (hp : Run.Path Served v₀ h v) (rs : List Request) :
    Run.Path Served v₀ (h ++ (serveAll v rs).1) (serveAll v rs).2 := by
  induction rs generalizing h v with
  | nil => simpa [serveAll] using hp
  | cons r rs ih =>
    have hserved : Served v r (r.serve v).2 := rfl
    have hrest := ih (hp.step hserved)
    rwa [List.append_assoc] at hrest

theorem run_serveAll (N : Nat) (rs : List Request) :
    RunFrom N (serveAll (zeroed N) rs).1 (serveAll (zeroed N) rs).2 := path_serveAll .start rs

theorem rep_zeroed (hN : bitmapSizeInBlocks < N) : Rep N (zeroed N) .empty where
  size := rfl
  room := by simpa [Tree.empty] using hN
  cursor := rfl
  taken b := by
    rw [Disk.taken, Disk.bit]
    simp only [zeroed, Tree.empty, UInt8.toNat_zero, Nat.zero_testBit, Bool.and_false]
    exact (decide_eq_false (by omega)).symm
  root := holds_nil fun _ _ => rfl
  directory i D hD := by simp [Tree.empty] at hD
  file i D j f hD := by simp [Tree.empty] at hD
  within p b hb := by cases p <;> simp [Tree.empty, Tree.blockAt] at hb
  apart p q b hb := by cases p <;> simp [Tree.empty, Tree.blockAt] at hb
  fresh _ _ _ _ _ := rfl

/-- One request, on the image and on the tree. -/
theorem Rep.step (h : Rep N v t) (hshort : r.Short v) : Refines N r.handler v (t.step r) (r.serve v).2 := by
  obtain ⟨mem, call⟩ := r
  obtain ⟨v', href⟩ : ∃ v', Refines N (Request.handler ⟨mem, call⟩) v (t.step ⟨mem, call⟩) v' := by
    cases call with
    | mkdir path => exact h.mkdir mem path
    | mknod path => exact h.mknod mem path
    | write path buf offset => exact h.write mem path buf offset hshort
  rwa [Request.serve, serve_of_yields href.yields]

theorem Refines.ret {p : Req Int} {a : Int × Tree} (href : Refines N p v a v') : (serve p v).1 = a.1 := by
  rw [serve_of_yields href.yields]

/-- After every run of short requests, as long as the blocks handed out are in front of the bitmap and no
directory has too many files. -/
theorem rep_treeAfter (hp : RunFrom N h v) (hfront : ∀ x ∈ Run.visited h v, InFront N x.cursor)
    (hfiles : ∀ x ∈ Run.visited h v, FilesWithin x) (hshort : ∀ x ∈ h, x.2.Short x.1) : Rep N v (treeAfter h) := by
  have hN : bitmapSizeInBlocks < N := by
    have hlt := (hfront _ hp.start_mem).below
    change (1 : Int) + bitmapSizeInBlocks < N at hlt
    omega
  refine hp.simulate (fun t r => (t.step r).2) (fun v r => r.Short v) (fun v => InFront N v.cursor ∧ FilesWithin v) (rep_zeroed hN)
    (fun v r v' t hrep hs hgood hserve => ?_) hshort fun x hx => ⟨hfront x hx, hfiles x hx⟩
  subst hserve
  exact (hrep.step hs).rep hgood.1 (.inl hgood.2)

end CS1550.Fs
