/-
Who owns which block. On an image that represents a tree every block in use is marked and has one place;
a write that needs a third block leaves one that is not marked. So the blocks of a run are owned all along
if and only if its writes are short ones.
-/
import CS1550.Fs.LongWrite
import CS1550.Fs.Runs

namespace CS1550.Fs

open Bytes

/-- Every block in use is marked in the bitmap and is not the root's, no block has two places, and every
chain ends. -/
structure Owned (d : Disk) : Prop where
  marked : ∀ p b, d.blockAt p = some b → 0 < b ∧ d.taken b.toNat
  apart : ∀ p q b, d.blockAt p = some b → d.blockAt q = some b → p = q
  ends : ∀ i j b, d.fileStart i j = some b → ∃ n c, d.follow b n = some c ∧ next (d.block c.toNat) = 0

variable {N : Nat} {v : Volume} {t : Tree} {h : List (Volume × Request)}

theorem Rep.owned (hr : Rep N v t) : Owned v.disk where
  marked p b hb := by
    rw [hr.blockAt_eq] at hb
    obtain ⟨b', hb', rfl⟩ := Option.map_eq_some_iff.1 hb
    have hle := hr.within p b' hb'
    exact ⟨by omega, by rw [Int.toNat_natCast, hr.taken]; exact decide_eq_true hle⟩
  apart p q b hp hq := by
    rw [hr.blockAt_eq] at hp hq
    obtain ⟨b', hb', rfl⟩ := Option.map_eq_some_iff.1 hp
    obtain ⟨c, hc, heq⟩ := Option.map_eq_some_iff.1 hq
    obtain rfl : c = b' := by exact_mod_cast heq
    exact hr.apart p q c hb' hc
  ends i j b hb := by
    rw [hr.listed.fileStart_eq] at hb
    obtain ⟨D, hD, hb⟩ := Option.bind_eq_some_iff.1 hb
    obtain ⟨f, hf, rfl⟩ := Option.map_eq_some_iff.1 hb
    have hc := hr.file i D j f hD hf
    have hne := hc.nonempty
    have hlast : f.chain[f.chain.length - 1]? = some f.chain[f.chain.length - 1] := List.getElem?_eq_getElem (by omega)
    refine ⟨f.chain.length - 1, (f.chain[f.chain.length - 1] : Nat), ?_, ?_⟩
    · rw [hc.follow_eq (hr.chain_pos hD hf), hlast]
      rfl
    · rw [Int.toNat_natCast, hc.linked _ _ hlast, List.getElem?_eq_none (by omega)]
      rfl

/-- A block that the links of a file come to and that is not marked. -/
theorem Listed.not_owned {d : Disk} {i j n : Nat} {D : Directory} {f : File} {blocks : Nat → Nat} (hl : Listed d t)
    (hD : t.dirs[i]? = some D) (hf : D.files[j]? = some f) (hth : Threaded d blocks n)
    (hstart : blocks 0 = f.chain.headD 0) (hfree : d.taken (blocks n) = false) : ¬ Owned d := by
  intro howned
  have hat : d.blockAt (.data i j n) = some ((blocks n : Nat) : Int) := by
    rw [Disk.blockAt, hl.fileStart_eq, hD, Option.bind_some, hf, Option.map_some, Option.bind_some, ← hstart]
    exact hth.follow_eq n (le_refl n)
  have hmarked := (howned.marked _ _ hat).2
  rw [Int.toNat_natCast, hfree] at hmarked
  cases hmarked

/-- After a write that is not a short one the blocks are not owned. -/
theorem Rep.not_owned (hr : Rep N v t) {r : Request} (hlong : ¬ r.Short v) (hfront : InFront N (r.serve v).2.cursor) :
    ¬ Owned (r.serve v).2.disk := by
  obtain ⟨mem, call⟩ := r
  cases call with
  | mkdir path => exact absurd trivial hlong
  | mknod path => exact absurd trivial hlong
  | write path buf offset =>
    simp only [Request.Short, ShortWrite, not_forall, not_le] at hlong
    obtain ⟨hcount, size, hsize, hoff, hlong⟩ := hlong
    obtain ⟨names, hscan⟩ : ∃ names, sscanf path mem.names = (3, names) := ⟨_, Prod.ext hcount rfl⟩
    rw [hscan, hr.listed.sizeOf_eq] at hsize
    dsimp only at hsize
    obtain ⟨f, hfind, rfl⟩ := Option.map_eq_some_iff.1 hsize
    obtain ⟨D, hD, hf⟩ := Tree.find_some hfind
    have hadj := adjusted_le (asSize offset)
    have hhandler : Request.handler ⟨mem, .write path buf offset⟩ =
        withFile mem names (-EEXIST) (-ENOENT) (Fs.writeFile mem buf offset) := by
      simp only [Request.handler, cs1550Write, hscan]
      rw [if_neg (by omega), if_neg (by simp)]
    rw [Request.serve, hhandler] at hfront ⊢
    obtain ⟨v', n, size, hy, hth, hfree, hlisted⟩ := hr.stray mem hD hf hoff hlong (-EEXIST) (-ENOENT) hfront
    rw [serve_of_yields hy]
    refine hlisted.not_owned (Tree.modify_self hD) (List.getElem?_set_self (List.getElem?_eq_some_iff.1 hf).1) hth ?_ hfree
    rw [File.overrun_le (Nat.zero_le _), File.blockOf_zero]
    rfl

/-! ## Runs -/

/-- In every run, as long as the blocks handed out lie in front of the bitmap and no directory has more files
than it has room for, the blocks are owned in every state if and only if every write is a short one. -/
theorem owned_iff_short (hp : RunFrom N h v) (hfront : ∀ x ∈ Run.visited h v, InFront N x.cursor)
    (hfiles : ∀ x ∈ Run.visited h v, FilesWithin x) :
    (∀ x ∈ Run.visited h v, Owned x.disk) ↔ ∀ x ∈ h, x.2.Short x.1 := by
  induction hp with
  | start =>
    have hr := rep_treeAfter .start hfront hfiles (by simp)
    simpa [Run.visited] using hr.owned
  | @step h v v' r hp hs ih =>
    have hfront' : ∀ x ∈ Run.visited h v, InFront N x.cursor := fun x hx => hfront x (Run.mem_visited_append.2 (.inl hx))
    have hfiles' : ∀ x ∈ Run.visited h v, FilesWithin x := fun x hx => hfiles x (Run.mem_visited_append.2 (.inl hx))
    constructor
    · intro howned x hx
      have hshort := (ih hfront' hfiles').1 fun x hx => howned x (Run.mem_visited_append.2 (.inl hx))
      rcases List.mem_append.1 hx with hx | hx
      · exact hshort x hx
      · -- the last request: had it been a long write, the blocks would not be owned behind it
        obtain rfl := List.mem_singleton.1 hx
        by_contra hlong
        have hr := rep_treeAfter hp hfront' hfiles' hshort
        have hlast : v' ∈ Run.visited (h ++ [(v, r)]) v' := Run.mem_visited_append.2 (.inr rfl)
        refine hr.not_owned hlong ?_ ?_
        · rw [hs]
          exact hfront v' hlast
        · rw [hs]
          exact howned v' hlast
    · intro hshort x hx
      rcases Run.mem_visited_append.1 hx with hx | rfl
      · exact (ih hfront' hfiles').2 (fun x hx => hshort x (List.mem_append_left _ hx)) x hx
      · exact (rep_treeAfter (hp.step hs) hfront hfiles hshort).owned

/-- A write of two whole blocks, and the block handed out for the second one. -/
theorem owned_after_two_blocks :
    Owned (serveAll (zeroed 10240) (writeOnce (List.replicate 1008 7) 0)).2.disk ∧
      (serveAll (zeroed 10240) (writeOnce (List.replicate 1008 7) 0)).2.disk.blockAt (.data 0 0 1) = some 3 :=
  ⟨(owned_iff_short (run_serveAll 10240 (writeOnce (List.replicate 1008 7) 0)) (by decide +kernel) (by decide +kernel)).2
    (by decide +kernel) _ (List.mem_append_right _ (List.mem_singleton.2 rfl)), by decide +kernel⟩

/-- One byte more, and the third block of the file is not marked: the loop of `cs1550_write` hands it out
without `set_bitmap`. -/
theorem third_block_unmarked :
    ∃ h v, RunFrom 10240 h v ∧ (∀ x ∈ Run.visited h v, InFront 10240 x.cursor) ∧
      (∀ x ∈ Run.visited h v, FilesWithin x) ∧ ¬ Owned v.disk := by
  refine ⟨_, _, run_serveAll 10240 (writeOnce (List.replicate 1009 7) 0), by decide +kernel, by decide +kernel,
    fun howned => ?_⟩
  have hblock : (serveAll (zeroed 10240) (writeOnce (List.replicate 1009 7) 0)).2.disk.blockAt (.data 0 0 2) = some 4 := by
    decide +kernel
  have hfree : (serveAll (zeroed 10240) (writeOnce (List.replicate 1009 7) 0)).2.disk.taken 4 = false := by
    decide +kernel
  have hmarked := (howned.marked _ _ hblock).2
  rw [show (4 : Int).toNat = 4 from rfl, hfree] at hmarked
  cases hmarked

end CS1550.Fs
