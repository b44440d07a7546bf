/-
The buffer cache of `lab4/xv6-public/bio.c` over the disk. A buffer that is in use or dirty is not given to another
block, and where all NBUF buffers are, `bget` panics. What the functions do is said of three views of a cache: what is
read in a block, whether its buffer is dirty, and how often it is in use.
-/
import CS1550.Lib.Bytes
import CS1550.Lib.Except
import Mathlib.Data.List.AList

namespace CS1550.Log

/-- `MAXOPBLOCKS` -/
def maxopblocks : Nat := 10

/-- The number of buffers in the cache. -/
def nbuf : Nat := maxopblocks * 3

/-- The calls of `panic` in `bio.c` and `log.c`. -/
inductive Panic
  | noBuffers
  | tooBig
  | outsideOfTrans
  | committing
  deriving DecidableEq

/-- A valid buffer; `dirty` is B_DIRTY. -/
structure Buf where
  data : Bytes.Mem
  dirty : Bool
  refcnt : Nat

/-- What `bget` looks for in a buffer to recycle. -/
def Buf.free (x : Buf) : Bool := x.refcnt == 0 && !x.dirty

/-- The buffers with the blocks that are in them, the most recently used first. Those that have not been used yet are
left out. -/
abbrev Bcache := AList fun _ : Nat => Buf

/-- The disk, and what is cached of it. -/
structure Cache where
  disk : Nat → Bytes.Mem
  bufs : Bcache

/-- The second loop of `bget`, which comes from the other end: makes room for one more block. -/
def Bcache.recycle (bufs : Bcache) : Option Bcache :=
  if bufs.entries.length < nbuf then some bufs
  else (bufs.entries.reverse.find? fun e => e.2.free).map fun e => bufs.erase e.1

namespace Cache

/-- The buffer of a block, in use once more. The sleep lock is left to the callers. -/
def bread (m : Cache) (b : Nat) : Except Panic Cache :=
  match m.bufs.lookup b with
  | some x => .ok { m with bufs := m.bufs.insert b { x with refcnt := x.refcnt + 1 } }
  | none =>
    match Bcache.recycle m.bufs with
    | some bufs => .ok { m with bufs := bufs.insert b ⟨m.disk b, false, 1⟩ }
    | none => .error .noBuffers

/-- Changes the buffer of a block. -/
def modify (m : Cache) (b : Nat) (f : Buf → Buf) : Cache :=
  match m.bufs.lookup b with
  | some x => { m with bufs := m.bufs.insert b (f x) }
  | none => m

/-- The buffer of a block given back, to the front of the list. -/
def brelse (m : Cache) (b : Nat) : Cache := m.modify b fun x => { x with refcnt := x.refcnt - 1 }

/-- Writes new contents to the buffer of a block and to the disk. -/
def bwrite (m : Cache) (b : Nat) (data : Bytes.Mem) : Cache :=
  { m.modify b fun x => { x with data, dirty := false } with disk := Function.update m.disk b data }

/-- Something of the buffer of a block, or what it is without a buffer. -/
def view {β : Type} (g : Buf → β) (d : Nat → β) (m : Cache) (b : Nat) : β := ((m.bufs.lookup b).map g).getD (d b)

/-- What a process reads in a block. -/
def read (m : Cache) : Nat → Bytes.Mem := m.view Buf.data m.disk

/-- The block has a buffer that is not yet on the disk. -/
def dirty (m : Cache) : Nat → Bool := m.view Buf.dirty fun _ => false

/-- How often the buffer of a block is in use. -/
def refcnt (m : Cache) : Nat → Nat := m.view Buf.refcnt fun _ => 0

/-- What is not dirty is as the disk. -/
def Coherent (m : Cache) : Prop := ∀ b, m.dirty b = false → m.read b = m.disk b

end Cache

variable {m m' : Cache} {b : Nat} {data : Bytes.Mem}

/-! ## Taking a buffer -/

theorem Bcache.recycle_lookup {bufs bufs' : Bcache} (h : Bcache.recycle bufs = some bufs') (b : Nat) :
    bufs'.lookup b = bufs.lookup b ∨ bufs'.lookup b = none ∧ ∃ x, bufs.lookup b = some x ∧ x.free = true := by
  unfold Bcache.recycle at h
  split at h
  · cases h
    exact .inl rfl
  · obtain ⟨e, he, rfl⟩ := Option.map_eq_some_iff.1 h
    have hmem : e ∈ bufs.entries := List.mem_reverse.1 (List.mem_of_find?_eq_some he)
    by_cases hb : b = e.1
    · subst hb
      exact .inr ⟨AList.lookup_erase _ _, e.2, AList.mem_lookup_iff.2 hmem, by simpa using List.find?_some he⟩
    · exact .inl (AList.lookup_erase_ne hb)

/-- There is room as long as the buffers that are in use or dirty are fewer than NBUF. -/
theorem Bcache.exists_recycle (bufs : Bcache) {P : List Nat} (hlen : P.length < nbuf)
    (hP : ∀ b x, bufs.lookup b = some x → x.free = false → b ∈ P) : ∃ bufs', Bcache.recycle bufs = some bufs' := by
  unfold Bcache.recycle
  split
  · exact ⟨_, rfl⟩
  · rename_i hfull
    cases hfind : bufs.entries.reverse.find? fun e => e.2.free with
    | some e => exact ⟨_, rfl⟩
    | none =>
      have hsub : bufs.keys ⊆ P := by
        intro b hb
        obtain ⟨x, hx⟩ := Option.isSome_iff_exists.1 (AList.lookup_isSome.2 (AList.mem_keys.2 hb))
        have hfree := List.find?_eq_none.1 hfind ⟨b, x⟩ (List.mem_reverse.2 (AList.mem_lookup_iff.1 hx))
        exact hP b x hx (by simpa using hfree)
      have hle := (List.subperm_of_subset bufs.keys_nodup hsub).length_le
      have hkeys : bufs.keys.length = bufs.entries.length := List.length_map _
      omega

theorem view_eq {β : Type} {g : Buf → β} {d : Nat → β} {x : Buf} (h : m.bufs.lookup b = some x) : m.view g d b = g x := by
  unfold Cache.view
  rw [h]
  rfl

theorem view_none {β : Type} {g : Buf → β} {d : Nat → β} (h : m.bufs.lookup b = none) : m.view g d b = d b := by
  unfold Cache.view
  rw [h]
  rfl

/-- What `bread` does to a view: buffers that are recycled must be such that nothing is lost. -/
theorem view_bread {β : Type} {g : Buf → β} {d : Nat → β} (h : m.bread b = .ok m') (up : β → β)
    (hup : ∀ x : Buf, g { x with refcnt := x.refcnt + 1 } = up (g x)) (hnew : g ⟨m.disk b, false, 0⟩ = d b)
    (hfree : ∀ b x, m.bufs.lookup b = some x → x.free = true → g x = d b) :
    m'.view g d = Function.update (m.view g d) b (up (m.view g d b)) := by
  funext b'
  unfold Cache.bread at h
  split at h
  · rename_i x hx
    cases h
    by_cases hb : b' = b
    · subst hb
      rw [Function.update_self, view_eq (AList.lookup_insert _), view_eq hx, hup]
    · rw [Function.update_of_ne hb]
      unfold Cache.view
      rw [AList.lookup_insert_ne hb]
  · rename_i hnone
    split at h
    · rename_i bufs hbufs
      cases h
      by_cases hb : b' = b
      · subst hb
        rw [Function.update_self, view_eq (AList.lookup_insert _), view_none hnone, ← hnew, ← hup]
      · rw [Function.update_of_ne hb]
        have hkept : Cache.view g d ⟨m.disk, bufs.insert b ⟨m.disk b, false, 1⟩⟩ b' = ((bufs.lookup b').map g).getD (d b') := by
          unfold Cache.view
          rw [AList.lookup_insert_ne hb]
        rw [hkept]
        rcases Bcache.recycle_lookup hbufs b' with hsame | ⟨hgone, x, hx, hxfree⟩
        · rw [hsame]
          rfl
        · rw [hgone, view_eq hx, hfree b' x hx hxfree]
          rfl
    · cases h

theorem Buf.free_iff {x : Buf} : x.free = true ↔ x.refcnt = 0 ∧ x.dirty = false := by
  simp [Buf.free]

/-- A cache before and after `bread`. -/
structure Got (m : Cache) (b : Nat) (m' : Cache) : Prop where
  disk : m'.disk = m.disk
  read : m.Coherent → m'.read = m.read
  dirty : m'.dirty = m.dirty
  refcnt : m'.refcnt = Function.update m.refcnt b (m.refcnt b + 1)

theorem bread_got (h : m.bread b = .ok m') : Got m b m' := by
  have hdisk : m'.disk = m.disk := by
    unfold Cache.bread at h
    split at h
    · cases h
      rfl
    · split at h <;> cases h
      rfl
  refine ⟨hdisk, fun hc => ?_, ?_, view_bread h (· + 1) (fun _ => rfl) rfl fun _ x _ hx => (Buf.free_iff.1 hx).1⟩
  · unfold Cache.read
    rw [hdisk, view_bread h id (fun _ => rfl) rfl fun b x hx hfree => ?_]
    · exact Function.update_eq_self b _
    · -- a buffer that is recycled is as the disk
      have hread := hc b ((view_eq hx).trans (Buf.free_iff.1 hfree).2)
      rw [Cache.read, view_eq hx] at hread
      exact hread
  · unfold Cache.dirty
    rw [view_bread h id (fun _ => rfl) rfl fun _ x _ hx => (Buf.free_iff.1 hx).2]
    exact Function.update_eq_self b _

/-- `bget` finds a buffer if fewer than NBUF are in use or dirty. -/
theorem exists_bread {P : List Nat} (hlen : P.length < nbuf)
    (hP : ∀ b, m.dirty b = true ∨ m.refcnt b ≠ 0 → b ∈ P) (b : Nat) : ∃ m', m.bread b = .ok m' := by
  unfold Cache.bread
  split
  · exact ⟨_, rfl⟩
  · obtain ⟨bufs, hbufs⟩ := Bcache.exists_recycle m.bufs hlen fun b x hx hfree => by
      refine hP b ?_
      rw [Cache.dirty, Cache.refcnt, view_eq hx, view_eq hx]
      by_contra hnot
      have hyes : x.free = true := Buf.free_iff.2 (by simpa [and_comm] using hnot)
      simp [hyes] at hfree
    rw [hbufs]
    exact ⟨_, rfl⟩

/-- A dirty buffer is always found. -/
theorem exists_bread_of_dirty (h : m.dirty b = true) : ∃ m', m.bread b = .ok m' := by
  unfold Cache.bread
  cases hx : m.bufs.lookup b with
  | some x => exact ⟨_, rfl⟩
  | none => simp [Cache.dirty, view_none hx] at h

/-! ## Changing a buffer -/

theorem disk_modify (m : Cache) (b : Nat) (f : Buf → Buf) : (m.modify b f).disk = m.disk := by
  unfold Cache.modify
  split <;> rfl

theorem view_modify_some {β : Type} {g : Buf → β} {d : Nat → β} {f : Buf → Buf} {x : Buf} (hx : m.bufs.lookup b = some x) :
    (m.modify b f).view g d = Function.update (m.view g d) b (g (f x)) := by
  funext b'
  unfold Cache.modify
  rw [hx]
  by_cases hb : b' = b
  · subst hb
    rw [Function.update_self]
    exact view_eq (AList.lookup_insert _)
  · rw [Function.update_of_ne hb]
    unfold Cache.view
    dsimp only
    rw [AList.lookup_insert_ne hb]

/-- What a change of a buffer does to a view, if it makes no difference where there is no buffer. -/
theorem view_modify {β : Type} {g : Buf → β} {d : Nat → β} {f : Buf → Buf} {φ : β → β} (hf : ∀ x, g (f x) = φ (g x))
    (hd : d b = φ (d b)) : (m.modify b f).view g d = Function.update (m.view g d) b (φ (m.view g d b)) := by
  cases hx : m.bufs.lookup b with
  | none =>
    unfold Cache.modify
    rw [hx, view_none hx, ← hd, ← view_none (g := g) (d := d) hx]
    exact (Function.update_eq_self b _).symm
  | some x => rw [view_modify_some hx, view_eq hx, hf]

theorem view_modify_same {β : Type} {g : Buf → β} {d : Nat → β} {f : Buf → Buf} (hf : ∀ x, g (f x) = g x) :
    (m.modify b f).view g d = m.view g d := by
  rw [view_modify (φ := id) hf rfl]
  exact Function.update_eq_self b _

@[simp] theorem disk_brelse (m : Cache) (b : Nat) : (m.brelse b).disk = m.disk := disk_modify m b _

@[simp] theorem read_brelse (m : Cache) (b : Nat) : (m.brelse b).read = m.read := by
  unfold Cache.read
  rw [disk_brelse]
  exact view_modify_same fun _ => rfl

@[simp] theorem dirty_brelse (m : Cache) (b : Nat) : (m.brelse b).dirty = m.dirty := view_modify_same fun _ => rfl

@[simp] theorem refcnt_brelse (m : Cache) (b : Nat) :
    (m.brelse b).refcnt = Function.update m.refcnt b (m.refcnt b - 1) :=
  view_modify (φ := (· - 1)) (fun _ => rfl) rfl

/-- The states of the cache before and after one write of a block. -/
structure Wrote (m : Cache) (b : Nat) (data : Bytes.Mem) (m' : Cache) : Prop where
  disk : m'.disk = Function.update m.disk b data
  read : m'.read = Function.update m.read b data
  dirty : m'.dirty = Function.update m.dirty b false
  refcnt : m'.refcnt = m.refcnt

theorem wrote_bwrite (m : Cache) (b : Nat) (data : Bytes.Mem) : Wrote m b data (m.bwrite b data) := by
  refine ⟨rfl, ?_, view_modify (φ := fun _ => false) (fun _ => rfl) rfl, view_modify_same fun _ => rfl⟩
  have hview : (m.bwrite b data).read = (m.modify b fun x => { x with data, dirty := false }).view Buf.data
    (Function.update m.disk b data) := rfl
  rw [hview, view_modify (φ := fun _ => data) (fun _ => rfl) (Function.update_self b data m.disk)]
  funext b'
  by_cases hb : b' = b
  · subst hb
    rw [Function.update_self, Function.update_self]
  · rw [Function.update_of_ne hb, Function.update_of_ne hb]
    unfold Cache.read Cache.view
    rw [Function.update_of_ne hb]

theorem Wrote.coherent (h : Wrote m b data m') (hc : m.Coherent) : m'.Coherent := by
  intro b' hclean
  rw [h.read, h.disk]
  by_cases hb : b' = b
  · subst hb
    rw [Function.update_self, Function.update_self]
  · rw [h.dirty, Function.update_of_ne hb] at hclean
    rw [Function.update_of_ne hb, Function.update_of_ne hb]
    exact hc b' hclean

theorem Got.coherent (h : Got m b m') (hc : m.Coherent) : m'.Coherent := by
  intro b' hclean
  rw [h.read hc, h.disk]
  exact hc b' (h.dirty ▸ hclean)

/-- The buffer is taken before it is written, and given back afterwards. -/
theorem Got.wrote {b' : Nat} {m₂ : Cache} (hgot : Got m b' m') (hc : m.Coherent) (h : Wrote m' b data m₂) :
    Wrote m b data (m₂.brelse b') := by
  refine ⟨?_, ?_, ?_, ?_⟩
  · rw [disk_brelse, h.disk, hgot.disk]
  · rw [read_brelse, h.read, hgot.read hc]
  · rw [dirty_brelse, h.dirty, hgot.dirty]
  · rw [refcnt_brelse, h.refcnt, hgot.refcnt]
    simp

end CS1550.Log
