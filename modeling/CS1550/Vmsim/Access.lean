/-
What one access of the simulator can do, for any replacement algorithm: `Outcome` lists the three
paths (hit, cold fill, eviction) with everything they change, and an access of a table whose stored
indices are positions succeeds exactly with one of them (`access_iff`). The invariants of the
simulator are proved over `Outcome` and never unfold the table's code again.
-/
import CS1550.Lib.Except
import CS1550.Vmsim.PageTable

namespace CS1550.Vmsim

variable {σ : Type}

/-! ## Python expressions that succeed -/

theorem pyIndex_natCast (len k : Nat) :
    pyIndex len (k : Int) = if k < len then .ok k else .error .indexError := by
  simp [pyIndex]

theorem getItem_natCast_ok {α : Type} {xs : List α} {k : Nat} {x : α} :
    getItem xs (k : Int) = .ok x ↔ xs[k]? = some x := by
  unfold getItem
  rw [pyIndex_natCast]
  by_cases hk : k < xs.length
  · simp [hk, bind, Except.bind, pure, Except.pure]
  · simp [hk, bind, Except.bind]

theorem setItem_natCast_ok {α : Type} {xs ys : List α} {k : Nat} {x : α} :
    setItem xs (k : Int) x = .ok ys ↔ k < xs.length ∧ ys = xs.set k x := by
  unfold setItem
  rw [pyIndex_natCast]
  by_cases hk : k < xs.length
  · simp [hk, bind, Except.bind, pure, Except.pure, eq_comm]
  · simp [hk, bind, Except.bind]

theorem getEntry_natCast_ok {frames : Frames} {k : Nat} {e : PageTableEntry} :
    getEntry frames (k : Int) = .ok e ↔ frames[k]? = some (some e) := by
  unfold getEntry
  rw [bind_ok]
  constructor
  · rintro ⟨o, ho, h⟩
    rw [getItem_natCast_ok] at ho
    cases o with
    | none => cases h
    | some e' => cases h; exact ho
  · intro h
    exact ⟨some e, getItem_natCast_ok.2 h, rfl⟩

theorem delKey_ok {β : Type} {d d' : Int → Option β} {k : Int} :
    delKey d k = .ok d' ↔ (∃ v, d k = some v) ∧ d' = fun k' => if k' = k then none else d k' := by
  unfold delKey
  cases h : d k with
  | none => simp
  | some v => simp [eq_comm]

theorem getKey_ok {β : Type} {d : Int → Option β} {k : Int} {v : β} : getKey d k = .ok v ↔ d k = some v := by
  unfold getKey
  cases h : d k with
  | none => simp
  | some w => simp

/-! ## The three paths -/

/-- What the operation itself does to the accessed entry. -/
def PageTableEntry.touch (e : PageTableEntry) (op : Op) : PageTableEntry :=
  match op with
  | .store => { e with dirtyBit := true }
  | .load => e

@[simp] theorem PageTableEntry.touch_pageNo (e : PageTableEntry) (op : Op) : (e.touch op).pageNo = e.pageNo := by
  cases op <;> rfl

@[simp] theorem PageTableEntry.new_pageNo (p : Int) (d r : Bool) : (PageTableEntry.new p d r).pageNo = p := rfl

/-- The results of one access: a hit marks the entry as referenced, a fill takes the next new
frame, an eviction replaces the frame that the algorithm picks and counts a write if it is dirty. -/
inductive Outcome (alg : ReplacementAlgorithm σ) (pt : PageTable σ) (m : MemoryAccess) : PageTable σ → Prop
  | hit {a a' : σ} {frames : Frames} {i : Nat} {e : PageTableEntry}
      (refresh : alg.attemptRefresh pt.replacementAlgorithm pt.frames m = .ok (a, frames))
      (resident : pt.pageFrameTable m.pageNo = some (i : Int))
      (entry : frames[i]? = some (some e))
      (hook : alg.onMemoryAccess a (frames.set i (some ({ e with referencedBit := true }.touch m.op))) i m = .ok a') :
      Outcome alg pt m { pt with
        replacementAlgorithm := a'
        frames := frames.set i (some ({ e with referencedBit := true }.touch m.op))
        totalMemoryAccesses := pt.totalMemoryAccesses + 1 }
  | fill {a a' : σ} {frames : Frames}
      (refresh : alg.attemptRefresh pt.replacementAlgorithm pt.frames m = .ok (a, frames))
      (absent : pt.pageFrameTable m.pageNo = none)
      (room : pt.newFramesCounter < frames.length)
      (hook : alg.onMemoryAccess a (frames.set pt.newFramesCounter
        (some ((PageTableEntry.new m.pageNo false false).touch m.op))) pt.newFramesCounter m = .ok a') :
      Outcome alg pt m { pt with
        replacementAlgorithm := a'
        frames := frames.set pt.newFramesCounter (some ((PageTableEntry.new m.pageNo false false).touch m.op))
        totalMemoryAccesses := pt.totalMemoryAccesses + 1
        totalPageFaults := pt.totalPageFaults + 1
        newFramesCounter := pt.newFramesCounter + 1
        pageFrameTable := setKey pt.pageFrameTable m.pageNo pt.newFramesCounter }
  | evict {a a' a'' : σ} {frames frames' : Frames} {i : Nat} {victim : PageTableEntry} {v : Int}
      (refresh : alg.attemptRefresh pt.replacementAlgorithm pt.frames m = .ok (a, frames))
      (absent : pt.pageFrameTable m.pageNo = none)
      (full : frames.length ≤ pt.newFramesCounter)
      (choice : alg.findFrame a frames m = .ok (a', frames', (i : Int)))
      (entry : frames'[i]? = some (some victim))
      (known : pt.pageFrameTable victim.pageNo = some v)
      (hook : alg.onMemoryAccess a' (frames'.set i
        (some ((PageTableEntry.new m.pageNo false false).touch m.op))) i m = .ok a'') :
      Outcome alg pt m { pt with
        replacementAlgorithm := a''
        frames := frames'.set i (some ((PageTableEntry.new m.pageNo false false).touch m.op))
        totalMemoryAccesses := pt.totalMemoryAccesses + 1
        totalPageFaults := pt.totalPageFaults + 1
        totalWritesToDisk := if victim.dirtyBit then pt.totalWritesToDisk + 1 else pt.totalWritesToDisk
        pageFrameTable := setKey (fun p => if p = victim.pageNo then none else pt.pageFrameTable p) m.pageNo (i : Int) }

/-- `store` and `load` after `find_frame`: mark the entry, then call the algorithm's hook. -/
def PageTable.finish (alg : ReplacementAlgorithm σ) (m : MemoryAccess) (r : PageTable σ × Int) :
    Except PyError (PageTable σ) :=
  match m.op with
  | .store => do
    let page ← getEntry r.1.frames r.2
    let frames ← setItem r.1.frames r.2 (some { page with dirtyBit := true })
    PageTable.onMemoryAccess alg { r.1 with frames := frames } r.2 m
  | .load => r.1.onMemoryAccess alg r.2 m

theorem access_eq (alg : ReplacementAlgorithm σ) (pt : PageTable σ) (m : MemoryAccess) :
    pt.access alg m = pt.findFrame alg m >>= PageTable.finish alg m := by
  unfold PageTable.access PageTable.finish
  cases h : m.op with
  | store => simp only [PageTable.store]
  | load => simp only [PageTable.load]

theorem set_getElem?_of_some {α : Type} {xs : List α} {i : Nat} {x y : α} (h : xs[i]? = some x) :
    (xs.set i y)[i]? = some y := by
  obtain ⟨hi, -⟩ := List.getElem?_eq_some_iff.1 h
  simp [hi]

/-- The last part of an access of frame `i` that holds `e`. -/
theorem finish_ok {alg : ReplacementAlgorithm σ} {m : MemoryAccess} {pt pt' : PageTable σ} {i : Nat}
    {e : PageTableEntry} (he : pt.frames[i]? = some (some e)) :
    PageTable.finish alg m (pt, (i : Int)) = .ok pt' ↔
      ∃ a, alg.onMemoryAccess pt.replacementAlgorithm (pt.frames.set i (some (e.touch m.op))) i m = .ok a ∧
        pt' = { pt with frames := pt.frames.set i (some (e.touch m.op)), replacementAlgorithm := a } := by
  obtain ⟨hi, hget⟩ := List.getElem?_eq_some_iff.1 he
  unfold PageTable.finish PageTable.onMemoryAccess PageTableEntry.touch
  cases m.op with
  | store =>
    simp only [bind_ok, getEntry_natCast_ok, setItem_natCast_ok, pure_ok]
    constructor
    · rintro ⟨e', he', frames, ⟨-, rfl⟩, a, ha, rfl⟩
      rw [he] at he'; cases he'
      exact ⟨a, ha, rfl⟩
    · rintro ⟨a, ha, rfl⟩
      exact ⟨e, he, _, ⟨hi, rfl⟩, a, ha, rfl⟩
  | load =>
    have hset : pt.frames.set i (some e) = pt.frames := by rw [← hget]; exact List.set_getElem_self hi
    simp only [bind_ok, pure_ok, hset]
    constructor
    · rintro ⟨a, ha, rfl⟩; exact ⟨a, ha, rfl⟩
    · rintro ⟨a, ha, rfl⟩; exact ⟨a, ha, rfl⟩

/-- The algorithm picks `i` for the access `m`. -/
def Picks (alg : ReplacementAlgorithm σ) (pt : PageTable σ) (m : MemoryAccess) (i : Int) : Prop :=
  ∃ a frames a' frames', alg.attemptRefresh pt.replacementAlgorithm pt.frames m = .ok (a, frames) ∧
    alg.findFrame a frames m = .ok (a', frames', i)

/-- The stored frame numbers and the one the algorithm picks are positions, never negative. -/
structure Indexed (alg : ReplacementAlgorithm σ) (pt : PageTable σ) (m : MemoryAccess) : Prop where
  table : ∀ p i, pt.pageFrameTable p = some i → 0 ≤ i
  picks : ∀ i, Picks alg pt m i → 0 ≤ i

/-- An access that succeeds takes one of the three paths. -/
theorem outcome_of_access {alg : ReplacementAlgorithm σ} {pt pt' : PageTable σ} {m : MemoryAccess}
    (hx : Indexed alg pt m) (h : pt.access alg m = .ok pt') : Outcome alg pt m pt' := by
  rw [access_eq] at h
  obtain ⟨⟨pt₁, i₁⟩, h, hfin⟩ := bind_ok.1 h
  unfold PageTable.findFrame at h
  obtain ⟨⟨a, frames⟩, hr, h⟩ := bind_ok.1 h
  simp only at h
  split at h
  · rename_i i hi
    obtain ⟨i, rfl⟩ := Int.eq_ofNat_of_zero_le (hx.table _ _ hi)
    unfold PageTable.hit at h
    simp only [bind_ok, pure_ok] at h
    obtain ⟨e, he, frames', hs, h⟩ := h
    rw [getEntry_natCast_ok] at he
    obtain ⟨-, rfl⟩ := setItem_natCast_ok.1 hs
    cases h
    obtain ⟨a', ha', rfl⟩ := (finish_ok (set_getElem?_of_some he)).1 hfin
    simp only [List.set_set] at ha' ⊢
    exact .hit hr hi he ha'
  · rename_i hn
    split at h
    · rename_i hroom
      rw [pure_ok] at h
      unfold PageTable.fill at h
      cases h
      obtain ⟨a', ha', rfl⟩ := (finish_ok (e := .new m.pageNo false false) (by simp [hroom])).1 hfin
      simp only [List.set_set] at ha' ⊢
      exact .fill hr hn hroom ha'
    · rename_i hfull
      unfold PageTable.evict at h
      obtain ⟨⟨a', frames', i⟩, hc, h⟩ := bind_ok.1 h
      obtain ⟨i, rfl⟩ := Int.eq_ofNat_of_zero_le (hx.picks i ⟨a, frames, a', frames', hr, hc⟩)
      simp only [bind_ok, pure_ok] at h
      obtain ⟨victim, hv, table, ht, frames'', hs, h⟩ := h
      rw [getEntry_natCast_ok] at hv
      obtain ⟨-, rfl⟩ := setItem_natCast_ok.1 hs
      obtain ⟨⟨v, hk⟩, rfl⟩ := delKey_ok.1 ht
      cases h
      obtain ⟨a'', ha'', rfl⟩ := (finish_ok (set_getElem?_of_some hv)).1 hfin
      simp only [List.set_set] at ha'' ⊢
      exact .evict hr hn (by omega) hc hv hk ha''

/-- Each of the three paths is an access that succeeds. -/
theorem access_of_outcome {alg : ReplacementAlgorithm σ} {pt pt' : PageTable σ} {m : MemoryAccess}
    (h : Outcome alg pt m pt') : pt.access alg m = .ok pt' := by
  rw [access_eq, bind_ok]
  cases h with
  | @hit a a' frames i e refresh resident entry hook =>
    obtain ⟨hi, -⟩ := List.getElem?_eq_some_iff.1 entry
    refine ⟨({ pt with
      replacementAlgorithm := a
      frames := frames.set i (some { e with referencedBit := true })
      totalMemoryAccesses := pt.totalMemoryAccesses + 1 }, (i : Int)), ?_, ?_⟩
    · unfold PageTable.findFrame PageTable.hit
      rw [refresh]
      simp only [bind_ok]
      refine ⟨_, rfl, ?_⟩
      simp only [resident, bind_ok, pure_ok, getEntry_natCast_ok, setItem_natCast_ok]
      exact ⟨e, entry, _, ⟨hi, rfl⟩, rfl⟩
    · rw [finish_ok (set_getElem?_of_some entry)]
      simp only [List.set_set]
      exact ⟨a', hook, rfl⟩
  | @fill a a' frames refresh absent room hook =>
    refine ⟨PageTable.fill { pt with
      replacementAlgorithm := a
      frames := frames
      totalMemoryAccesses := pt.totalMemoryAccesses + 1
      totalPageFaults := pt.totalPageFaults + 1 } m.pageNo, ?_, ?_⟩
    · unfold PageTable.findFrame
      rw [refresh]
      simp only [bind_ok]
      refine ⟨_, rfl, ?_⟩
      simp only [absent, room, if_true]
      rfl
    · unfold PageTable.fill
      rw [finish_ok (e := .new m.pageNo false false) (by simp [room])]
      simp only [List.set_set]
      exact ⟨a', hook, rfl⟩
  | @evict a a' a'' frames frames' i victim v refresh absent full choice entry known hook =>
    obtain ⟨hi, -⟩ := List.getElem?_eq_some_iff.1 entry
    refine ⟨({ pt with
      replacementAlgorithm := a'
      frames := frames'.set i (some (.new m.pageNo false false))
      totalMemoryAccesses := pt.totalMemoryAccesses + 1
      totalPageFaults := pt.totalPageFaults + 1
      totalWritesToDisk := if victim.dirtyBit then pt.totalWritesToDisk + 1 else pt.totalWritesToDisk
      pageFrameTable := setKey (fun p => if p = victim.pageNo then none else pt.pageFrameTable p) m.pageNo (i : Int) },
      (i : Int)), ?_, ?_⟩
    · unfold PageTable.findFrame PageTable.evict
      rw [refresh]
      simp only [bind_ok]
      refine ⟨_, rfl, ?_⟩
      simp only [absent, Nat.not_lt.2 full, if_false, bind_ok, pure_ok]
      exact ⟨_, choice, victim, getEntry_natCast_ok.2 entry, _, delKey_ok.2 ⟨⟨v, known⟩, rfl⟩, _,
        setItem_natCast_ok.2 ⟨hi, rfl⟩, rfl⟩
    · rw [finish_ok (set_getElem?_of_some entry)]
      simp only [List.set_set]
      exact ⟨a'', hook, rfl⟩

end CS1550.Vmsim
