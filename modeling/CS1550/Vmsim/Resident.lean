/-
The residents of a page table as the list `L` of pages in frame order (`Resident`), for any
replacement algorithm: a hit keeps it, a fill appends to it, an eviction overwrites one position
(`Outcome.resident`). What an algorithm needs for its hooks not to raise is an invariant of its own
over the accesses to come and `L` (`Sound`), and a sound algorithm runs over any trace (`Sound.run`).
-/
import CS1550.Vmsim.Access
import Mathlib.Data.List.Nodup

namespace CS1550.Vmsim

variable {σ : Type}

/-! ## Residents -/

/-- The page numbers in the frames. -/
def pages (frames : Frames) : List (Option Int) := frames.map (Option.map PageTableEntry.pageNo)

/-- The pages of `n` frames whose first ones hold `L`. -/
def shown (n : Nat) (L : List Int) : List (Option Int) := L.map some ++ List.replicate (n - L.length) none

theorem pages_set (frames : Frames) (i : Nat) (e : PageTableEntry) :
    pages (frames.set i (some e)) = (pages frames).set i (some e.pageNo) := by
  simp [pages, List.map_set]

theorem pages_getElem? {frames : Frames} {i : Nat} {p : Int} :
    (pages frames)[i]? = some (some p) ↔ ∃ e, frames[i]? = some (some e) ∧ e.pageNo = p := by
  simp only [pages, List.getElem?_map, Option.map_eq_some_iff]
  constructor
  · rintro ⟨o, ho, e, rfl, rfl⟩; exact ⟨e, ho, rfl⟩
  · rintro ⟨e, he, rfl⟩; exact ⟨some e, he, e, rfl, rfl⟩

theorem pages_length (frames : Frames) : (pages frames).length = frames.length := by simp [pages]

theorem shown_length {n : Nat} {L : List Int} (h : L.length ≤ n) : (shown n L).length = n := by
  simp [shown]; omega

theorem shown_getElem? {n : Nat} {L : List Int} {i : Nat} {p : Int} :
    (shown n L)[i]? = some (some p) ↔ L[i]? = some p := by
  simp only [shown, List.getElem?_append, List.length_map]
  split
  · simp
  · rename_i h
    simp [List.getElem?_replicate, List.getElem?_eq_none (Nat.not_lt.1 h)]

theorem shown_inj {n : Nat} {L L' : List Int} (h : shown n L = shown n L') : L = L' := by
  apply List.ext_getElem?
  intro i
  ext p
  rw [← shown_getElem? (n := n), ← shown_getElem? (n := n), h]

theorem shown_append {n : Nat} {L : List Int} (p : Int) (h : L.length < n) :
    (shown n L).set L.length (some p) = shown n (L ++ [p]) := by
  have hn : n - L.length = (n - (L.length + 1)) + 1 := by omega
  unfold shown
  rw [List.set_append_right _ _ (by simp), hn, List.replicate_succ]
  simp

theorem shown_set {n : Nat} {L : List Int} {i : Nat} (p : Int) (h : i < L.length) :
    (shown n L).set i (some p) = shown n (L.set i p) := by
  unfold shown
  rw [List.set_append_left _ _ (by simpa using h), List.map_set, List.length_set]

/-- The resident pages in frame order: they fill the first frames, are distinct, are counted by
`new_frames_counter` and are what `page_frame_table` knows. -/
structure Resident (n : Nat) (pt : PageTable σ) (L : List Int) : Prop where
  frames : pages pt.frames = shown n L
  le : L.length ≤ n
  counter : pt.newFramesCounter = L.length
  nodup : L.Nodup
  table : ∀ p i, pt.pageFrameTable p = some i ↔ ∃ k : Nat, i = k ∧ L[k]? = some p

theorem Resident.absent {n : Nat} {pt : PageTable σ} {L : List Int} (h : Resident n pt L) {p : Int} :
    pt.pageFrameTable p = none ↔ p ∉ L := by
  constructor
  · intro hn hp
    obtain ⟨k, hk⟩ := List.mem_iff_getElem?.1 hp
    have := (h.table p k).2 ⟨k, rfl, hk⟩
    rw [hn] at this; cases this
  · intro hp
    cases hd : pt.pageFrameTable p with
    | none => rfl
    | some i =>
      obtain ⟨k, -, hk⟩ := (h.table p i).1 hd
      exact absurd (List.mem_of_getElem? hk) hp

theorem resident_init (n : Nat) (a : σ) : Resident n (PageTable.init n a) [] :=
  ⟨by simp [PageTable.init, pages, shown], Nat.zero_le _, rfl, List.nodup_nil, by simp [PageTable.init]⟩

/-! ## A successful access -/

/-- An algorithm whose hooks change no page number in the frames. -/
structure KeepsPages (alg : ReplacementAlgorithm σ) : Prop where
  refresh : ∀ {a a' frames frames' m}, alg.attemptRefresh a frames m = .ok (a', frames') → pages frames' = pages frames
  find : ∀ {a a' frames frames' m i}, alg.findFrame a frames m = .ok (a', frames', i) → pages frames' = pages frames

/-- How the residents and the number of faults change in an access of page `p`, where an eviction
takes a position as `E` allows. -/
inductive Moved (E : Nat → Prop) (n : Nat) (p : Int) (L : List Int) : Nat → List Int → Prop
  | hit : p ∈ L → Moved E n p L 0 L
  | fill : p ∉ L → L.length < n → Moved E n p L 1 (L ++ [p])
  | evict (k : Nat) : p ∉ L → L.length = n → k < n → E k → Moved E n p L 1 (L.set k p)

theorem Moved.mem {E : Nat → Prop} {n : Nat} {p : Int} {L L' : List Int} {f : Nat} (h : Moved E n p L f L') :
    p ∈ L' := by
  cases h with
  | hit h => exact h
  | fill _ _ => simp
  | evict k _ hn hk _ => exact List.mem_of_getElem? (List.getElem?_set_self (by omega))

/-- Overwriting position `k` of a table of distinct pages with a new page. -/
theorem getElem?_set_iff {L : List Int} (hL : L.Nodup) {k : Nat} {v p q : Int} (hk : L[k]? = some v)
    (hp : p ∉ L) (j : Nat) :
    (L.set k p)[j]? = some q ↔ if q = p then j = k else L[j]? = some q ∧ q ≠ v := by
  obtain ⟨hlt, hv⟩ := List.getElem?_eq_some_iff.1 hk
  by_cases hj : j = k
  · subst hj
    rw [List.getElem?_set_self hlt]
    by_cases hq : q = p
    · simp [hq]
    · simp only [hq, if_false, hk, Option.some.injEq]
      constructor
      · intro e; exact absurd e.symm hq
      · rintro ⟨rfl, h⟩; exact absurd rfl h
  · rw [List.getElem?_set_ne (Ne.symm hj)]
    by_cases hq : q = p
    · subst hq
      simp only [if_true, hj, iff_false]
      exact fun h => hp (List.mem_of_getElem? h)
    · simp only [hq, if_false]
      constructor
      · intro h
        refine ⟨h, ?_⟩
        rintro rfl
        obtain ⟨hjl, hjv⟩ := List.getElem?_eq_some_iff.1 h
        exact hj ((hL.getElem_inj_iff).1 (hjv.trans hv.symm))
      · exact fun h => h.1

/-- The residents after each of the three paths. -/
theorem Outcome.resident {alg : ReplacementAlgorithm σ} (hp : KeepsPages alg) {n : Nat} {pt pt' : PageTable σ}
    {m : MemoryAccess} {L : List Int} (h : Resident n pt L) (ho : Outcome alg pt m pt') :
    ∃ f L', Moved (Picks alg pt m ·) n m.pageNo L f L' ∧ Resident n pt' L' ∧
      pt'.totalPageFaults = pt.totalPageFaults + f := by
  have hlen := shown_length h.le
  cases ho with
  | @hit a a' frames i e refresh resident entry hook =>
    have hpg := (hp.refresh refresh).trans h.frames
    obtain ⟨k, hik, hk⟩ := (h.table _ _).1 resident
    obtain rfl : i = k := by omega
    have hsame : (shown n L).set i (some e.pageNo) = shown n L := by
      obtain ⟨hi, hget⟩ := List.getElem?_eq_some_iff.1 (pages_getElem?.2 ⟨e, entry, rfl⟩)
      rw [← hpg, ← hget]
      exact List.set_getElem_self hi
    refine ⟨0, L, .hit (List.mem_of_getElem? hk), ⟨?_, h.le, h.counter, h.nodup, h.table⟩, rfl⟩
    show pages _ = _
    rw [pages_set, hpg]
    simpa using hsame
  | @fill a a' frames refresh absent room hook =>
    have hpg := (hp.refresh refresh).trans h.frames
    have hroom : L.length < n := by
      rw [← pages_length, hpg, hlen, h.counter] at room; exact room
    have hnot := h.absent.1 absent
    refine ⟨1, L ++ [m.pageNo], .fill hnot hroom, ⟨?_, by simp; omega, by simp [h.counter],
      List.nodup_append.2 ⟨h.nodup, List.nodup_singleton _, ?_⟩, fun q j => ?_⟩, rfl⟩
    · show pages _ = _
      rw [pages_set, hpg, h.counter, PageTableEntry.touch_pageNo, PageTableEntry.new_pageNo]
      exact shown_append _ hroom
    · intro x hx y hy
      rw [List.mem_singleton] at hy; subst hy
      rintro rfl; exact hnot hx
    · show setKey pt.pageFrameTable m.pageNo (pt.newFramesCounter : Int) q = some j ↔ _
      unfold setKey
      by_cases hq : q = m.pageNo
      · subst hq
        simp only [if_true, Option.some.injEq, h.counter]
        constructor
        · rintro rfl; exact ⟨L.length, rfl, by simp⟩
        · rintro ⟨k, rfl, hk⟩
          rw [List.getElem?_append] at hk
          split at hk
          · exact absurd (List.mem_of_getElem? hk) hnot
          · obtain ⟨hlt, -⟩ := List.getElem?_eq_some_iff.1 hk
            simp only [List.length_singleton] at hlt; omega
      · simp only [hq, if_false, h.table]
        refine exists_congr fun k => and_congr_right fun _ => ?_
        rw [List.getElem?_append]
        split
        · rfl
        · rename_i hkl
          rw [List.getElem?_eq_none (Nat.not_lt.1 hkl)]
          constructor
          · intro e; cases e
          · intro hk
            have := List.mem_of_getElem? hk
            rw [List.mem_singleton] at this; exact absurd this hq
  | @evict a a' a'' frames frames' i victim v refresh absent full choice entry known hook =>
    have hpr := (hp.refresh refresh).trans h.frames
    have hpg := (hp.find choice).trans hpr
    have hfull : L.length = n := by
      have : frames.length = n := by rw [← pages_length, hpr, hlen]
      have := h.le; rw [h.counter] at full; omega
    have hi : L[i]? = some victim.pageNo := by
      rw [← shown_getElem? (n := n), ← hpg]; exact pages_getElem?.2 ⟨victim, entry, rfl⟩
    have hil : i < L.length := (List.getElem?_eq_some_iff.1 hi).1
    have hnot := h.absent.1 absent
    refine ⟨1, L.set i m.pageNo, .evict i hnot hfull (by omega) ⟨a, frames, a', frames', refresh, choice⟩,
      ⟨?_, by simpa using h.le, by simp [h.counter], h.nodup.set hnot, fun q j => ?_⟩, rfl⟩
    · show pages _ = _
      rw [pages_set, hpg, PageTableEntry.touch_pageNo, PageTableEntry.new_pageNo]
      exact shown_set _ hil
    · show setKey (fun p => if p = victim.pageNo then none else pt.pageFrameTable p) m.pageNo (i : Int) q = some j ↔ _
      simp only [getElem?_set_iff h.nodup hi hnot]
      unfold setKey
      by_cases hq : q = m.pageNo
      · simp only [hq, if_true, Option.some.injEq]
        constructor
        · rintro rfl; exact ⟨i, rfl, rfl⟩
        · rintro ⟨k, rfl, rfl⟩; rfl
      · simp only [hq, if_false]
        by_cases hv : q = victim.pageNo
        · simp [hv]
        · simp [hv, h.table]

/-! ## Algorithms whose hooks do not raise -/

/-- `I rest a L`: the algorithm's state `a` fits the residents `L` before the accesses `rest`. Under
it no hook raises, and each path re-establishes it. -/
structure Sound (alg : ReplacementAlgorithm σ) (n : Nat) (I : List MemoryAccess → σ → List Int → Prop) : Prop where
  refresh : ∀ {m rest a L frames}, I (m :: rest) a L → pages frames = shown n L →
    ∃ a' frames', alg.attemptRefresh a frames m = .ok (a', frames') ∧ I (m :: rest) a' L
  hit : ∀ {m rest a L frames k}, I (m :: rest) a L → pages frames = shown n L → L[k]? = some m.pageNo →
    ∃ a', alg.onMemoryAccess a frames (k : Nat) m = .ok a' ∧ I rest a' L
  fill : ∀ {m rest a L frames}, I (m :: rest) a L → m.pageNo ∉ L → L.length < n →
    pages frames = shown n (L ++ [m.pageNo]) →
    ∃ a', alg.onMemoryAccess a frames L.length m = .ok a' ∧ I rest a' (L ++ [m.pageNo])
  evict : ∀ {m rest a L frames}, I (m :: rest) a L → m.pageNo ∉ L → L.length = n → pages frames = shown n L →
    ∃ a' frames' k, alg.findFrame a frames m = .ok (a', frames', (k : Nat)) ∧ k < n ∧
      ∀ frames'', pages frames'' = shown n (L.set k m.pageNo) →
        ∃ a'', alg.onMemoryAccess a' frames'' k m = .ok a'' ∧ I rest a'' (L.set k m.pageNo)

/-- A parameter of the invariant that no path changes. -/
theorem Sound.exists {ι : Type} {alg : ReplacementAlgorithm σ} {n : Nat}
    {I : ι → List MemoryAccess → σ → List Int → Prop} (h : ∀ N, Sound alg n (I N)) :
    Sound alg n fun rest a L => ∃ N, I N rest a L := by
  refine ⟨?_, ?_, ?_, ?_⟩
  · rintro m rest a L frames ⟨N, hI⟩ hf
    obtain ⟨a', frames', hr, hI'⟩ := (h N).refresh hI hf
    exact ⟨a', frames', hr, N, hI'⟩
  · rintro m rest a L frames k ⟨N, hI⟩ hf hk
    obtain ⟨a', ha, hI'⟩ := (h N).hit hI hf hk
    exact ⟨a', ha, N, hI'⟩
  · rintro m rest a L frames ⟨N, hI⟩ hm hn hf
    obtain ⟨a', ha, hI'⟩ := (h N).fill hI hm hn hf
    exact ⟨a', ha, N, hI'⟩
  · rintro m rest a L frames ⟨N, hI⟩ hm hn hf
    obtain ⟨a', frames', k, hfind, hk, hhook⟩ := (h N).evict hI hm hn hf
    refine ⟨a', frames', k, hfind, hk, fun frames'' hf'' => ?_⟩
    obtain ⟨a'', ha, hI'⟩ := hhook frames'' hf''
    exact ⟨a'', ha, N, hI'⟩

/-- One access of a sound algorithm does not raise and keeps its invariant. -/
theorem Sound.step {alg : ReplacementAlgorithm σ} (hp : KeepsPages alg) {n : Nat}
    {I : List MemoryAccess → σ → List Int → Prop} (hs : Sound alg n I) {pt : PageTable σ} {L : List Int}
    {m : MemoryAccess} {rest : List MemoryAccess} (h : Resident n pt L)
    (hI : I (m :: rest) pt.replacementAlgorithm L) :
    ∃ pt' f L', Outcome alg pt m pt' ∧ Resident n pt' L' ∧ I rest pt'.replacementAlgorithm L' ∧
      Moved (Picks alg pt m ·) n m.pageNo L f L' ∧ pt'.totalPageFaults = pt.totalPageFaults + f := by
  obtain ⟨a, frames, hr, hI⟩ := hs.refresh hI h.frames
  have hpg := (hp.refresh hr).trans h.frames
  have hlen : frames.length = n := by rw [← pages_length, hpg, shown_length h.le]
  -- the list of residents after an outcome is determined by its frames
  have key : ∀ {pt' L'}, Outcome alg pt m pt' → pages pt'.frames = shown n L' →
      I rest pt'.replacementAlgorithm L' → ∃ pt' f L', Outcome alg pt m pt' ∧ Resident n pt' L' ∧
        I rest pt'.replacementAlgorithm L' ∧ Moved (Picks alg pt m ·) n m.pageNo L f L' ∧
        pt'.totalPageFaults = pt.totalPageFaults + f := by
    intro pt' L' ho hf hI'
    obtain ⟨f, L'', hm, hR, hfaults⟩ := ho.resident hp h
    obtain rfl := shown_inj (hR.frames.symm.trans hf)
    exact ⟨pt', f, L'', ho, hR, hI', hm, hfaults⟩
  by_cases hmem : m.pageNo ∈ L
  · obtain ⟨k, hk⟩ := List.mem_iff_getElem?.1 hmem
    obtain ⟨e, he, hep⟩ := pages_getElem?.1 (by rw [hpg]; exact shown_getElem?.2 hk)
    have hset : pages (frames.set k (some ({ e with referencedBit := true }.touch m.op))) = shown n L := by
      obtain ⟨hi, hget⟩ := List.getElem?_eq_some_iff.1 (pages_getElem?.2 ⟨e, he, rfl⟩)
      rw [pages_set, PageTableEntry.touch_pageNo, ← hpg, ← hget]
      exact List.set_getElem_self hi
    obtain ⟨a', ha', hI'⟩ := hs.hit hI hset hk
    exact key (.hit hr ((h.table _ _).2 ⟨k, rfl, hk⟩) he ha') hset hI'
  · have habs := h.absent.2 hmem
    by_cases hroom : L.length < n
    · have hset : pages (frames.set pt.newFramesCounter (some ((PageTableEntry.new m.pageNo false false).touch m.op)))
          = shown n (L ++ [m.pageNo]) := by
        rw [pages_set, hpg, h.counter, PageTableEntry.touch_pageNo, PageTableEntry.new_pageNo]
        exact shown_append _ hroom
      obtain ⟨a', ha', hI'⟩ := hs.fill hI hmem hroom hset
      rw [← h.counter] at ha'
      exact key (.fill hr habs (by rw [h.counter, hlen]; exact hroom) ha') hset hI'
    · have hn : L.length = n := by have := h.le; omega
      obtain ⟨a', frames', k, hc, hk, hhook⟩ := hs.evict hI hmem hn hpg
      have hpg' := (hp.find hc).trans hpg
      obtain ⟨victim, hv, hvp⟩ := pages_getElem?.1
        (by rw [hpg']; exact shown_getElem?.2 (List.getElem?_eq_getElem (show k < L.length by omega)))
      have hset : pages (frames'.set k (some ((PageTableEntry.new m.pageNo false false).touch m.op)))
          = shown n (L.set k m.pageNo) := by
        rw [pages_set, hpg', PageTableEntry.touch_pageNo, PageTableEntry.new_pageNo]
        exact shown_set _ (by omega)
      obtain ⟨a'', ha'', hI''⟩ := hhook _ hset
      have hknown := (h.table victim.pageNo k).2
        ⟨k, rfl, by rw [hvp]; exact List.getElem?_eq_getElem (show k < L.length by omega)⟩
      exact key (.evict hr habs (by rw [h.counter, hlen]; omega) hc hv hknown ha'') hset hI''

theorem simulate_cons (alg : ReplacementAlgorithm σ) (pt : PageTable σ) (m : MemoryAccess) (rest : List MemoryAccess) :
    simulate alg pt (m :: rest) = pt.access alg m >>= fun pt' => simulate alg pt' rest := by
  simp [simulate, List.foldlM_cons]

/-- A sound algorithm runs over any prefix of the accesses to come without raising. -/
theorem Sound.run {alg : ReplacementAlgorithm σ} (hp : KeepsPages alg) {n : Nat}
    {I : List MemoryAccess → σ → List Int → Prop} (hs : Sound alg n I) :
    ∀ (done : List MemoryAccess) {rest : List MemoryAccess} {pt : PageTable σ} {L : List Int}, Resident n pt L →
      I (done ++ rest) pt.replacementAlgorithm L →
      ∃ pt' L', simulate alg pt done = .ok pt' ∧ Resident n pt' L' ∧ I rest pt'.replacementAlgorithm L' ∧
        ∀ m ∈ done.getLast?, m.pageNo ∈ L'
  | [], rest, pt, L, h, hI => ⟨pt, L, rfl, h, hI, by simp⟩
  | m :: done, rest, pt, L, h, hI => by
    obtain ⟨pt₁, f, L₁, ho, h₁, hI₁, hm, -⟩ := hs.step hp h hI
    obtain ⟨pt', L', hrun, h', hI', hlast⟩ := Sound.run hp hs done h₁ hI₁
    refine ⟨pt', L', ?_, h', hI', ?_⟩
    · rw [simulate_cons, bind_ok]; exact ⟨pt₁, access_of_outcome ho, hrun⟩
    · intro x hx
      cases done with
      | nil =>
        simp only [List.getLast?_singleton, Option.mem_def, Option.some.injEq] at hx
        subst hx
        cases hrun
        -- with nothing left to run the final table is the one after this access
        rw [shown_inj (h'.frames.symm.trans h₁.frames)]; exact hm.mem
      | cons y ys => exact hlast x (by simpa [List.getLast?_cons_cons] using hx)

end CS1550.Vmsim
