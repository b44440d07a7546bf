/-
The aging counter as a history of references. A refresh shifts the counter of every page and takes in whether the
page was hit since the refresh before, so between two refreshes the counter is a shift register over the hits
since the page was loaded (`Recorded`). The access that loads a page sets no referenced bit and is not a hit.
Over every run and at every moment of it, within the refreshes of an access as well, the counter is the register
of `CS1550.Lib.ShiftRegister` in closed form (`aging_history`).
-/
import CS1550.Lib.ShiftRegister
import CS1550.Vmsim.Clock

namespace CS1550.Vmsim

/-! ## One entry -/

/-- An entry that has seen `m` refreshes; `hit q` says whether its page was hit between the refreshes `q` and
`q + 1`. -/
structure Recorded (e : PageTableEntry) (hit : Nat → Bool) (m : Nat) : Prop where
  counter : e.agingCounter = ShiftRegister.after 7 hit m
  referenced : e.referencedBit = hit m

variable {e : PageTableEntry} {hit hit' : Nat → Bool} {m k : Nat}

/-- A refresh takes the referenced bit in and opens a period without a hit. -/
theorem Recorded.refresh (h : Recorded e hit m) (hnone : hit (m + 1) = false) : Recorded e.refresh hit (m + 1) := by
  refine ⟨?_, hnone.symm⟩
  rw [ShiftRegister.after, ← h.counter, ← h.referenced]
  rfl

theorem Recorded.refresh_iterate (h : Recorded e hit m) :
    ∀ k, (∀ q, m < q → q ≤ m + k → hit q = false) → Recorded (PageTableEntry.refresh^[k] e) hit (m + k)
  | 0, _ => h
  | k + 1, hnone => by
    rw [Function.iterate_succ_apply']
    refine (h.refresh_iterate k fun q hq hle => hnone q hq (by omega)).refresh ?_
    exact hnone (m + k + 1) (by omega) (by omega)

/-- A hit in the period that is open changes nothing that has been taken in. -/
theorem Recorded.congr (h : Recorded e hit m) (hsame : ∀ q < m, hit q = hit' q) :
    e.agingCounter = ShiftRegister.after 7 hit' m := by
  rw [h.counter]
  exact ShiftRegister.after_congr hsame

theorem refresh_iterate_pageNo (e : PageTableEntry) : ∀ k, (PageTableEntry.refresh^[k] e).pageNo = e.pageNo
  | 0 => rfl
  | k + 1 => by
    rw [Function.iterate_succ_apply']
    exact refresh_iterate_pageNo e k

theorem getElem?_refresh_iterate (frames : Frames) (f : Nat) :
    ∀ k, (Aging.refresh^[k] frames)[f]? = frames[f]?.map (Option.map PageTableEntry.refresh^[k])
  | 0 => by simp
  | k + 1 => by
    rw [Function.iterate_succ_apply', Aging.refresh, List.getElem?_map, getElem?_refresh_iterate frames f k,
      Function.iterate_succ', Option.map_map, Option.map_comp_map]

@[simp] theorem PageTableEntry.touch_agingCounter (e : PageTableEntry) (op : Op) :
    (e.touch op).agingCounter = e.agingCounter := by
  cases op <;> rfl

@[simp] theorem PageTableEntry.touch_referencedBit (e : PageTableEntry) (op : Op) :
    (e.touch op).referencedBit = e.referencedBit := by
  cases op <;> rfl

/-! ## One access -/

/-- `attempt_refresh` calls `refresh` as often as `refreshTimes` says. -/
theorem Aging.attemptRefresh_frames {a a' : Aging} {frames frames' : Frames} {x : MemoryAccess}
    (h : Aging.attemptRefresh a frames x = .ok (a', frames')) : frames' = Aging.refresh^[a.refreshTimes x] frames := by
  simp only [Aging.attemptRefresh, Aging.refreshTimes] at h ⊢
  generalize a.cyclesSinceRefresh + x.cycles + (if a.firstTrace then 0 else 1) = cycles at h ⊢
  split at h
  · rename_i hle
    split at h
    · cases h
    · cases h
      rw [if_pos hle]
  · rename_i hlt
    cases h
    rw [if_neg hlt]
    rfl

theorem Aging.findFrame_frames {a a' : Aging} {frames frames' : Frames} {x : MemoryAccess} {i : Nat}
    (h : Aging.findFrame a frames x = .ok (a', frames', (i : Int))) : ∃ o, frames' = frames.set i o := by
  unfold Aging.findFrame at h
  simp only [bind_ok, pure_ok] at h
  obtain ⟨j, -, page, -, frames'', hs, heq⟩ := h
  cases heq
  exact ⟨_, (setItem_natCast_ok.1 hs).2⟩

/-- The entry that an access leaves in the frame of its page: a hit marks the one that was there, a fault makes a
new one. -/
inductive Accessed (x : MemoryAccess) (pt : PageTable Aging) (frames : Frames) (f : Nat) : PageTableEntry → Prop
  | hit {e : PageTableEntry} (entry : frames[f]? = some (some e)) (page : e.pageNo = x.pageNo) :
    Accessed x pt frames f ({ e with referencedBit := true }.touch x.op)
  | load (absent : x.pageNo ∉ pt.memory.held) : Accessed x pt frames f ((PageTableEntry.new x.pageNo false false).touch x.op)

theorem Accessed.pageNo {x : MemoryAccess} {pt : PageTable Aging} {frames : Frames} {f : Nat} {e : PageTableEntry}
    (h : Accessed x pt frames f e) : e.pageNo = x.pageNo := by
  cases h with
  | hit entry page => rw [PageTableEntry.touch_pageNo]; exact page
  | load => rw [PageTableEntry.touch_pageNo]; rfl

/-- An access refreshes the frames and then changes the frame of its page. -/
theorem Outcome.accessed {n : Nat} {pt pt' : PageTable Aging} {x : MemoryAccess} {L : List Int} (hR : Resident n pt L)
    (h : Outcome aging pt x pt') : ∃ f e', f < pt.frames.length ∧
      pt'.frames = (Aging.refresh^[pt.replacementAlgorithm.refreshTimes x] pt.frames).set f (some e') ∧
      Accessed x pt (Aging.refresh^[pt.replacementAlgorithm.refreshTimes x] pt.frames) f e' := by
  have hlength : ∀ {a frames}, aging.attemptRefresh pt.replacementAlgorithm pt.frames x = .ok (a, frames) →
      frames.length = pt.frames.length := by
    intro a frames hr
    rw [← pages_length, aging_keepsPages.refresh hr, pages_length]
  have habsent : pt.pageFrameTable x.pageNo = none → x.pageNo ∉ pt.memory.held := by
    intro hnone
    rw [hR.held, List.mem_toFinset]
    exact hR.absent.1 hnone
  cases h with
  | @hit a a' frames f e refresh resident entry hook =>
    have hlt := (List.getElem?_eq_some_iff.1 entry).1
    have hpage : e.pageNo = x.pageNo := by
      obtain ⟨k, hfk, hk⟩ := (hR.table _ _).1 resident
      obtain rfl : f = k := by omega
      have hpages := pages_getElem?.2 ⟨e, entry, rfl⟩
      rw [aging_keepsPages.refresh refresh, hR.frames, shown_getElem?, hk] at hpages
      exact (Option.some.inj hpages).symm
    rw [hlength refresh] at hlt
    obtain rfl := Aging.attemptRefresh_frames refresh
    exact ⟨f, _, hlt, rfl, .hit entry hpage⟩
  | @fill a a' frames refresh absent room hook =>
    rw [hlength refresh] at room
    obtain rfl := Aging.attemptRefresh_frames refresh
    exact ⟨_, _, room, rfl, .load (habsent absent)⟩
  | @evict a a' a'' frames frames' f victim v refresh absent full choice entry known hook =>
    obtain ⟨o, rfl⟩ := Aging.findFrame_frames (x := x) choice
    have hlt := (List.getElem?_eq_some_iff.1 entry).1
    rw [List.length_set, hlength refresh] at hlt
    obtain rfl := Aging.attemptRefresh_frames refresh
    refine ⟨f, _, hlt, ?_, .load (habsent absent)⟩
    show List.set (List.set _ f o) f _ = _
    rw [List.set_set]

/-! ## Runs -/

/-- Where `calls t` refreshes have been made before access `t`: an access behind `i` and before `t`, to the page
`p`, between the refreshes `q` and `q + 1` since access `i`. The refreshes of an access come before its hit. -/
def HitBetween (traces : List MemoryAccess) (calls : Nat → Nat) (p : Int) (i t q : Nat) : Prop :=
  ∃ s < t, i < s ∧ traces[s]?.map MemoryAccess.pageNo = some p ∧ calls (s + 1) = calls (i + 1) + q

instance (traces : List MemoryAccess) (calls : Nat → Nat) (p : Int) (i t q : Nat) :
    Decidable (HitBetween traces calls p i t q) := inferInstanceAs (Decidable (∃ s < t, _))

section

variable {traces : List MemoryAccess} {calls : Nat → Nat} {p : Int} {i t q : Nat} {x : MemoryAccess}

/-- There is no hit in a period that has not begun. -/
theorem not_hitBetween (hmono : Monotone calls) (hq : calls t < calls (i + 1) + q) : ¬ HitBetween traces calls p i t q := by
  rintro ⟨s, hst, -, -, hs⟩
  have := hmono (show s + 1 ≤ t from hst)
  omega

/-- What access `t` adds to the hits. -/
theorem hitBetween_succ (hx : traces[t]? = some x) (hit : i < t) : HitBetween traces calls p i (t + 1) q ↔
    HitBetween traces calls p i t q ∨ x.pageNo = p ∧ calls (t + 1) = calls (i + 1) + q := by
  constructor
  · rintro ⟨s, hst, his, hs, hq⟩
    rcases Nat.lt_or_eq_of_le (Nat.le_of_lt_succ hst) with hlt | rfl
    · exact .inl ⟨s, hlt, his, hs, hq⟩
    · rw [hx] at hs
      exact .inr ⟨Option.some.inj hs, hq⟩
  · rintro (⟨s, hst, his, hs, hq⟩ | ⟨rfl, hq⟩)
    · exact ⟨s, hst.trans (Nat.lt_succ_self t), his, hs, hq⟩
    · exact ⟨t, Nat.lt_succ_self t, hit, by rw [hx]; rfl, hq⟩

end

theorem refreshCalls_mono (traces : List MemoryAccess) (run : Nat → PageTable Aging) : Monotone (refreshCalls traces run) := by
  refine monotone_nat_of_le_succ fun t => ?_
  rw [refreshCalls, refreshCalls, Finset.sum_range_succ]
  exact Nat.le_add_right _ _

section

variable {traces : List MemoryAccess} {run : Nat → PageTable Aging} {t f : Nat} {x : MemoryAccess}

theorem refreshCalls_succ (run : Nat → PageTable Aging) (hx : traces[t]? = some x) :
    refreshCalls traces run (t + 1) = refreshCalls traces run t + (run t).replacementAlgorithm.refreshTimes x := by
  rw [refreshCalls, Finset.sum_range_succ, hx]
  rfl

/-- The history of an entry at time `t` of a run, when `c` refreshes have been made since its start: it is recorded
from the last load of its page on. -/
def RecordedAt (traces : List MemoryAccess) (run : Nat → PageTable Aging) (t c : Nat) (e : PageTableEntry) : Prop :=
  ∃ i, Writeback.Since (requests traces) (fun s => (run s).memory) e.pageNo i t ∧
    Recorded e (fun q => decide (HitBetween traces (refreshCalls traces run) e.pageNo i t q))
      (c - refreshCalls traces run (i + 1))

/-- Refreshes without an access between them. -/
theorem RecordedAt.refresh (h : RecordedAt traces run t (refreshCalls traces run t) e) (k : Nat) :
    RecordedAt traces run t (refreshCalls traces run t + k) (PageTableEntry.refresh^[k] e) := by
  obtain ⟨i, hsince, hrec⟩ := h
  have hmono := refreshCalls_mono traces run
  have hle := hmono (show i + 1 ≤ t from hsince.lt)
  unfold RecordedAt
  rw [refresh_iterate_pageNo]
  refine ⟨i, hsince, ?_⟩
  rw [Nat.sub_add_comm hle]
  exact hrec.refresh_iterate k fun q hq _ => decide_eq_false (not_hitBetween hmono (by omega))

/-- An access to another page. -/
theorem RecordedAt.keep {c : Nat} (h : RecordedAt traces run t c e) (hx : traces[t]? = some x) (hne : x.pageNo ≠ e.pageNo)
    (hheld : e.pageNo ∈ (run (t + 1)).memory.held) : RecordedAt traces run (t + 1) c e := by
  obtain ⟨i, hsince, hrec⟩ := h
  refine ⟨i, hsince.extend hheld, ?_⟩
  simpa only [hitBetween_succ hx hsince.lt, hne, false_and, or_false] using hrec

/-- A hit: it counts for the period that the refreshes of the access have opened. -/
theorem RecordedAt.mark (h : RecordedAt traces run t (refreshCalls traces run (t + 1)) e) (hx : traces[t]? = some x)
    (hpage : e.pageNo = x.pageNo) (hheld : e.pageNo ∈ (run (t + 1)).memory.held) :
    RecordedAt traces run (t + 1) (refreshCalls traces run (t + 1)) ({ e with referencedBit := true }.touch x.op) := by
  obtain ⟨i, hsince, hrec⟩ := h
  have hle := refreshCalls_mono traces run (show i + 1 ≤ t + 1 from Nat.succ_le_succ hsince.lt.le)
  unfold RecordedAt
  rw [PageTableEntry.touch_pageNo]
  refine ⟨i, hsince.extend hheld, ?_, ?_⟩
  · rw [PageTableEntry.touch_agingCounter]
    refine hrec.congr fun q hq => ?_
    rw [decide_eq_decide, hitBetween_succ hx hsince.lt]
    exact ⟨.inl, fun h => h.resolve_right fun hlast => by omega⟩
  · rw [PageTableEntry.touch_referencedBit, eq_comm, decide_eq_true_eq, hitBetween_succ hx hsince.lt]
    exact .inr ⟨hpage.symm, by omega⟩

/-- A load: nothing has been taken in. -/
theorem recordedAt_load (hx : traces[t]? = some x) (habsent : x.pageNo ∉ (run t).memory.held)
    (hheld : x.pageNo ∈ (run (t + 1)).memory.held) : RecordedAt traces run (t + 1) (refreshCalls traces run (t + 1))
      ((PageTableEntry.new x.pageNo false false).touch x.op) := by
  unfold RecordedAt
  rw [PageTableEntry.touch_pageNo, PageTableEntry.new_pageNo]
  refine ⟨t, ⟨⟨⟨x.isStore, ?_⟩, habsent⟩, Nat.lt_succ_self t, fun k hk hkt => ?_⟩, ?_, ?_⟩
  · rw [requests, List.getElem?_map, hx]
    rfl
  · obtain rfl : k = t + 1 := by omega
    exact hheld
  · rw [PageTableEntry.touch_agingCounter, Nat.sub_self]
    rfl
  · rw [PageTableEntry.touch_referencedBit, eq_comm]
    refine decide_eq_false ?_
    rintro ⟨s, hst, hts, -⟩
    omega

/-- Every entry of the frames has its history. -/
def Histories (traces : List MemoryAccess) (run : Nat → PageTable Aging) (t : Nat) : Prop :=
  ∀ (f : Nat) (e : PageTableEntry), (run t).frames[f]? = some (some e) →
    RecordedAt traces run t (refreshCalls traces run t) e

/-- The same within the refreshes of the next access. -/
theorem Histories.refresh (h : Histories traces run t) (k f : Nat) {e : PageTableEntry}
    (he : (Aging.refresh^[k] (run t).frames)[f]? = some (some e)) :
    RecordedAt traces run t (refreshCalls traces run t + k) e := by
  rw [getElem?_refresh_iterate, Option.map_eq_some_iff] at he
  obtain ⟨o, ho, he⟩ := he
  obtain ⟨e₀, rfl, rfl⟩ := Option.map_eq_some_iff.1 he
  exact (h f e₀ ho).refresh k

theorem Histories.step {n : Nat} {L L' : List Int} (h : Histories traces run t) (hx : traces[t]? = some x)
    (ho : Outcome aging (run t) x (run (t + 1))) (hR : Resident n (run t) L) (hR' : Resident n (run (t + 1)) L') :
    Histories traces run (t + 1) := by
  obtain ⟨f₀, e₀, hlt, hframes, haccess⟩ := ho.accessed hR
  have hcalls := refreshCalls_succ run hx
  have hnew : (run (t + 1)).frames[f₀]? = some (some e₀) := by
    have hset : f₀ < (Aging.refresh^[(run t).replacementAlgorithm.refreshTimes x] (run t).frames).length := by
      rw [← pages_length, pages, map_refresh_iterate (fun _ => rfl), List.length_map]
      exact hlt
    rw [hframes, List.getElem?_set_self hset]
  intro f e he
  have hcell : ∀ {f : Nat} {e : PageTableEntry}, (run (t + 1)).frames[f]? = some (some e) →
      (cells (run (t + 1)).frames)[f]? = some (some (e.pageNo, e.dirtyBit)) :=
    fun he => cells_getElem?.2 ⟨_, he, rfl⟩
  have hheld : e.pageNo ∈ (run (t + 1)).memory.held := mem_held.2 ⟨_, List.mem_of_getElem? (hcell he)⟩
  by_cases hf : f = f₀
  · subst hf
    obtain rfl : e₀ = e := Option.some.inj (Option.some.inj (hnew.symm.trans he))
    cases haccess with
    | hit entry page =>
      rw [PageTableEntry.touch_pageNo] at hheld
      have hbefore := h.refresh _ f entry
      rw [← hcalls] at hbefore
      exact hbefore.mark hx page hheld
    | load absent =>
      rw [PageTableEntry.touch_pageNo, PageTableEntry.new_pageNo] at hheld
      exact recordedAt_load hx absent hheld
  · -- the page of another frame is another page
    have hne : x.pageNo ≠ e.pageNo := by
      intro heq
      have hcell₀ := hcell hnew
      rw [haccess.pageNo, heq] at hcell₀
      exact hf (hR'.cell_unique (hcell he) hcell₀).1
    rw [hframes, List.getElem?_set_ne (Ne.symm hf)] at he
    have hbefore := h.refresh _ f he
    rw [← hcalls] at hbefore
    exact hbefore.keep hx hne hheld

theorem Traced.histories {n : Nat} {a : Aging} (h : Traced aging n a traces run)
    (ho : ∀ {t x}, traces[t]? = some x → Outcome aging (run t) x (run (t + 1))) : ∀ t ≤ traces.length, Histories traces run t
  | 0, _ => by
    intro f e he
    rw [h.start] at he
    simp [PageTable.init, List.getElem?_replicate] at he
  | t + 1, ht => by
    obtain ⟨L, hR⟩ := h.resident aging_keepsPages (fun hx _ => ho hx) t (by omega)
    obtain ⟨L', hR'⟩ := h.resident aging_keepsPages (fun hx _ => ho hx) (t + 1) ht
    have hx : traces[t]? = some traces[t] := List.getElem?_eq_getElem ht
    exact (h.histories ho t (by omega)).step hx (ho hx) hR hR'

end

/-- The counter of a resident page is its reference history: with at least one frame and a positive refresh rate,
over every trace, at every time `t` and after each of the `k` refreshes of access `t`. The page was loaded by
access `i` and has seen `m` refreshes since then; the loading access is not a hit. -/
theorem aging_history (n : Nat) (hn : 1 ≤ n) (r : Int) (hr : 1 ≤ r) (traces : List MemoryAccess) :
    ∃ run, Traced aging n (Aging.init r) traces run ∧ ∀ t ≤ traces.length,
      ∀ k, refreshCalls traces run t + k ≤ refreshCalls traces run (t + 1) →
      ∀ (f : Nat) (e : PageTableEntry), (Aging.refresh^[k] (run t).frames)[f]? = some (some e) →
      ∃ i m, Writeback.Since (requests traces) (fun s => (run s).memory) e.pageNo i t ∧
        refreshCalls traces run (i + 1) + m = refreshCalls traces run t + k ∧
        e.agingCounter = 128 >>> m + ∑ j ∈ Finset.range (min m 8),
          (if HitBetween traces (refreshCalls traces run) e.pageNo i t (m - j - 1) then 1 else 0) * 2 ^ (7 - j) ∧
        e.agingCounter ≤ 255 := by
  obtain ⟨run, hrun, -, ho⟩ := (aging_sound hn).traced aging_keepsPages (show Rated traces (Aging.init r) [] from hr)
  refine ⟨run, hrun, fun t ht k _ f e he => ?_⟩
  obtain ⟨i, hsince, hrec⟩ := (hrun.histories ho t ht).refresh k f he
  have hle := refreshCalls_mono traces run (show i + 1 ≤ t from hsince.lt)
  refine ⟨i, _, hsince, Nat.add_sub_of_le (hle.trans (Nat.le_add_right _ k)), ?_, ?_⟩
  · rw [hrec.counter, ShiftRegister.after_eq]
    simp only [Bool.toNat, Bool.cond_decide]
    rfl
  · rw [hrec.counter]
    exact Nat.le_of_lt_succ (ShiftRegister.after_lt 7 _ _)

/-- A page that is loaded and hit, and refreshed twice by the third access. -/
def refreshedTwice : List MemoryAccess := [⟨.load, 1, 0⟩, ⟨.load, 1, 0⟩, ⟨.load, 1, 3⟩]

/-- After the second refresh the counter has the bit it started with at 32, and the hit at 64. -/
theorem aging_history_hit : ∃ run e i m, Traced aging 1 (Aging.init 2) refreshedTwice run ∧
    (Aging.refresh^[2] (run 2).frames)[0]? = some (some e) ∧ e.pageNo = 1 ∧ e.agingCounter = 96 ∧
    Writeback.Since (requests refreshedTwice) (fun s => (run s).memory) 1 i 2 ∧
    refreshCalls refreshedTwice run (i + 1) + m = refreshCalls refreshedTwice run 2 + 2 ∧
    96 = 128 >>> m + ∑ j ∈ Finset.range (min m 8),
      (if HitBetween refreshedTwice (refreshCalls refreshedTwice run) 1 i 2 (m - j - 1) then 1 else 0) * 2 ^ (7 - j) := by
  obtain ⟨run, hrun, hhist⟩ := aging_history 1 (by decide) 2 (by decide) refreshedTwice
  have hlen : refreshedTwice.length = 3 := rfl
  obtain ⟨htimes, hframes⟩ := hrun.test (t := 2) (by omega) (P := fun pt =>
    pt.replacementAlgorithm.refreshTimes ⟨.load, 1, 3⟩ = 2 ∧
    (Aging.refresh^[2] pt.frames)[0]? = some (some ⟨96, 1, false, false⟩)) (by decide +kernel)
  have hcalls : refreshCalls refreshedTwice run 3 = refreshCalls refreshedTwice run 2 +
      (run 2).replacementAlgorithm.refreshTimes ⟨.load, 1, 3⟩ := refreshCalls_succ run rfl
  obtain ⟨i, m, hsince, hm, hcounter, -⟩ := hhist 2 (by omega) 2 (by rw [hcalls, htimes]) 0 _ hframes
  exact ⟨run, _, i, m, hrun, hframes, rfl, rfl, hsince, hm, hcounter⟩

end CS1550.Vmsim
