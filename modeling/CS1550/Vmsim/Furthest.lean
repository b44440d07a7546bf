/-
The optimal algorithm against the trace itself. At every call of `find_frame` the last element of `trace_map`
is, for each resident page, the first access to come (`NextUse`), and the frame returned has the largest one; on
a tie at infinity it is the first clean one, or the first one if all are dirty (`optimal_oracle`). Every policy
that gives up a page with the furthest next use has the same hits and faults, and none writes less to the disk
(`optimal_writes_least`).
-/
import CS1550.Vmsim.Optimality
import CS1550.Vmsim.Runs

namespace CS1550.Vmsim

variable {σ : Type} {n t : Nat} {traces : List MemoryAccess} {p q : Int} {x y : Number}

/-! ## The next use of a page -/

/-- Access `k` of the trace is one of page `p`. -/
def Uses (traces : List MemoryAccess) (k : Nat) (p : Int) : Prop := ∃ m, traces[k]? = some m ∧ m.pageNo = p

/-- The smallest index greater than `t` at which `p` is accessed, infinity if there is none. -/
inductive NextUse (traces : List MemoryAccess) (t : Nat) (p : Int) : Number → Prop
  | access (k : Nat) : t < k → Uses traces k p → (∀ j, t < j → j < k → ¬ Uses traces j p) → NextUse traces t p (.int k)
  | never : (∀ j, t < j → ¬ Uses traces j p) → NextUse traces t p .inf

theorem NextUse.unique (hx : NextUse traces t p x) (hy : NextUse traces t p y) : x = y := by
  cases hx with
  | access k hk huse hfirst =>
    cases hy with
    | access j hj huse' hfirst' =>
      rcases lt_trichotomy k j with hlt | rfl | hlt
      · exact absurd huse (hfirst' k hk hlt)
      · rfl
      · exact absurd huse' (hfirst j hj hlt)
    | never hnever => exact absurd huse (hnever k hk)
  | never hnever =>
    cases hy with
    | access j hj huse' => exact absurd huse' (hnever j hj)
    | never => rfl

/-- The next access time by a search through the accesses to come. -/
theorem nextTime_upcoming (p : Int) : ∀ (rest : List MemoryAccess) (t : Nat), nextTime (upcoming t rest p) =
    (rest.findIdx? fun m => m.pageNo == p).elim .inf fun d => .int (t + d : Nat)
  | [], t => rfl
  | m :: rest, t => by
    rw [List.findIdx?_cons]
    by_cases hm : m.pageNo = p
    · subst hm
      simp [upcoming_cons_self, nextTime]
    · rw [upcoming_cons_of_ne hm, nextTime_upcoming p rest (t + 1), if_neg (by simpa using hm)]
      cases rest.findIdx? fun m => m.pageNo == p with
      | none => rfl
      | some d => simp [Nat.add_assoc, Nat.add_comm 1]

/-- The next access time of `p` after access `t`. -/
def nextAccess (traces : List MemoryAccess) (t : Nat) (p : Int) : Number := nextTime (upcoming (t + 1) (traces.drop (t + 1)) p)

theorem nextUse_nextAccess (traces : List MemoryAccess) (t : Nat) (p : Int) : NextUse traces t p (nextAccess traces t p) := by
  have huses : ∀ d, Uses traces (t + 1 + d) p ↔ ∃ m, (traces.drop (t + 1))[d]? = some m ∧ (m.pageNo == p) = true := by
    intro d
    simp [Uses, List.getElem?_drop]
  rw [nextAccess, nextTime_upcoming]
  cases hfind : (traces.drop (t + 1)).findIdx? fun m => m.pageNo == p with
  | none =>
    refine .never fun j hj huse => ?_
    obtain ⟨d, rfl⟩ : ∃ d, j = t + 1 + d := ⟨j - (t + 1), by omega⟩
    obtain ⟨m, hm, hpage⟩ := (huses d).1 huse
    rw [List.findIdx?_eq_none_iff.1 hfind m (List.mem_of_getElem? hm)] at hpage
    cases hpage
  | some d =>
    obtain ⟨hd, hpage, hbefore⟩ := List.findIdx?_eq_some_iff_getElem.1 hfind
    refine .access (t + 1 + d) (by omega) ((huses d).2 ⟨_, List.getElem?_eq_getElem hd, hpage⟩) fun j hj hjd huse => ?_
    obtain ⟨i, rfl⟩ : ∃ i, j = t + 1 + i := ⟨j - (t + 1), by omega⟩
    obtain ⟨m, hm, hpage⟩ := (huses i).1 huse
    obtain ⟨hi, rfl⟩ := List.getElem?_eq_some_iff.1 hm
    exact hbefore i (by omega) hpage

theorem nextUse_iff : NextUse traces t p x ↔ x = nextAccess traces t p := by
  constructor
  · intro h
    exact h.unique (nextUse_nextAccess traces t p)
  · rintro rfl
    exact nextUse_nextAccess traces t p

theorem nextAccess_eq_inf (h : p ∉ (traces.drop (t + 1)).map MemoryAccess.pageNo) : nextAccess traces t p = .inf := by
  rw [nextAccess, nextTime_upcoming, List.findIdx?_eq_none_iff.2]
  · rfl
  · intro m hm
    rw [beq_eq_false_iff_ne]
    rintro rfl
    exact h (List.mem_map_of_mem hm)

/-! ## The oracle -/

/-- A call of `find_frame` for access `t` that leaves `traceMap'` and returns frame `k`, which holds `victim`. -/
structure Foretells (traces : List MemoryAccess) (t : Nat) (frames : Frames) (traceMap' : TraceMap) (k : Nat)
    (victim : PageTableEntry) : Prop where
  next : ∀ (i : Nat) (e : PageTableEntry), frames[i]? = some (some e) →
    ∃ times x, traceMap' e.pageNo = some times ∧ times.getLast? = some x ∧ NextUse traces t e.pageNo x
  entry : frames[k]? = some (some victim)
  furthest : ∀ (i : Nat) (e : PageTableEntry) x y, frames[i]? = some (some e) → NextUse traces t e.pageNo x →
    NextUse traces t victim.pageNo y → x ≤ y
  clean : NextUse traces t victim.pageNo .inf → victim.dirtyBit = false → ∀ i < k, ∀ e : PageTableEntry,
    frames[i]? = some (some e) → NextUse traces t e.pageNo .inf → e.dirtyBit = true
  dirty : NextUse traces t victim.pageNo .inf → victim.dirtyBit = true → ∀ (i : Nat) (e : PageTableEntry),
    frames[i]? = some (some e) → NextUse traces t e.pageNo .inf → e.dirtyBit = true ∧ k ≤ i

/-- The map has a last element for `p`. -/
def Filled (traceMap : TraceMap) (p : Int) : Prop := ∃ times, traceMap p = some times ∧ times ≠ []

theorem Filled.setKey {traceMap : TraceMap} (h : Filled traceMap p) {times : List Number} (ht : times ≠ []) (q : Int) :
    Filled (setKey traceMap q times) p := by
  unfold Filled Vmsim.setKey
  by_cases hp : p = q
  · exact ⟨times, if_pos hp, ht⟩
  · rw [if_neg hp]
    exact h

/-- The scan leaves a last element for every page that it passes. -/
theorem scan_filled (frames : Frames) : ∀ (rest : Frames) (index : Nat) (traceMap traceMap' : TraceMap) (time : Number)
    (k k' : Int), Optimal.scan frames rest index traceMap time k = .ok (traceMap', k') →
    (∀ p, Filled traceMap p → Filled traceMap' p) ∧ ∀ e, some e ∈ rest → Filled traceMap' e.pageNo
  | [], index, traceMap, traceMap', time, k, k', h => by
    cases h
    exact ⟨fun p hp => hp, fun e he => absurd he List.not_mem_nil⟩
  | none :: rest, index, traceMap, traceMap', time, k, k', h => by cases h
  | some page :: rest, index, traceMap, traceMap', time, k, k', h => by
    unfold Optimal.scan at h
    obtain ⟨accesses, -, h⟩ := bind_ok.1 h
    obtain ⟨current, -, h⟩ := bind_ok.1 h
    obtain ⟨time', -, h⟩ := bind_ok.1 h
    have hne : (if accesses.length = 0 then [Number.inf] else accesses) ≠ [] := by
      split
      · simp
      · rename_i hlen
        rintro rfl
        simp at hlen
    have hset : Filled (setKey traceMap page.pageNo (if accesses.length = 0 then [.inf] else accesses)) page.pageNo :=
      ⟨_, if_pos rfl, hne⟩
    have hrest : (∀ p, Filled (setKey traceMap page.pageNo (if accesses.length = 0 then [.inf] else accesses)) p →
        Filled traceMap' p) ∧ ∀ e, some e ∈ rest → Filled traceMap' e.pageNo := by
      split at h
      · exact scan_filled frames rest _ _ _ _ _ _ h
      · exact scan_filled frames rest _ _ _ _ _ _ h
    refine ⟨fun p hp => hrest.1 p (hp.setKey hne page.pageNo), fun e he => ?_⟩
    rcases List.mem_cons.1 he with heq | he
    · cases heq
      exact hrest.1 _ hset
    · exact hrest.2 e he

/-- What `find_frame` leaves in the map for the pages in the frames. -/
theorem findFrame_filled {traceMap traceMap' : TraceMap} {frames frames' : Frames} {m : MemoryAccess} {k : Int}
    (h : Optimal.findFrame traceMap frames m = .ok (traceMap', frames', k)) {e : PageTableEntry} (he : some e ∈ frames) :
    Filled traceMap' e.pageNo := by
  obtain ⟨⟨traceMap'', k'⟩, hscan, hret⟩ := bind_ok.1 h
  cases hret
  exact (scan_filled frames frames _ _ _ _ _ _ hscan).2 e he

/-- The choice by the next access times in the words of the trace. -/
theorem Chosen.foretells {es : List PageTableEntry} {traceMap' : TraceMap} {k : Nat} {best : PageTableEntry}
    (hc : Chosen (nextAccess traces t) es k best)
    (hnext : ∀ e ∈ es, Known (nextAccess traces t) traceMap' e.pageNo ∧ Filled traceMap' e.pageNo) :
    Foretells traces t (es.map some) traceMap' k best := by
  have hentry : ∀ {i : Nat} {e : PageTableEntry}, (es.map some)[i]? = some (some e) ↔ es[i]? = some e := by
    intro i e
    simp
  -- two pages with no next use have the same next access time
  have htie : ∀ {e : PageTableEntry}, NextUse traces t best.pageNo .inf → NextUse traces t e.pageNo .inf →
      nextAccess traces t e.pageNo = nextAccess traces t best.pageNo :=
    fun hbest he => (nextUse_iff.1 he).symm.trans (nextUse_iff.1 hbest)
  refine ⟨fun i e he => ?_, hentry.2 hc.entry, fun i e x y he hx hy => ?_, fun hbest hclean i hi e he hnever => ?_,
    fun hbest hdirty i e he hnever => ?_⟩
  · obtain ⟨⟨times, htm, hT, -⟩, times', htm', hne⟩ := hnext e (List.mem_of_getElem? (hentry.1 he))
    rw [htm] at htm'
    cases htm'
    have hlast := List.getLast?_eq_some_getLast hne
    refine ⟨times, times.getLast hne, htm, hlast, ?_⟩
    rw [nextUse_iff, ← hT, nextTime, hlast]
    rfl
  · rw [nextUse_iff.1 hx, nextUse_iff.1 hy]
    exact hc.le e (List.mem_of_getElem? (hentry.1 he))
  · exact (hc.before i hi e (hentry.1 he) (htie hbest hnever)).1
  · rcases lt_trichotomy i k with hlt | rfl | hlt
    · have := (hc.before i hlt e (hentry.1 he) (htie hbest hnever)).2
      rw [hdirty] at this
      cases this
    · rw [hentry, hc.entry] at he
      cases he
      exact ⟨hdirty, le_refl _⟩
    · exact ⟨hc.after i hlt e (hentry.1 he) (htie hbest hnever) hdirty, hlt.le⟩

/-- The state of the optimal algorithm before access `t`. -/
theorem foreseen_at {m : MemoryAccess} {traceMap : TraceMap} {L : List Int} (hm : traces[t]? = some m)
    (h : ForeseenAt traces.length (traces.drop t) traceMap L) :
    Tracked t (m :: traces.drop (t + 1)) traceMap fun p => p ∈ L ∨ p ∈ (m :: traces.drop (t + 1)).map MemoryAccess.pageNo := by
  obtain ⟨hlt, hget⟩ := List.getElem?_eq_some_iff.1 hm
  obtain ⟨t', hN, ht⟩ := h
  rw [List.length_drop] at hN
  obtain rfl : t' = t := by omega
  rwa [List.drop_eq_getElem_cons hlt, hget] at ht

/-- The oracle: with at least one frame and over every trace, whenever the optimal algorithm is asked for a frame,
it knows the next use of every resident page and returns the frame of the furthest one, at infinity the first
clean one if there is one. -/
theorem optimal_oracle (n : Nat) (hn : 1 ≤ n) (traces : List MemoryAccess) :
    ∃ run, Traced optimal n (Optimal.init traces) traces run ∧
      ∀ t m, traces[t]? = some m → (run t).pageFrameTable m.pageNo = none →
        (run t).frames.length ≤ (run t).newFramesCounter →
        ∃ traceMap' k victim, optimal.findFrame (run t).replacementAlgorithm (run t).frames m =
            .ok (traceMap', (run t).frames, (k : Nat)) ∧ Foretells traces t (run t).frames traceMap' k victim := by
  obtain ⟨run, hrun, hinv, -⟩ := (optimal_sound_at hn traces.length).traced optimal_keepsPages (foreseenAt_init traces)
  refine ⟨run, hrun, fun t m hm habsent hfull => ?_⟩
  obtain ⟨L, hR, hI⟩ := hinv t (List.getElem?_eq_some_iff.1 hm).1.le
  have ht := foreseen_at hm hI
  have hnot := hR.absent.1 habsent
  have hL : L.length = n := by
    rw [hR.consistent.length, hR.counter] at hfull
    exact le_antisymm hR.le hfull
  obtain ⟨es, traceMap', k, best, hes, hpages, hfind, hc, hpad⟩ := optimal_find hn hL ht (fun p hp => .inl hp) hnot hR.frames
  refine ⟨traceMap', k, best, hfind, ?_⟩
  rw [hes] at hfind ⊢
  refine hc.foretells fun e he => ⟨hpad.known ?_, findFrame_filled hfind (List.mem_map_of_mem he)⟩
  have heL : e.pageNo ∈ L := by rw [← hpages]; exact List.mem_map_of_mem he
  exact ht.known (.inl heL) fun h => hnot (h ▸ heL)

/-- Three pages, of which the first one is used again. -/
def firstAgain : List MemoryAccess := [⟨.store, 1, 0⟩, ⟨.load, 2, 0⟩, ⟨.load, 3, 0⟩, ⟨.load, 1, 0⟩]

/-- With two frames the third access asks for a frame, and gets that of the second page. -/
theorem optimal_oracle_two_frames :
    ∃ run, Traced optimal 2 (Optimal.init firstAgain) firstAgain run ∧ (run 2).pageFrameTable 3 = none ∧
      (run 2).frames.length ≤ (run 2).newFramesCounter ∧
      ∃ traceMap' victim, optimal.findFrame (run 2).replacementAlgorithm (run 2).frames ⟨.load, 3, 0⟩ =
          .ok (traceMap', (run 2).frames, 1) ∧
        Foretells firstAgain 2 (run 2).frames traceMap' 1 victim ∧ victim.pageNo = 2 := by
  obtain ⟨run, hrun, hcall⟩ := optimal_oracle 2 (by decide) firstAgain
  have htwo : firstAgain.length = 4 := rfl
  obtain ⟨habsent, hfull, hindex, hpage⟩ := hrun.test (t := 2) (by omega) (P := fun pt => pt.pageFrameTable 3 = none ∧
    pt.frames.length ≤ pt.newFramesCounter ∧
    ((optimal.findFrame pt.replacementAlgorithm pt.frames ⟨.load, 3, 0⟩).toOption.map fun r => r.2.2) = some 1 ∧
    (pt.frames[1]?.join.map PageTableEntry.pageNo) = some 2) (by decide +kernel)
  obtain ⟨traceMap', k, victim, hfind, hfor⟩ := hcall 2 ⟨.load, 3, 0⟩ rfl habsent hfull
  rw [hfind] at hindex
  obtain rfl : k = 1 := by
    have hk : (k : Int) = 1 := Option.some.inj hindex
    omega
  rw [hfor.entry] at hpage
  exact ⟨run, hrun, habsent, hfull, traceMap', victim, hfind, hfor, Option.some.inj hpage⟩

/-! ## Policies that give up the furthest page -/

/-- Every page that leaves has the furthest next use among the residents. -/
def EvictsFurthest (traces : List MemoryAccess) (run : Nat → PageTable σ) : Prop :=
  ∀ t < traces.length, ∀ p ∈ (run t).memory.held, p ∉ (run (t + 1)).memory.held → ∀ q ∈ (run t).memory.held,
    ∀ x y, NextUse traces t p x → NextUse traces t q y → y ≤ x

/-- The run of a policy, with any state of its own, that gives up a page with the furthest next use; how it
chooses among pages that are not used again is open. Its hooks change neither pages nor dirty bits, and it
picks frames by their number. -/
structure FurthestPolicy (alg : ReplacementAlgorithm σ) (n : Nat) (a : σ) (traces : List MemoryAccess)
    (run : Nat → PageTable σ) : Prop where
  traced : Traced alg n a traces run
  keeps : KeepsCells alg
  paths : ∀ {t m}, traces[t]? = some m → Outcome alg (run t) m (run (t + 1))
  furthest : EvictsFurthest traces run

theorem FurthestPolicy.resident {alg : ReplacementAlgorithm σ} {a : σ} {run : Nat → PageTable σ}
    (h : FurthestPolicy alg n a traces run) : ∀ t ≤ traces.length, ∃ L, Resident n (run t) L :=
  h.traced.resident h.keeps.keepsPages fun hm _ => h.paths hm

theorem FurthestPolicy.writeback {alg : ReplacementAlgorithm σ} {a : σ} {run : Nat → PageTable σ}
    (h : FurthestPolicy alg n a traces run) :
    Writeback.Run (fun S rest q => Paging.Furthest S.held rest q) n (requests traces) (fun t => (run t).memory)
      (fun t => (run t).totalPageFaults) fun t => (run t).totalWritesToDisk := by
  refine h.traced.writeback h.keeps h.paths fun {t m k q b} hm _ _ _ hcell hleft => ?_
  refine furthest_of_nextTime_le (t := t + 1) fun p hp => ?_
  exact h.furthest t (List.getElem?_eq_some_iff.1 hm).1 q (mem_held.2 ⟨b, List.mem_of_getElem? hcell⟩) hleft p hp _ _
    (nextUse_nextAccess traces t q) (nextUse_nextAccess traces t p)

/-- The frame that the optimal algorithm picks, for the page in it. -/
theorem optimal_victim (hn : 1 ≤ n) {pt : PageTable TraceMap} {m : MemoryAccess} {L : List Int} {k : Nat} {b : Bool}
    (hm : traces[t]? = some m) (hR : Resident n pt L) (hI : ForeseenAt traces.length (traces.drop t) pt.replacementAlgorithm L)
    (hnot : m.pageNo ∉ pt.memory.held) (hfull : pt.newFramesCounter = n) (hpick : Picks optimal pt m (k : Int))
    (hcell : (cells pt.frames)[k]? = some (some (q, b))) :
    (∀ p ∈ pt.memory.held, nextAccess traces t p ≤ nextAccess traces t q) ∧
      Writeback.CleanFirst pt.memory ((traces.drop (t + 1)).map MemoryAccess.pageNo) q := by
  have ht := foreseen_at hm hI
  rw [hR.held, List.mem_toFinset] at hnot
  obtain ⟨es, best, hes, hpages, hc⟩ :=
    optimal_picks hn hR ht (fun p hp => .inl hp) hnot (by rw [← hR.counter, hfull]) hpick
  have hentry : ∀ {i : Nat} {e : PageTableEntry}, pt.frames[i]? = some (some e) ↔ es[i]? = some e := by
    intro i e
    rw [hes]
    simp
  obtain ⟨e, he, hq⟩ := cells_getElem?.1 hcell
  rw [hentry, hc.entry] at he
  cases he
  obtain ⟨rfl, rfl⟩ := Prod.mk.inj hq
  have hle : ∀ p ∈ pt.memory.held, nextAccess traces t p ≤ nextAccess traces t best.pageNo := by
    intro p hp
    rw [hR.held, List.mem_toFinset, ← hpages, List.mem_map] at hp
    obtain ⟨e, he, rfl⟩ := hp
    exact hc.le e he
  refine ⟨hle, fun hdirty p hp hdead => ?_⟩
  rw [hR.dirty_iff hcell] at hdirty
  obtain ⟨b', hb'⟩ := mem_held.1 hp
  obtain ⟨j, hj⟩ := List.mem_iff_getElem?.1 hb'
  obtain ⟨e, he, heq⟩ := cells_getElem?.1 hj
  obtain ⟨rfl, rfl⟩ := Prod.mk.inj heq
  rw [hentry] at he
  -- a page that is not used again has the time infinity, and then so has the victim
  have htie : nextAccess traces t e.pageNo = nextAccess traces t best.pageNo :=
    le_antisymm (hle e.pageNo hp) (by rw [nextAccess_eq_inf hdead]; exact Number.le_inf _)
  rw [hR.dirty_iff hj]
  rcases lt_trichotomy j k with hlt | rfl | hlt
  · have := (hc.before j hlt e he htie).2
    rw [hdirty] at this
    cases this
  · rw [hc.entry] at he
    cases he
    exact hdirty
  · exact hc.after j hlt e he htie hdirty

/-- The optimal algorithm is such a policy, and takes clean pages first. -/
theorem optimal_furthestPolicy (hn : 1 ≤ n) (traces : List MemoryAccess) :
    ∃ opt, FurthestPolicy optimal n (Optimal.init traces) traces opt ∧
      Writeback.Run (fun S rest q => Paging.Furthest S.held rest q ∧ Writeback.CleanFirst S rest q) n (requests traces)
        (fun t => (opt t).memory) (fun t => (opt t).totalPageFaults) fun t => (opt t).totalWritesToDisk := by
  obtain ⟨opt, hrun, hinv, ho⟩ := (optimal_sound_at hn traces.length).traced optimal_keepsPages (foreseenAt_init traces)
  refine ⟨opt, ⟨hrun, optimal_keepsCells, ho, fun t ht p hp hleft q hq x y hx hy => ?_⟩, ?_⟩
  · obtain ⟨L, hR, hI⟩ := hinv t ht.le
    have hm : traces[t]? = some traces[t] := List.getElem?_eq_getElem ht
    obtain ⟨k, b, hpick, hnot, hfull, hcell, -⟩ := ((ho hm).change optimal_keepsCells hR).evicted hR hp hleft
    rw [nextUse_iff.1 hx, nextUse_iff.1 hy]
    exact (optimal_victim hn hm hR hI hnot hfull hpick hcell).1 q hq
  · refine hrun.writeback optimal_keepsCells ho fun {t m k q b} hm hnot hfull hpick hcell _ => ?_
    obtain ⟨L, hR, hI⟩ := hinv t (List.getElem?_eq_some_iff.1 hm).1.le
    obtain ⟨hfar, hclean⟩ := optimal_victim hn hm hR hI hnot hfull hpick hcell
    exact ⟨furthest_of_nextTime_le hfar, hclean⟩

/-- A page misses in the table exactly if it is not in the frames. -/
theorem Resident.absent_iff {pt : PageTable σ} {L : List Int} (h : Resident n pt L) :
    pt.pageFrameTable p = none ↔ p ∉ pt.memory.held := by
  rw [h.absent, h.held, List.mem_toFinset]

/-- The clean-first tie-break writes least: with at least one frame and over every trace, every policy that gives
up a page with the furthest next use hits and faults exactly where the optimal algorithm does, and writes at
least as much to the disk. -/
theorem optimal_writes_least (n : Nat) (hn : 1 ≤ n) (traces : List MemoryAccess) :
    ∃ opt, FurthestPolicy optimal n (Optimal.init traces) traces opt ∧
      ∀ (σ : Type) (alg : ReplacementAlgorithm σ) (a : σ) (run : Nat → PageTable σ), FurthestPolicy alg n a traces run →
        (∀ t m, traces[t]? = some m →
          ((opt t).pageFrameTable m.pageNo = none ↔ (run t).pageFrameTable m.pageNo = none)) ∧
        ∀ t ≤ traces.length, (opt t).totalPageFaults = (run t).totalPageFaults ∧
          (opt t).totalWritesToDisk ≤ (run t).totalWritesToDisk := by
  obtain ⟨opt, hopt, hclean⟩ := optimal_furthestPolicy hn traces
  refine ⟨opt, hopt, fun σ alg a run hrun => ?_⟩
  have hmatched := hclean.matched hrun.writeback
  rw [requests_length] at hmatched
  refine ⟨fun t m hm => ?_, fun t ht => ⟨(hmatched t ht).2, (hmatched t ht).1.le⟩⟩
  obtain ⟨hlt, hget⟩ := List.getElem?_eq_some_iff.1 hm
  obtain ⟨L, hR⟩ := hopt.resident t hlt.le
  obtain ⟨L', hR'⟩ := hrun.resident t hlt.le
  have hpage : m.pageNo ∈ ((requests traces).drop t).map Prod.fst := by
    rw [requests, ← List.map_drop, List.map_map, List.drop_eq_getElem_cons hlt, hget]
    exact List.mem_cons_self
  rw [hR.absent_iff, hR'.absent_iff, (hmatched t hlt.le).1.held _ hpage]

/-- The accesses of any rule for picking frames take the three paths. -/
theorem Policy.paths {alg : ReplacementAlgorithm σ} (hp : Policy alg) {a : σ} {run : Nat → PageTable σ}
    (h : Traced alg n a traces run) {t : Nat} {m : MemoryAccess} (hm : traces[t]? = some m) :
    Outcome alg (run t) m (run (t + 1)) := by
  have hpath : ∀ {t m L}, traces[t]? = some m → Resident n (run t) L → Outcome alg (run t) m (run (t + 1)) :=
    fun hm hR => outcome_of_access (hp.indexed _ hR) (h.access hm)
  obtain ⟨L, hR⟩ := h.resident hp.toKeepsPages hpath t (List.getElem?_eq_some_iff.1 hm).1.le
  exact hpath hm hR

theorem firstFrame_keepsCells : KeepsCells firstFrame := by
  constructor
  · intro a a' frames frames' m h
    cases h
    rfl
  · intro a a' frames frames' m i h
    cases h
    rfl

/-- Giving up frame 0 is such a policy on a trace whose last access finds two pages that are not used again. -/
theorem firstFrame_furthestPolicy :
    ∃ run, FurthestPolicy firstFrame 2 () [⟨.store, 1, 0⟩, ⟨.load, 2, 0⟩, ⟨.load, 3, 0⟩] run ∧
      (run 3).totalWritesToDisk = 1 := by
  let traces : List MemoryAccess := [⟨.store, 1, 0⟩, ⟨.load, 2, 0⟩, ⟨.load, 3, 0⟩]
  let run : Nat → PageTable Unit := fun t =>
    (simulate firstFrame (PageTable.init 2 ()) (traces.take t)).toOption.getD (PageTable.init 2 ())
  have hrun : Traced firstFrame 2 () traces run := by
    refine ⟨rfl, fun {t m} hm => ?_⟩
    match t, hm with
    | 0, hm => cases hm; rfl
    | 1, hm => cases hm; rfl
    | 2, hm => cases hm; rfl
  have hkeep : ∀ t < 2, (run t).memory.held ⊆ (run (t + 1)).memory.held := by decide
  refine ⟨run, ⟨hrun, firstFrame_keepsCells, firstFrame_policy.paths hrun, ?_⟩, rfl⟩
  intro t ht p hp hleft q hq x y hx hy
  by_cases hlt : t < 2
  · exact absurd (hkeep t hlt hp) hleft
  · have hlast : traces.drop (t + 1) = [] :=
      List.drop_eq_nil_of_le (by simp only [traces, List.length_cons, List.length_nil]; omega)
    rw [nextUse_iff.1 hx, nextAccess_eq_inf (by rw [hlast]; exact List.not_mem_nil)]
    exact Number.le_inf y

/-- It writes the dirty page that it gives up; the optimal algorithm writes no more. -/
theorem optimal_writes_least_first_frame :
    ∃ opt run, FurthestPolicy optimal 2 (Optimal.init [⟨.store, 1, 0⟩, ⟨.load, 2, 0⟩, ⟨.load, 3, 0⟩])
        [⟨.store, 1, 0⟩, ⟨.load, 2, 0⟩, ⟨.load, 3, 0⟩] opt ∧
      FurthestPolicy firstFrame 2 () [⟨.store, 1, 0⟩, ⟨.load, 2, 0⟩, ⟨.load, 3, 0⟩] run ∧
      (run 3).totalWritesToDisk = 1 ∧ (opt 3).totalWritesToDisk ≤ (run 3).totalWritesToDisk := by
  obtain ⟨run, hrun, hwrites⟩ := firstFrame_furthestPolicy
  obtain ⟨opt, hopt, hleast⟩ := optimal_writes_least 2 (by decide) [⟨.store, 1, 0⟩, ⟨.load, 2, 0⟩, ⟨.load, 3, 0⟩]
  exact ⟨opt, run, hopt, hrun, hwrites, ((hleast Unit firstFrame () run hrun).2 3 (by decide)).2⟩

end CS1550.Vmsim
