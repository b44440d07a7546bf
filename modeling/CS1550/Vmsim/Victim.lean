/-
The victim of the aging algorithm. The loop of `find_frame` compares counters, and where two are equal it resets
the running minimum so that the next comparison takes the new frame; that makes it a comparison under the
lexicographic order of counter, dirty bit and page number (`tieBreak_rank`). After every prefix of the frames the
loop has a least one of them, so it ends with the least frame whatever their order (`aging_victim`).
-/
import CS1550.Vmsim.Access
import Mathlib.Data.List.Nodup
import Mathlib.Data.Prod.Lex

namespace CS1550.Vmsim

/-- What frames are compared by: the counter, then clean before dirty, then the page number. -/
def PageTableEntry.rank (e : PageTableEntry) : Nat ×ₗ Bool ×ₗ Int := toLex (e.agingCounter, toLex (e.dirtyBit, e.pageNo))

variable {page best : PageTableEntry} {frames : Frames} {seen : List PageTableEntry} {k : Nat}

theorem rank_lt_rank : page.rank < best.rank ↔ page.agingCounter < best.agingCounter ∨
    page.agingCounter = best.agingCounter ∧ (page.dirtyBit = false ∧ best.dirtyBit = true ∨
      page.dirtyBit = best.dirtyBit ∧ page.pageNo < best.pageNo) := by
  simp only [PageTableEntry.rank, Prod.Lex.toLex_lt_toLex, Bool.lt_iff]

theorem pageNo_eq_of_rank (h : page.rank = best.rank) : page.pageNo = best.pageNo := by
  simp only [PageTableEntry.rank, EmbeddingLike.apply_eq_iff_eq, Prod.mk.injEq] at h
  exact h.2.2

/-! ## The loop -/

/-- The comparison that follows the tie-break takes exactly the frames of lower rank. -/
theorem tieBreak_rank (page : PageTableEntry) (hbest : getEntry frames k = .ok best) :
    ∃ c, Aging.tieBreak frames page (.int best.agingCounter) k = .ok c ∧
      (.int page.agingCounter < c ↔ page.rank < best.rank) ∧
      (¬ page.rank < best.rank → c = .int best.agingCounter) := by
  unfold Aging.tieBreak
  rw [hbest, rank_lt_rank]
  simp only [bind, Except.bind, Number.int.injEq, Int.natCast_inj]
  by_cases hcounter : page.agingCounter = best.agingCounter
  · rw [if_pos hcounter]
    cases hp : page.dirtyBit <;> cases hb : best.dirtyBit <;> by_cases hno : page.pageNo < best.pageNo <;>
      simp [hcounter, hno, pure, Except.pure]
  · rw [if_neg hcounter]
    refine ⟨_, rfl, ?_, fun _ => rfl⟩
    simp [hcounter]

/-- Position `k` of the frames holds `best`, and none has a lower rank. -/
structure Least (es : List PageTableEntry) (k : Nat) (best : PageTableEntry) : Prop where
  entry : es[k]? = some best
  le : ∀ e ∈ es, best.rank ≤ e.rank

theorem Least.keep (h : Least seen k best) (hle : best.rank ≤ page.rank) : Least (seen ++ [page]) k best := by
  obtain ⟨hk, -⟩ := List.getElem?_eq_some_iff.1 h.entry
  refine ⟨by rw [List.getElem?_append_left hk]; exact h.entry, fun e he => ?_⟩
  rcases List.mem_append.1 he with he | he
  · exact h.le e he
  · rw [List.mem_singleton] at he
    subst he
    exact hle

theorem Least.move (h : Least seen k best) (hlt : page.rank < best.rank) : Least (seen ++ [page]) seen.length page := by
  refine ⟨by simp, fun e he => ?_⟩
  rcases List.mem_append.1 he with he | he
  · exact hlt.le.trans (h.le e he)
  · rw [List.mem_singleton] at he
    subst he
    exact le_refl _

/-- The loop behind the frames `seen`, with the least of them as the running minimum. -/
theorem Least.scan : ∀ (rest : List PageTableEntry) {seen : List PageTableEntry} {k : Nat} {best : PageTableEntry},
    Least seen k best → ∃ k' best', Least (seen ++ rest) k' best' ∧
      Aging.scan ((seen ++ rest).map some) (rest.map some) seen.length (.int best.agingCounter) k = .ok (k' : Nat)
  | [], seen, k, best, h => ⟨k, best, by rwa [List.append_nil], rfl⟩
  | page :: rest, seen, k, best, h => by
    have hbest : getEntry ((seen ++ page :: rest).map some) k = .ok best := by
      obtain ⟨hk, -⟩ := List.getElem?_eq_some_iff.1 h.entry
      rw [getEntry_natCast_ok, List.getElem?_map, List.getElem?_append_left hk, h.entry]
      rfl
    obtain ⟨c, hc, hlt, hkeep⟩ := tieBreak_rank page hbest
    have hlen : (seen ++ [page]).length = seen.length + 1 := by simp
    simp only [List.map_cons, Aging.scan, hc, bind, Except.bind]
    by_cases hrank : page.rank < best.rank
    · rw [if_pos (hlt.2 hrank)]
      have ih := Least.scan rest (h.move hrank)
      rwa [List.append_assoc, List.singleton_append, hlen] at ih
    · rw [if_neg (mt hlt.1 hrank), hkeep hrank]
      have ih := Least.scan rest (h.keep (not_lt.1 hrank))
      rwa [List.append_assoc, List.singleton_append, hlen] at ih

/-- `find_frame` on frames that are all occupied: it picks a least one and resets its counter. -/
theorem Aging.findFrame_least (a : Aging) (m : MemoryAccess) {es : List PageTableEntry} (hne : es ≠ []) :
    ∃ k best, Least es k best ∧ Aging.findFrame a (es.map some) m =
      .ok (a, (es.map some).set k (some { best with agingCounter := agingCounterStartValue }), (k : Nat)) := by
  obtain ⟨e, es, rfl⟩ := List.exists_cons_of_ne_nil hne
  have hfirst : Least [e] 0 e := ⟨rfl, by simp⟩
  obtain ⟨k, best, hleast, hscan⟩ := hfirst.scan es
  refine ⟨k, best, hleast, ?_⟩
  have hstart : Aging.scan ((e :: es).map some) ((e :: es).map some) 0 .inf (-1) = .ok (k : Nat) := by
    simp only [List.map_cons, Aging.scan, Aging.tieBreak, reduceCtorEq, if_false, bind, Except.bind, pure,
      Except.pure, Number.int_lt_inf, if_true]
    exact hscan
  have hget : ((e :: es).map some)[k]? = some (some best) := by
    rw [List.getElem?_map, show (e :: es)[k]? = some best from hleast.entry]
    rfl
  unfold Aging.findFrame
  refine bind_ok.2 ⟨_, hstart, bind_ok.2 ⟨best, getEntry_natCast_ok.2 hget, bind_ok.2 ⟨_, ?_, rfl⟩⟩⟩
  exact setItem_natCast_ok.2 ⟨(List.getElem?_eq_some_iff.1 hget).1, rfl⟩

/-! ## The least frame -/

/-- The victim: among occupied frames with distinct pages there is one below all others in the order of counter,
dirty bit and page number, and in whatever order the frames are stored `find_frame` returns its index. -/
theorem aging_victim (a : Aging) (m : MemoryAccess) (es : List PageTableEntry) (hne : es ≠ [])
    (hpages : (es.map PageTableEntry.pageNo).Nodup) :
    ∃ best ∈ es, (∀ e ∈ es, e ≠ best → best.rank < e.rank) ∧ ∀ es' : List PageTableEntry, es'.Perm es →
      ∃ frames k, Aging.findFrame a (es'.map some) m = .ok (a, frames, (k : Nat)) ∧
        ∀ j, es'[j]? = some best ↔ j = k := by
  obtain ⟨k, best, hleast, -⟩ := Aging.findFrame_least a m hne
  have hmem := List.mem_of_getElem? hleast.entry
  have hbelow : ∀ e ∈ es, e ≠ best → best.rank < e.rank := by
    intro e he hneq
    refine lt_of_le_of_ne (hleast.le e he) fun heq => hneq ?_
    exact List.inj_on_of_nodup_map hpages he hmem (pageNo_eq_of_rank heq.symm)
  refine ⟨best, hmem, hbelow, fun es' hperm => ?_⟩
  have hne' : es' ≠ [] := fun h => hne (List.perm_nil.1 (h ▸ hperm.symm))
  obtain ⟨k', best', hleast', hfind⟩ := Aging.findFrame_least a m hne'
  -- a frame of lowest rank is the same one in every order
  obtain rfl : best' = best := by
    by_contra hneq
    have hlt := hbelow best' (hperm.subset (List.mem_of_getElem? hleast'.entry)) hneq
    exact absurd hlt (not_lt.2 (hleast'.le best (hperm.symm.subset hmem)))
  refine ⟨_, k', hfind, fun j => ⟨fun hj => ?_, ?_⟩⟩
  · have hnodup : es'.Nodup := hperm.nodup_iff.2 (List.Nodup.of_map _ hpages)
    obtain ⟨hjl, hjv⟩ := List.getElem?_eq_some_iff.1 hj
    obtain ⟨hkl, hkv⟩ := List.getElem?_eq_some_iff.1 hleast'.entry
    exact hnodup.getElem_inj_iff.1 (hjv.trans hkv.symm)
  · rintro rfl
    exact hleast'.entry

/-- Three frames with the same counter. -/
def tied : List PageTableEntry := [⟨64, 1, true, false⟩, ⟨64, 9, false, false⟩, ⟨64, 7, false, true⟩]

/-- Of these the clean page with the smaller number is the victim, in either order. -/
theorem aging_victim_tied :
    (∃ frames, Aging.findFrame (Aging.init 1) (tied.map some) ⟨.load, 0, 0⟩ = .ok (Aging.init 1, frames, 2)) ∧
      ∃ frames, Aging.findFrame (Aging.init 1) (tied.reverse.map some) ⟨.load, 0, 0⟩ = .ok (Aging.init 1, frames, 0) := by
  obtain ⟨best, hmem, hbelow, hfind⟩ := aging_victim (Aging.init 1) ⟨.load, 0, 0⟩ tied (by decide) (by decide)
  have hseven : best = ⟨64, 7, false, true⟩ := by
    by_contra hne
    have hlt := rank_lt_rank.1 (hbelow ⟨64, 7, false, true⟩ (by decide) (Ne.symm hne))
    simp only [tied, List.mem_cons, List.not_mem_nil, or_false] at hmem
    obtain rfl | rfl | rfl := hmem
    · simp at hlt
    · simp at hlt
    · exact hne rfl
  subst hseven
  constructor
  · obtain ⟨frames, k, hk, hindex⟩ := hfind tied (List.Perm.refl _)
    obtain rfl := (hindex 2).1 rfl
    exact ⟨frames, hk⟩
  · obtain ⟨frames, k, hk, hindex⟩ := hfind tied.reverse (List.reverse_perm _)
    obtain rfl := (hindex 0).1 rfl
    exact ⟨frames, hk⟩

end CS1550.Vmsim
