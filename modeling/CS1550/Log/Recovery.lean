/-
What the disk and the cache of `lab4/xv6-public/log.c` hold at every point, also where the machine stops. The contents
that the processes mean are kept beside the state (`Contents`): what is committed, which the disk with its log always
has (`Durable`), and what is written, which the cache has over it.
-/
import CS1550.Lib.Redo
import CS1550.Log.Admission

namespace CS1550.Log

/-! ## The contents that the processes mean -/

/-- What a crash comes back to, and what the processes have written since. -/
structure Contents where
  committed : Nat → Bytes.Mem
  current : Nat → Bytes.Mem

variable {n : Nat}

/-- The contents after an event. -/
def Contents.after (g : Contents) : Event n → Contents
  | .write _ b data => { g with current := Function.update g.current b data }
  | .commit => { g with committed := g.current }
  | .crash => { g with current := g.committed }
  | _ => g

/-- The contents after a run from a disk with nothing in its log. -/
def contents (disk : Nat → Bytes.Mem) (h : List (System n × Event n)) : Contents :=
  h.foldl (fun g x => g.after x.2) ⟨disk, disk⟩

/-! ## The header -/

variable {c : Layout} {s s' : State} {m m' : Cache} {g : Contents} {b k : Nat} {data : Bytes.Mem} {L L' : List Nat}

theorem getHead_putHead {buf : Bytes.Mem} {lh : List Nat} (hlen : lh.length ≤ logsize) (h : ∀ b ∈ lh, b < 2 ^ 32) :
    getHead (putHead buf lh) = lh := by
  have hsize : logsize = 30 := rfl
  have hwords := Bytes.getWords_put buf 0 (lh.length :: lh) (by
    rintro w hw
    rcases List.mem_cons.1 hw with rfl | hw
    · omega
    · exact h w hw)
  rw [List.length_cons, Bytes.getWords_succ, List.cons.injEq, Nat.zero_add] at hwords
  obtain ⟨hn, hblocks⟩ := hwords
  have hint : Bytes.getInt (putHead buf lh) 0 4 = lh.length := by
    unfold Bytes.getInt putHead
    rw [hn, Bytes.bmod_natCast_of_lt (by omega)]
  unfold getHead
  rw [hint, Int.toNat_natCast]
  exact hblocks

/-! ## The cache -/

/-- Dirty are the buffers of the blocks `L`, and all other ones are as the disk. -/
structure Cached (m : Cache) (L : List Nat) : Prop where
  dirty : ∀ b, m.dirty b = true ↔ b ∈ L
  coherent : m.Coherent

theorem Cached.read_eq (h : Cached m L) (hb : b ∉ L) : m.read b = m.disk b :=
  h.coherent b (by simpa using mt (h.dirty b).1 hb)

theorem cached_empty (disk : Nat → Bytes.Mem) : Cached ⟨disk, ∅⟩ [] := by
  refine ⟨fun b => ?_, fun b _ => view_none (AList.lookup_empty b)⟩
  rw [Cache.dirty, view_none (AList.lookup_empty b)]
  simp

/-- A write clears the block that it is of. -/
theorem Cached.wrote (h : Cached m L) (hw : Wrote m b data m') (hL : ∀ b', b' ∈ L' ↔ b' ∈ L ∧ b' ≠ b) :
    Cached m' L' := by
  refine ⟨fun b' => ?_, hw.coherent h.coherent⟩
  rw [hw.dirty, hL]
  by_cases hb : b' = b
  · subst hb
    simp
  · rw [Function.update_of_ne hb, h.dirty]
    simp [hb]

/-- A block that was not dirty can be written as well. -/
theorem Cached.wrote_clean (h : Cached m L) (hw : Wrote m b data m') (hb : b ∉ L) : Cached m' L :=
  h.wrote hw fun _ => ⟨fun hmem => ⟨hmem, fun heq => hb (heq ▸ hmem)⟩, And.left⟩

/-- Nothing that can be seen has changed. -/
theorem Cached.same (h : Cached m L) (hdisk : m'.disk = m.disk) (hread : m'.read = m.read) (hdirty : m'.dirty = m.dirty) :
    Cached m' L := by
  refine ⟨fun b => ?_, fun b hclean => ?_⟩
  · rw [hdirty]
    exact h.dirty b
  · rw [hread, hdisk]
    exact h.coherent b (hdirty ▸ hclean)

/-! ## The invariant -/

/-- The blocks `lh` can be in the log. -/
structure Loggable (c : Layout) (lh : List Nat) : Prop where
  fits : lh.length ≤ logsize
  inside : lh.length < c.size
  home : ∀ b ∈ lh, c.Home b
  lt : ∀ b ∈ lh, b < 2 ^ 32
  distinct : lh.Nodup

theorem loggable_nil (c : Layout) : Loggable c [] := ⟨Nat.zero_le _, c.pos, by simp, by simp, List.nodup_nil⟩

/-- The log with the blocks `lh`, of which the first `k` are installed. -/
def Logged (c : Layout) (disk : Nat → Bytes.Mem) (lh : List Nat) (k : Nat) (C : Nat → Bytes.Mem) : Prop :=
  Redo.Holds c.Home lh k (fun i => disk (c.start + i + 1)) disk C

/-- What the recovery needs of a disk to come to `C`. -/
structure Durable (c : Layout) (disk : Nat → Bytes.Mem) (C : Nat → Bytes.Mem) : Prop where
  loggable : Loggable c (getHead (disk c.start))
  logged : Logged c disk (getHead (disk c.start)) 0 C

/-- Two contents are the same outside of the log. -/
def Same (c : Layout) (f f' : Nat → Bytes.Mem) : Prop := ∀ b, c.Home b → f b = f' b

/-- The blocks that are written and not yet in their places. -/
def State.pending (s : State) : List Nat :=
  match s.phase with
  | .up | .logging _ => s.lh
  | .installing k false => s.lh.drop k
  | _ => []

/-- What holds in each phase. -/
def PhaseInv (c : Layout) (s : State) (g : Contents) : Prop :=
  match s.phase with
  | .up => getHead (s.io.disk c.start) = [] ∧ Same c s.io.read g.current
  | .logging k => k ≤ s.lh.length ∧ getHead (s.io.disk c.start) = [] ∧ Same c s.io.read g.current ∧
    ∀ i b, i < k → s.lh[i]? = some b → s.io.disk (c.start + i + 1) = g.current b
  | .installing k r => k ≤ s.lh.length ∧ getHead (s.io.disk c.start) = s.lh ∧ Logged c s.io.disk s.lh k g.committed ∧
    Same c g.current g.committed ∧ (r = false → Same c s.io.read g.current)
  | .ending => getHead (s.io.disk c.start) = [] ∧ Same c s.io.read g.current ∧ s.lh = []
  | .booting => s.lh = [] ∧ Same c g.current g.committed

/-- What holds at every point of a run. -/
structure Inv (c : Layout) (s : State) (g : Contents) : Prop where
  cached : Cached s.io s.pending
  loggable : Loggable c s.lh
  durable : Durable c s.io.disk g.committed
  phase : PhaseInv c s g

theorem Layout.start_not_home (c : Layout) : ¬ c.Home c.start := by
  have hpos := c.pos
  unfold Layout.Home
  omega

theorem Loggable.log_not_home (h : Loggable c L) (hk : k < L.length) : ¬ c.Home (c.start + k + 1) := by
  have hinside := h.inside
  unfold Layout.Home
  omega

theorem State.pending_subset (s : State) : s.pending ⊆ s.lh := by
  unfold State.pending
  split
  · exact List.Subset.refl _
  · exact List.Subset.refl _
  · exact List.drop_subset _ _
  · exact List.nil_subset _

/-- A block of the log is never dirty. -/
theorem Inv.not_pending (h : Inv c s g) (hb : ¬ c.Home b) : b ∉ s.pending :=
  fun hmem => hb (h.loggable.home b (s.pending_subset hmem))

/-- Nothing is in the log, so the disk has what was committed. -/
theorem Durable.same {disk : Nat → Bytes.Mem} (h : Durable c disk g.committed) (hnil : getHead (disk c.start) = []) :
    Same c disk g.committed := by
  have hlogged := h.logged
  rw [hnil] at hlogged
  exact Redo.holds_nil.1 hlogged

theorem durable_of_nil {disk C : Nat → Bytes.Mem} (hnil : getHead (disk c.start) = []) (h : Same c disk C) :
    Durable c disk C := by
  refine ⟨?_, ?_⟩
  · rw [hnil]
    exact loggable_nil c
  · rw [hnil]
    exact Redo.holds_nil.2 h

/-- A write inside of the log is not seen outside of it. -/
theorem Same.update {f f' : Nat → Bytes.Mem} (h : Same c f f') (hb : ¬ c.Home b) : Same c (Function.update f b data) f' := by
  intro b' hb'
  rw [Function.update_of_ne]
  · exact h b' hb'
  · rintro rfl
    exact hb hb'

/-! ## Steps of the processes -/

/-- Only the cache has changed, and nothing that can be seen. -/
theorem Inv.same (h : Inv c s g) (hdisk : m.disk = s.io.disk) (hread : m.read = s.io.read) (hdirty : m.dirty = s.io.dirty) :
    Inv c { s with io := m } g := by
  refine ⟨h.cached.same hdisk hread hdirty, h.loggable, ?_, ?_⟩
  · show Durable c m.disk g.committed
    rw [hdisk]
    exact h.durable
  · have hinv := h.phase
    unfold PhaseInv at hinv ⊢
    dsimp only
    rwa [hdisk, hread]

theorem Inv.bread (h : Inv c s g) (hm : s.io.bread b = .ok m) : Inv c { s with io := m } g :=
  h.same (bread_got hm).disk ((bread_got hm).read h.cached.coherent) (bread_got hm).dirty

theorem Inv.brelse (h : Inv c s g) (b : Nat) : Inv c { s with io := s.io.brelse b } g := h.same (by simp) (by simp) (by simp)

theorem Inv.beginOp (h : Inv c s g) (hs : s.beginOp = some s') : Inv c s' g := by
  obtain ⟨-, -, rfl⟩ := beginOp_eq hs
  exact ⟨h.cached, h.loggable, h.durable, h.phase⟩

/-- The views of the cache after `log_write` has changed a buffer. -/
theorem logAppend_views (hheld : s.io.refcnt b ≠ 0) (data : Bytes.Mem) : (s.logAppend b data).io.disk = s.io.disk ∧
    (s.logAppend b data).io.read = Function.update s.io.read b data ∧
    (s.logAppend b data).io.dirty = Function.update s.io.dirty b true := by
  cases hx : s.io.bufs.lookup b with
  | none => exact absurd (view_none hx) hheld
  | some x =>
    have hdisk : (s.logAppend b data).io.disk = s.io.disk := disk_modify _ _ _
    refine ⟨hdisk, ?_, view_modify_some hx⟩
    unfold Cache.read
    rw [hdisk]
    exact view_modify_some hx

/-- The block is in the log already, or there is room for it. -/
def Fits (c : Layout) (lh : List Nat) (b : Nat) : Prop := b ∈ lh ∨ lh.length < logsize ∧ lh.length + 1 < c.size

theorem Loggable.add (h : Loggable c L) (hb : c.Home b) (hb32 : b < 2 ^ 32) (hfits : Fits c L b) :
    Loggable c (if b ∈ L then L else L ++ [b]) := by
  by_cases hin : b ∈ L
  · rwa [if_pos hin]
  · obtain ⟨hlt, hinside⟩ := hfits.resolve_left hin
    rw [if_neg hin]
    refine ⟨?_, ?_, fun b' hb' => ?_, fun b' hb' => ?_, ?_⟩
    · rw [List.length_append, List.length_singleton]
      exact hlt
    · rw [List.length_append, List.length_singleton]
      exact hinside
    · rcases List.mem_append.1 hb' with hb' | hb'
      · exact h.home b' hb'
      · exact List.mem_singleton.1 hb' ▸ hb
    · rcases List.mem_append.1 hb' with hb' | hb'
      · exact h.lt b' hb'
      · exact List.mem_singleton.1 hb' ▸ hb32
    · exact List.nodup_append.2 ⟨h.distinct, by simp, fun b' hb' b'' hb'' heq =>
        hin (List.mem_singleton.1 hb'' ▸ heq ▸ hb')⟩

theorem Inv.logAppend (h : Inv c s g) (hup : s.phase = .up) (hb : c.Home b) (hb32 : b < 2 ^ 32)
    (hheld : s.io.refcnt b ≠ 0) (hfits : Fits c s.lh b) :
    Inv c (s.logAppend b data) { g with current := Function.update g.current b data } := by
  obtain ⟨hdisk, hread, hdirty⟩ := logAppend_views hheld data
  have hinv := h.phase
  unfold PhaseInv at hinv
  rw [hup] at hinv
  obtain ⟨hhead, hsame⟩ := hinv
  have hpending : s.pending = s.lh := by
    unfold State.pending
    rw [hup]
  have hpending' : (s.logAppend b data).pending = if b ∈ s.lh then s.lh else s.lh ++ [b] := by
    unfold State.pending State.logAppend
    dsimp only
    rw [hup]
  have hcached := h.cached
  rw [hpending] at hcached
  refine ⟨?_, h.loggable.add hb hb32 hfits, ?_, ?_⟩
  · rw [hpending']
    refine ⟨fun b' => ?_, fun b' hclean => ?_⟩
    · rw [hdirty]
      by_cases heq : b' = b
      · subst heq
        simp only [Function.update_self, true_iff]
        split
        · assumption
        · simp
      · rw [Function.update_of_ne heq, hcached.dirty]
        split
        · rfl
        · simp [heq]
    · rw [hdirty] at hclean
      by_cases heq : b' = b
      · subst heq
        simp at hclean
      · rw [Function.update_of_ne heq] at hclean
        rw [hread, hdisk, Function.update_of_ne heq]
        exact hcached.coherent b' hclean
  · rw [hdisk]
    exact h.durable
  · unfold PhaseInv
    rw [show (s.logAppend b data).phase = .up from hup]
    dsimp only
    rw [hdisk, hread]
    refine ⟨hhead, fun b' hb' => ?_⟩
    by_cases heq : b' = b
    · subst heq
      rw [Function.update_self, Function.update_self]
    · rw [Function.update_of_ne heq, Function.update_of_ne heq]
      exact hsame b' hb'

theorem Inv.endOp (h : Inv c s g) (hs : s.endOp = .ok s') : Inv c s' g := by
  unfold State.endOp at hs
  dsimp only at hs
  split at hs
  · cases hs
  rename_i hup
  have hup : s.phase = .up := by simpa using hup
  have hinv := h.phase
  unfold PhaseInv at hinv
  rw [hup] at hinv
  obtain ⟨hhead, hsame⟩ := hinv
  have hcached : Cached s.io s.lh := by
    have hcached := h.cached
    unfold State.pending at hcached
    rwa [hup] at hcached
  split at hs
  · cases hs
    by_cases hlen : s.lh.length > 0
    · rw [if_pos hlen]
      exact ⟨hcached, h.loggable, h.durable, Nat.zero_le _, hhead, hsame, fun i b hi => absurd hi (Nat.not_lt_zero i)⟩
    · have hnil : s.lh = [] := List.length_eq_zero_iff.1 (by omega)
      rw [hnil] at hcached
      rw [if_neg hlen]
      exact ⟨hcached, h.loggable, h.durable, hhead, hsame, hnil⟩
  · cases hs
    exact ⟨h.cached, h.loggable, h.durable, h.phase⟩

/-! ## Steps of a commit -/

theorem Inv.log (h : Inv c s g) (hphase : s.phase = .logging k) (hb : s.lh[k]? = some b)
    (hm : s.io.writeLog c k b = .ok m) : Inv c { s with io := m, phase := .logging (k + 1) } g := by
  have hwrote := wrote_writeLog h.cached.coherent hm
  have hk : k < s.lh.length := (List.getElem?_eq_some_iff.1 hb).1
  have hlog := h.loggable.log_not_home hk
  have hclean := h.not_pending hlog
  have hinv := h.phase
  unfold PhaseInv at hinv
  rw [hphase] at hinv
  obtain ⟨-, hhead, hsame, hcopied⟩ := hinv
  have hcached := h.cached.wrote_clean hwrote hclean
  unfold State.pending at hcached
  rw [hphase] at hcached
  have hhead' : getHead (m.disk c.start) = [] := by
    rw [hwrote.disk, Function.update_of_ne (by omega)]
    exact hhead
  refine ⟨hcached, h.loggable, durable_of_nil hhead' ?_, hk, hhead', ?_, fun i b' hi hin => ?_⟩
  · show Same c m.disk g.committed
    rw [hwrote.disk]
    exact (h.durable.same hhead).update hlog
  · show Same c m.read g.current
    rw [hwrote.read]
    exact hsame.update hlog
  · show m.disk (c.start + i + 1) = g.current b'
    have hin : s.lh[i]? = some b' := hin
    rw [hwrote.disk]
    rcases Nat.lt_succ_iff_lt_or_eq.1 hi with hi | rfl
    · rw [Function.update_of_ne (by omega)]
      exact hcopied i b' hi hin
    · rw [hb] at hin
      cases hin
      rw [Function.update_self]
      exact hsame b (h.loggable.home b (List.mem_of_getElem? hb))

/-- The header makes the difference: with it on the disk, the log is what counts. -/
theorem Inv.commit (h : Inv c s g) (hphase : s.phase = .logging s.lh.length) (hm : s.io.writeHead c s.lh = .ok m) :
    Inv c { s with io := m, phase := .installing 0 false } { g with committed := g.current } := by
  have hwrote := wrote_writeHead h.cached.coherent hm
  have hstart := c.start_not_home
  have hclean := h.not_pending hstart
  have hinv := h.phase
  unfold PhaseInv at hinv
  rw [hphase] at hinv
  obtain ⟨-, -, hsame, hcopied⟩ := hinv
  have hpending : s.pending = s.lh := by
    unfold State.pending
    rw [hphase]
  have hcached := h.cached.wrote_clean hwrote hclean
  rw [hpending] at hcached
  have hhead : getHead (m.disk c.start) = s.lh := by
    rw [hwrote.disk, Function.update_self]
    exact getHead_putHead h.loggable.fits h.loggable.lt
  have hlogged : Logged c m.disk s.lh 0 g.current := by
    refine ⟨fun i b hi => ?_, fun b hb hnot => ?_⟩
    · rw [hwrote.disk, Function.update_of_ne (by omega)]
      exact hcopied i b (List.getElem?_eq_some_iff.1 hi).1 hi
    · rw [← hcached.read_eq hnot, hwrote.read]
      exact (hsame.update hstart) b hb
  refine ⟨hcached, h.loggable, ⟨?_, ?_⟩, Nat.zero_le _, hhead, hlogged, fun _ _ => rfl, fun _ => ?_⟩
  · show Loggable c (getHead (m.disk c.start))
    rw [hhead]
    exact h.loggable
  · show Logged c m.disk (getHead (m.disk c.start)) 0 g.current
    rw [hhead]
    exact hlogged
  · show Same c m.read g.current
    rw [hwrote.read]
    exact hsame.update hstart

/-- What is still to be installed, after one block more. -/
theorem mem_drop_succ (hnodup : L.Nodup) (hb : L[k]? = some b) (b' : Nat) :
    b' ∈ L.drop (k + 1) ↔ b' ∈ L.drop k ∧ b' ≠ b := by
  obtain ⟨hk, hget⟩ := List.getElem?_eq_some_iff.1 hb
  have hdrop : L.drop k = b :: L.drop (k + 1) := by rw [List.drop_eq_getElem_cons hk, hget]
  have hnot : b ∉ L.drop (k + 1) := by
    have hsub := hnodup.sublist (List.drop_sublist k L)
    rw [hdrop] at hsub
    exact (List.nodup_cons.1 hsub).1
  rw [hdrop, List.mem_cons]
  constructor
  · intro hb'
    exact ⟨.inr hb', fun heq => hnot (heq ▸ hb')⟩
  · rintro ⟨heq | hb', hne⟩
    · exact absurd heq hne
    · exact hb'

theorem Inv.install {r : Bool} (h : Inv c s g) (hphase : s.phase = .installing k r) (hb : s.lh[k]? = some b)
    (hm : s.io.installTrans c k b = .ok m) : Inv c { s with io := m, phase := .installing (k + 1) r } g := by
  have hwrote := wrote_installTrans h.cached.coherent hm
  have hk : k < s.lh.length := (List.getElem?_eq_some_iff.1 hb).1
  have hlog := h.loggable.log_not_home hk
  have hstart := c.start_not_home
  have hhome : c.Home b := h.loggable.home b (List.mem_of_getElem? hb)
  have hinv := h.phase
  unfold PhaseInv at hinv
  rw [hphase] at hinv
  obtain ⟨-, hhead, hlogged, hsame, hview⟩ := hinv
  rw [h.cached.read_eq (h.not_pending hlog)] at hwrote
  have hcached : Cached m (State.pending { s with io := m, phase := .installing (k + 1) r }) := by
    have hcached := h.cached
    unfold State.pending at hcached ⊢
    rw [hphase] at hcached
    cases r with
    | true => exact hcached.wrote_clean hwrote List.not_mem_nil
    | false => exact hcached.wrote hwrote (mem_drop_succ h.loggable.distinct hb)
  have hhead' : getHead (m.disk c.start) = s.lh := by
    rw [hwrote.disk, Function.update_of_ne]
    · exact hhead
    · rintro rfl
      exact hstart hhome
  have hlogged' : Logged c m.disk s.lh (k + 1) g.committed := by
    refine Redo.Holds.congr (Redo.Holds.install hlogged hb) (fun i hi => ?_) fun b' hb' => by rw [hwrote.disk]
    show m.disk _ = s.io.disk _
    rw [hwrote.disk, Function.update_of_ne]
    rintro rfl
    exact h.loggable.log_not_home hi hhome
  refine ⟨hcached, h.loggable, ⟨?_, ?_⟩, hk, hhead', hlogged', hsame, fun hr b' hb' => ?_⟩
  · show Loggable c (getHead (m.disk c.start))
    rw [hhead']
    exact h.loggable
  · show Logged c m.disk (getHead (m.disk c.start)) 0 g.committed
    rw [hhead']
    exact Redo.Holds.forget hlogged'
  · show m.read b' = _
    rw [hwrote.read]
    by_cases heq : b' = b
    · subst heq
      rw [Function.update_self, hsame b' hb']
      exact hlogged.copies k b' hb
    · rw [Function.update_of_ne heq]
      exact hview hr b' hb'

theorem Inv.clear {r : Bool} (h : Inv c s g) (hphase : s.phase = .installing s.lh.length r)
    (hm : s.io.writeHead c [] = .ok m) : Inv c { s with io := m, lh := [], phase := if r then .up else .ending } g := by
  have hwrote := wrote_writeHead h.cached.coherent hm
  have hstart := c.start_not_home
  have hinv := h.phase
  unfold PhaseInv at hinv
  rw [hphase] at hinv
  obtain ⟨-, -, hlogged, hsame, -⟩ := hinv
  have hcached : Cached m [] := by
    have hcached := h.cached
    unfold State.pending at hcached
    rw [hphase] at hcached
    cases r with
    | true => exact hcached.wrote_clean hwrote List.not_mem_nil
    | false =>
      dsimp only at hcached
      rw [List.drop_length] at hcached
      exact hcached.wrote_clean hwrote List.not_mem_nil
  have hhead : getHead (m.disk c.start) = [] := by
    rw [hwrote.disk, Function.update_self]
    exact getHead_putHead (Nat.zero_le _) (by simp)
  have hdisk : Same c m.disk g.committed := by
    rw [hwrote.disk]
    exact Same.update (Redo.Holds.done hlogged (le_refl _)) hstart
  have hview : Same c m.read g.current := by
    intro b hb
    rw [hcached.read_eq List.not_mem_nil, hdisk b hb, hsame b hb]
  cases r with
  | true => exact ⟨hcached, loggable_nil c, durable_of_nil hhead hdisk, hhead, hview⟩
  | false => exact ⟨hcached, loggable_nil c, durable_of_nil hhead hdisk, hhead, hview, rfl⟩

theorem Inv.done (h : Inv c s g) (hphase : s.phase = .ending) : Inv c { s with phase := .up } g := by
  have hinv := h.phase
  unfold PhaseInv at hinv
  rw [hphase] at hinv
  obtain ⟨hhead, hview, hnil⟩ := hinv
  refine ⟨?_, h.loggable, h.durable, hhead, hview⟩
  have hcached := h.cached
  unfold State.pending at hcached
  rw [hphase] at hcached
  show Cached s.io s.lh
  rwa [hnil]

/-! ## Crashes -/

theorem Inv.crash (h : Inv c s g) :
    Inv c ⟨⟨s.io.disk, ∅⟩, [], 0, .booting⟩ { g with current := g.committed } :=
  ⟨cached_empty s.io.disk, loggable_nil c, h.durable, rfl, fun _ _ => rfl⟩

theorem Inv.recover {lh : List Nat} (h : Inv c s g) (hphase : s.phase = .booting)
    (hm : s.io.readHead c = .ok (lh, m)) : Inv c { s with io := m, lh, phase := .installing 0 true } g := by
  have hinv := h.phase
  unfold PhaseInv at hinv
  rw [hphase] at hinv
  obtain ⟨hnil, hsame⟩ := hinv
  have hcached : Cached s.io [] := by
    have hcached := h.cached
    unfold State.pending at hcached
    rwa [hphase] at hcached
  obtain ⟨rfl, hdisk, hread, hdirty, -⟩ := readHead_eq hcached.coherent hm
  rw [hcached.read_eq List.not_mem_nil]
  refine ⟨hcached.same hdisk hread hdirty, h.durable.loggable, ?_, Nat.zero_le _, ?_, ?_, hsame, by simp⟩
  · show Durable c m.disk g.committed
    rw [hdisk]
    exact h.durable
  · show getHead (m.disk c.start) = _
    rw [hdisk]
  · show Logged c m.disk _ 0 g.committed
    rw [hdisk]
    exact h.durable.logged

/-! ## Runs -/

variable {σ σ' : System n} {a : Event n}

/-- The block that `log_write` adds still fits. -/
def Event.Fits (c : Layout) (σ : System n) : Event n → Prop
  | .write _ b _ => Log.Fits c σ.log.lh b
  | _ => True

theorem Step.inv (hs : Step c σ a σ') (hσ : Counted c σ) (h : Inv c σ.log g) (ha : a.Fits c σ) :
    Inv c σ'.log (g.after a) := by
  cases hs with
  | begin _ hs => exact h.beginOp hs
  | test _ _ _ _ hm _ => exact h.bread hm
  | @write p k b data hp =>
    obtain ⟨hb, hb32⟩ := hσ.outside p _ b hp rfl
    exact (h.logAppend (hσ.up hp) hb hb32 (hσ.holding hp) ha).brelse b
  | «end» _ hs => exact h.endOp hs
  | read _ hm => exact (h.bread hm).brelse _
  | log hphase hb hm => exact h.log hphase hb hm
  | commit hphase hm => exact h.commit hphase hm
  | install hphase hb hm => exact h.install hphase hb hm
  | clear hphase hm => exact h.clear hphase hm
  | done hphase => exact h.done hphase
  | crash => exact h.crash
  | recover hphase hm => exact h.recover hphase hm

end CS1550.Log
