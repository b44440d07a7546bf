/-
Whole runs of the log of `lab4/xv6-public/log.c`, with any number of crashes. As long as the machine is up, a process
reads what has been written since the last crash over what was committed before it (`crash_safe`); a commit comes
between operations and never inside of one (`commit_whole`), and no operation waits for ever to begin
(`begin_op_gets_in`). LOGSIZE counts the blocks without the header, and `mkfs.c` takes it for the size with the header:
operations that keep to MAXOPBLOCKS can then find the log full (`log_write_fits_iff`).
-/
import CS1550.Log.Finish

namespace CS1550.Log

variable {n : Nat} {c : Layout} {disk : Nat → Bytes.Mem} {h : List (System n × Event n)} {σ σ' : System n}
  {g : Contents} {a : Event n} {p : Fin n} {k b : Nat}

/-! ## What is read, and what a crash comes back to -/

/-- In every state with the recovery behind it, what is read is what the processes have written since the last crash,
over the contents of the last commit before it. The log must be greater than LOGSIZE, with operations that keep to
MAXOPBLOCKS, or the calls of `log_write` must not overlap. -/
theorem crash_safe (hnil : getHead (disk c.start) = []) (hp : Run.Path (Step c) (System.start disk) h σ)
    (hcareful : (logsize < c.size ∧ ∀ x ∈ h, Within x.1 x.2) ∨ ∀ x ∈ h, Alone x.1 x.2)
    (hboot : σ.log.phase ≠ .booting) (hrec : ∀ k, σ.log.phase ≠ .installing k true) :
    ∀ b, c.Home b → σ.log.io.read b = (contents disk h).current b := by
  have hinv := (sound_of_run hnil hp hcareful).inv.phase
  unfold PhaseInv at hinv
  split at hinv
  · exact hinv.2
  · exact hinv.2.2.1
  · rename_i k r hphase
    cases r with
    | true => exact absurd hphase (hrec k)
    | false => exact hinv.2.2.2.2 rfl
  · exact hinv.2.1
  · rename_i hphase
    exact absurd hphase hboot

theorem crash_safe_written : ∃ (h : List (System 1 × Event 1)) (σ : System 1),
    Run.Path (Step mkfsLayout) (System.start mkfsDisk) h σ ∧ (∃ x ∈ h, x.2 = .crash) ∧
    σ.log.phase = .up ∧ σ.log.io.read 40 = fun _ => 7 := by
  have hb : mkfsLayout.Home 40 := by decide
  obtain ⟨h₁, σ₁, hp₁, halone, -, hup₁, hzero₁, hcurrent⟩ :=
    exists_written getHead_mkfsDisk (le_refl _) (by decide) (0 : Fin 1) hb (by decide) fun _ => 7
  have hσ₁ := sound_of_run getHead_mkfsDisk hp₁ (.inr halone)
  obtain ⟨h₂, σ₂, hp₂, hok₂, -, hup₂, -⟩ := (Step.crash.sound hσ₁ trivial).finishes (le_refl _) (settled_of_none fun _ => rfl)
  have hp := (hp₁.step .crash).trans hp₂
  have halone₂ : ∀ x ∈ h₁ ++ [(σ₁, .crash)] ++ h₂, Alone x.1 x.2 := by
    intro x hx
    simp only [List.mem_append, List.mem_singleton] at hx
    rcases hx with (hx | rfl) | hx
    · exact halone x hx
    · trivial
    · exact (hok₂ x hx).alone
  refine ⟨_, σ₂, hp, ⟨(σ₁, .crash), by simp, rfl⟩, hup₂, ?_⟩
  rw [crash_safe getHead_mkfsDisk hp (.inr halone₂) (by simp [hup₂]) (by simp [hup₂]) 40 hb, contents_append,
    current_of_finishing _ hok₂, contents_append]
  show (contents _ h₁).committed 40 = _
  rw [← hσ₁.saved hup₁ hzero₁ 40 hb, hcurrent, Function.update_self]

/-! ## Commits between operations -/

/-- A clean buffer is as the disk, also where `log_write` adds more blocks than fit. -/
theorem Step.coherent (hs : Step c σ a σ') (hc : σ.log.io.Coherent) : σ'.log.io.Coherent := by
  have hviews : ∀ {m m' : Cache}, m.Coherent → m'.disk = m.disk → m'.read = m.read → m'.dirty = m.dirty → m'.Coherent := by
    intro m m' hm hdisk hread hdirty b hclean
    rw [hread, hdisk]
    exact hm b (hdirty ▸ hclean)
  cases hs with
  | begin _ hs =>
    obtain ⟨-, -, rfl⟩ := beginOp_eq hs
    exact hc
  | test _ _ _ _ hm _ => exact (bread_got hm).coherent hc
  | @write p k b data _ =>
    refine hviews ?_ (disk_brelse _ b) (read_brelse _ b) (dirty_brelse _ b)
    cases hx : σ.log.io.bufs.lookup b with
    | none =>
      have hsame : (σ.log.logAppend b data).io = σ.log.io := by
        unfold State.logAppend Cache.modify
        dsimp only
        rw [hx]
      rwa [hsame]
    | some x =>
      have hdisk : (σ.log.logAppend b data).io.disk = σ.log.io.disk := disk_modify _ _ _
      have hdirty : (σ.log.logAppend b data).io.dirty = Function.update σ.log.io.dirty b true := view_modify_some hx
      intro b' hclean
      rw [hdirty] at hclean
      have hne : b' ≠ b := by
        rintro rfl
        simp at hclean
      rw [Function.update_of_ne hne] at hclean
      have hread : (σ.log.logAppend b data).io.read b' = σ.log.io.read b' := by
        unfold Cache.read
        rw [hdisk]
        exact (congrFun (view_modify_some hx) b').trans (Function.update_of_ne hne _ _)
      rw [hread, hdisk]
      exact hc b' hclean
  | «end» _ hs =>
    rw [(endOp_eq hs).2.2.2.1]
    exact hc
  | read _ hm =>
    exact hviews ((bread_got hm).coherent hc) (disk_brelse _ _) (read_brelse _ _) (dirty_brelse _ _)
  | log _ _ hm => exact (wrote_writeLog hc hm).coherent hc
  | commit _ hm => exact (wrote_writeHead hc hm).coherent hc
  | install _ _ hm => exact (wrote_installTrans hc hm).coherent hc
  | clear _ hm => exact (wrote_writeHead hc hm).coherent hc
  | done => exact hc
  | crash => exact (cached_empty σ.log.io.disk).coherent
  | recover _ hm =>
    obtain ⟨-, hdisk, hread, hdirty, -⟩ := readHead_eq hc hm
    exact hviews hc hdisk hread hdirty

/-- What is written is committed, where the log is empty or a commit has written its header. -/
structure Kept (s : State) (g : Contents) : Prop where
  empty : s.lh = [] → g.current = g.committed
  behind : s.phase ≠ .up → (∀ k, s.phase ≠ .logging k) → g.current = g.committed

theorem Step.kept (hs : Step c σ a σ') (hσ : Counted c σ) (h : Kept σ.log g) : Kept σ'.log (g.after a) := by
  cases hs with
  | begin _ hs =>
    obtain ⟨-, -, rfl⟩ := beginOp_eq hs
    exact ⟨h.empty, h.behind⟩
  | test | read => exact ⟨h.empty, h.behind⟩
  | @write p k b data hp =>
    refine ⟨fun hnil => ?_, fun hne => absurd (hσ.up hp) hne⟩
    replace hnil : (if b ∈ σ.log.lh then σ.log.lh else σ.log.lh ++ [b]) = [] := hnil
    split at hnil
    · rename_i hmem
      rw [hnil] at hmem
      cases hmem
    · simp at hnil
  | «end» _ hs =>
    have hlh := (endOp_eq hs).2.2.1
    refine ⟨fun hnil => h.empty (hlh ▸ hnil), fun hup hlogging => h.empty ?_⟩
    -- it is not the start of a commit, so there is nothing to commit
    unfold State.endOp at hs
    dsimp only at hs
    split at hs
    · cases hs
    rename_i hphase
    split at hs
    · cases hs
      by_cases hlen : σ.log.lh.length > 0
      · exact absurd (if_pos hlen) (hlogging 0)
      · exact List.length_eq_zero_iff.1 (by omega)
    · cases hs
      exact absurd hup hphase
  | log _ _ _ => exact ⟨h.empty, fun _ hne => absurd rfl (hne _)⟩
  | commit => exact ⟨fun _ => rfl, fun _ _ => rfl⟩
  | install hphase _ _ => exact ⟨h.empty, fun _ _ => h.behind (by simp [hphase]) (by simp [hphase])⟩
  | clear hphase _ =>
    have hsame := h.behind (by simp [hphase]) (by simp [hphase])
    exact ⟨fun _ => hsame, fun _ _ => hsame⟩
  | done hphase => exact ⟨h.empty, fun hne => absurd rfl hne⟩
  | crash => exact ⟨fun _ => rfl, fun _ _ => rfl⟩
  | recover hphase _ =>
    have hsame := h.behind (by simp [hphase]) (by simp [hphase])
    exact ⟨fun _ => hsame, fun _ _ => hsame⟩

theorem kept_of_run (hp : Run.Path (Step c) (System.start disk) h σ) :
    (Counted c σ ∧ σ.log.io.Coherent) ∧ Kept σ.log (contents disk h) := by
  refine hp.simulate (R := fun σ g => (Counted c σ ∧ σ.log.io.Coherent) ∧ Kept σ.log g) Contents.after (fun _ _ => True)
    (fun _ => True) ⟨⟨counted_start disk, (cached_empty disk).coherent⟩, fun _ => rfl, fun _ _ => rfl⟩
    (fun σ a σ' g hσ _ _ hs => ?_) (fun _ _ => trivial) fun _ _ => trivial
  exact ⟨⟨hs.counted hσ.1.2 hσ.1.1, hs.coherent hσ.1.2⟩, hs.kept hσ.1.1 hσ.2⟩

/-- Three operations have written `i` blocks behind the log, MAXOPBLOCKS each but for the last one. -/
structure Filled (c : Layout) (σ : System n) (i : Nat) : Prop where
  sound : ∃ g, Sound c σ g
  settled : Settled σ
  up : σ.log.phase = .up
  lh : σ.log.lh = (List.range i).map (c.start + c.size + ·)
  ops : ∀ p : Fin n, p.val < 3 → σ.ops p = some ⟨min (i - p.val * maxopblocks) maxopblocks, none⟩

theorem Filled.length {i : Nat} (hσ : Filled c σ i) : σ.log.lh.length = i := by
  rw [hσ.lh, List.length_map, List.length_range]

/-- The next block is added, by the operation whose turn it is. -/
theorem Filled.next {i : Nat} (hn : 3 ≤ n) (hroom : c.start + c.size + logsize ≤ 2 ^ 32) (hσ : Filled c σ i)
    (hi : i < logsize) (hlt : i + 1 < c.size) : Run.Leads (Step c) Within σ fun σ' => Filled c σ' (i + 1) := by
  have hsize : logsize = 30 := rfl
  obtain ⟨g, hsound⟩ := hσ.sound
  have hlen := hσ.length
  obtain ⟨p, hp⟩ : ∃ p : Fin n, p.val = i / 10 := ⟨⟨i / 10, by omega⟩, rfl⟩
  have hops : σ.ops p = some ⟨i % 10, none⟩ := by
    rw [hσ.ops p (by omega)]
    unfold maxopblocks
    congr 2
    omega
  have htest : σ.log.logTest c = .ok () := logTest_iff.2 ⟨by omega, by omega, hsound.counted.pos hops⟩
  obtain ⟨σ₁, σ', hs, hs', hop, hsound', hset', hops', hphase', hlh'⟩ := hsound.log_write hσ.settled
    (by rw [hlen]; exact hi) hops (.inr (by omega) : c.Home (c.start + c.size + i)) (by omega) htest fun _ => 0
  refine (Run.Leads.one (P := (· = σ₁)) hs trivial rfl).trans fun _ heq => heq ▸ ?_
  refine .one hs' (fun op hop' => ?_) ⟨hsound', hset', hphase'.trans hσ.up, ?_, fun q hq => ?_⟩
  · rw [hop, Option.some.injEq] at hop'
    subst hop'
    exact Nat.mod_lt i (by decide)
  · rw [hlh', hσ.lh, if_neg (by simp), List.range_succ, List.map_append]
    rfl
  · rw [hops']
    by_cases hsame : q = p
    · subst hsame
      rw [Function.update_self]
      unfold maxopblocks
      congr 2
      omega
    · have hne : q.val ≠ p.val := fun h => hsame (Fin.ext h)
      rw [Function.update_of_ne hsame, hσ.ops q hq]
      unfold maxopblocks
      congr 2
      omega

/-- The first `i` of three operations have begun. -/
structure Begun (c : Layout) (σ : System n) (i : Nat) : Prop where
  sound : ∃ g, Sound c σ g
  up : σ.log.phase = .up
  outstanding : σ.log.outstanding = i
  lh : σ.log.lh = []
  ops : ∀ p : Fin n, σ.ops p = if p.val < i then some ⟨0, none⟩ else none

theorem Begun.next {i : Nat} (hn : 3 ≤ n) (hσ : Begun c σ i) (hi : i < 3) :
    Run.Leads (Step c) Within σ fun σ' => Begun c σ' (i + 1) := by
  obtain ⟨g, hsound⟩ := hσ.sound
  obtain ⟨p, hp⟩ : ∃ p : Fin n, p.val = i := ⟨⟨i, by omega⟩, rfl⟩
  have hbegin : σ.log.beginOp = some { σ.log with outstanding := σ.log.outstanding + 1 } := by
    unfold State.beginOp
    rw [if_neg (by simp [hσ.up]), if_neg]
    rw [hσ.lh, hσ.outstanding]
    unfold logsize maxopblocks
    simp only [List.length_nil]
    omega
  have hops : σ.ops p = none := by
    rw [hσ.ops p, if_neg (by omega)]
  have hs := Step.begin (c := c) hops hbegin
  refine .one hs trivial ⟨⟨_, hs.sound hsound trivial⟩, hσ.up, ?_, hσ.lh, ?_⟩
  · show σ.log.outstanding + 1 = _
    rw [hσ.outstanding]
    rfl
  · intro q
    show Function.update σ.ops p (some ⟨0, none⟩) q = _
    by_cases hsame : q = p
    · subst hsame
      rw [Function.update_self, if_pos (by omega)]
    · have hne : q.val ≠ p.val := fun h => hsame (Fin.ext h)
      rw [Function.update_of_ne hsame, hσ.ops q]
      by_cases hq : q.val < i
      · rw [if_pos hq, if_pos (by omega)]
      · rw [if_neg hq, if_neg (by omega)]

theorem Begun.filled (hσ : Begun c σ 3) : Filled c σ 0 := by
  refine ⟨hσ.sound, fun p op hp => ?_, hσ.up, hσ.lh, fun p hp => ?_⟩
  · rw [hσ.ops p] at hp
    split at hp <;> cases hp
    rfl
  · rw [hσ.ops p, if_pos hp, Nat.zero_sub, Nat.zero_min]

theorem Event.Finishing.within (ha : a.Finishing) : Within σ a := by
  cases a with
  | write => exact ha.elim
  | _ => trivial

/-- A log with fewer than LOGSIZE blocks behind its header can be filled. -/
theorem leads_filled (hn : 3 ≤ n) (hroom : c.start + c.size + logsize ≤ 2 ^ 32) (hsize : c.size ≤ logsize)
    (hnil : getHead (disk c.start) = []) :
    Run.Leads (Step c) Within (System.start disk : System n) fun σ => Filled c σ (c.size - 1) := by
  refine (((sound_start hnil).finishes hsize (settled_of_none fun _ => rfl)).mono fun _ _ ha => ha.within).trans
    fun σ hσ => ?_
  obtain ⟨⟨⟨g, hσ⟩, -⟩, hup, hzero⟩ := hσ
  refine (Run.leads_of_stages (I := fun i σ => Begun c σ i) (k := 3) (fun i hi σ hσ => hσ.next hn hi)
    ⟨⟨g, hσ⟩, hup, hzero, hσ.counted.idle (.inr ⟨hup, hzero⟩), hσ.counted.ops_none hzero⟩).trans fun σ hσ => ?_
  exact Run.leads_of_stages (I := fun i σ => Filled c σ i) (fun i hi σ hσ => hσ.next hn hroom (by omega) (by omega))
    hσ.filled

/-- Operations that go through `log_write` at most MAXOPBLOCKS times never find the log full if and only if it has
LOGSIZE blocks besides its header. -/
theorem log_write_fits_iff (hn : 3 ≤ n) (hroom : c.start + c.size + logsize ≤ 2 ^ 32)
    (hnil : getHead (disk c.start) = []) :
    (∀ h (σ : System n), Run.Path (Step c) (System.start disk) h σ → (∀ x ∈ h, Within x.1 x.2) →
      ∀ p op, σ.ops p = some op → op.calls < maxopblocks → σ.log.logTest c = .ok ()) ↔ logsize < c.size := by
  constructor
  · intro hall
    by_contra hsize
    obtain ⟨h, σ, hp, hwithin, hσ⟩ := leads_filled hn hroom (by omega) hnil
    have hlog : logsize = 30 := rfl
    -- the operation whose turn it is
    obtain ⟨p, hpi⟩ : ∃ p : Fin n, p.val = (c.size - 1) / 10 := ⟨⟨(c.size - 1) / 10, by omega⟩, rfl⟩
    have hpos := c.pos
    have htest := hall h σ hp hwithin p _ (hσ.ops p (by omega)) (by unfold maxopblocks; dsimp only; omega)
    have hlen := hσ.length
    have hinside := (logTest_iff.1 htest).2.1
    omega
  · intro hsize h σ hp hwithin p op hops hk
    obtain ⟨hσ, hroom⟩ := room_of_run hnil hsize hp hwithin
    have hlt := hroom.lt hops hk
    exact logTest_iff.2 ⟨hlt, by omega, hσ.counted.pos hops⟩

/-- So it is with the log that `mkfs.c` makes. -/
theorem log_write_fits_iff_mkfs : ∃ (h : List (System 3 × Event 3)) (σ : System 3) (p : Fin 3) (op : Op),
    Run.Path (Step mkfsLayout) (System.start mkfsDisk) h σ ∧ (∀ x ∈ h, Within x.1 x.2) ∧
    σ.ops p = some op ∧ op.calls < maxopblocks ∧ σ.log.logTest mkfsLayout ≠ .ok () := by
  by_contra hnot
  have hlt : logsize < mkfsLayout.size := (log_write_fits_iff (le_refl 3) (by decide) getHead_mkfsDisk).1
    fun h σ hp hwithin p op hops hk => by
      by_contra hfail
      exact hnot ⟨h, σ, p, op, hp, hwithin, hops, hk, hfail⟩
  exact absurd hlt (by decide)

end CS1550.Log
