/-
How the log of `lab4/xv6-public/log.c` comes to rest. The invariants of a run hold as long as what `log_write` has tested
is still true when it adds its block (`sound_of_run`); then the operations on their way can end, and a commit finds the
buffers that it needs if the log is not greater than LOGSIZE (`Sound.finishes`).
-/
import CS1550.Lib.Progress
import CS1550.Log.Recovery

namespace CS1550.Log

variable {n : Nat} {c : Layout} {disk : Nat → Bytes.Mem} {h : List (System n × Event n)} {σ σ' : System n}
  {g : Contents} {a : Event n} {p : Fin n} {k b : Nat}

/-! ## The invariants of a run -/

/-- The operations are counted, and the disk and the cache hold what they should. -/
structure Sound (c : Layout) (σ : System n) (g : Contents) : Prop where
  counted : Counted c σ
  inv : Inv c σ.log g

theorem Step.sound (hs : Step c σ a σ') (hσ : Sound c σ g) (ha : a.Fits c σ) : Sound c σ' (g.after a) :=
  ⟨hs.counted hσ.inv.cached.coherent hσ.counted, hs.inv hσ.counted hσ.inv ha⟩

/-- The header that the recovery finds. -/
theorem Sound.head_fits (hσ : Sound c σ g) (hphase : σ.log.phase = .booting) :
    (getHead (σ.log.io.read c.start)).length ≤ logsize := by
  have hcached := hσ.inv.cached
  unfold State.pending at hcached
  rw [hphase] at hcached
  rw [hcached.read_eq List.not_mem_nil]
  exact hσ.inv.durable.loggable.fits

theorem sound_start (hnil : getHead (disk c.start) = []) : Sound c (System.start disk : System n) ⟨disk, disk⟩ :=
  ⟨counted_start disk, cached_empty disk, loggable_nil c, durable_of_nil hnil fun _ _ => rfl, rfl, fun _ _ => rfl⟩

/-- The log is greater than LOGSIZE and no operation goes through `log_write` more than MAXOPBLOCKS times, or no two
calls of `log_write` overlap. -/
def Careful (c : Layout) (h : List (System n × Event n)) : Prop :=
  (logsize < c.size ∧ ∀ x ∈ h, Within x.1 x.2) ∨ ∀ x ∈ h, Alone x.1 x.2

theorem Room.fits (hroom : Room σ) (hsize : logsize < c.size) (hs : Step c σ a σ') (ha : Within σ a) : a.Fits c σ := by
  cases hs with
  | write _ hp =>
    have hlt := hroom.lt hp (ha _ hp)
    exact .inr ⟨hlt, by omega⟩
  | _ => trivial

theorem Tested.fits (ht : Tested c σ) (hs : Step c σ a σ') : a.Fits c σ := by
  cases hs with
  | write _ hp => exact .inr (ht.room _ _ _ hp)
  | _ => trivial

theorem room_of_run (hnil : getHead (disk c.start) = []) (hsize : logsize < c.size)
    (hp : Run.Path (Step c) (System.start disk) h σ) (hwithin : ∀ x ∈ h, Within x.1 x.2) :
    Sound c σ (contents disk h) ∧ Room σ :=
  hp.simulate (R := fun σ g => Sound c σ g ∧ Room σ) Contents.after Within (fun _ => True)
    ⟨sound_start hnil, room_start disk⟩
    (fun _ _ _ _ hσ ha _ hs => ⟨hs.sound hσ.1 (hσ.2.fits hsize hs ha),
      hs.room hσ.1.inv.cached.coherent hσ.1.counted hσ.2 ha hσ.1.head_fits⟩) hwithin fun _ _ => trivial

theorem tested_of_run (hnil : getHead (disk c.start) = []) (hp : Run.Path (Step c) (System.start disk) h σ)
    (halone : ∀ x ∈ h, Alone x.1 x.2) : Sound c σ (contents disk h) ∧ Tested c σ :=
  hp.simulate (R := fun σ g => Sound c σ g ∧ Tested c σ) Contents.after Alone (fun _ => True)
    ⟨sound_start hnil, tested_start disk⟩
    (fun _ _ _ _ hσ ha _ hs => ⟨hs.sound hσ.1 (hσ.2.fits hs), hs.tested hσ.1.counted hσ.2 ha⟩) halone fun _ _ => trivial

theorem sound_of_run (hnil : getHead (disk c.start) = []) (hp : Run.Path (Step c) (System.start disk) h σ)
    (hcareful : Careful c h) : Sound c σ (contents disk h) := by
  rcases hcareful with ⟨hsize, hwithin⟩ | halone
  · exact (room_of_run hnil hsize hp hwithin).1
  · exact (tested_of_run hnil hp halone).1

/-! ## Buffers for a commit -/

section Buffers

variable {m : Cache} {P : List Nat}

/-- Two buffers at once: the second one is dirty, or there is still one more. -/
theorem exists_bread_bread (hlen : P.length < nbuf) (hP : ∀ b, m.dirty b = true ∨ m.refcnt b ≠ 0 → b ∈ P) (b b' : Nat)
    (hb' : m.dirty b' = true ∨ P.length + 1 < nbuf) : ∃ m₁ m₂, m.bread b = .ok m₁ ∧ m₁.bread b' = .ok m₂ := by
  obtain ⟨m₁, hm₁⟩ := exists_bread hlen hP b
  have hgot := bread_got hm₁
  have hsecond : ∃ m₂, m₁.bread b' = .ok m₂ := by
    rcases hb' with hdirty | hroom
    · exact exists_bread_of_dirty (by rw [hgot.dirty]; exact hdirty)
    · refine exists_bread (P := b :: P) hroom (fun d hd => ?_) b'
      by_cases hdb : d = b
      · rw [hdb]
        exact List.mem_cons_self
      · rw [hgot.dirty, hgot.refcnt, Function.update_of_ne hdb] at hd
        exact List.mem_cons_of_mem _ (hP d hd)
  obtain ⟨m₂, hm₂⟩ := hsecond
  exact ⟨m₁, m₂, hm₁, hm₂⟩

theorem exists_writeHead (hlen : P.length < nbuf) (hP : ∀ b, m.dirty b = true ∨ m.refcnt b ≠ 0 → b ∈ P)
    (lh : List Nat) : ∃ m', m.writeHead c lh = .ok m' := by
  obtain ⟨m₁, hm₁⟩ := exists_bread hlen hP c.start
  exact ⟨_, bind_ok.2 ⟨m₁, hm₁, rfl⟩⟩

theorem exists_readHead (hlen : P.length < nbuf) (hP : ∀ b, m.dirty b = true ∨ m.refcnt b ≠ 0 → b ∈ P) :
    ∃ lh m', m.readHead c = .ok (lh, m') := by
  obtain ⟨m₁, hm₁⟩ := exists_bread hlen hP c.start
  exact ⟨_, _, bind_ok.2 ⟨m₁, hm₁, rfl⟩⟩

theorem exists_writeLog (hlen : P.length < nbuf) (hP : ∀ b, m.dirty b = true ∨ m.refcnt b ≠ 0 → b ∈ P) (tail b : Nat)
    (hb : m.dirty b = true ∨ P.length + 1 < nbuf) : ∃ m', m.writeLog c tail b = .ok m' := by
  obtain ⟨m₁, m₂, hm₁, hm₂⟩ := exists_bread_bread hlen hP (c.start + tail + 1) b hb
  exact ⟨_, bind_ok.2 ⟨m₁, hm₁, bind_ok.2 ⟨m₂, hm₂, rfl⟩⟩⟩

theorem exists_installTrans (hlen : P.length < nbuf) (hP : ∀ b, m.dirty b = true ∨ m.refcnt b ≠ 0 → b ∈ P)
    (tail b : Nat) (hb : m.dirty b = true ∨ P.length + 1 < nbuf) : ∃ m', m.installTrans c tail b = .ok m' := by
  obtain ⟨m₁, m₂, hm₁, hm₂⟩ := exists_bread_bread hlen hP (c.start + tail + 1) b hb
  exact ⟨_, bind_ok.2 ⟨m₁, hm₁, bind_ok.2 ⟨m₂, hm₂, rfl⟩⟩⟩

end Buffers

theorem State.pending_length_le (s : State) : s.pending.length ≤ s.lh.length := by
  unfold State.pending
  split
  · exact le_refl _
  · exact le_refl _
  · rw [List.length_drop]
    omega
  · exact Nat.zero_le _

/-- No operation is in `log_write`. -/
def Settled (σ : System n) : Prop := ∀ p op, σ.ops p = some op → op.writing = none

/-- Then no buffer is in use. -/
theorem Settled.free (hset : Settled σ) (hσ : Counted c σ) (b : Nat) : σ.log.io.refcnt b = 0 := by
  rw [hσ.held]
  refine Finset.sum_eq_zero fun p _ => if_neg ?_
  cases hp : σ.ops p with
  | none => simp
  | some op => simp [hset p op hp]

theorem settled_of_none (hnone : ∀ p, σ.ops p = none) : Settled σ := by
  intro p op hp
  rw [hnone p] at hp
  cases hp

theorem Settled.update {s : State} {o : Option Op} (hset : Settled σ) (ho : o.bind Op.writing = none) :
    Settled ⟨s, Function.update σ.ops p o⟩ := by
  intro q op hq
  replace hq : Function.update σ.ops p o q = some op := hq
  by_cases hqp : q = p
  · subst hqp
    rw [Function.update_self] at hq
    rwa [hq] at ho
  · rw [Function.update_of_ne hqp] at hq
    exact hset q op hq

/-- The buffers that cannot be recycled are those of the blocks that are pending. -/
theorem Sound.pinned (hσ : Sound c σ g) (hset : Settled σ) :
    ∀ b, σ.log.io.dirty b = true ∨ σ.log.io.refcnt b ≠ 0 → b ∈ σ.log.pending := by
  rintro b (hdirty | hheld)
  · exact (hσ.inv.cached.dirty b).1 hdirty
  · exact absurd (hset.free hσ.counted b) hheld

/-! ## Steps to the end -/

/-- The steps that bring operations and commits to their end. -/
def Event.Finishing : Event n → Prop
  | .end _ | .log | .commit | .install | .clear | .done | .recover => True
  | _ => False

theorem Event.Finishing.fits (ha : a.Finishing) : a.Fits c σ := by
  cases a with
  | write => exact ha.elim
  | _ => trivial

/-- The steps up to the next time that operations can begin. -/
def Phase.left (len : Nat) : Phase → Nat
  | .up => 0
  | .ending => 1
  | .installing k _ => len - k + 2
  | .logging k => len - k + 3 + logsize
  | .booting => 3 + logsize

/-- The same with the operations that have to end. -/
def System.left (σ : System n) : Nat := total active σ.ops * (4 + 2 * logsize) + σ.log.phase.left σ.log.lh.length

theorem Sound.buffers_left (hsize : c.size ≤ logsize) (hσ : Sound c σ g) : σ.log.pending.length < nbuf := by
  have hle := σ.log.pending_length_le
  have hinside := hσ.inv.loggable.inside
  have hnbuf : nbuf = logsize := rfl
  omega

theorem Sound.pinned_of_not_up (hσ : Sound c σ g) (hup : σ.log.phase ≠ .up) :
    ∀ b, σ.log.io.dirty b = true ∨ σ.log.io.refcnt b ≠ 0 → b ∈ σ.log.pending :=
  hσ.pinned (settled_of_none (hσ.counted.ops_none (hσ.counted.quiet hup)))

/-- `write_log` goes on, or `commit` writes the header. -/
theorem Sound.next_logging {k : Nat} (hsize : c.size ≤ logsize) (hσ : Sound c σ g) (hphase : σ.log.phase = .logging k) :
    ∃ a σ', Step c σ a σ' ∧ a.Finishing ∧ σ'.ops = σ.ops ∧
      σ'.log.phase.left σ'.log.lh.length < σ.log.phase.left σ.log.lh.length := by
  have hinv := hσ.inv.phase
  have hfits := hσ.inv.loggable.fits
  have hlen := hσ.buffers_left hsize
  have hpinned := hσ.pinned_of_not_up (by simp [hphase])
  unfold PhaseInv at hinv
  rw [hphase] at hinv ⊢
  by_cases hk : k < σ.log.lh.length
  · have hdirty : σ.log.io.dirty σ.log.lh[k] = true := by
      rw [hσ.inv.cached.dirty]
      unfold State.pending
      rw [hphase]
      exact List.getElem_mem hk
    obtain ⟨m, hm⟩ := exists_writeLog (c := c) hlen hpinned k _ (.inl hdirty)
    refine ⟨_, _, .log hphase (List.getElem?_eq_getElem hk) hm, trivial, rfl, ?_⟩
    simp only [Phase.left]
    omega
  · obtain rfl : k = σ.log.lh.length := by omega
    obtain ⟨m, hm⟩ := exists_writeHead (c := c) hlen hpinned σ.log.lh
    refine ⟨_, _, .commit hphase hm, trivial, rfl, ?_⟩
    simp only [Phase.left]
    omega

/-- `install_trans` goes on, or the header is cleared. -/
theorem Sound.next_installing {k : Nat} {r : Bool} (hsize : c.size ≤ logsize) (hσ : Sound c σ g)
    (hphase : σ.log.phase = .installing k r) :
    ∃ a σ', Step c σ a σ' ∧ a.Finishing ∧ σ'.ops = σ.ops ∧
      σ'.log.phase.left σ'.log.lh.length < σ.log.phase.left σ.log.lh.length := by
  have hinv := hσ.inv.phase
  have hlen := hσ.buffers_left hsize
  have hpinned := hσ.pinned_of_not_up (by simp [hphase])
  unfold PhaseInv at hinv
  rw [hphase] at hinv ⊢
  by_cases hk : k < σ.log.lh.length
  · have hbuf : σ.log.io.dirty σ.log.lh[k] = true ∨ σ.log.pending.length + 1 < nbuf := by
      unfold State.pending
      rw [hphase]
      cases r with
      | true => exact .inr (show 0 + 1 < nbuf by decide)
      | false =>
        refine .inl ((hσ.inv.cached.dirty _).2 ?_)
        unfold State.pending
        rw [hphase]
        dsimp only
        rw [List.drop_eq_getElem_cons hk]
        exact List.mem_cons_self
    obtain ⟨m, hm⟩ := exists_installTrans (c := c) hlen hpinned k _ hbuf
    refine ⟨_, _, .install hphase (List.getElem?_eq_getElem hk) hm, trivial, rfl, ?_⟩
    simp only [Phase.left]
    omega
  · obtain rfl : k = σ.log.lh.length := by omega
    obtain ⟨m, hm⟩ := exists_writeHead (c := c) hlen hpinned []
    refine ⟨_, _, .clear hphase hm, trivial, rfl, ?_⟩
    show Phase.left _ (if r then .up else .ending) < _
    cases r
    · show 1 < _
      simp only [Phase.left]
      omega
    · show 0 < _
      simp only [Phase.left]
      omega

/-- The next step of the log itself. -/
theorem Sound.next_log (hsize : c.size ≤ logsize) (hσ : Sound c σ g) (hup : σ.log.phase ≠ .up) :
    ∃ a σ', Step c σ a σ' ∧ a.Finishing ∧ σ'.ops = σ.ops ∧
      σ'.log.phase.left σ'.log.lh.length < σ.log.phase.left σ.log.lh.length := by
  cases hphase : σ.log.phase with
  | up => exact absurd hphase hup
  | logging k => simpa only [hphase] using hσ.next_logging hsize hphase
  | installing k r => simpa only [hphase] using hσ.next_installing hsize hphase
  | ending =>
    refine ⟨_, _, .done hphase, trivial, rfl, ?_⟩
    show 0 < 1
    omega
  | booting =>
    obtain ⟨lh, m, hm⟩ := exists_readHead (c := c) (hσ.buffers_left hsize) (hσ.pinned_of_not_up hup)
    refine ⟨_, _, .recover hphase hm, trivial, rfl, ?_⟩
    have hnext : lh.length ≤ logsize := by
      rw [(readHead_eq hσ.inv.cached.coherent hm).1]
      exact hσ.head_fits hphase
    show lh.length - 0 + 2 < 3 + logsize
    omega

theorem Counted.endOp {op : Op} (hσ : Counted c σ) (hp : σ.ops p = some op) : ∃ s, σ.log.endOp = .ok s := by
  have hup := hσ.up hp
  unfold State.endOp
  dsimp only
  rw [if_neg (by simpa using hup)]
  split <;> exact ⟨_, rfl⟩

theorem Counted.exists_op (hσ : Counted c σ) (hpos : 0 < σ.log.outstanding) : ∃ p op, σ.ops p = some op := by
  by_contra hnot
  have hnone : σ.ops = fun _ => none := by
    funext p
    cases hp : σ.ops p with
    | none => rfl
    | some op => exact absurd ⟨p, op, hp⟩ hnot
  have hcount := hσ.count
  rw [hnone, total_none _ rfl] at hcount
  omega

/-- The end of an operation, with all that it may have to commit. -/
theorem Sound.next_end (hσ : Sound c σ g) (hset : Settled σ) (hpos : 0 < σ.log.outstanding) :
    ∃ a σ', Step c σ a σ' ∧ a.Finishing ∧ Settled σ' ∧ σ'.left < σ.left := by
  obtain ⟨p, ⟨k, o⟩, hp⟩ := hσ.counted.exists_op hpos
  obtain rfl : o = none := hset p _ hp
  obtain ⟨s, hs⟩ := hσ.counted.endOp hp
  refine ⟨_, _, .end hp hs, trivial, hset.update rfl, ?_⟩
  obtain ⟨-, -, hlh, -⟩ := endOp_eq hs
  have hless := total_update active σ.ops p none
  rw [hp] at hless
  have hless : total active (Function.update σ.ops p none) + 1 = total active σ.ops := hless
  have hfits := hσ.inv.loggable.fits
  have hleft : s.phase.left s.lh.length ≤ 3 + 2 * logsize := by
    rw [hlh]
    unfold Phase.left
    split <;> omega
  unfold System.left
  show total active (Function.update σ.ops p none) * _ + s.phase.left s.lh.length < _
  rw [← hless, Nat.add_mul]
  omega

/-- The operations that are on their way can end, and the log can do its work. -/
theorem Sound.finishes (hsize : c.size ≤ logsize) (hσ : Sound c σ g) (hset : Settled σ) :
    Run.Leads (Step c) (fun _ a => a.Finishing) σ fun σ' =>
      ((∃ g, Sound c σ' g) ∧ Settled σ') ∧ σ'.log.phase = .up ∧ σ'.log.outstanding = 0 := by
  refine Run.leads_of_measure (I := fun σ => (∃ g, Sound c σ g) ∧ Settled σ) System.left (fun σ hσ hnot => ?_)
    ⟨⟨g, hσ⟩, hset⟩
  obtain ⟨⟨g, hσ⟩, hset⟩ := hσ
  by_cases hup : σ.log.phase = .up
  · have hcount := hσ.counted.count
    have hpos : 0 < σ.log.outstanding := by
      have hne : σ.log.outstanding ≠ 0 := fun hzero => hnot ⟨hup, hzero⟩
      omega
    obtain ⟨a, σ', hs, ha, hset', hless⟩ := hσ.next_end hset hpos
    exact ⟨a, σ', hs, ha, ⟨⟨_, hs.sound hσ ha.fits⟩, hset'⟩, hless⟩
  · obtain ⟨a, σ', hs, ha, hops, hless⟩ := hσ.next_log hsize hup
    refine ⟨a, σ', hs, ha, ⟨⟨_, hs.sound hσ ha.fits⟩, ?_⟩, ?_⟩
    · unfold Settled
      rw [hops]
      exact hset
    · unfold System.left
      rw [hops]
      omega

/-- The steps that bring calls of `log_write` to their end as well. -/
def Event.Completing : Event n → Prop
  | .write _ _ _ => True
  | a => a.Finishing

theorem Event.Finishing.completing (ha : a.Finishing) : a.Completing := by
  cases a with
  | write => trivial
  | _ => exact ha

/-- Without the one operation that is in `log_write`, there is none. -/
theorem Tested.settled {s : State} {o : Option Op} (ht : Tested c σ) (hp : σ.ops p = some ⟨k, some b⟩)
    (ho : o.bind Op.writing = none) : Settled ⟨s, Function.update σ.ops p o⟩ := by
  intro q op hq
  replace hq : Function.update σ.ops p o q = some op := hq
  by_cases hqp : q = p
  · subst hqp
    rw [Function.update_self] at hq
    rwa [hq] at ho
  · rw [Function.update_of_ne hqp] at hq
    obtain ⟨l, w⟩ := op
    by_contra hne
    obtain ⟨d, rfl⟩ := Option.ne_none_iff_exists'.1 hne
    exact hqp (ht.one q p l k d b hq hp)

/-- The one operation that is in `log_write` can go on. -/
theorem Sound.settles (hσ : Sound c σ g) (ht : Tested c σ) :
    Run.Leads (Step c) (fun _ a => a.Completing) σ fun σ' => (∃ g, Sound c σ' g) ∧ Settled σ' := by
  by_cases hset : Settled σ
  · exact .here ⟨⟨g, hσ⟩, hset⟩
  · unfold Settled at hset
    push Not at hset
    obtain ⟨p, ⟨k, o⟩, hp, ho⟩ := hset
    obtain ⟨b, rfl⟩ := Option.ne_none_iff_exists'.1 ho
    have hs := Step.write (c := c) (fun _ => 0) hp
    exact .one hs trivial ⟨⟨_, hs.sound hσ (ht.fits hs)⟩, ht.settled hp rfl⟩

/-- With nothing on its way, the log is empty and the next operation gets in. -/
theorem Counted.beginOp (hσ : Counted c σ) (hup : σ.log.phase = .up) (hzero : σ.log.outstanding = 0) :
    σ.log.beginOp = some { σ.log with outstanding := σ.log.outstanding + 1 } := by
  have hfits : ¬ σ.log.lh.length + (σ.log.outstanding + 1) * maxopblocks > logsize := by
    rw [hσ.idle (.inr ⟨hup, hzero⟩), hzero]
    decide
  unfold State.beginOp
  rw [if_neg (by simpa using hup), if_neg hfits]

/-! ## An operation that is committed -/

theorem contents_append (disk : Nat → Bytes.Mem) (h h' : List (System n × Event n)) :
    contents disk (h ++ h') = h'.foldl (fun g x => g.after x.2) (contents disk h) := List.foldl_append

theorem current_of_finishing (g : Contents) (hok : ∀ x ∈ h, x.2.Finishing) :
    (h.foldl (fun g x => g.after x.2) g).current = g.current := by
  induction h generalizing g with
  | nil => rfl
  | cons x h ih =>
    rw [List.foldl_cons, ih _ fun y hy => hok y (List.mem_cons_of_mem _ hy)]
    have hx := hok x List.mem_cons_self
    cases hevent : x.2 with
    | write => rw [hevent] at hx; exact hx.elim
    | crash => rw [hevent] at hx; exact hx.elim
    | _ => rfl

theorem committed_of_no_commit (hnot : ∀ x ∈ h, x.2 ≠ .commit) : (contents disk h).committed = disk := by
  induction h using List.reverseRecOn with
  | nil => rfl
  | append_singleton h x ih =>
    rw [contents_append, List.foldl_cons, List.foldl_nil]
    have ih := ih fun y hy => hnot y (List.mem_append_left _ hy)
    have hx := hnot x (List.mem_append_right _ List.mem_cons_self)
    cases hevent : x.2 with
    | commit => exact absurd hevent hx
    | _ => exact ih

theorem Event.Finishing.alone (ha : a.Finishing) : Alone σ a := by
  cases a with
  | test => exact ha.elim
  | _ => trivial

/-- With nothing on its way, everything is committed. -/
theorem Sound.saved (hσ : Sound c σ g) (hup : σ.log.phase = .up) (hzero : σ.log.outstanding = 0) :
    Same c g.current g.committed := by
  have hinv := hσ.inv.phase
  unfold PhaseInv at hinv
  rw [hup] at hinv
  obtain ⟨hhead, hsame⟩ := hinv
  have hcached := hσ.inv.cached
  unfold State.pending at hcached
  rw [hup] at hcached
  dsimp only at hcached
  rw [hσ.counted.idle (.inr ⟨hup, hzero⟩)] at hcached
  intro b hb
  rw [← hsame b hb, hcached.read_eq List.not_mem_nil]
  exact hσ.inv.durable.same hhead b hb

/-- The tests of `log_write`, where no other operation is in it and a buffer can be had. -/
theorem Sound.test (hσ : Sound c σ g) (hset : Settled σ) (hfew : σ.log.lh.length < nbuf)
    (hops : σ.ops p = some ⟨k, none⟩) (hb : c.Home b) (hb32 : b < 2 ^ 32) (htest : σ.log.logTest c = .ok ()) :
    ∃ m, Step c σ (.test p b) ⟨{ σ.log with io := m }, Function.update σ.ops p (some ⟨k, some b⟩)⟩ := by
  have hle := σ.log.pending_length_le
  obtain ⟨m, hm⟩ := exists_bread (by omega) (hσ.pinned hset) b
  exact ⟨m, .test hops hb hb32 (hset.free hσ.counted b) hm htest⟩

/-- The whole of `log_write`, with nothing between its tests and what it does. -/
theorem Sound.log_write (hσ : Sound c σ g) (hset : Settled σ) (hfew : σ.log.lh.length < nbuf)
    (hops : σ.ops p = some ⟨k, none⟩) (hb : c.Home b) (hb32 : b < 2 ^ 32) (htest : σ.log.logTest c = .ok ())
    (data : Bytes.Mem) :
    ∃ σ₁ σ', Step c σ (.test p b) σ₁ ∧ Step c σ₁ (.write p b data) σ' ∧ σ₁.ops p = some ⟨k, some b⟩ ∧
      (∃ g', Sound c σ' g') ∧ Settled σ' ∧ σ'.ops = Function.update σ.ops p (some ⟨k + 1, none⟩) ∧
      σ'.log.phase = σ.log.phase ∧ σ'.log.lh = if b ∈ σ.log.lh then σ.log.lh else σ.log.lh ++ [b] := by
  obtain ⟨hfits, hinside, -⟩ := logTest_iff.1 htest
  obtain ⟨m, hs⟩ := hσ.test hset hfew hops hb hb32 htest
  have hop : Function.update σ.ops p (some ⟨k, some b⟩) p = some ⟨k, some b⟩ := Function.update_self p _ _
  have hs' := Step.write (c := c) (σ := ⟨{ σ.log with io := m }, Function.update σ.ops p (some ⟨k, some b⟩)⟩) data hop
  have hupdate : Function.update (Function.update σ.ops p (some ⟨k, some b⟩)) p (some ⟨k + 1, none⟩) =
      Function.update σ.ops p (some ⟨k + 1, none⟩) := Function.update_idem _ _ _
  refine ⟨_, _, hs, hs', hop, ⟨_, hs'.sound (hs.sound hσ trivial) (.inr ⟨hfits, hinside⟩)⟩, ?_, hupdate, rfl, rfl⟩
  dsimp only
  rw [hupdate]
  exact hset.update rfl

/-- An operation can come into `log_write`. -/
theorem exists_writing (hnil : getHead (disk c.start) = []) (hsize : c.size ≤ logsize) (hone : 1 < c.size) (p : Fin n)
    (hb : c.Home b) (hb32 : b < 2 ^ 32) :
    ∃ (h : List (System n × Event n)) (σ : System n), Run.Path (Step c) (System.start disk) h σ ∧
      (∀ x ∈ h, Alone x.1 x.2) ∧ σ.ops p = some ⟨0, some b⟩ ∧ (contents disk h).current = disk := by
  obtain ⟨h₁, σ₁, hp₁, hok₁, ⟨⟨g, hσ₁⟩, hset⟩, hup, hzero⟩ :=
    (sound_start (n := n) hnil).finishes hsize (settled_of_none fun _ => rfl)
  have hempty := hσ₁.counted.idle (.inr ⟨hup, hzero⟩)
  have hbegin := Step.begin (c := c) (hσ₁.counted.ops_none hzero p) (hσ₁.counted.beginOp hup hzero)
  have hσ₂ := hbegin.sound hσ₁ trivial
  have hset₂ : Settled (⟨{ σ₁.log with outstanding := σ₁.log.outstanding + 1 }, Function.update σ₁.ops p (some ⟨0, none⟩)⟩ :
    System n) := hset.update rfl
  have hfew : σ₁.log.lh.length < nbuf := by
    rw [hempty]
    decide
  have htest : State.logTest c { σ₁.log with outstanding := σ₁.log.outstanding + 1 } = .ok () := by
    refine logTest_iff.2 ⟨?_, ?_, ?_⟩
    · show σ₁.log.lh.length < logsize
      rw [hempty]
      decide
    · show σ₁.log.lh.length + 1 < c.size
      rw [hempty]
      exact hone
    · show 0 < σ₁.log.outstanding + 1
      omega
  obtain ⟨m, hstep⟩ := hσ₂.test hset₂ hfew (Function.update_self p _ σ₁.ops) hb hb32 htest
  refine ⟨_, _, (hp₁.step hbegin).step hstep, fun x hx => ?_, Function.update_self p _ _, ?_⟩
  · rcases List.mem_append.1 hx with hx | hx
    · rcases List.mem_append.1 hx with hx | hx
      · exact (hok₁ x hx).alone
      · rw [List.mem_singleton.1 hx]
        trivial
    · rw [List.mem_singleton.1 hx]
      exact hset₂
  · rw [contents_append, contents_append]
    exact current_of_finishing _ hok₁

/-- An operation can write a block, end and be committed. -/
theorem exists_written (hnil : getHead (disk c.start) = []) (hsize : c.size ≤ logsize) (hone : 1 < c.size) (p : Fin n)
    (hb : c.Home b) (hb32 : b < 2 ^ 32) (data : Bytes.Mem) :
    ∃ (h : List (System n × Event n)) (σ : System n), Run.Path (Step c) (System.start disk) h σ ∧
      (∀ x ∈ h, Alone x.1 x.2) ∧ Settled σ ∧ σ.log.phase = .up ∧ σ.log.outstanding = 0 ∧
      (contents disk h).current = Function.update disk b data := by
  obtain ⟨h₁, σ₁, hp₁, halone₁, hops, hcurrent⟩ := exists_writing hnil hsize hone p hb hb32
  obtain ⟨hσ₁, ht⟩ := tested_of_run hnil hp₁ halone₁
  have hwrite := Step.write (c := c) data hops
  obtain ⟨h₃, σ₃, hp₃, hok₃, ⟨-, hset₃⟩, hup₃, hzero₃⟩ :=
    (hwrite.sound hσ₁ (ht.fits hwrite)).finishes hsize (ht.settled hops rfl)
  refine ⟨_, σ₃, (hp₁.step hwrite).trans hp₃, fun x hx => ?_, hset₃, hup₃, hzero₃, ?_⟩
  · rcases List.mem_append.1 hx with hx | hx
    · rcases List.mem_append.1 hx with hx | hx
      · exact halone₁ x hx
      · rw [List.mem_singleton.1 hx]
        trivial
    · exact (hok₃ x hx).alone
  · rw [contents_append, current_of_finishing _ hok₃, contents_append]
    show Function.update (contents disk h₁).current b data = _
    rw [hcurrent]

end CS1550.Log
