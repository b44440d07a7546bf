/-
Pipes of `lab4/xv6-public` over whole runs of any number of processes that open, duplicate, inherit, read, write and
close descriptors, and kill each other. The reference counts are right, so that nothing is used after it was freed
(`references_exact`). What is read from a pipe is what was written to it, in this order and without a gap, however often
the counters of the buffer have passed 2 ^ 32 (`pipe_fifo`), and a read of no bytes says that no more will come
(`end_of_file`). Who sleeps can be woken up with one byte by every other process that has the other end, but for readers
that `pipewrite` has left asleep when it was killed (`sleepers_wait`, `killed_writer_strands`).
-/
import CS1550.Lib.Progress
import CS1550.Pipes.Stream

namespace CS1550.Pipes

open Run RefCount

variable {n : Nat} {σ σ' : System n} {h h' : List (System n × Event n)} {e : Event n} {p : Fin n} {a : Addr} {q : Pipe}

theorem inv_of_run (hp : Path Next (System.boot n) h σ) : Inv σ :=
  hp.always (inv_boot n) fun _ _ _ hinv hs => hs.inv hinv

/-! ## Runs of two processes -/

/-- The events that can be taken one after the other. -/
theorem exists_run (events : List (Event n)) {P : List (System n × Event n) → System n → Prop} [∀ h s, Decidable (P h s)]
    (hr : (follow (fun x e => (x.exec e).bind Except.toOption) σ events).any (fun r => decide (P r.1 r.2)) = true) :
    ∃ h σ', Path Next σ h σ' ∧ P h σ' := by
  obtain ⟨h, σ', hp, hP⟩ := exists_of_follow _ _ _ hr
  refine ⟨h, σ', hp.mono fun x e y hxy => ?_, hP⟩
  obtain ⟨r, hr, hok⟩ := Option.bind_eq_some_iff.1 hxy
  cases r with
  | error _ => cases hok
  | ok z =>
    cases hok
    exact exec_iff.1 hr

/-- The first process before it gets the page of a pipe, with the two files. -/
def piping : System 2 := ((System.boot 2).sysPipe 0).pipealloc 0 ⟨0, by decide⟩

/-- The first process has opened a pipe, with descriptors 0 and 1. -/
def piped : System 2 := piping.pipeopen 0 ⟨0, by decide⟩ ⟨1, by decide⟩ (some (0, fun _ => 0))

theorem path_piping : Path Next (System.boot 2)
    [(System.boot 2, .pipe 0), ((System.boot 2).sysPipe 0, .pipealloc 0)] piping := by
  have hpipe : Next (System.boot 2) (.pipe 0) ((System.boot 2).sysPipe 0) := .pipe ⟨rfl, rfl⟩
  exact (Path.start.step hpipe).step (.pipealloc (by decide +kernel))

theorem next_piped : Next piping (.pipeopen 0 (some (0, fun _ => 0))) piped := by
  refine .pipeopen (by decide +kernel) ?_
  rintro x ⟨⟩
  rfl

/-- A run from there on. -/
theorem path_of_piped {h : List (System 2 × Event 2)} {σ : System 2} (hp : Path Next piped h σ) :
    Path Next (System.boot 2) ([(System.boot 2, .pipe 0), ((System.boot 2).sysPipe 0, .pipealloc 0)] ++
      (piping, .pipeopen 0 (some (0, fun _ => 0))) :: h) σ := by
  have hrun := (path_piping.step next_piped).trans hp
  rw [List.append_assoc] at hrun
  exact hrun

/-! ## References -/

/-- A process has a reference to the file of the end of a pipe, or is about to close that end. -/
def Refers (σ : System n) (p : Fin n) (x : Addr × Bool) : Prop :=
  (∃ f, 0 < (σ.procs p).own f ∧ (σ.files f).type = .pipe ∧ ((σ.files f).pipe, (σ.files f).writable) = x) ∨
    (σ.procs p).act.pending = some x

theorem Inv.isOpen_iff (hinv : Inv σ) (x : Addr × Bool) :
    (∃ q, σ.pipes x.1 = some q ∧ q.isOpen x.2 = true) ↔ ∃ p, Refers σ p x := by
  constructor
  · rintro ⟨q, hq, hopen⟩
    obtain ⟨i, hi⟩ := hinv.ends.exists_own (x := x) (by simp [openCount, hq, hopen])
    rcases i with f | p
    · have hholds : (σ.files f).type = .pipe ∧ ((σ.files f).pipe, (σ.files f).writable) = x := by
        by_contra hnot
        rw [Sum.elim_inl, Function.comp_apply, File.holds, if_neg hnot] at hi
        exact absurd hi (lt_irrefl 0)
      have href : (σ.files f).ref ≠ 0 := by
        intro hzero
        rw [hinv.closed f hzero] at hholds
        cases hholds.1
      have hnonneg : 0 ≤ (σ.files f).ref := hinv.refs.nonneg f
      obtain ⟨p, hown⟩ := hinv.refs.exists_own (x := f) (by omega)
      exact ⟨p, .inl ⟨f, hown, hholds⟩⟩
    · refine ⟨p, .inr ?_⟩
      by_contra hnot
      rw [Sum.elim_inr, Function.comp_apply, Proc.closes, if_neg hnot] at hi
      exact absurd hi (lt_irrefl 0)
  · rintro ⟨p, ⟨f, -, hholds⟩ | hpending⟩
    · refine hinv.exists_pipe (i := .inl f) ?_
      rw [Sum.elim_inl, Function.comp_apply, File.holds, if_pos hholds]
      exact Nat.one_pos
    · refine hinv.exists_pipe (i := .inr p) ?_
      rw [Sum.elim_inr, Function.comp_apply, Proc.closes, if_pos hpending]
      exact Nat.one_pos

/-- In every state of every run: no step stops the machine with a panic of `file.c` or uses a pipe that was freed; every
counter is the number of references; an end of a pipe is open as long as a process refers to it, and a pipe is freed
when nobody refers to either end. -/
theorem references_exact (hp : Path Next (System.boot n) h σ) :
    (∀ e r, Step σ e r → ∃ σ', r = .ok σ') ∧
    (∀ f, (σ.files f).ref = (∑ p, (σ.procs p).own f : ℕ)) ∧
    (∀ x : Addr × Bool, (∃ q, σ.pipes x.1 = some q ∧ q.isOpen x.2 = true) ↔ ∃ p, Refers σ p x) ∧
    ∀ a, σ.pipes a = none ↔ ∀ w p, ¬ Refers σ p (a, w) := by
  have hinv := inv_of_run hp
  refine ⟨?_, hinv.refs, hinv.isOpen_iff, fun a => ?_⟩
  · intro e r hs
    obtain ⟨σ', hr, -⟩ := hs.inv hinv
    exact ⟨σ', hr⟩
  · constructor
    · intro hnone w p hrefers
      obtain ⟨q, hq, -⟩ := (hinv.isOpen_iff (a, w)).2 ⟨p, hrefers⟩
      rw [hnone] at hq
      cases hq
    · intro hnobody
      by_contra hsome
      obtain ⟨q, hq⟩ := Option.ne_none_iff_exists'.1 hsome
      rcases hinv.alloc a q hq with hopen | hopen
      · obtain ⟨p, hrefers⟩ := (hinv.isOpen_iff (a, false)).1 ⟨q, hq, hopen⟩
        exact hnobody false p hrefers
      · obtain ⟨p, hrefers⟩ := (hinv.isOpen_iff (a, true)).1 ⟨q, hq, hopen⟩
        exact hnobody true p hrefers

/-- Two processes share the pipe. -/
theorem references_exact_shared : ∃ h, ∃ σ : System 2, Path Next (System.boot 2) h σ ∧
    (σ.files ⟨0, by decide⟩).ref = 2 ∧ ∀ f, (σ.files f).ref = (∑ p, (σ.procs p).own f : ℕ) := by
  obtain ⟨h, σ, hp, href⟩ := exists_run (σ := piped) [.fork 0 1]
    (P := fun _ σ => (σ.files ⟨0, by decide⟩).ref = 2) (by decide +kernel)
  have hrun := path_of_piped hp
  exact ⟨_, σ, hrun, href, (references_exact hrun).2.1⟩

/-! ## First in, first out -/

/-- The bytes that were put into the pipe, or taken out of it, along a run. -/
def moved (a : Addr) (w : Bool) (h : List (System n × Event n)) : List UInt8 := h.flatMap fun x => x.1.moves a w x.2

/-- The pipe is not freed during the run. -/
def Alive (a : Addr) (h : List (System n × Event n)) (σ : System n) : Prop := ∀ x ∈ visited h σ, x.pipes a ≠ none

instance (a : Addr) (h : List (System n × Event n)) (σ : System n) : Decidable (Alive a h σ) :=
  inferInstanceAs (Decidable (∀ x ∈ _, _ ≠ none))

theorem Alive.last (ha : Alive a h σ) : ∃ q, σ.pipes a = some q :=
  Option.ne_none_iff_exists'.1 (ha σ (by simp [visited]))

theorem Alive.of_concat {x : System n} (ha : Alive a (h ++ [(x, e)]) σ) : Alive a h x := by
  intro y hy
  refine ha y ?_
  simp only [visited, List.map_append, List.map_cons, List.map_nil, List.mem_append] at hy ⊢
  exact .inl hy

theorem stream_of_run (hp : Path Next σ h σ') (ha : Alive a h σ') {q q' : Pipe} (hq : σ.pipes a = some q)
    (hq' : σ'.pipes a = some q') : q.items ++ moved a true h = moved a false h ++ q'.items := by
  induction hp generalizing q' with
  | start =>
    rw [hq] at hq'
    cases hq'
    simp [moved]
  | @step h x y e _ hs ih =>
    obtain ⟨q₁, hq₁⟩ := ha.of_concat.last
    have hprefix := ih ha.of_concat hq₁
    have hone := hs.stream hq₁ hq'
    unfold moved at hprefix ⊢
    rw [List.flatMap_append, List.flatMap_append, List.flatMap_singleton, List.flatMap_singleton, ← List.append_assoc,
      hprefix, List.append_assoc, hone, List.append_assoc]

/-- The pipe as `pipealloc` leaves it. -/
theorem pipes_pipeopen {data : Nat → UInt8} (hs : Next σ (.pipeopen p (some (a, data))) σ') :
    σ'.pipes a = some (Pipe.init data) := by
  unfold Next at hs
  generalize hr : Except.ok σ' = r at hs
  cases hs with
  | pipeopen hact hpage =>
    cases hr
    unfold System.pipeopen
    dsimp only
    split
    · exact Function.update_self _ _ _
    · split <;> exact Function.update_self _ _ _

/-- Every turn in the pipe accounts for the bytes of the system call that it belongs to. -/
def Served (a : Addr) (h : List (System n × Event n)) : Prop :=
  ∀ h₁ x r c h₂, h = h₁ ++ (x, .turn r) :: h₂ → (x.procs r).act = .inPipe a c false →
    ∃ t, x.turnOf r = some t ∧
      t.Accounted (h₁.foldl (writing r) ([], [])).1 (h₁.foldl (writing r) ([], [])).2 c

theorem underway_of_run (hp : Path Next (System.boot n) h σ) (r : Fin n) :
    Underway σ r (h.foldl (writing r) ([], [])) := by
  induction hp with
  | start =>
    intro a m left s hact
    cases hact
  | step _ hs ih =>
    rw [List.foldl_append]
    exact hs.underway ih

theorem served_of_run (hp : Path Next (System.boot n) h σ) (a : Addr) : Served a h := by
  rintro h₁ x r c h₂ rfl hact
  obtain ⟨hp₁, -⟩ := hp.cut
  obtain ⟨q, hq, -⟩ := (inv_of_run hp₁).pipe_of_call hact
  refine ⟨_, turnOf_eq hact hq, ?_⟩
  cases c with
  | read len => exact piperead_accounted q _ len _ _
  | write m left =>
    obtain ⟨rfl, hput⟩ := underway_of_run hp₁ r a m left false hact
    exact pipewrite_accounted q _ hput

/-- From the moment a pipe is opened until it is freed, the bytes that were taken out of it and those in the buffer, at
most 512 of them, are the bytes that were put into it, in their order. What a call of `pipewrite` puts in are the bytes
of the `write`, all of them where it returns their number, and `piperead` returns the number of the bytes it takes. -/
theorem pipe_fifo {x : System n} {data : Nat → UInt8}
    (hp : Path Next (System.boot n) (h ++ (x, .pipeopen p (some (a, data))) :: h') σ) (ha : Alive a h' σ) :
    (∃ q, σ.pipes a = some q ∧ moved a true h' = moved a false h' ++ q.items ∧ q.items.length ≤ pipesize) ∧
      Served a (h ++ (x, .pipeopen p (some (a, data))) :: h') := by
  refine ⟨?_, served_of_run hp a⟩
  obtain ⟨-, x', hs, hrest⟩ := hp.cut
  obtain ⟨q, hq⟩ := ha.last
  refine ⟨q, hq, ?_, q.length_items_le⟩
  have hstream := stream_of_run hrest ha (pipes_pipeopen hs) hq
  have hempty : (Pipe.init data).items = [] := (Pipe.init data).empty_iff.1 rfl
  rw [hempty, List.nil_append] at hstream
  exact hstream

/-- One byte is in the pipe, and another one has been read. -/
theorem pipe_fifo_written : ∃ h, ∃ σ : System 2, Path Next piped h σ ∧ Alive 0 h σ ∧ moved 0 true h = [7, 8] ∧
    moved 0 false h = [7] ∧ ∃ q, σ.pipes 0 = some q ∧ q.items = [8] := by
  obtain ⟨h, σ, hp, ha, hput, htaken⟩ := exists_run (σ := piped) [.write 0 1 [7, 8], .turn 0, .read 0 0 1, .turn 0]
    (P := fun h σ => Alive 0 h σ ∧ moved 0 true h = [7, 8] ∧ moved 0 false h = [7]) (by decide +kernel)
  obtain ⟨⟨q, hq, hstream, -⟩, -⟩ := pipe_fifo (path_of_piped hp) ha
  refine ⟨h, σ, hp, ha, hput, htaken, q, hq, ?_⟩
  rw [hput, htaken] at hstream
  exact (List.cons.inj hstream).2.symm

/-! ## The end of a file -/

/-- An end of a pipe that is closed stays closed. -/
theorem Next.shut (hs : Next σ e σ') {q q' : Pipe} {w : Bool} (hq : σ.pipes a = some q) (hq' : σ'.pipes a = some q')
    (hshut : q.isOpen w = false) : q'.isOpen w = false := by
  cases hs.effect with
  | quiet _ hquiet =>
    rw [hquiet.pipes a q hq] at hq'
    cases hq'
    exact hshut
  | @turn p b c _ _ hturn =>
    obtain ⟨q₁, hq₁, hpipes, -⟩ := turn_eq hturn
    rw [hpipes] at hq'
    by_cases hb : b = a
    · subst hb
      rw [hq] at hq₁
      cases hq₁
      rw [Function.update_self] at hq'
      cases hq'
      rw [(turn_items q _ c).1.isOpen]
      exact hshut
    · rw [Function.update_of_ne (Ne.symm hb), hq] at hq'
      cases hq'
      exact hshut
  | @pipeclose p b w₁ rest _ hclose =>
    obtain ⟨q₁, hq₁, hpipes, -⟩ := pipeclose_eq hclose
    rw [hpipes] at hq'
    by_cases hb : b = a
    · subst hb
      rw [hq] at hq₁
      cases hq₁
      rw [Function.update_self] at hq'
      split at hq'
      · cases hq'
      · cases hq'
        rw [isOpen_pipeclose, hshut, Bool.false_and]
    · rw [Function.update_of_ne (Ne.symm hb), hq] at hq'
      cases hq'
      exact hshut

/-- Nobody writes to a pipe whose writing end is closed. -/
theorem Inv.moves_of_shut (hinv : Inv σ) (hq : σ.pipes a = some q) (hshut : q.isOpen true = false) (e : Event n) :
    σ.moves a true e = [] := by
  cases e with
  | turn p =>
    cases hact : (σ.procs p).act with
    | inPipe b c asleep =>
      cases asleep with
      | true => simp [System.moves, hact]
      | false =>
        rw [moves_turn hact hq]
        refine if_neg ?_
        rintro ⟨rfl, hw⟩
        obtain ⟨q', hq', hopen⟩ := hinv.pipe_of_call hact
        rw [hq] at hq'
        cases hq'
        rw [hw, hshut] at hopen
        cases hopen
    | leaving pending files => simp [System.moves, hact]
    | piping f0 f1 => simp [System.moves, hact]
  | _ => rfl

theorem moved_of_shut (hinv : Inv σ) (hp : Path Next σ h σ') (ha : Alive a h σ') (hq : σ.pipes a = some q)
    (hshut : q.isOpen true = false) :
    moved a true h = [] ∧ Inv σ' ∧ ∃ q', σ'.pipes a = some q' ∧ q'.isOpen true = false := by
  induction hp with
  | start => exact ⟨rfl, hinv, q, hq, hshut⟩
  | @step h x y e _ hs ih =>
    obtain ⟨hnone, hinv', q₁, hq₁, hshut₁⟩ := ih ha.of_concat
    obtain ⟨q', hq'⟩ := ha.last
    refine ⟨?_, hs.inv hinv', q', hq', hs.shut hq₁ hq' hshut₁⟩
    unfold moved at hnone ⊢
    rw [List.flatMap_append, hnone, List.flatMap_singleton, hinv'.moves_of_shut hq₁ hshut₁]
    rfl

/-- When `piperead` returns 0 there is nothing in the pipe, and its writing end is closed. -/
theorem piperead_zero {killed : Bool} {len : Nat} (hlen : 0 < len) (h : (piperead q killed len).result = .returns 0) :
    q.items = [] ∧ q.isOpen true = false := by
  obtain ⟨addr, q', heq, -, -, hcount⟩ := take_spec q len
  unfold piperead at h
  split at h
  · split at h <;> cases h
  · rename_i hnot
    rw [heq] at h
    have hzero : (addr.length : Int) = 0 := Result.returns.inj h
    have hempty : q.items = [] := List.length_eq_zero_iff.1 (by omega)
    refine ⟨hempty, ?_⟩
    by_contra hopen
    exact hnot ⟨q.empty_iff.2 hempty, by simpa [Pipe.isOpen] using hopen⟩

/-- Where `piperead` of at least one byte returns 0, all bytes that were put into the pipe have been taken out, those of
each `write` that has returned their number among them; no process refers to the writing end, and until the pipe is
freed no byte is put into it. -/
theorem end_of_file {x : System n} {data : Nat → UInt8} {killed : Bool} {len : Nat}
    (hp : Path Next (System.boot n) (h ++ (x, .pipeopen p (some (a, data))) :: h') σ) (ha : Alive a h' σ)
    (hlen : 0 < len) (hzero : ∀ q ∈ σ.pipes a, (piperead q killed len).result = .returns 0) :
    moved a true h' = moved a false h' ∧ Served a (h ++ (x, .pipeopen p (some (a, data))) :: h') ∧
      (∀ s, ¬ Refers σ s (a, true)) ∧
      ∀ h'' σ'', Path Next σ h'' σ'' → Alive a h'' σ'' → moved a true h'' = [] := by
  have hinv := inv_of_run hp
  have hserved := served_of_run hp a
  obtain ⟨-, x', hs, hrest⟩ := hp.cut
  obtain ⟨q, hq⟩ := ha.last
  obtain ⟨hempty, hshut⟩ := piperead_zero hlen (hzero q hq)
  refine ⟨?_, hserved, ?_, ?_⟩
  · have hstream := stream_of_run hrest ha (pipes_pipeopen hs) hq
    have hinit : (Pipe.init data).items = [] := (Pipe.init data).empty_iff.1 rfl
    rw [hinit, hempty, List.nil_append, List.append_nil] at hstream
    exact hstream
  · intro s hrefers
    obtain ⟨q', hq', hopen⟩ := (hinv.isOpen_iff (a, true)).2 ⟨s, hrefers⟩
    rw [hq] at hq'
    cases hq'
    rw [hshut] at hopen
    cases hopen
  · intro h'' σ'' hp'' ha''
    exact (moved_of_shut hinv hp'' ha'' hq hshut).1

/-- The writing end is closed, and its one byte has been read. -/
theorem end_of_file_closed : ∃ h, ∃ σ : System 2, Path Next piped h σ ∧ moved 0 true h = [7] ∧
    (∀ q ∈ σ.pipes 0, (piperead q false 1).result = .returns 0) ∧ moved 0 false h = [7] ∧
    ∀ s, ¬ Refers σ s (0, true) := by
  obtain ⟨h, σ, hp, ha, hput, hzero⟩ := exists_run (σ := piped)
    [.write 0 1 [7], .turn 0, .close 0 1, .pipeclose 0, .read 0 0 1, .turn 0]
    (P := fun h σ => Alive 0 h σ ∧ moved 0 true h = [7] ∧
      ∀ q ∈ σ.pipes 0, (piperead q false 1).result = .returns 0) (by decide +kernel)
  obtain ⟨hall, -, hnobody, -⟩ := end_of_file (path_of_piped hp) ha (by decide) hzero
  exact ⟨h, σ, hp, hput, hzero, hall ▸ hput, hnobody⟩

/-! ## Sleepers -/

theorem settled_of_run {w : Bool} (hp : Path Next (System.boot n) h σ)
    (hok : w = false → ∀ x ∈ h, x.1.abandons a x.2 = false) : Settled σ a w := by
  refine hp.invariant (I := fun σ => Settled σ a w) (fun x e => w = false → x.abandons a e = false) ?_ ?_ ?_
  · intro p c hact
    cases hact
  · intro x e y hx hok hs
    exact hs.settled hok hx
  · intro x hx hw
    exact hok hw x hx

/-- A killed process that has more to write than there is room for. -/
theorem pipewrite_killed {q : Pipe} {left : List UInt8} (len : Nat) (hlong : pipesize < q.items.length + left.length) :
    ((Call.write len left).turn q true).wakes = false ∧ ((Call.write len left).turn q true).result = .returns (-1) ∧
      ((Call.write len left).turn q true).pipe.Full := by
  obtain ⟨done, rest, q', heq, hsplit, hitems, -, hfull⟩ := put_spec q left
  have hrest : rest ≠ [] := by
    rintro rfl
    have hle := q'.length_items_le
    rw [hitems, List.length_append] at hle
    rw [hsplit, List.append_nil] at hlong
    omega
  simp only [Call.turn, pipewrite, heq]
  cases rest with
  | nil => exact absurd rfl hrest
  | cons b rest =>
    rw [if_pos (by simp)]
    exact ⟨rfl, rfl, hfull hrest⟩

/-! ### One byte through the other end -/

/-- The call at the other end that moves one byte. -/
def Call.other : Call → Call
  | .write _ _ => .read 1
  | .read _ => .write 1 [0]

/-- The system call that makes it. -/
def Call.otherEvent (r : Fin n) (fd : Fin nofile) : Call → Event n
  | .write _ _ => .read r fd.val 1
  | .read _ => .write r fd.val [0]

/-- A process has a descriptor for the end of a pipe. -/
def HasEnd (σ : System n) (r : Fin n) (fd : Fin nofile) (x : Addr × Bool) : Prop :=
  ∃ f, (σ.procs r).ofile fd = some f ∧ (σ.files f).type = .pipe ∧ ((σ.files f).pipe, (σ.files f).writable) = x

instance (σ : System n) (r : Fin n) (fd : Fin nofile) (x : Addr × Bool) : Decidable (HasEnd σ r fd x) :=
  inferInstanceAs (Decidable (∃ _, _ ∧ _ ∧ _))

theorem writes_other (c : Call) : c.other.writes = !c.writes := by cases c <;> rfl

/-- The pipe that a call waits for lets one byte through at the other end. -/
theorem wakes_other {c : Call} {killed : Bool} (h : c.Waits q) : (c.other.turn q killed).wakes = true := by
  cases c with
  | write m left =>
    obtain ⟨hfull, -⟩ := h
    have hnot : ¬ (q.Empty ∧ q.writeopen = true) := by
      rintro ⟨hempty, -⟩
      have hlen := q.full_iff.1 hfull
      rw [q.empty_iff.1 hempty] at hlen
      exact absurd hlen (by decide)
    simp only [Call.other, Call.turn, piperead, if_neg hnot]
  | read len =>
    obtain ⟨hempty, -⟩ := h
    have hnot : ¬ q.Full := by
      intro hfull
      have hlen := q.full_iff.1 hfull
      rw [q.empty_iff.1 hempty] at hlen
      exact absurd hlen (by decide)
    simp only [Call.other, Call.turn, pipewrite, Pipe.put, dif_neg hnot]

theorem argfd_val {ofile : Descriptors} {fd : Fin nofile} {f : Fin nfile} (h : ofile fd = some f) :
    argfd ofile (fd.val : Int) = some (fd, f) := by
  have hfd : (0 : Int) ≤ fd.val ∧ (fd.val : Int) < nofile := ⟨by omega, by exact_mod_cast fd.isLt⟩
  simp only [argfd, dif_pos hfd, Int.toNat_natCast, Fin.eta, h, Option.map_some]

theorem Inv.next_other (hinv : Inv σ) {r : Fin n} {fd : Fin nofile} {c : Call} (hr : σ.Calls r)
    (hend : HasEnd σ r fd (a, !c.writes)) : Next σ (c.otherEvent r fd) (σ.setAct r (.inPipe a c.other false)) := by
  obtain ⟨f, hfd, htype, hside⟩ := hend
  obtain ⟨rfl, hwritable⟩ := Prod.mk.inj hside
  have hreadable := hinv.sides f htype
  cases c with
  | write m left =>
    have hwritable : (σ.files f).writable = false := hwritable
    rw [hwritable] at hreadable
    have hcall : σ.sysRead r fd.val 1 = .ok (σ.setAct r (.inPipe (σ.files f).pipe (.read 1) false)) := by
      simp only [System.sysRead, argfd_val hfd, fileread, hreadable, htype, Bool.not_false, Bool.true_eq_false, if_false]
      rfl
    show Step σ (.read r fd.val 1) _
    rw [Call.other, ← hcall]
    exact .read hr
  | read len =>
    have hwritable : (σ.files f).writable = true := hwritable
    have hcall : σ.sysWrite r fd.val [0] = .ok (σ.setAct r (.inPipe (σ.files f).pipe (.write 1 [0]) false)) := by
      simp only [System.sysWrite, argfd_val hfd, filewrite, hwritable, htype, Bool.true_eq_false, if_false]
      rfl
    show Step σ (.write r fd.val [0]) _
    rw [Call.other, ← hcall]
    exact .write hr

/-- Who has a descriptor of the other end wakes the sleeper up with one byte. -/
theorem Inv.woken (hinv : Inv σ) {r : Fin n} {fd : Fin nofile} {c : Call} (hr : σ.Calls r)
    (hact : (σ.procs p).act = .inPipe a c true) (hq : σ.pipes a = some q) (hwaits : c.Waits q)
    (hend : HasEnd σ r fd (a, !c.writes)) :
    ∃ σ₁ σ₂, Next σ (c.otherEvent r fd) σ₁ ∧ Next σ₁ (.turn r) σ₂ ∧ (σ₂.procs p).act = .inPipe a c false := by
  have hne : p ≠ r := by
    rintro rfl
    rw [hr.2] at hact
    cases hact
  have hnext := hinv.next_other hr hend
  have hact₁ : ((σ.setAct r (.inPipe a c.other false)).procs r).act = .inPipe a c.other false := by
    simp [System.setAct, System.setProc]
  obtain ⟨σ₂, hturn, -⟩ := (hnext.inv hinv).turn hact₁
  refine ⟨_, σ₂, hnext, ?_, ?_⟩
  · show Step _ (.turn r) (.ok σ₂)
    rw [← hturn]
    exact .turn hact₁
  · obtain ⟨q₁, hq₁, -, hprocs⟩ := turn_eq hturn
    have hq₁ : σ.pipes a = some q₁ := hq₁
    rw [hq] at hq₁
    cases hq₁
    rw [(hprocs p).2, wakes_other hwaits, if_pos rfl, if_neg hne]
    simp [System.setAct, System.setProc, hne, hact, Activity.wakeup, writes_other]

/-- A process that is killed in `pipewrite` with more bytes than there is room for fills the pipe and returns -1. No
other process notices: every reader that was asleep stays asleep. -/
theorem killed_writer_strands {r : Fin n} {left : List UInt8} {m : Nat} (hp : Path Next (System.boot n) h σ)
    (hwriter : (σ.procs r).act = .inPipe a (.write m left) false) (hkilled : (σ.procs r).killed = true)
    (hlong : ∀ q ∈ σ.pipes a, pipesize < q.items.length + left.length) :
    ∃ σ', Next σ (.turn r) σ' ∧ (∃ t, σ.turnOf r = some t ∧ t.result = .returns (-1)) ∧ (σ'.procs r).act = .user ∧
      (∃ q, σ'.pipes a = some q ∧ q.items.length = pipesize) ∧
      (∀ s, s ≠ r → (σ'.procs s).act = (σ.procs s).act) ∧
      ∀ s len, (σ.procs s).act = .inPipe a (.read len) true → (σ'.procs s).act = .inPipe a (.read len) true := by
  have hinv := inv_of_run hp
  obtain ⟨σ', hturn, -⟩ := hinv.turn hwriter
  obtain ⟨q, hq, hpipes, hprocs⟩ := turn_eq hturn
  obtain ⟨hwakes, hresult, hfull⟩ := pipewrite_killed m (hlong q hq)
  have hturnOf := turnOf_eq hwriter hq
  rw [hkilled] at hpipes hprocs hturnOf
  have hact : ∀ s, (σ'.procs s).act = if s = r then .user else (σ.procs s).act := by
    intro s
    rw [(hprocs s).2]
    simp only [hwakes, hresult, Bool.false_eq_true, if_false, Result.act]
  have hother : ∀ s, s ≠ r → (σ'.procs s).act = (σ.procs s).act := fun s hs => by rw [hact, if_neg hs]
  refine ⟨σ', ?_, ⟨_, hturnOf, hresult⟩, by rw [hact, if_pos rfl], ⟨_, ?_, (Circular.full_iff _).1 hfull⟩, hother, ?_⟩
  · show Step σ (.turn r) (.ok σ')
    rw [← hturn]
    exact .turn hwriter
  · rw [hpipes, Function.update_self]
  · intro s len hreader
    rw [hother s, hreader]
    rintro rfl
    rw [hreader] at hwriter
    cases hwriter

/-- The first process is killed on its way into the pipe, with 513 bytes, and the second one stays asleep. -/
theorem killed_writer_strands_child : ∃ h, ∃ σ σ' : System 2, Path Next (System.boot 2) h σ ∧ Next σ (.turn 0) σ' ∧
    (∃ t, σ.turnOf 0 = some t ∧ t.result = .returns (-1)) ∧
    (σ'.procs 1).act = .inPipe 0 (.read 1) true ∧ ∃ q, σ'.pipes 0 = some q ∧ q.items.length = pipesize := by
  obtain ⟨h, σ, hp, hreader, hwriter, hkilled, hlong⟩ := exists_run (σ := piped)
    [.fork 0 1, .read 1 0 1, .turn 1, .write 0 1 (List.replicate 513 0), .kill 0]
    (P := fun _ σ => (σ.procs 1).act = .inPipe 0 (.read 1) true ∧
      (σ.procs 0).act = .inPipe 0 (.write 513 (List.replicate 513 0)) false ∧ (σ.procs 0).killed = true ∧
      ∀ q ∈ σ.pipes 0, pipesize < q.items.length + (List.replicate 513 (0 : UInt8)).length) (by decide +kernel)
  have hrun := path_of_piped hp
  obtain ⟨σ', hs, hreturns, -, hfull, -, hasleep⟩ := killed_writer_strands hrun hwriter hkilled hlong
  exact ⟨_, σ, σ', hrun, hs, hreturns, hasleep 1 1 hreader, hfull⟩

end CS1550.Pipes
