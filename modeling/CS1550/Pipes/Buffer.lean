/-
The pipes of `lab4/xv6-public/pipe.c`: the buffer and what one call does to it while it holds the lock. A call that has
to wait gives the lock up in `sleep` and comes back to the same loop, so `pipewrite` and `piperead` are here the part
from taking the lock, or from waking up, to returning or to the next `sleep` (`Turn`).
-/
import CS1550.Lib.Circular

namespace CS1550.Pipes

/-- `PIPESIZE` -/
def pipesize : Nat := 512

/-- `struct pipe`, with its buffer. -/
structure Pipe extends Circular 32 pipesize UInt8 where
  readopen : Bool
  writeopen : Bool

/-- The fields that `pipealloc` sets, in a page with any contents. -/
def Pipe.init (page : Nat → UInt8) : Pipe where
  data := page
  nread := 0
  nwrite := 0
  dvd := ⟨2 ^ 23, by decide⟩
  lt := by decide
  used_le := by decide
  readopen := true
  writeopen := true

/-! ## The loops -/

/-- The loop of `pipewrite`, as far as there is room: what has been put into the buffer, and what is left. -/
def Pipe.put (q : Pipe) : List UInt8 → List UInt8 × List UInt8 × Pipe
  | [] => ([], [], q)
  | c :: addr =>
    if h : q.Full then ([], c :: addr, q)
    else
      let (done, left, q') := Pipe.put ⟨q.push c h, q.readopen, q.writeopen⟩ addr
      (c :: done, left, q')

/-- The loop of `piperead`. -/
def Pipe.take (q : Pipe) : Nat → List UInt8 × Pipe
  | 0 => ([], q)
  | n + 1 =>
    if h : q.Empty then ([], q)
    else
      let (addr, q') := Pipe.take ⟨q.pop h, q.readopen, q.writeopen⟩ n
      (q.first :: addr, q')

/-! ## Calls -/

/-- A call of `pipewrite` with `n` bytes, of which `left` are still to be written, or of `piperead`. -/
inductive Call
  | write (n : Nat) (left : List UInt8)
  | read (n : Nat)
  deriving DecidableEq

/-- Whether the call is one of `pipewrite`. -/
def Call.writes : Call → Bool
  | .write _ _ => true
  | .read _ => false

/-- A call returns, or it sleeps in the middle of what is left of it. -/
inductive Result
  | returns (r : Int)
  | sleeps (c : Call)
  deriving DecidableEq

/-- What a call does before it returns or sleeps: the bytes that it has moved, and whether it wakes up the processes
that wait at the other end. -/
structure Turn where
  pipe : Pipe
  moved : List UInt8
  wakes : Bool
  result : Result

/-- `pipewrite`, from the lock to the return or to `sleep`. -/
def pipewrite (q : Pipe) (killed : Bool) (n : Nat) (left : List UInt8) : Turn :=
  match q.put left with
  | (done, [], q') => { pipe := q', moved := done, wakes := true, result := .returns n }
  | (done, left', q') =>
    if !q'.readopen || killed then { pipe := q', moved := done, wakes := false, result := .returns (-1) }
    else { pipe := q', moved := done, wakes := true, result := .sleeps (.write n left') }

/-- `piperead`, from the lock to the return or to `sleep`. -/
def piperead (q : Pipe) (killed : Bool) (n : Nat) : Turn :=
  if q.Empty ∧ q.writeopen = true then
    if killed then { pipe := q, moved := [], wakes := false, result := .returns (-1) }
    else { pipe := q, moved := [], wakes := false, result := .sleeps (.read n) }
  else
    let (addr, q') := q.take n
    { pipe := q', moved := addr, wakes := true, result := .returns addr.length }

/-- A call, from the lock to the return or to `sleep`. -/
def Call.turn (q : Pipe) (killed : Bool) : Call → Turn
  | .write n left => pipewrite q killed n left
  | .read n => piperead q killed n

/-! ## What the loops do -/

/-- The ends of a pipe are as they were. -/
def SameEnds (q q' : Pipe) : Prop := q'.readopen = q.readopen ∧ q'.writeopen = q.writeopen

theorem put_spec (q : Pipe) (addr : List UInt8) : ∃ done left q', q.put addr = (done, left, q') ∧
    addr = done ++ left ∧ q'.items = q.items ++ done ∧ SameEnds q q' ∧ (left ≠ [] → q'.Full) := by
  induction addr generalizing q with
  | nil => exact ⟨[], [], q, rfl, rfl, (List.append_nil _).symm, ⟨rfl, rfl⟩, fun h => absurd rfl h⟩
  | cons c addr ih =>
    unfold Pipe.put
    by_cases h : q.Full
    · rw [dif_pos h]
      exact ⟨[], c :: addr, q, rfl, rfl, (List.append_nil _).symm, ⟨rfl, rfl⟩, fun _ => h⟩
    · rw [dif_neg h]
      obtain ⟨done, left, q', heq, haddr, hitems, hends, hfull⟩ := ih ⟨q.push c h, q.readopen, q.writeopen⟩
      rw [heq]
      refine ⟨c :: done, left, q', rfl, by rw [haddr, List.cons_append], ?_, hends, hfull⟩
      rw [hitems, Circular.items_push, List.append_assoc, List.singleton_append]

theorem put_of_full {q : Pipe} (h : q.Full) (addr : List UInt8) : q.put addr = ([], addr, q) := by
  cases addr with
  | nil => rfl
  | cons c addr => rw [Pipe.put, dif_pos h]

theorem take_spec (q : Pipe) (n : Nat) : ∃ addr q', q.take n = (addr, q') ∧ q.items = addr ++ q'.items ∧
    SameEnds q q' ∧ addr.length = min n q.items.length := by
  induction n generalizing q with
  | zero => exact ⟨[], q, rfl, rfl, ⟨rfl, rfl⟩, (Nat.zero_min _).symm⟩
  | succ n ih =>
    unfold Pipe.take
    by_cases h : q.Empty
    · rw [dif_pos h]
      refine ⟨[], q, rfl, rfl, ⟨rfl, rfl⟩, ?_⟩
      rw [q.empty_iff.1 h]
      exact (Nat.min_zero _).symm
    · rw [dif_neg h]
      obtain ⟨addr, q', heq, hitems, hends, hlen⟩ := ih ⟨q.pop h, q.readopen, q.writeopen⟩
      rw [heq]
      have hpop := Circular.items_pop h
      refine ⟨q.first :: addr, q', rfl, ?_, hends, ?_⟩
      · rw [hpop, hitems, List.cons_append]
      · rw [hpop, List.length_cons, List.length_cons, hlen, Nat.add_min_add_right]

/-! ## What a turn does -/

/-- The bytes that a turn puts in come behind those in the buffer, and the bytes it takes out were the first ones. -/
theorem turn_items (q : Pipe) (killed : Bool) (c : Call) : SameEnds q (c.turn q killed).pipe ∧
    if c.writes then (c.turn q killed).pipe.items = q.items ++ (c.turn q killed).moved
    else q.items = (c.turn q killed).moved ++ (c.turn q killed).pipe.items := by
  cases c with
  | write n left =>
    obtain ⟨done, rest, q', heq, -, hitems, hends, -⟩ := put_spec q left
    simp only [Call.turn, pipewrite, heq, Call.writes, if_true]
    cases rest with
    | nil => exact ⟨hends, hitems⟩
    | cons b rest =>
      dsimp only
      split <;> exact ⟨hends, hitems⟩
  | read n =>
    obtain ⟨addr, q', heq, hitems, hends, -⟩ := take_spec q n
    simp only [Call.turn, piperead, heq, Call.writes, Bool.false_eq_true, if_false]
    split
    · split <;> exact ⟨⟨rfl, rfl⟩, rfl⟩
    · exact ⟨hends, hitems⟩

/-- A turn against its call, of which `put` have been put into the pipe before it: `pipewrite` moves the next ones of
the bytes `addr`, all that are left where it returns their number, and leaves some of them where it returns -1 or
sleeps; `piperead` returns the number of the bytes it moves, or moves none. -/
def Turn.Accounted (t : Turn) (addr put : List UInt8) : Call → Prop
  | .write _ _ => ∃ rest, put ++ t.moved ++ rest = addr ∧
      (t.result = .returns addr.length ∧ rest = [] ∨
        (t.result = .returns (-1) ∨ t.result = .sleeps (.write addr.length rest)) ∧ rest ≠ [])
  | .read n => t.result = .returns t.moved.length ∧ t.moved.length ≤ n ∨
      t.moved = [] ∧ (t.result = .returns (-1) ∨ t.result = .sleeps (.read n))

theorem pipewrite_accounted (q : Pipe) (killed : Bool) {addr put left : List UInt8} (h : put ++ left = addr) :
    ((Call.write addr.length left).turn q killed).Accounted addr put (.write addr.length left) := by
  obtain ⟨done, rest, q', heq, hsplit, -, -, -⟩ := put_spec q left
  have hput : put ++ done ++ rest = addr := by rw [List.append_assoc, ← hsplit, h]
  simp only [Call.turn, pipewrite, heq]
  cases rest with
  | nil => exact ⟨[], hput, .inl ⟨rfl, rfl⟩⟩
  | cons b rest =>
    dsimp only
    split
    · exact ⟨b :: rest, hput, .inr ⟨.inl rfl, List.cons_ne_nil b rest⟩⟩
    · exact ⟨b :: rest, hput, .inr ⟨.inr rfl, List.cons_ne_nil b rest⟩⟩

theorem piperead_accounted (q : Pipe) (killed : Bool) (n : Nat) (addr put : List UInt8) :
    ((Call.read n).turn q killed).Accounted addr put (.read n) := by
  obtain ⟨bytes, q', heq, -, -, hlen⟩ := take_spec q n
  simp only [Call.turn, piperead, heq]
  split
  · split
    · exact .inr ⟨rfl, .inl rfl⟩
    · exact .inr ⟨rfl, .inr rfl⟩
  · exact .inl ⟨rfl, hlen ▸ Nat.min_le_left n _⟩

/-! ## Waiting -/

/-- The condition on which a call sleeps. -/
def Call.Waits (q : Pipe) : Call → Prop
  | .write _ _ => q.Full ∧ q.readopen = true
  | .read _ => q.Empty ∧ q.writeopen = true

variable {q q' : Pipe} {killed : Bool} {c c' : Call}

theorem Call.Waits.congr (h : c.Waits q) (hitems : q'.items = q.items) (hends : SameEnds q q') : c.Waits q' := by
  cases c with
  | write n left =>
    obtain ⟨hfull, hopen⟩ := h
    rw [Circular.full_iff] at hfull
    refine ⟨q'.full_iff.2 ?_, hends.1.trans hopen⟩
    rw [hitems, hfull]
  | read n =>
    obtain ⟨hempty, hopen⟩ := h
    rw [Circular.empty_iff] at hempty
    exact ⟨q'.empty_iff.2 (hitems.trans hempty), hends.2.trans hopen⟩

theorem turn_waits (h : (c.turn q killed).result = .sleeps c') :
    c'.writes = c.writes ∧ c'.Waits (c.turn q killed).pipe ∧ killed = false := by
  cases c with
  | write n left =>
    obtain ⟨done, rest, q', heq, -, -, -, hfull⟩ := put_spec q left
    simp only [Call.turn, pipewrite, heq] at h ⊢
    cases rest with
    | nil => cases h
    | cons b rest =>
      dsimp only at h ⊢
      split at h
      · cases h
      · rename_i hgo
        rw [if_neg hgo]
        cases h
        simp only [Bool.or_eq_true, Bool.not_eq_eq_eq_not, Bool.not_true, not_or, Bool.not_eq_false,
          Bool.not_eq_true] at hgo
        exact ⟨rfl, ⟨hfull nofun, hgo.1⟩, hgo.2⟩
  | read n =>
    simp only [Call.turn, piperead] at h ⊢
    split at h
    · rename_i hwait
      rw [if_pos hwait]
      split at h
      · cases h
      · rename_i hkilled
        rw [if_neg hkilled]
        cases h
        exact ⟨rfl, hwait, by simpa using hkilled⟩
    · cases h

/-- While a call waits, another one at the same end finds no more than it did. -/
theorem turn_of_waits (h : c.Waits q) (hc : c'.writes = c.writes) : (c'.turn q killed).pipe = q := by
  cases c with
  | write n left =>
    cases c' with
    | read n' => cases hc
    | write n' left' =>
      simp only [Call.turn, pipewrite, put_of_full h.1]
      cases left' with
      | nil => rfl
      | cons b left' =>
        dsimp only
        split <;> rfl
  | read n =>
    cases c' with
    | write n' left' => cases hc
    | read n' =>
      simp only [Call.turn, piperead, if_pos (show q.Empty ∧ q.writeopen = true from h)]
      split <;> rfl

/-- A call of `piperead` that takes bytes wakes up those who wait to write. -/
theorem moved_of_not_wakes (h : (c.turn q killed).wakes = false) (hc : c.writes = false) :
    (c.turn q killed).moved = [] := by
  cases c with
  | write n left => cases hc
  | read n =>
    simp only [Call.turn, piperead] at h ⊢
    split at h
    · rename_i hwait
      rw [if_pos hwait]
      split <;> rfl
    · cases h

theorem turn_items_of_moved (h : (c.turn q killed).moved = []) : (c.turn q killed).pipe.items = q.items := by
  have hitems := (turn_items q killed c).2
  rw [h, List.append_nil, List.nil_append] at hitems
  split at hitems
  · exact hitems
  · exact hitems.symm

/-- A call goes on waiting through the turns at its own end, and through those at the other end that move
nothing. -/
theorem Call.Waits.turn (h : c.Waits q) (hc' : c'.writes = c.writes ∨ (c'.turn q killed).moved = []) :
    c.Waits (c'.turn q killed).pipe := by
  obtain hside | hmoved := hc'
  · rw [turn_of_waits h hside]
    exact h
  · exact h.congr (turn_items_of_moved hmoved) (turn_items q killed c').1

end CS1550.Pipes
