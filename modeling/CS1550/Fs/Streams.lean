/-
Two requests at the same time. FUSE dispatches requests on several threads and the handlers take no lock,
so their accesses to the image and to `next_free_block_index` interleave. Each request has a stream of its
own on `.disk`, with a buffer that may hold bytes read ahead some time ago and bytes that are written and
not in the image yet; `fclose` writes these at the latest.

Of two requests neither of which reads a byte that the other one writes, each goes on as it would alone
(`Follows`), whatever the streams have in their buffers.
-/
import CS1550.Lib.Footprint
import CS1550.Fs.Runs

namespace CS1550.Fs

open Bytes

/-! ## What an access touches -/

/-- A byte of the image, or the static `next_free_block_index`. -/
inductive Cell
  | byte (i : Nat)
  | cursor

/-- The contents of a cell. -/
def Volume.get (v : Volume) : Cell → Int
  | .byte i => (v.disk.byte i).toNat
  | .cursor => v.cursor

/-- The cells that an access reads, made from a position on an image of that size. -/
def Reads (size : Nat) : Machine.Access Op Nat → Cell → Prop
  | (.openBlock index, pos), .byte i => seekSet index pos ≤ i ∧ i < seekSet index pos + blockSize
  | (.readByte position, pos), .byte i => i = if 0 ≤ size + position then (size + position).toNat else pos
  | (.loadCursor, _), .cursor => True
  | _, _ => False

/-- The cells that it changes. -/
def Writes : Machine.Access Op Nat → Cell → Prop
  | (.writeBlock index _, pos), .byte i => seekSet index pos ≤ i ∧ i < seekSet index pos + blockSize
  | (.writeByte _, pos), .byte i => i = pos - 1
  | (.storeCursor _, _), .cursor => True
  | _, _ => False

/-- What it reads is in `R`, and what it changes is in `W`. -/
def Within (size : Nat) (R W : Set Cell) (x : Machine.Access Op Nat) : Prop :=
  (∀ c, Reads size x c → c ∈ R) ∧ ∀ c, Writes x c → c ∈ W

/-- The bytes of the image. -/
def Inside (size : Nat) (W : Set Cell) : Prop := ∀ i, .byte i ∈ W → i < size

variable {size : Nat} {R W : Set Cell} {x : Machine.Access Op Nat} {v v' : Volume}

theorem Volume.get_injective (hsize : v.disk.size = v'.disk.size) (h : v.get = v'.get) : v = v' := by
  refine Volume.ext (Disk.ext hsize (funext fun i => ?_)) (congrFun h .cursor)
  have hbyte : ((v.disk.byte i).toNat : Int) = (v'.disk.byte i).toNat := congrFun h (.byte i)
  exact UInt8.toNat_inj.1 (by omega)

theorem get_byte {i : Nat} : v.get (.byte i) = v'.get (.byte i) ↔ v.disk.byte i = v'.disk.byte i := by
  rw [← UInt8.toNat_inj]
  exact Int.natCast_inj

/-- An access returns the same in states that agree on what it reads. -/
theorem exec_congr (hv : v.disk.size = size) (hv' : v'.disk.size = size)
    (h : ∀ c, Reads size x c → v.get c = v'.get c) :
    (exec x.1 x.2 v).1 = (exec x.1 x.2 v').1 ∧ (exec x.1 x.2 v).2.1 = (exec x.1 x.2 v').2.1 := by
  obtain ⟨op, pos⟩ := x
  cases op with
  | openBlock index =>
    simp only [exec, hv, hv', and_true]
    funext i
    unfold blockOnly
    split
    · next hi => exact get_byte.1 (h (.byte (seekSet index pos + i)) ⟨Nat.le_add_right .., Nat.add_lt_add_left hi _⟩)
    · rfl
  | writeBlock index block => exact ⟨rfl, rfl⟩
  | readByte position =>
    have hseek : seekEnd v.disk position pos = seekEnd v'.disk position pos := by simp only [seekEnd, hv, hv']
    have hbyte : v.disk.byte (seekEnd v.disk position pos) = v'.disk.byte (seekEnd v.disk position pos) :=
      get_byte.1 (h (.byte _) (by simp only [Reads, seekEnd, hv]))
    simp only [exec, ← hseek, hv, hv', hbyte]
    split <;> exact ⟨rfl, rfl⟩
  | writeByte byte => exact ⟨rfl, rfl⟩
  | loadCursor => exact ⟨h .cursor trivial, rfl⟩
  | storeCursor i => exact ⟨rfl, rfl⟩

theorem exec_size (hv : v.disk.size = size) (hin : ∀ i, Writes x (.byte i) → i < size) :
    (exec x.1 x.2 v).2.2.disk.size = size := by
  obtain ⟨op, pos⟩ := x
  cases op with
  | writeBlock index block =>
    have hlast := hin (seekSet index pos + 511) ⟨by omega, by simp only [blockSize]; omega⟩
    simp only [exec, Disk.write, hv, blockSize]
    omega
  | writeByte byte =>
    have hlast := hin (pos - 1) rfl
    simp only [exec, Disk.write, hv]
    omega
  | readByte position =>
    simp only [exec]
    split <;> exact hv
  | openBlock | loadCursor | storeCursor => exact hv

/-- What an access leaves in the cells that it changes does not depend on the state. -/
theorem exec_writes {c : Cell} (hc : Writes x c) : (exec x.1 x.2 v).2.2.get c = (exec x.1 x.2 v').2.2.get c := by
  obtain ⟨op, pos⟩ := x
  cases c with
  | byte i =>
    refine get_byte.2 ?_
    cases op with
    | writeBlock index block => exact (splice_inside hc.1 hc.2).trans (splice_inside hc.1 hc.2).symm
    | writeByte byte =>
      obtain rfl : i = pos - 1 := hc
      have hlast : pos - 1 < pos - 1 + 1 := Nat.lt_succ_self _
      simp only [exec, Disk.write]
      rw [splice_inside (le_refl _) hlast, splice_inside (le_refl _) hlast]
    | openBlock | readByte | loadCursor | storeCursor => exact hc.elim
  | cursor =>
    cases op with
    | storeCursor i => rfl
    | openBlock | writeBlock | readByte | writeByte | loadCursor => exact hc.elim

theorem exec_frame {c : Cell} (hc : ¬ Writes x c) : (exec x.1 x.2 v).2.2.get c = v.get c := by
  obtain ⟨op, pos⟩ := x
  cases op with
  | openBlock | loadCursor => rfl
  | writeBlock index block =>
    cases c with
    | byte i => exact get_byte.2 (if_neg hc)
    | cursor => rfl
  | readByte position =>
    simp only [exec]
    split <;> rfl
  | writeByte byte =>
    cases c with
    | byte i =>
      replace hc : ¬ i = pos - 1 := hc
      exact get_byte.2 (if_neg (by omega))
    | cursor => rfl
  | storeCursor j =>
    cases c with
    | byte i => rfl
    | cursor => exact absurd trivial hc

/-- The accesses within cells of the image touch these. -/
theorem Within.touches (h : Within size R W x) (hW : Inside size W) :
    Machine.Touches Volume.get (fun v => v.disk.size = size) R W machine x where
  keeps v hv := exec_size hv fun i hi => hW i (h.2 _ hi)
  result v v' hv hv' heq := exec_congr hv hv' fun c hc => heq (h.1 c hc)
  effect v v' hv hv' heq c hc := by
    by_cases hw : Writes x c
    · exact exec_writes hw
    · exact (exec_frame hw).trans ((heq hc).trans (exec_frame hw).symm)
  frame v hv c hc := exec_frame fun hw => hc (h.2 c hw)

/-! ## Streams -/

/-- Bytes in the buffer of a stream. -/
structure Patch where
  pos : Nat
  count : Nat
  bytes : Mem
  /-- They are written and not in the image yet. -/
  late : Bool

/-- An image behind the bytes of a buffer, the oldest first. -/
def Disk.patch (d : Disk) (ps : List Patch) : Disk := ps.foldl (fun d p => d.write p.pos p.count p.bytes) d

/-- The stream of a request. -/
structure Stream where
  pos : Nat
  buffer : List Patch

/-- As `open_disk` leaves it. -/
def Stream.opened : Stream := ⟨0, []⟩

/-- The bytes that are still to be written. -/
def Stream.late (st : Stream) : List Patch := st.buffer.filter Patch.late

/-- What a request sees through its stream. -/
def Stream.sees (st : Stream) (v : Volume) : Volume := { v with disk := v.disk.patch st.buffer }

/-- The image once the stream is flushed. -/
def Stream.saves (st : Stream) (v : Volume) : Volume := { v with disk := v.disk.patch st.late }

/-- What an access gives its stream to write. -/
def given : Op → Nat → List Patch
  | .writeBlock index block, pos => [⟨seekSet index pos, blockSize, block, true⟩]
  | .writeByte byte, pos => [⟨pos - 1, 1, fun _ => byte, true⟩]
  | _, _ => []

/-- An access through a stream. What it writes stays in the buffer; the cursor is not part of the image. -/
def Stream.exec (st : Stream) (op : Op) (v : Volume) : Res op × Stream × Volume :=
  let r := Fs.exec op st.pos (st.sees v)
  (r.1, ⟨r.2.1, st.buffer ++ given op st.pos⟩, { v with cursor := r.2.2.cursor })

/-- Bytes are read ahead, as far as the file goes. -/
def Stream.fill (st : Stream) (pos count : Nat) (v : Volume) : Stream :=
  let d := (st.sees v).disk
  let pos := min pos d.size
  { st with buffer := st.buffer ++ [⟨pos, min count (d.size - pos), shift d.byte pos, false⟩] }

/-- What was late is now in the image. -/
def Stream.flushed (st : Stream) : Stream := { st with buffer := st.buffer.map fun p => { p with late := false } }

/-- What was read ahead is given up. -/
def Stream.forget (st : Stream) : Stream := { st with buffer := st.late }

/-! ### Bytes of a buffer -/

section Patches

variable {d d' : Disk} {ps : List Patch} {i : Nat}

/-- The byte that a buffer has for an address: the last one. -/
def byteAt : List Patch → Nat → Option UInt8
  | [], _ => none
  | p :: ps, i => (byteAt ps i).or (if p.pos ≤ i ∧ i < p.pos + p.count then some (p.bytes (i - p.pos)) else none)

theorem patch_byte (d : Disk) (ps : List Patch) (i : Nat) : (d.patch ps).byte i = (byteAt ps i).getD (d.byte i) := by
  induction ps generalizing d with
  | nil => rfl
  | cons p ps ih =>
    change ((d.write p.pos p.count p.bytes).patch ps).byte i = _
    rw [ih, byteAt]
    cases byteAt ps i with
    | some b => rfl
    | none =>
      simp only [Option.none_or, Option.getD_none, Disk.write, splice]
      split <;> rfl

theorem patch_append (d : Disk) (ps qs : List Patch) : d.patch (ps ++ qs) = (d.patch ps).patch qs := List.foldl_append

theorem patch_size (hd : d.size = size) (hin : ∀ p ∈ ps, p.pos + p.count ≤ size) : (d.patch ps).size = size := by
  induction ps generalizing d with
  | nil => exact hd
  | cons p ps ih =>
    refine ih (d := d.write p.pos p.count p.bytes) ?_ fun q hq => hin q (List.mem_cons_of_mem _ hq)
    have hp := hin p (List.mem_cons_self ..)
    simp only [Disk.write, hd]
    omega

theorem patch_congr (h : d.byte i = d'.byte i) : (d.patch ps).byte i = (d'.patch ps).byte i := by
  rw [patch_byte, patch_byte, h]

theorem byteAt_eq_none (h : ∀ p ∈ ps, ¬ (p.pos ≤ i ∧ i < p.pos + p.count)) : byteAt ps i = none := by
  induction ps with
  | nil => rfl
  | cons p ps ih =>
    rw [byteAt, ih fun q hq => h q (List.mem_cons_of_mem _ hq), if_neg (h p (List.mem_cons_self ..))]
    rfl

theorem not_mem_of_byteAt (h : byteAt ps i = none) : ∀ p ∈ ps, ¬ (p.pos ≤ i ∧ i < p.pos + p.count) := by
  induction ps with
  | nil => simp
  | cons p ps ih =>
    rw [byteAt, Option.or_eq_none_iff] at h
    rintro q (_ | ⟨_, hq⟩)
    · simpa using h.2
    · exact ih h.1 q hq

theorem byteAt_map_clean (ps : List Patch) (i : Nat) : byteAt (ps.map fun p => { p with late := false }) i = byteAt ps i := by
  induction ps with
  | nil => rfl
  | cons p ps ih => rw [List.map_cons, byteAt, byteAt, ih]

end Patches

/-! ### What a request sees -/

variable {st : Stream}

theorem late_exec (st : Stream) (op : Op) (v : Volume) : (st.exec op v).2.1.late = st.late ++ given op st.pos := by
  have hgiven : (given op st.pos).filter Patch.late = given op st.pos := by cases op <;> rfl
  simp only [Stream.late, Stream.exec, List.filter_append, hgiven]

theorem exec_disk (op : Op) (pos : Nat) (v : Volume) : (exec op pos v).2.2.disk = v.disk.patch (given op pos) := by
  cases op with
  | readByte position =>
    simp only [exec]
    split <;> rfl
  | openBlock | writeBlock | writeByte | loadCursor | storeCursor => rfl

theorem exec_cursor (op : Op) (pos : Nat) (h : v.cursor = v'.cursor) :
    (exec op pos v).2.2.cursor = (exec op pos v').2.2.cursor := by
  cases op with
  | readByte position =>
    simp only [exec]
    split <;> split <;> exact h
  | storeCursor i => rfl
  | openBlock | writeBlock | writeByte | loadCursor => exact h

/-- A request sees what it has written. -/
theorem sees_exec (st : Stream) (op : Op) (v : Volume) :
    (st.exec op v).2.1.sees (st.exec op v).2.2 = (exec op st.pos (st.sees v)).2.2 := by
  refine Volume.ext ?_ rfl
  rw [exec_disk]
  exact patch_append ..

theorem saves_exec (st : Stream) (op : Op) (v : Volume) :
    (st.exec op v).2.1.saves (st.exec op v).2.2 = (exec op st.pos (st.saves v)).2.2 := by
  refine Volume.ext ?_ (exec_cursor op st.pos rfl)
  rw [exec_disk, Stream.saves, late_exec]
  exact patch_append ..

theorem write_self {d : Disk} {pos n : Nat} (h : pos + n ≤ d.size) : d.write pos n (shift d.byte pos) = d := by
  refine Disk.ext (max_eq_left h) (funext fun i => ?_)
  simp only [Disk.write, splice, shift]
  split
  · next hi => rw [Nat.add_sub_cancel' hi.1]
  · rfl

/-- Reading ahead does not change what is seen. -/
theorem sees_fill (st : Stream) (pos count : Nat) (v : Volume) : (st.fill pos count v).sees v = st.sees v := by
  refine Volume.ext ((patch_append ..).trans (write_self ?_)) rfl
  change min pos (st.sees v).disk.size + min count ((st.sees v).disk.size - min pos (st.sees v).disk.size) ≤
    (st.sees v).disk.size
  omega

theorem late_fill (st : Stream) (pos count : Nat) (v : Volume) : (st.fill pos count v).late = st.late := by
  simp [Stream.late, Stream.fill]

theorem late_flushed (st : Stream) : st.flushed.late = [] := by
  simp [Stream.late, Stream.flushed]

theorem late_forget (st : Stream) : st.forget.late = st.late := by
  simp [Stream.late, Stream.forget]

/-- Neither does a flush: a byte that is in the buffer is seen there. -/
theorem sees_flushed (st : Stream) (v : Volume) (c : Cell) : (st.flushed.sees (st.saves v)).get c = (st.sees v).get c := by
  cases c with
  | cursor => rfl
  | byte i =>
    refine get_byte.2 ?_
    change ((v.disk.patch st.late).patch (st.buffer.map _)).byte i = (v.disk.patch st.buffer).byte i
    rw [patch_byte, patch_byte v.disk st.buffer, byteAt_map_clean]
    cases h : byteAt st.buffer i with
    | some b => rfl
    | none =>
      have hlate : byteAt st.late i = none :=
        byteAt_eq_none fun p hp => not_mem_of_byteAt h p (List.mem_of_mem_filter hp)
      rw [Option.getD_none, Option.getD_none, patch_byte, hlate]
      rfl

/-! ## Interleaved requests -/

/-- What happens next in a thread. -/
inductive Turn
  /-- The next access of the request. -/
  | access
  /-- The stream reads ahead. -/
  | fill (pos count : Nat)
  /-- It writes what is late, as `fclose` does at the latest. -/
  | flush
  /-- It gives up what it has read ahead. -/
  | forget

/-- A request being served: what is left of it, and its stream. -/
structure Thread where
  rest : Req Int
  stream : Stream

/-- A request that has just opened its stream. -/
def Request.thread (r : Request) : Thread := ⟨r.handler, .opened⟩

/-- A thread takes a turn, unless it is to make an access and has returned. -/
def Thread.turn (th : Thread) (v : Volume) : Turn → Option (Thread × Volume)
  | .access =>
    match th.rest with
    | .ret _ => none
    | .call op k => some (⟨k (th.stream.exec op v).1, (th.stream.exec op v).2.1⟩, (th.stream.exec op v).2.2)
  | .fill pos count => some (⟨th.rest, th.stream.fill pos count v⟩, v)
  | .flush => some (⟨th.rest, th.stream.flushed⟩, th.stream.saves v)
  | .forget => some (⟨th.rest, th.stream.forget⟩, v)

/-- What a thread returns, once its stream is closed. -/
def Thread.result (th : Thread) : Option Int :=
  match th.rest with
  | .ret a => if th.stream.late.isEmpty then some a else none
  | .call .. => none

/-- Two threads take turns as the schedule says, `true` for the first one. -/
def interleave : List (Bool × Turn) → Thread → Thread → Volume → Option (Thread × Thread × Volume)
  | [], th₁, th₂, v => some (th₁, th₂, v)
  | (true, turn) :: turns, th₁, th₂, v => (th₁.turn v turn).bind fun r => interleave turns r.1 th₂ r.2
  | (false, turn) :: turns, th₁, th₂, v => (th₂.turn v turn).bind fun r => interleave turns th₁ r.1 r.2

/-- Two requests served at the same time, to the end: what they return and the state they leave. -/
def serveBoth (turns : List (Bool × Turn)) (r₁ r₂ : Request) (v : Volume) : Option (Int × Int × Volume) := do
  let (th₁, th₂, v') ← interleave turns r₁.thread r₂.thread v
  let a₁ ← th₁.result
  let a₂ ← th₂.result
  pure (a₁, a₂, v')

/-! ### A thread that nobody disturbs -/

/-- A thread whose accesses are within `R` and `W` has come as far as the request served alone has come in
the state `u`, where it will return and leave `out`. -/
structure Follows (size : Nat) (R W : Set Cell) (out : Int × Volume) (v u : Volume) (th : Thread) : Prop where
  within : ∀ x ∈ machine.accesses th.rest th.stream.pos u, Within size R W x
  alone : ((machine.run th.rest th.stream.pos u).1, (machine.run th.rest th.stream.pos u).2.2) = out
  whole : u.disk.size = size
  inside : ∀ p ∈ th.stream.buffer, p.pos + p.count ≤ size
  own : ∀ p ∈ th.stream.late, ∀ i, p.pos ≤ i → i < p.pos + p.count → .byte i ∈ W
  -- on the cells that it reads it sees what it would see alone, also with nothing read ahead
  sees : R.EqOn (th.stream.sees v).get u.get
  saves : R.EqOn (th.stream.saves v).get u.get

variable {out : Int × Volume} {u : Volume} {th th' : Thread}

theorem patch_get {ps : List Patch} {c : Cell} (h : v.get c = v'.get c) :
    Volume.get { v with disk := v.disk.patch ps } c = Volume.get { v' with disk := v'.disk.patch ps } c := by
  cases c with
  | byte i => exact get_byte.2 (patch_congr (get_byte.1 h))
  | cursor => exact h

/-- What another thread changes elsewhere does not matter. -/
theorem Follows.frame (h : Follows size R W out v u th) (heq : R.EqOn v'.get v.get) : Follows size R W out v' u th :=
  { h with
    sees := fun _ hc => (patch_get (heq hc)).trans (h.sees hc)
    saves := fun _ hc => (patch_get (heq hc)).trans (h.saves hc) }

theorem given_writes {op : Op} {pos i : Nat} {p : Patch} (hp : p ∈ given op pos) (hi : p.pos ≤ i)
    (hi' : i < p.pos + p.count) : Writes (op, pos) (.byte i) := by
  cases op with
  | writeBlock index block =>
    obtain rfl := List.mem_singleton.1 hp
    exact ⟨hi, hi'⟩
  | writeByte byte =>
    obtain rfl := List.mem_singleton.1 hp
    change i = pos - 1
    dsimp only at hi hi'
    omega
  | openBlock | readByte | loadCursor | storeCursor => cases hp

theorem given_inside {op : Op} {pos : Nat} {p : Patch} (hp : p ∈ given op pos)
    (hin : ∀ i, Writes (op, pos) (.byte i) → i < size) : p.pos + p.count ≤ size := by
  have hcount : 0 < p.count := by
    cases op with
    | writeBlock | writeByte =>
      obtain rfl := List.mem_singleton.1 hp
      simp [blockSize]
    | openBlock | readByte | loadCursor | storeCursor => cases hp
  have hlast := hin (p.pos + p.count - 1) (given_writes hp (by omega) (by omega))
  omega

theorem Follows.sees_size (h : Follows size R W out v u th) (hv : v.disk.size = size) :
    (th.stream.sees v).disk.size = size := patch_size hv h.inside

theorem Follows.saves_size (h : Follows size R W out v u th) (hv : v.disk.size = size) :
    (th.stream.saves v).disk.size = size := patch_size hv fun p hp => h.inside p (List.mem_of_mem_filter hp)

/-- The next access of a thread is that of the request alone. -/
theorem Follows.access {op : Op} {k : Res op → Req Int} {st : Stream} (h : Follows size R W out v u ⟨.call op k, st⟩)
    (hW : Inside size W) (hv : v.disk.size = size) :
    Follows size R W out (st.exec op v).2.2 (exec op st.pos u).2.2 ⟨k (st.exec op v).1, (st.exec op v).2.1⟩ ∧
      Wᶜ.EqOn (st.exec op v).2.2.get v.get := by
  have hx := h.within (op, st.pos) (List.mem_cons_self ..)
  have ht := hx.touches hW
  obtain ⟨hres, hpos⟩ := ht.result _ u (h.sees_size hv) h.whole h.sees
  replace hres : (st.exec op v).1 = (exec op st.pos u).1 := hres
  replace hpos : (st.exec op v).2.1.pos = (exec op st.pos u).2.1 := hpos
  refine ⟨⟨?_, ?_, ht.keeps u h.whole, fun p hp => ?_, fun p hp i hi hi' => ?_, ?_, ?_⟩, fun c hc => ?_⟩
  · rw [hres, hpos]
    exact fun x hx => h.within x (List.mem_cons_of_mem _ hx)
  · rw [hres, hpos]
    exact h.alone
  · rcases List.mem_append.1 hp with hold | hnew
    · exact h.inside p hold
    · exact given_inside hnew fun i hi => hW i (hx.2 _ hi)
  · rw [late_exec, List.mem_append] at hp
    exact hp.elim (fun hold => h.own p hold i hi hi') fun hnew => hx.2 _ (given_writes hnew hi hi')
  · rw [sees_exec]
    exact ht.effect _ u (h.sees_size hv) h.whole h.sees
  · rw [saves_exec]
    exact ht.effect _ u (h.saves_size hv) h.whole h.saves
  · cases c with
    | byte i => rfl
    | cursor => exact ht.frame (st.sees v) (h.sees_size hv) hc

/-- A flush writes within `W`. -/
theorem Follows.flush (h : Follows size R W out v u th) :
    Follows size R W out (th.stream.saves v) u ⟨th.rest, th.stream.flushed⟩ ∧ Wᶜ.EqOn (th.stream.saves v).get v.get := by
  refine ⟨⟨h.within, h.alone, h.whole, fun p hp => ?_, fun p hp => ?_, fun c hc => ?_, ?_⟩, fun c hc => ?_⟩
  · obtain ⟨q, hq, rfl⟩ := List.mem_map.1 hp
    exact h.inside q hq
  · rw [late_flushed] at hp
    cases hp
  · exact (sees_flushed th.stream v c).trans (h.sees hc)
  · rw [Stream.saves, late_flushed]
    exact h.saves
  · cases c with
    | cursor => rfl
    | byte i =>
      refine get_byte.2 ((patch_byte ..).trans ?_)
      rw [byteAt_eq_none fun p hp hi => hc (h.own p hp i hi.1 hi.2)]
      rfl

/-- A thread takes a turn: it goes on as alone, and changes nothing outside `W`. -/
theorem Follows.turn (h : Follows size R W out v u th) (hW : Inside size W) (hv : v.disk.size = size) {turn : Turn}
    (hturn : th.turn v turn = some (th', v')) :
    ∃ u', Follows size R W out v' u' th' ∧ v'.disk.size = size ∧ Wᶜ.EqOn v'.get v.get := by
  obtain ⟨rest, st⟩ := th
  cases turn with
  | access =>
    cases rest with
    | ret a => cases hturn
    | call op k =>
      cases hturn
      obtain ⟨hnext, hframe⟩ := h.access hW hv
      exact ⟨_, hnext, hv, hframe⟩
  | fill pos count =>
    cases hturn
    refine ⟨u, ⟨h.within, h.alone, h.whole, fun p hp => ?_, ?_, ?_, ?_⟩, hv, fun _ _ => rfl⟩
    · rcases List.mem_append.1 hp with hold | hnew
      · exact h.inside p hold
      · obtain rfl := List.mem_singleton.1 hnew
        have hsize : (st.sees v).disk.size = size := h.sees_size hv
        rw [← hsize]
        dsimp only
        omega
    · rw [late_fill]
      exact h.own
    · rw [sees_fill]
      exact h.sees
    · rw [Stream.saves, late_fill]
      exact h.saves
  | flush =>
    cases hturn
    obtain ⟨hnext, hframe⟩ := h.flush
    exact ⟨u, hnext, h.saves_size hv, hframe⟩
  | forget =>
    cases hturn
    refine ⟨u, ⟨h.within, h.alone, h.whole, fun p hp => h.inside p (List.mem_of_mem_filter hp), ?_, h.saves, ?_⟩, hv,
      fun _ _ => rfl⟩
    · rw [late_forget]
      exact h.own
    · rw [Stream.saves, late_forget]
      exact h.saves

theorem Thread.result_eq_some {a : Int} (h : th.result = some a) : th.rest = .ret a ∧ th.stream.late = [] := by
  obtain ⟨rest, st⟩ := th
  cases rest with
  | call op k => cases h
  | ret b =>
    unfold Thread.result at h
    dsimp only at h
    split at h
    · next hlate =>
      cases h
      exact ⟨rfl, List.isEmpty_iff.1 hlate⟩
    · cases h

/-- A thread at its end has left on the image what the request leaves alone. -/
theorem Follows.result (h : Follows size R W out v u th) {a : Int} (ha : th.result = some a) :
    a = out.1 ∧ R.EqOn v.get out.2.get := by
  obtain ⟨hrest, hlate⟩ := Thread.result_eq_some ha
  have hsaves := h.saves
  have halone := h.alone
  rw [Stream.saves, hlate] at hsaves
  rw [hrest] at halone
  subst halone
  exact ⟨rfl, hsaves⟩

theorem Follows.start {r : Request} (h : machine.Confined (Within size R W) r.handler v) (hv : v.disk.size = size) :
    Follows size R W (r.serve v) v v r.thread :=
  ⟨h 0, rfl, hv, fun _ hp => (by cases hp), fun _ hp => (by cases hp), fun _ _ => rfl, fun _ _ => rfl⟩

/-! ### Two threads -/

/-- Neither of two threads reads what the other one changes. -/
structure Apart (size : Nat) (R₁ W₁ R₂ W₂ : Set Cell) : Prop where
  inside₁ : Inside size W₁
  inside₂ : Inside size W₂
  reads₁ : W₁ ⊆ R₁
  reads₂ : W₂ ⊆ R₂
  fst : ∀ c ∈ W₁, c ∉ R₂
  snd : ∀ c ∈ W₂, c ∉ R₁

variable {R₁ W₁ R₂ W₂ : Set Cell} {out₁ out₂ : Int × Volume} {u₁ u₂ v₀ : Volume} {th₁ th₂ th₁' th₂' : Thread}

theorem eqOn_of_disjoint {W R : Set Cell} (hdis : ∀ c ∈ W, c ∉ R) (h : Wᶜ.EqOn v'.get v.get) : R.EqOn v'.get v.get :=
  fun c hc => h fun hW => hdis c hW hc

/-- Whatever the schedule, both go on as alone, and nothing else changes. -/
theorem Apart.interleave (hap : Apart size R₁ W₁ R₂ W₂) (turns : List (Bool × Turn)) (hv : v.disk.size = size)
    (h₁ : Follows size R₁ W₁ out₁ v u₁ th₁) (h₂ : Follows size R₂ W₂ out₂ v u₂ th₂)
    (hrest : (W₁ ∪ W₂)ᶜ.EqOn v.get v₀.get) (hw : Fs.interleave turns th₁ th₂ v = some (th₁', th₂', v')) :
    v'.disk.size = size ∧ (∃ u, Follows size R₁ W₁ out₁ v' u th₁') ∧ (∃ u, Follows size R₂ W₂ out₂ v' u th₂') ∧
      (W₁ ∪ W₂)ᶜ.EqOn v'.get v₀.get := by
  induction turns generalizing th₁ th₂ v u₁ u₂ with
  | nil =>
    cases hw
    exact ⟨hv, ⟨u₁, h₁⟩, ⟨u₂, h₂⟩, hrest⟩
  | cons turn turns ih =>
    obtain ⟨b, turn⟩ := turn
    cases b with
    | true =>
      obtain ⟨⟨th, v₁⟩, hturn, hw⟩ := Option.bind_eq_some_iff.1 hw
      obtain ⟨u, hfollows, hsize, hframe⟩ := h₁.turn hap.inside₁ hv hturn
      refine ih hsize hfollows (h₂.frame (eqOn_of_disjoint hap.fst hframe)) (fun c hc => ?_) hw
      exact (hframe fun hW => hc (.inl hW)).trans (hrest hc)
    | false =>
      obtain ⟨⟨th, v₁⟩, hturn, hw⟩ := Option.bind_eq_some_iff.1 hw
      obtain ⟨u, hfollows, hsize, hframe⟩ := h₂.turn hap.inside₂ hv hturn
      refine ih hsize (h₁.frame (eqOn_of_disjoint hap.snd hframe)) hfollows (fun c hc => ?_) hw
      exact (hframe fun hW => hc (.inr hW)).trans (hrest hc)

/-- One request behind the other, where both have left on the image what they leave alone. -/
theorem serve_serve {r₁ r₂ : Request} (hc₁ : machine.Confined (Within size R₁ W₁) r₁.handler v)
    (hc₂ : machine.Confined (Within size R₂ W₂) r₂.handler v) (hap : Apart size R₁ W₁ R₂ W₂) (hv : v.disk.size = size)
    (hv' : v'.disk.size = size)
    (hm : Machine.Merged Volume.get W₁ W₂ v (r₁.serve v).2 (r₂.serve v).2 v') :
    ((r₁.serve v).1, (r₂.serve v).1, v') = ((r₁.serve v).1, r₂.serve (r₁.serve v).2) := by
  obtain ⟨hret, hsize, hget⟩ := Machine.Merged.run_run (I := fun v => v.disk.size = size)
    (fun x hx => (hc₁ 0 x hx).touches hap.inside₁) (fun x hx => (hc₂ 0 x hx).touches hap.inside₂) hap.reads₂ hap.fst hv hm
  exact Prod.ext rfl (Prod.ext hret.symm (Volume.get_injective (hv'.trans hsize.symm) hget))

theorem Apart.symm (hap : Apart size R₁ W₁ R₂ W₂) : Apart size R₂ W₂ R₁ W₁ :=
  ⟨hap.inside₂, hap.inside₁, hap.reads₂, hap.reads₁, hap.snd, hap.fst⟩

/-- Two requests neither of which reads what the other one changes: however their accesses interleave and
whatever their streams do, they return and leave what they do one after the other. -/
theorem Apart.serial (hap : Apart size R₁ W₁ R₂ W₂) {turns : List (Bool × Turn)} {r₁ r₂ : Request} {a₁ a₂ : Int}
    (hc₁ : machine.Confined (Within size R₁ W₁) r₁.handler v) (hc₂ : machine.Confined (Within size R₂ W₂) r₂.handler v)
    (hv : v.disk.size = size) (hw : serveBoth turns r₁ r₂ v = some (a₁, a₂, v')) :
    (a₁, a₂, v') = ((r₁.serve v).1, r₂.serve (r₁.serve v).2) ∧
      (a₂, a₁, v') = ((r₂.serve v).1, r₁.serve (r₂.serve v).2) := by
  obtain ⟨⟨th₁, th₂, v₁⟩, hboth, hw⟩ := Option.bind_eq_some_iff.1 hw
  obtain ⟨b₁, hb₁, hw⟩ := Option.bind_eq_some_iff.1 hw
  obtain ⟨b₂, hb₂, hw⟩ := Option.bind_eq_some_iff.1 hw
  cases hw
  obtain ⟨hsize, ⟨u₁, hf₁⟩, ⟨u₂, hf₂⟩, hrest⟩ :=
    hap.interleave turns hv (.start hc₁ hv) (.start hc₂ hv) (fun _ _ => rfl) hboth
  obtain ⟨rfl, heq₁⟩ := hf₁.result hb₁
  obtain ⟨rfl, heq₂⟩ := hf₂.result hb₂
  have hm : Machine.Merged Volume.get W₁ W₂ v (r₁.serve v).2 (r₂.serve v).2 v' :=
    ⟨heq₁.mono hap.reads₁, heq₂.mono hap.reads₂, hrest⟩
  exact ⟨serve_serve hc₁ hc₂ hap hv hsize hm, serve_serve hc₂ hc₁ hap.symm hv hsize hm.symm⟩

end CS1550.Fs
