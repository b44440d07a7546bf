/-
The virtual memory simulator `vmsim`: page table entries, the three replacement algorithms and the
page table that drives them over a trace. Python's exceptions are explicit (`PyError`), so that a
lookup of a missing key, an attribute of an empty frame or an index out of range is an outcome of
the model and not assumed away. A dictionary is the function that looks a key up.
-/
import Mathlib.Logic.Function.Iterate
import Mathlib.Order.Defs.LinearOrder

namespace CS1550.Vmsim

/-! ## Python -/

/-- The exceptions that the simulator's expressions can raise. -/
inductive PyError
  | keyError | indexError | attributeError | zeroDivisionError
  deriving DecidableEq, Repr

/-- The numbers that are compared: integers and `float('inf')`. -/
inductive Number
  | int (n : Int)
  | inf
  deriving DecidableEq

namespace Number

/-- The order of the numbers, with infinity at the end. -/
protected def le : Number → Number → Prop
  | _, .inf => True
  | .inf, .int _ => False
  | .int m, .int n => m ≤ n

/-- The strict order. -/
protected def lt : Number → Number → Prop
  | .inf, _ => False
  | .int _, .inf => True
  | .int m, .int n => m < n

instance : LE Number := ⟨Number.le⟩

instance : LT Number := ⟨Number.lt⟩

instance : DecidableLE Number
  | _, .inf => isTrue trivial
  | .inf, .int _ => isFalse id
  | .int m, .int n => inferInstanceAs (Decidable (m ≤ n))

instance : DecidableLT Number
  | .inf, _ => isFalse id
  | .int _, .inf => isTrue trivial
  | .int m, .int n => inferInstanceAs (Decidable (m < n))

@[simp] theorem int_le_int {m n : Int} : int m ≤ int n ↔ m ≤ n := Iff.rfl

@[simp] theorem int_lt_int {m n : Int} : int m < int n ↔ m < n := Iff.rfl

@[simp] theorem le_inf (a : Number) : a ≤ inf := by cases a <;> trivial

@[simp] theorem not_inf_le_int {n : Int} : ¬ inf ≤ int n := id

@[simp] theorem not_inf_lt (a : Number) : ¬ inf < a := by cases a <;> exact id

@[simp] theorem int_lt_inf {n : Int} : int n < inf := trivial

instance : LinearOrder Number where
  le_refl a := by cases a <;> simp
  le_trans a b c := by
    cases a <;> cases b <;> cases c <;> simp
    exact Int.le_trans
  le_antisymm a b := by
    cases a <;> cases b <;> simp
    exact Int.le_antisymm
  le_total a b := by
    cases a <;> cases b <;> simp
    exact Int.le_total _ _
  lt_iff_le_not_ge a b := by
    cases a <;> cases b <;> simp
    omega
  toDecidableLE := inferInstance
  toDecidableEq := inferInstance
  toDecidableLT := inferInstance

end Number

/-- The position that the index `i` denotes in a list of length `len`: negative indices count from
the end. -/
def pyIndex (len : Nat) (i : Int) : Except PyError Nat :=
  if 0 ≤ i then
    if i < len then .ok i.toNat else .error .indexError
  else if -(len : Int) ≤ i then .ok (len + i).toNat else .error .indexError

/-- `xs[i]` -/
def getItem {α : Type} (xs : List α) (i : Int) : Except PyError α := do
  let k ← pyIndex xs.length i
  match xs[k]? with
  | some x => return x
  | none => throw .indexError

/-- `xs[i] = x` -/
def setItem {α : Type} (xs : List α) (i : Int) (x : α) : Except PyError (List α) := do
  let k ← pyIndex xs.length i
  return xs.set k x

/-- `d[k] = v` -/
def setKey {β : Type} (d : Int → Option β) (k : Int) (v : β) : Int → Option β :=
  fun k' => if k' = k then some v else d k'

/-- `del d[k]` -/
def delKey {β : Type} (d : Int → Option β) (k : Int) : Except PyError (Int → Option β) :=
  match d k with
  | some _ => .ok fun k' => if k' = k then none else d k'
  | none => .error .keyError

/-- `d[k]` -/
def getKey {β : Type} (d : Int → Option β) (k : Int) : Except PyError β :=
  match d k with
  | some v => .ok v
  | none => .error .keyError

/-! ## Entries, frames and accesses -/

/-- The 8 bit counter starts with its most significant bit set. -/
def agingCounterStartValue : Nat := 0b10000000

/-- An entry of the table. -/
structure PageTableEntry where
  agingCounter : Nat
  pageNo : Int
  dirtyBit : Bool
  referencedBit : Bool
  deriving DecidableEq, Repr

/-- `PageTableEntry(page_no, dirty_bit, referenced_bit)`: the two bits start as `False` whatever is
passed for them. -/
def PageTableEntry.new (pageNo : Int) (_dirtyBit _referencedBit : Bool) : PageTableEntry :=
  { agingCounter := agingCounterStartValue, pageNo := pageNo, dirtyBit := false, referencedBit := false }

/-- The frames of the memory; `none` is a frame that was never filled. -/
abbrev Frames := List (Option PageTableEntry)

/-- `frames[i]` where an attribute of the entry is taken next. -/
def getEntry (frames : Frames) (i : Int) : Except PyError PageTableEntry := do
  match ← getItem frames i with
  | some e => return e
  | none => throw .attributeError

/-- The operations of a trace: `S` stores, everything else loads. -/
inductive Op
  | store | load
  deriving DecidableEq, Repr

/-- A line of the trace. -/
structure MemoryAccess where
  op : Op
  pageNo : Int
  cycles : Int
  deriving DecidableEq, Repr

/-- `PageReplacementAlgorithmInterface`: the three hooks the page table calls, on a state `σ` of the
algorithm's own. The frames are passed by reference, so a hook may also change their entries. -/
structure ReplacementAlgorithm (σ : Type) where
  findFrame : σ → Frames → MemoryAccess → Except PyError (σ × Frames × Int)
  attemptRefresh : σ → Frames → MemoryAccess → Except PyError (σ × Frames)
  onMemoryAccess : σ → Frames → Int → MemoryAccess → Except PyError σ

/-! ## Aging -/

/-- `AgingReplacementAlgorithm`'s fields. -/
structure Aging where
  cyclesSinceRefresh : Int
  refreshRate : Int
  firstTrace : Bool

/-- `AgingReplacementAlgorithm.__init__` -/
def Aging.init (refreshRate : Int) : Aging :=
  { cyclesSinceRefresh := 0, refreshRate := refreshRate, firstTrace := true }

/-- One entry at a refresh: the counter is shifted and takes the referenced bit from the left. -/
def PageTableEntry.refresh (page : PageTableEntry) : PageTableEntry :=
  { page with
    agingCounter := if page.referencedBit then (page.agingCounter >>> 1) ||| agingCounterStartValue
      else page.agingCounter >>> 1
    referencedBit := false }

/-- `AgingReplacementAlgorithm.refresh` -/
def Aging.refresh (frames : Frames) : Frames := frames.map (Option.map PageTableEntry.refresh)

/-- `AgingReplacementAlgorithm.attempt_refresh` -/
def Aging.attemptRefresh (a : Aging) (frames : Frames) (m : MemoryAccess) :
    Except PyError (Aging × Frames) :=
  let cycles := a.cyclesSinceRefresh + m.cycles + if a.firstTrace then 0 else 1
  let a := { a with cyclesSinceRefresh := cycles, firstTrace := false }
  if a.refreshRate ≤ cycles then
    if a.refreshRate = 0 then .error .zeroDivisionError
    else
      let refreshTimes := cycles.fdiv a.refreshRate
      .ok ({ a with cyclesSinceRefresh := cycles.fmod a.refreshRate }, Aging.refresh^[refreshTimes.toNat] frames)
  else .ok (a, frames)

/-- The first test in the loop of `AgingReplacementAlgorithm.find_frame`: on a tie the running
minimum is given up for a clean page against a dirty one, and for the smaller page number among
pages with equal dirty bits. -/
def Aging.tieBreak (frames : Frames) (page : PageTableEntry) (minCounter : Number) (minIndex : Int) :
    Except PyError Number := do
  if .int page.agingCounter = minCounter then
    let best ← getEntry frames minIndex
    if best.dirtyBit && !page.dirtyBit then return .inf
    else if best.dirtyBit == page.dirtyBit then
      if page.pageNo < best.pageNo then return .inf else return minCounter
    else return minCounter
  else return minCounter

/-- The loop of `AgingReplacementAlgorithm.find_frame` from position `index` on. -/
def Aging.scan (frames : Frames) : Frames → Nat → Number → Int → Except PyError Int
  | [], _, _, minIndex => return minIndex
  | none :: _, _, _, _ => throw .attributeError
  | some page :: rest, index, minCounter, minIndex => do
    let minCounter ← Aging.tieBreak frames page minCounter minIndex
    if .int page.agingCounter < minCounter then
      Aging.scan frames rest (index + 1) (.int page.agingCounter) index
    else
      Aging.scan frames rest (index + 1) minCounter minIndex

/-- `AgingReplacementAlgorithm.find_frame` -/
def Aging.findFrame (a : Aging) (frames : Frames) (_ : MemoryAccess) : Except PyError (Aging × Frames × Int) := do
  let minIndex ← Aging.scan frames frames 0 .inf (-1)
  let page ← getEntry frames minIndex
  let frames ← setItem frames minIndex (some { page with agingCounter := agingCounterStartValue })
  return (a, frames, minIndex)

/-- `AgingReplacementAlgorithm` -/
def aging : ReplacementAlgorithm Aging where
  findFrame := Aging.findFrame
  attemptRefresh := Aging.attemptRefresh
  onMemoryAccess a _ _ _ := .ok a

/-! ## Optimal -/

/-- `trace_map`: the access times of a page still to come, the next one last. -/
abbrev TraceMap := Int → Option (List Number)

/-- One turn of the loop of `OptimalReplacementAlgorithm.__init__`. -/
def Optimal.addTrace (traceMap : TraceMap) (trace : MemoryAccess × Nat) : TraceMap :=
  setKey traceMap trace.1.pageNo ((traceMap trace.1.pageNo).getD [] ++ [.int trace.2])

/-- `OptimalReplacementAlgorithm.__init__` -/
def Optimal.init (traces : List MemoryAccess) : TraceMap :=
  traces.zipIdx.reverse.foldl Optimal.addTrace fun _ => none

/-- The first test in the loop of `OptimalReplacementAlgorithm.find_frame`: on a tie the running
maximum is given up for a clean page against a dirty one. -/
def Optimal.tieBreak (frames : Frames) (page : PageTableEntry)
    (currentMemAccessTime maxMemAccessTime : Number) (maximumIndex : Int) : Except PyError Number := do
  if currentMemAccessTime = maxMemAccessTime then
    let best ← getEntry frames maximumIndex
    if best.dirtyBit && !page.dirtyBit then return .int (-1) else return maxMemAccessTime
  else return maxMemAccessTime

/-- The loop of `OptimalReplacementAlgorithm.find_frame` from position `index` on. -/
def Optimal.scan (frames : Frames) :
    Frames → Nat → TraceMap → Number → Int → Except PyError (TraceMap × Int)
  | [], _, traceMap, _, maximumIndex => return (traceMap, maximumIndex)
  | none :: _, _, _, _, _ => throw .attributeError
  | some page :: rest, index, traceMap, maxMemAccessTime, maximumIndex => do
    let accesses ← getKey traceMap page.pageNo
    -- a page that is not going to be accessed gets the time infinity
    let accesses := if accesses.length = 0 then [.inf] else accesses
    let traceMap := setKey traceMap page.pageNo accesses
    let currentMemAccessTime ← getItem accesses (-1)
    let maxMemAccessTime ← Optimal.tieBreak frames page currentMemAccessTime maxMemAccessTime maximumIndex
    if maxMemAccessTime < currentMemAccessTime then
      Optimal.scan frames rest (index + 1) traceMap currentMemAccessTime index
    else
      Optimal.scan frames rest (index + 1) traceMap maxMemAccessTime maximumIndex

/-- `OptimalReplacementAlgorithm.find_frame` -/
def Optimal.findFrame (traceMap : TraceMap) (frames : Frames) (_ : MemoryAccess) :
    Except PyError (TraceMap × Frames × Int) := do
  let (traceMap, maximumIndex) ← Optimal.scan frames frames 0 traceMap (.int (-1)) (-1)
  return (traceMap, frames, maximumIndex)

/-- `OptimalReplacementAlgorithm.on_memory_access` -/
def Optimal.onMemoryAccess (traceMap : TraceMap) (frames : Frames) (frameNo : Int) (_ : MemoryAccess) :
    Except PyError TraceMap := do
  let page ← getEntry frames frameNo
  let accesses ← getKey traceMap page.pageNo
  if accesses.length > 0 then
    return setKey traceMap page.pageNo accesses.dropLast
  else
    return traceMap

/-- `OptimalReplacementAlgorithm` -/
def optimal : ReplacementAlgorithm TraceMap where
  findFrame := Optimal.findFrame
  attemptRefresh traceMap frames _ := .ok (traceMap, frames)
  onMemoryAccess := Optimal.onMemoryAccess

/-! ## Fifo -/

/-- `FifoReplacementAlgorithm`; its state is the queue of frame numbers. -/
def fifo : ReplacementAlgorithm (List Int) where
  findFrame queue frames _ :=
    match queue with
    | frame :: queue => .ok (queue, frames, frame)
    | [] => .error .indexError
  attemptRefresh queue frames _ := .ok (queue, frames)
  onMemoryAccess queue _ frameNo _ := .ok (if frameNo ∈ queue then queue else queue ++ [frameNo])

/-! ## The page table -/

/-- `PageTable` with the state of its replacement algorithm. -/
structure PageTable (σ : Type) where
  pageFrameTable : Int → Option Int
  totalMemoryAccesses : Nat
  totalPageFaults : Nat
  totalWritesToDisk : Nat
  newFramesCounter : Nat
  frames : Frames
  replacementAlgorithm : σ

variable {σ : Type}

/-- `PageTable(frames, replacement_algorithm)` -/
def PageTable.init (frames : Nat) (replacementAlgorithm : σ) : PageTable σ where
  pageFrameTable _ := none
  totalMemoryAccesses := 0
  totalPageFaults := 0
  totalWritesToDisk := 0
  newFramesCounter := 0
  frames := List.replicate frames none
  replacementAlgorithm := replacementAlgorithm

/-- The hit branch of `find_frame`: the entry is marked as referenced. -/
def PageTable.hit (pt : PageTable σ) (frameIndex : Int) : Except PyError (PageTable σ × Int) := do
  let page ← getEntry pt.frames frameIndex
  let frames ← setItem pt.frames frameIndex (some { page with referencedBit := true })
  return ({ pt with frames := frames }, frameIndex)

/-- The fault branch of `find_frame` without an eviction: the next new frame is filled. -/
def PageTable.fill (pt : PageTable σ) (pageNo : Int) : PageTable σ × Int :=
  let frameIndex := pt.newFramesCounter
  ({ pt with
      frames := pt.frames.set frameIndex (some (.new pageNo false false))
      newFramesCounter := pt.newFramesCounter + 1
      pageFrameTable := setKey pt.pageFrameTable pageNo frameIndex }, frameIndex)

/-- The fault branch of `find_frame` that calls the replacement algorithm. -/
def PageTable.evict (alg : ReplacementAlgorithm σ) (pt : PageTable σ) (m : MemoryAccess) :
    Except PyError (PageTable σ × Int) := do
  let (a, frames, frameNo) ← alg.findFrame pt.replacementAlgorithm pt.frames m
  let victim ← getEntry frames frameNo
  let table ← delKey pt.pageFrameTable victim.pageNo
  let writes := if victim.dirtyBit then pt.totalWritesToDisk + 1 else pt.totalWritesToDisk
  let frames ← setItem frames frameNo (some (.new m.pageNo false false))
  return ({ pt with
      frames := frames
      pageFrameTable := setKey table m.pageNo frameNo
      totalWritesToDisk := writes
      replacementAlgorithm := a }, frameNo)

/-- `PageTable.find_frame` -/
def PageTable.findFrame (alg : ReplacementAlgorithm σ) (pt : PageTable σ) (m : MemoryAccess) :
    Except PyError (PageTable σ × Int) := do
  let (a, frames) ← alg.attemptRefresh pt.replacementAlgorithm pt.frames m
  let pt := { pt with
    replacementAlgorithm := a
    frames := frames
    totalMemoryAccesses := pt.totalMemoryAccesses + 1 }
  match pt.pageFrameTable m.pageNo with
  | some frameIndex => pt.hit frameIndex
  | none =>
    let pt := { pt with totalPageFaults := pt.totalPageFaults + 1 }
    if pt.newFramesCounter < pt.frames.length then return pt.fill m.pageNo else pt.evict alg m

/-- `self.replacement_algorithm.on_memory_access(self.frames, frame_no, mem_access)` -/
def PageTable.onMemoryAccess (alg : ReplacementAlgorithm σ) (pt : PageTable σ) (frameNo : Int)
    (m : MemoryAccess) : Except PyError (PageTable σ) := do
  let a ← alg.onMemoryAccess pt.replacementAlgorithm pt.frames frameNo m
  return { pt with replacementAlgorithm := a }

/-- `PageTable.store` -/
def PageTable.store (alg : ReplacementAlgorithm σ) (pt : PageTable σ) (m : MemoryAccess) :
    Except PyError (PageTable σ) := do
  let (pt, frameNo) ← pt.findFrame alg m
  let page ← getEntry pt.frames frameNo
  let frames ← setItem pt.frames frameNo (some { page with dirtyBit := true })
  PageTable.onMemoryAccess alg { pt with frames := frames } frameNo m

/-- `PageTable.load` -/
def PageTable.load (alg : ReplacementAlgorithm σ) (pt : PageTable σ) (m : MemoryAccess) :
    Except PyError (PageTable σ) := do
  let (pt, frameNo) ← pt.findFrame alg m
  pt.onMemoryAccess alg frameNo m

/-- One turn of the main loop. -/
def PageTable.access (alg : ReplacementAlgorithm σ) (pt : PageTable σ) (m : MemoryAccess) :
    Except PyError (PageTable σ) :=
  match m.op with
  | .store => pt.store alg m
  | .load => pt.load alg m

/-- The main loop over a trace. -/
def simulate (alg : ReplacementAlgorithm σ) (pt : PageTable σ) (traces : List MemoryAccess) :
    Except PyError (PageTable σ) :=
  traces.foldlM (PageTable.access alg) pt

end CS1550.Vmsim
