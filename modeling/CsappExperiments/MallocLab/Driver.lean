import CsappExperiments.MallocLab.Layout

/-! # Malloc Lab: the driver

    `mdriver.c` replays the requests of a trace file against a malloc
    package. `eval_mm_valid` checks every answer of the package against the
    list of the payloads that are allocated, `eval_mm_util` repeats the
    requests to find the largest number of bytes allocated at one time, and
    `eval_mm_speed` repeats them once more to be timed.

    The package is a parameter: `mm.c` is one, and the driver is meant for
    others. Its own variables are of a type `σ` that the driver does not look
    into. What the driver does when a package leaves the area, or a trace the
    arrays, is undefined behaviour.

    Left out: the command line, the team's names, the messages of `-V`, the
    driver's own storage, the times and the table of results.
-/

open ByteMemory

namespace MallocLab

/-! ## Section 1: How a run ends -/

/-- What ends the process. -/
inductive Halt where
  | undefined
  | assertion
  /-- `app_error`. -/
  | exit (msg : String)
  deriving DecidableEq

/-- Undefined behaviour of a part. -/
def defined {α : Type*} : Option α → Except Halt α
  | some a => .ok a
  | none => .error .undefined

/-- What the driver reports of a package. -/
inductive Complaint where
  | initFailed
  | mallocFailed
  | reallocFailed
  | notAligned (lo : Addr)
  | outsideHeap (lo hi heapLo heapHi : Addr)
  | overlaps (lo hi lo' hi' : Addr)
  | notPreserved
  deriving DecidableEq

/-- `%p`, of a pointer other than NULL. -/
def pointerText (p : Addr) : String := "0x" ++ String.ofList (Nat.toDigits 16 p.toNat)

/-- `(%p:%p)`. -/
def extentText (lo hi : Addr) : String := "(" ++ pointerText lo ++ ":" ++ pointerText hi ++ ")"

def Complaint.message : Complaint → String
  | .initFailed => "mm_init failed."
  | .mallocFailed => "mm_malloc failed."
  | .reallocFailed => "mm_realloc failed."
  | .notAligned lo => "Payload address (" ++ pointerText lo ++ ") not aligned to 8 bytes"
  | .outsideHeap lo hi heapLo heapHi =>
    "Payload " ++ extentText lo hi ++ " lies outside heap " ++ extentText heapLo heapHi
  | .overlaps lo hi lo' hi' =>
    "Payload " ++ extentText lo hi ++ " overlaps another payload " ++ extentText lo' hi' ++ "\n"
  | .notPreserved => "mm_realloc did not preserve the data from old block"

/-- `LINENUM`. -/
def lineNum (i : Nat) : Nat := i + 5

/-- The line that `malloc_error` prints. -/
def errorLine (tracenum opnum : Nat) (c : Complaint) : String :=
  "ERROR [trace " ++ toString tracenum ++ ", line " ++ toString (lineNum opnum) ++ "]: " ++
    c.message ++ "\n"

/-! ## Section 2: The range list -/

/-- `range_t`: the first and the last address of a payload. -/
structure Range where
  lo : Addr
  hi : Addr
  deriving DecidableEq

/-- `mem_heap_lo`. -/
def memHeapLo (heap : Heap) : Addr := heap.memStartBrk

/-- `mem_heap_hi`. -/
def memHeapHi (heap : Heap) : Addr := heap.memBrk - 1

/-- `mem_heapsize`. -/
def memHeapsize (heap : Heap) : Size := heap.memBrk - heap.memStartBrk

/-- `IS_ALIGNED`. -/
def isAligned (p : Addr) : Bool := p % ALIGNMENT == 0

/-- Does one end of the payload lie in the range `r`? -/
def Range.hits (r : Range) (lo hi : Addr) : Bool :=
  decide (lo ≥ r.lo ∧ lo ≤ r.hi ∨ hi ≥ r.lo ∧ hi ≤ r.hi)

/-- `add_range`: the new list, or what is wrong with the payload. -/
def addRange (ranges : List Range) (heap : Heap) (lo : Addr) (size : BitVec 32) :
    Except Halt (Except Complaint (List Range)) :=
  let hi := lo + size - 1
  if size.toInt ≤ 0 then .error .assertion
  else if isAligned lo = false then .ok (.error (.notAligned lo))
  else if lo < memHeapLo heap ∨ lo > memHeapHi heap ∨ hi < memHeapLo heap ∨ hi > memHeapHi heap then
    .ok (.error (.outsideHeap lo hi (memHeapLo heap) (memHeapHi heap)))
  else
    match ranges.find? (·.hits lo hi) with
    | some r => .ok (.error (.overlaps lo hi r.lo r.hi))
    | none => .ok (.ok (⟨lo, hi⟩ :: ranges))

/-- `remove_range`: the first record that starts at `lo` is taken out. -/
def removeRange (ranges : List Range) (lo : Addr) : List Range := ranges.eraseP (·.lo == lo)

/-! ## Section 3: Packages and traces -/

/-- A malloc package, the implementation of `mm.h`. -/
structure Package (σ : Type) where
  mmInit : Heap → σ → Option (BitVec 32 × Heap × σ)
  mmMalloc : Heap → σ → Size → Option (Addr × Heap × σ)
  mmFree : Heap → σ → Addr → Option (Heap × σ)
  mmRealloc : Heap → σ → Addr → Size → Option (Addr × Heap × σ)

/-- The package of `mm.c`, which has no variables. -/
def naive : Package Unit where
  mmInit heap data := some (0, heap, data)
  mmMalloc heap data size := (mmMalloc heap size).map fun (p, heap) => (p, heap, data)
  mmFree heap data ptr := some (mmFree heap ptr, data)
  mmRealloc heap data ptr size := (mmRealloc heap ptr size).map fun (p, heap) => (p, heap, data)

/-- `traceop_t`. -/
inductive TraceOp where
  | alloc (index size : BitVec 32)
  | free (index : BitVec 32)
  | realloc (index size : BitVec 32)
  deriving DecidableEq

/-- `trace_t`, without the two arrays. The number of requests, `num_ops`, is
    the length of `ops`; the unused fields may not have been assigned. -/
structure Trace where
  suggHeapsize : Option (BitVec 32)
  numIds : BitVec 32
  weight : Option (BitVec 32)
  ops : List TraceOp
  deriving DecidableEq

/-- `a[i]`, where elements that have not been assigned are `none`. -/
def loadAt {α : Type*} (a : List (Option α)) (i : BitVec 32) : Option α := (a[i.toNat]?).join

/-- `a[i] = v`. -/
def storeAt {α : Type*} (a : List (Option α)) (i : BitVec 32) (v : α) : Option (List (Option α)) :=
  if i.toNat < a.length then some (a.set i.toNat (some v)) else none

/-- The heap, the variables of the package, and the variables of the driver:
    the range list, the arrays `blocks` and `block_sizes` of the trace, the
    number of errors and what has been printed. -/
structure Driver (σ : Type) where
  heap : Heap
  data : σ
  ranges : List Range
  blocks : List (Option Addr)
  blockSizes : List (Option Size)
  errors : Nat
  printed : List String

variable {σ : Type}

/-- `malloc_error`. -/
def Driver.mallocError (d : Driver σ) (tracenum opnum : Nat) (c : Complaint) : Driver σ :=
  { d with errors := d.errors + 1, printed := d.printed ++ [errorLine tracenum opnum c] }

/-! ## Section 4: eval_mm_valid -/

/-- The byte that a block is filled with. -/
def fillByte (index : BitVec 32) : Byte := (index &&& 0xFF).setWidth 8

/-- `memset(p, index & 0xFF, size)`. -/
def memset (heap : Heap) (p : Addr) (index size : BitVec 32) : Option Heap :=
  if heap.Contains p size.toNat then
    some { heap with mem := write heap.mem p.toNat (List.replicate size.toNat (fillByte index)) }
  else none

/-- `*p`. -/
def loadByte (heap : Heap) (p : Addr) : Option Byte :=
  if heap.Contains p 1 then some (heap.mem p.toNat) else none

/-- Is one of `n` bytes from `newp[j]` on another than the low byte of the
    index? A `char` is signed, and `index & 0xFF` is not negative. -/
def changed (heap : Heap) (newp : Addr) (index : BitVec 32) : Nat → Nat → Option Bool
  | _, 0 => some false
  | j, n + 1 => do
    let b ← loadByte heap (newp + BitVec.ofNat 32 j)
    if b.toInt ≠ (index &&& 0xFF).toInt then return true
    changed heap newp index (j + 1) n

/-- The new block is filled and remembered. -/
def Driver.remember (d : Driver σ) (index : BitVec 32) (p : Addr) (size : BitVec 32) :
    Except Halt (Driver σ) := do
  let heap ← defined (memset d.heap p index size)
  let blocks ← defined (storeAt d.blocks index p)
  let blockSizes ← defined (storeAt d.blockSizes index size)
  return { d with heap := heap, blocks := blocks, blockSizes := blockSizes }

/-- `if (size < oldsize) oldsize = size`, between two `int`s. -/
def keptSize (oldsize size : BitVec 32) : BitVec 32 :=
  if size.toInt < oldsize.toInt then size else oldsize

/-- One request; the result is false where `eval_mm_valid` returns 0. -/
def evalOp (pkg : Package σ) (tracenum i : Nat) (d : Driver σ) :
    TraceOp → Except Halt (Bool × Driver σ)
  | .alloc index size => do
    let (p, heap, data) ← defined (pkg.mmMalloc d.heap d.data size)
    let d := { d with heap := heap, data := data }
    if p = NULL then return (false, d.mallocError tracenum i .mallocFailed)
    match ← addRange d.ranges d.heap p size with
    | .error c => return (false, d.mallocError tracenum i c)
    | .ok ranges => return (true, ← { d with ranges := ranges }.remember index p size)
  | .realloc index size => do
    let oldp ← defined (loadAt d.blocks index)
    let (newp, heap, data) ← defined (pkg.mmRealloc d.heap d.data oldp size)
    let d := { d with heap := heap, data := data }
    if newp = NULL then return (false, d.mallocError tracenum i .reallocFailed)
    let d := { d with ranges := removeRange d.ranges oldp }
    match ← addRange d.ranges d.heap newp size with
    | .error c => return (false, d.mallocError tracenum i c)
    | .ok ranges =>
      let d := { d with ranges := ranges }
      let oldsize ← defined (loadAt d.blockSizes index)
      if ← defined (changed d.heap newp index 0 (keptSize oldsize size).toInt.toNat) then
        return (false, d.mallocError tracenum i .notPreserved)
      return (true, ← d.remember index newp size)
  | .free index => do
    let p ← defined (loadAt d.blocks index)
    let d := { d with ranges := removeRange d.ranges p }
    let (heap, data) ← defined (pkg.mmFree d.heap d.data p)
    return (true, { d with heap := heap, data := data })

/-- The loop over the requests, from request `i` on. -/
def evalOps (pkg : Package σ) (tracenum : Nat) :
    Nat → Driver σ → List TraceOp → Except Halt (Bool × Driver σ)
  | _, d, [] => .ok (true, d)
  | i, d, op :: ops => do
    let (valid, d) ← evalOp pkg tracenum i d op
    if valid then evalOps pkg tracenum (i + 1) d ops else return (false, d)

/-- `eval_mm_valid`. -/
def evalMmValid (pkg : Package σ) (tracenum : Nat) (trace : Trace) (d : Driver σ) :
    Except Halt (Bool × Driver σ) := do
  let d := { d with heap := memResetBrk d.heap, ranges := [] }
  let (r, heap, data) ← defined (pkg.mmInit d.heap d.data)
  let d := { d with heap := heap, data := data }
  if r.toInt < 0 then return (false, d.mallocError tracenum 0 .initFailed)
  evalOps pkg tracenum 0 d trace.ops

/-! ## Section 5: eval_mm_util and eval_mm_speed -/

/-- `total_size` and `max_total_size`. -/
structure Totals where
  total : BitVec 32
  max : BitVec 32

/-- `total_size += n`, and the statistics are updated. -/
def Totals.add (t : Totals) (n : BitVec 32) : Totals where
  total := t.total + n
  max := if (t.total + n).toInt > t.max.toInt then t.total + n else t.max

/-- One request of `eval_mm_util`. -/
def utilOp (pkg : Package σ) (d : Driver σ) (t : Totals) : TraceOp → Except Halt (Driver σ × Totals)
  | .alloc index size => do
    let (p, heap, data) ← defined (pkg.mmMalloc d.heap d.data size)
    if p = NULL then .error (.exit "mm_malloc failed in eval_mm_util")
    let blocks ← defined (storeAt d.blocks index p)
    let blockSizes ← defined (storeAt d.blockSizes index size)
    return ({ d with heap := heap, data := data, blocks := blocks, blockSizes := blockSizes },
      t.add size)
  | .realloc index newsize => do
    let oldsize ← defined (loadAt d.blockSizes index)
    let oldp ← defined (loadAt d.blocks index)
    let (newp, heap, data) ← defined (pkg.mmRealloc d.heap d.data oldp newsize)
    if newp = NULL then .error (.exit "mm_realloc failed in eval_mm_util")
    let blocks ← defined (storeAt d.blocks index newp)
    let blockSizes ← defined (storeAt d.blockSizes index newsize)
    return ({ d with heap := heap, data := data, blocks := blocks, blockSizes := blockSizes },
      t.add (newsize - oldsize))
  | .free index => do
    let size ← defined (loadAt d.blockSizes index)
    let p ← defined (loadAt d.blocks index)
    let (heap, data) ← defined (pkg.mmFree d.heap d.data p)
    return ({ d with heap := heap, data := data }, { t with total := t.total - size })

def utilOps (pkg : Package σ) : Driver σ → Totals → List TraceOp → Except Halt (Driver σ × Totals)
  | d, t, [] => .ok (d, t)
  | d, t, op :: ops => do
    let (d, t) ← utilOp pkg d t op
    utilOps pkg d t ops

/-- The utilization, a quotient. -/
structure Util where
  maxTotalSize : BitVec 32
  heapsize : Size
  deriving DecidableEq

/-- `eval_mm_util`. -/
def evalMmUtil (pkg : Package σ) (trace : Trace) (d : Driver σ) :
    Except Halt (Util × Driver σ) := do
  let (r, heap, data) ← defined (pkg.mmInit (memResetBrk d.heap) d.data)
  if r.toInt < 0 then .error (.exit "mm_init failed in eval_mm_util")
  let (d, t) ← utilOps pkg { d with heap := heap, data := data } ⟨0, 0⟩ trace.ops
  return (⟨t.max, memHeapsize d.heap⟩, d)

/-- One request of `eval_mm_speed`. -/
def speedOp (pkg : Package σ) (d : Driver σ) : TraceOp → Except Halt (Driver σ)
  | .alloc index size => do
    let (p, heap, data) ← defined (pkg.mmMalloc d.heap d.data size)
    if p = NULL then .error (.exit "mm_malloc error in eval_mm_speed")
    let blocks ← defined (storeAt d.blocks index p)
    return { d with heap := heap, data := data, blocks := blocks }
  | .realloc index newsize => do
    let oldp ← defined (loadAt d.blocks index)
    let (newp, heap, data) ← defined (pkg.mmRealloc d.heap d.data oldp newsize)
    if newp = NULL then .error (.exit "mm_realloc error in eval_mm_speed")
    let blocks ← defined (storeAt d.blocks index newp)
    return { d with heap := heap, data := data, blocks := blocks }
  | .free index => do
    let block ← defined (loadAt d.blocks index)
    let (heap, data) ← defined (pkg.mmFree d.heap d.data block)
    return { d with heap := heap, data := data }

def speedOps (pkg : Package σ) : Driver σ → List TraceOp → Except Halt (Driver σ)
  | d, [] => .ok d
  | d, op :: ops => do
    let d ← speedOp pkg d op
    speedOps pkg d ops

/-- `eval_mm_speed`. -/
def evalMmSpeed (pkg : Package σ) (trace : Trace) (d : Driver σ) : Except Halt (Driver σ) := do
  let (r, heap, data) ← defined (pkg.mmInit (memResetBrk d.heap) d.data)
  if r.toInt < 0 then .error (.exit "mm_init failed in eval_mm_speed")
  speedOps pkg { d with heap := heap, data := data } trace.ops

/-- `fsecs`: `ftimer_gettod` runs the function `n` times. -/
def fsecs (pkg : Package σ) (trace : Trace) : Nat → Driver σ → Except Halt (Driver σ)
  | 0, d => .ok d
  | n + 1, d => do
    let d ← evalMmSpeed pkg trace d
    fsecs pkg trace n d

/-! ## Section 6: main -/

/-- `stats_t`, without the time. -/
structure Stats where
  ops : Nat
  valid : Bool
  /-- Only if `valid`. -/
  util : Option Util
  deriving DecidableEq

/-- The evaluation of one trace, whose arrays have just been allocated. -/
def evalTrace (pkg : Package σ) (tracenum : Nat) (trace : Trace) (d : Driver σ) :
    Except Halt (Stats × Driver σ) := do
  let fresh := { d with
    blocks := List.replicate trace.numIds.toNat none,
    blockSizes := List.replicate trace.numIds.toNat none }
  let (valid, d) ← evalMmValid pkg tracenum trace fresh
  if valid then
    let (util, d) ← evalMmUtil pkg trace d
    let d ← fsecs pkg trace 10 d
    return (⟨trace.ops.length, true, some util⟩, d)
  else return (⟨trace.ops.length, false, none⟩, d)

/-- The loop of `main` over the traces, from trace `i` on. -/
def evalTraces (pkg : Package σ) : Nat → Driver σ → List Trace → Except Halt (List Stats × Driver σ)
  | _, d, [] => .ok ([], d)
  | i, d, trace :: traces => do
    let (stats, d) ← evalTrace pkg i trace d
    let (rest, d) ← evalTraces pkg (i + 1) d traces
    return (stats :: rest, d)

/-- What `main` counts as `numcorrect`. -/
def numCorrect (stats : List Stats) : Nat := stats.countP (·.valid)

end MallocLab
