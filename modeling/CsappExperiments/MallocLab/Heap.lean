import CsappExperiments.Framework.Memory
import CsappExperiments.Framework.System

/-! # Malloc Lab: the memory system and the allocator

    `memlib.c` simulates `sbrk` in an area obtained from the C library, and
    the allocator of `mm.c` only ever moves `mem_brk` up: a block is a header
    of 8 bytes, of which the first 4 hold the requested size, and the payload.

    The code is compiled for 32 bits, so addresses and sizes are words that
    wrap around. A load or store outside the area is undefined behaviour, and
    `none` stands for it.

    Left out: `errno` and the message of `mem_sbrk`, and `mm_init`, which does
    nothing.
-/

open ByteMemory LTS

namespace MallocLab

/-! ## Section 1: memlib.c -/

/-- A `char *` or a `void *`. -/
abbrev Addr : Type := BitVec 32

/-- A `size_t`. -/
abbrev Size : Type := BitVec 32

def NULL : Addr := 0

/-- `(void *)-1`. -/
def FAILED : Addr := 0xffffffff

def MAX_HEAP : Nat := 20 * 2 ^ 20

/-- What `malloc` of the C library returns to `mem_init`. It is aligned for
    every type, and so is the address behind it an address. -/
structure Area where
  start : Addr
  aligned : 8 ∣ start.toNat
  fits : start.toNat + MAX_HEAP < 2 ^ 32

/-- The private variables of `memlib.c`, and the memory. -/
structure Heap where
  mem : Memory
  memStartBrk : Addr
  memBrk : Addr
  memMaxAddr : Addr

/-- `mem_init`. -/
def memInit (area : Area) (mem : Memory) : Heap where
  mem := mem
  memStartBrk := area.start
  memBrk := area.start
  memMaxAddr := area.start + BitVec.ofNat 32 MAX_HEAP

/-- `mem_reset_brk`. -/
def memResetBrk (heap : Heap) : Heap := { heap with memBrk := heap.memStartBrk }

/-- `mem_sbrk`. -/
def memSbrk (heap : Heap) (incr : BitVec 32) : Addr × Heap :=
  let oldBrk := heap.memBrk
  if incr.toInt < 0 ∨ heap.memBrk + incr > heap.memMaxAddr then (FAILED, heap)
  else (oldBrk, { heap with memBrk := heap.memBrk + incr })

/-! ## Section 2: Accesses -/

/-- Do `n` bytes from `p` on lie in the area? -/
def Heap.Contains (heap : Heap) (p : Addr) (n : Nat) : Prop :=
  heap.memStartBrk.toNat ≤ p.toNat ∧ p.toNat + n ≤ heap.memMaxAddr.toNat

instance (heap : Heap) (p : Addr) (n : Nat) : Decidable (heap.Contains p n) :=
  inferInstanceAs (Decidable (_ ∧ _))

/-- `*(size_t *)p = size`. -/
def storeSize (heap : Heap) (p : Addr) (size : Size) : Option Heap :=
  if heap.Contains p 4 then
    some { heap with mem := write heap.mem p.toNat (leBytes 4 size.toNat) }
  else none

/-- `*(size_t *)p`. -/
def loadSize (heap : Heap) (p : Addr) : Option Size :=
  if heap.Contains p 4 then some (BitVec.ofNat 32 (ofLeBytes (read heap.mem p.toNat 4))) else none

/-- `*p = b`. -/
def storeByte (heap : Heap) (p : Addr) (b : Byte) : Option Heap :=
  if heap.Contains p 1 then some { heap with mem := write heap.mem p.toNat [b] } else none

/-- `memcpy`. The ranges must not overlap. -/
def memcpy (heap : Heap) (dst src : Addr) (n : Size) : Option Heap :=
  if heap.Contains dst n.toNat ∧ heap.Contains src n.toNat ∧
      (dst.toNat + n.toNat ≤ src.toNat ∨ src.toNat + n.toNat ≤ dst.toNat) then
    some { heap with mem := write heap.mem dst.toNat (read heap.mem src.toNat n.toNat) }
  else none

/-! ## Section 3: mm.c -/

def ALIGNMENT : Size := 8

/-- `ALIGN`. -/
def align (size : Size) : Size := (size + (ALIGNMENT - 1)) &&& ~~~0x7

def SIZE_T_SIZE : Size := align 4

/-- `mm_malloc`. -/
def mmMalloc (heap : Heap) (size : Size) : Option (Addr × Heap) :=
  -- stored in an `int`
  let newsize := align (size + SIZE_T_SIZE)
  let (p, heap') := memSbrk heap newsize
  if p = FAILED then some (NULL, heap')
  else (storeSize heap' p size).map fun heap'' => (p + SIZE_T_SIZE, heap'')

/-- `mm_free`. -/
def mmFree (heap : Heap) (_ptr : Addr) : Heap := heap

/-- `mm_realloc`. -/
def mmRealloc (heap : Heap) (ptr : Addr) (size : Size) : Option (Addr × Heap) := do
  let oldptr := ptr
  let (newptr, heap) ← mmMalloc heap size
  if newptr = NULL then return (NULL, heap)
  let copySize ← loadSize heap (oldptr - SIZE_T_SIZE)
  let copySize := if size < copySize then size else copySize
  let heap ← memcpy heap newptr oldptr copySize
  return (newptr, mmFree heap oldptr)

/-! ## Section 4: Callers -/

/-- A block that has been handed out. -/
structure Block where
  ptr : Addr
  size : Size
  deriving DecidableEq

/-- The heap, and the blocks that callers know of: every pointer returned
    since the heap was empty, with the size it was requested with. -/
structure State where
  heap : Heap
  blocks : List Block

/-- What callers do. -/
inductive Call where
  | malloc (size : Size)
  | free (ptr : Addr)
  | realloc (ptr : Addr) (size : Size)
  | write (p : Addr) (b : Byte)
  | reset

/-- The state after a call that has returned `p`. -/
def State.returned (s : State) (size : Size) (p : Addr) (heap : Heap) : State where
  heap := heap
  blocks := if p = NULL then s.blocks else ⟨p, size⟩ :: s.blocks

def step (s : State) : Call → Option State
  | .malloc size => (mmMalloc s.heap size).map fun (p, heap) => s.returned size p heap
  | .free ptr => some { s with heap := mmFree s.heap ptr }
  | .realloc ptr size => (mmRealloc s.heap ptr size).map fun (p, heap) => s.returned size p heap
  | .write p b => (storeByte s.heap p b).map fun heap => { s with heap := heap }
  | .reset => some { heap := memResetBrk s.heap, blocks := [] }

/-- Any sequence of calls after `mem_init`. -/
def system (area : Area) (mem : Memory) : System State Call where
  init := { heap := memInit area mem, blocks := [] }
  step := step

end MallocLab
