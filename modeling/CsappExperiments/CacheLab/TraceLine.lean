import CsappExperiments.CacheLab.Cache

/-! # Cache Lab: trace lines

    `splitOneInst` and `analyseOneLine` of `cache.c`, and the loop of `csim.c`
    that feeds them the lines of a trace. `none` means that a function has
    read or written outside a string or a buffer.

    Left out: the debug output, and the message that `-v` prints for each
    line. The buffer that the message is put together in is not left out.
-/

open CLib

namespace CacheLab

/-! ## Section 1: One line -/

/-- The scan for the comma, and what it has passed. -/
def untilComma : CStr → Option CStr
  | [] => none
  | c :: rest => if c = ',' then some [] else (untilComma rest).map (c :: ·)

/-- `splitOneInst`: the operation and the address. The digits are copied to a
    buffer of their length, without a NUL. `after` is what the memory behind
    them holds, up to the next NUL. -/
def splitOneInst (line after : CStr) : Option (Char × Addr) :=
  match line with
  | 'I' :: _ => some ('I', -1#64)
  | _ :: op :: _ :: rest =>
    (untilComma rest).map fun hex => (op, BitVec.ofInt 64 (strtol16 (hex ++ after)))
  | _ => none

theorem untilComma_append {hex : CStr} (h : ',' ∉ hex) (rest : CStr) :
    untilComma (hex ++ ',' :: rest) = some hex := by
  induction hex with
  | nil => rfl
  | cons c hex ih =>
    have hc : c ≠ ',' := fun heq => h (by rw [heq]; exact List.mem_cons_self)
    rw [List.cons_append, untilComma, if_neg hc, ih fun hmem => h (List.mem_cons_of_mem c hmem)]
    rfl

/-- A data line is split at its comma. -/
theorem splitOneInst_data {hex : CStr} (h : ',' ∉ hex) (op : Char) (size after : CStr) :
    splitOneInst (' ' :: op :: ' ' :: hex ++ ',' :: size) after =
      some (op, BitVec.ofInt 64 (strtol16 (hex ++ after))) := by
  show (untilComma (hex ++ ',' :: size)).map _ = _
  rw [untilComma_append h]
  rfl

/-- The size of `str`, where the message for a line is put together. -/
def STR_SIZE : Nat := 80

/-- What `analyseOneLine` changes. -/
structure Simulation where
  cache : Cache
  hit : BitVec 32
  miss : BitVec 32
  eviction : BitVec 32
  deriving DecidableEq, Repr

/-- The message for a result. -/
def message : Outcome → CStr
  | .MISS => " miss".toList
  | .EVICTION => " miss eviction".toList
  | .HIT => " hit".toList

def analyseOneLine (sim : Simulation) (line after : CStr) : Option Simulation :=
  match splitOneInst line after with
  | none => none
  | some (op, addr) =>
    if op = 'I' then some sim
    else
      match accessMem sim.cache addr with
      | none => none
      | some (res, cache) => do
        let str ← strcat STR_SIZE [] line
        let str ← strcat STR_SIZE str (message res)
        let sim :=
          match res with
          | .MISS => { sim with cache := cache, miss := sim.miss + 1 }
          | .EVICTION =>
            { sim with cache := cache, miss := sim.miss + 1, eviction := sim.eviction + 1 }
          | .HIT => { sim with cache := cache, hit := sim.hit + 1 }
        if op = 'M' then do
          let _ ← strcat STR_SIZE str " hit".toList
          return { sim with hit := sim.hit + 1 }
        else return sim

/-! ## Section 2: Traces -/

/-- The simulation when `main` starts to read the trace. -/
def startSimulation (s E b : Nat) : Simulation where
  cache := createCache s E b
  hit := 0
  miss := 0
  eviction := 0

/-- The lines of a trace, each with what the memory behind its digits holds. -/
def analyseAll (sim : Simulation) : List (CStr × CStr) → Option Simulation
  | [] => some sim
  | (line, after) :: lines => (analyseOneLine sim line after).bind fun sim' => analyseAll sim' lines

/-- A line of a trace: an instruction, which is ignored, or a space, the
    operation, a space, the address, a comma and the size. Some traces write
    `0x` before the address or spaces after the size. -/
inductive TraceLine : CStr → Prop where
  | instruction (rest : CStr) : TraceLine ('I' :: rest)
  | data (op : Char) (lead hex size : CStr) (hop : op = 'L' ∨ op = 'S' ∨ op = 'M')
      (hlead : lead = [] ∨ lead = ['0', 'x']) (hhex : hex ≠ [] ∧ ∀ c ∈ hex, isxdigit c)
      (hsize : size ≠ [] ∧ ∀ c ∈ size, isdigit c ∨ c = ' ') :
      TraceLine (' ' :: op :: ' ' :: (lead ++ hex) ++ ',' :: size)

/-- A line without `0x` and without spaces after the size. -/
theorem TraceLine.of_digits {op : Char} {hex size : CStr} (hop : op = 'L' ∨ op = 'S' ∨ op = 'M')
    (hhex : hex ≠ []) (hhex' : hex.all isxdigit = true) (hsize : size ≠ [])
    (hsize' : size.all isdigit = true) :
    TraceLine (' ' :: op :: ' ' :: hex ++ ',' :: size) :=
  .data op [] hex size hop (.inl rfl) ⟨hhex, List.all_eq_true.mp hhex'⟩
    ⟨hsize, fun c hc => .inl (List.all_eq_true.mp hsize' c hc)⟩

example : (analyseAll (startSimulation 1 1 4)
    [(" L 10,1".toList, []), (" M 20,1".toList, []), ("I  04005b6,5".toList, []),
      (" S 12,1".toList, [])]).map
      (fun sim => (sim.hit, sim.miss, sim.eviction)) = some (2, 2, 0) := by decide +kernel

end CacheLab
