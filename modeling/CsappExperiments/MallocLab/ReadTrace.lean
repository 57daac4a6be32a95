import CsappExperiments.MallocLab.Checker
import CsappExperiments.Scanf

/-! # Malloc Lab: trace files

    A trace file has four numbers, one to a line, and then a line for each
    request. `read_trace` reads it with `fscanf` and ignores what `fscanf`
    returns, so that a variable keeps its old value where no number is found.

    A file in the usual form is read back as it was meant, and the requests are
    on the lines that `malloc_error` names. Of an accepted file it is known
    that the ids of its `a` and `r` lines are within the arrays; those of its
    `f` lines are not looked at.
-/

open CLib

namespace MallocLab

/-! ## Section 1: read_trace -/

def MAXLINE : Nat := 1024

/-- What `read_trace` keeps while it reads the requests. The variable `size` is
    not initialized. -/
structure Reading where
  rest : CStr
  index : BitVec 32
  size : Option (BitVec 32)
  maxIndex : BitVec 32
  ops : List TraceOp

/-- `fscanf(tracefile, "%u %u", &index, &size)`. -/
def Reading.scanPair (r : Reading) (s : CStr) : Reading :=
  match scanU s with
  | (none, rest) => { r with rest := rest }
  | (some index, rest) =>
    match scanU rest with
    | (none, rest) => { r with rest := rest, index := index }
    | (some size, rest) => { r with rest := rest, index := index, size := some size }

/-- `fscanf(tracefile, "%ud", &index)`: a `d` behind the number is read too. -/
def Reading.scanFree (r : Reading) (s : CStr) : Reading :=
  match scanU s with
  | (none, rest) => { r with rest := rest }
  | (some index, 'd' :: rest) => { r with rest := rest, index := index }
  | (some index, rest) => { r with rest := rest, index := index }

/-- `max_index = (index > max_index) ? index : max_index`. -/
def larger (index maxIndex : BitVec 32) : BitVec 32 := if index > maxIndex then index else maxIndex

/-- The request is stored, in an array of so many elements. -/
def Reading.store (r : Reading) (capacity : Nat) (op : TraceOp) (maxIndex : BitVec 32) :
    Except Halt Reading :=
  if r.ops.length < capacity then .ok { r with ops := r.ops ++ [op], maxIndex := maxIndex }
  else .error .undefined

/-- One request line; nothing at the end of the file. -/
def readOp (path : String) (capacity : Nat) (r : Reading) : Except Halt (Option Reading) :=
  match scanS r.rest with
  | none => .ok none
  | some (type, rest) =>
    if MAXLINE ≤ type.length then .error .undefined
    else
      match type.head? with
      | some 'a' => do
        let r := r.scanPair rest
        let size ← defined r.size
        return some (← r.store capacity (.alloc r.index size) (larger r.index r.maxIndex))
      | some 'r' => do
        let r := r.scanPair rest
        let size ← defined r.size
        return some (← r.store capacity (.realloc r.index size) (larger r.index r.maxIndex))
      | some 'f' => do
        let r := r.scanFree rest
        return some (← r.store capacity (.free r.index) r.maxIndex)
      | c =>
        .error (.exit ("Bogus type character (" ++ String.ofList c.toList ++ ") in tracefile " ++
          path ++ "\n"))

/-- The loop over the lines. Each round reads a character, so the length of
    the file is enough fuel. -/
def readOps (path : String) (capacity : Nat) : Nat → Reading → Except Halt Reading
  | 0, r => .ok r
  | fuel + 1, r => do
    match ← readOp path capacity r with
    | none => return r
    | some r => readOps path capacity fuel r

/-- `read_trace`. A request takes 12 bytes. -/
def readTrace (path : String) (file : CStr) : Except Halt Trace := do
  let (suggHeapsize, rest) := scanD file
  let (numIds, rest) := scanD rest
  let (numOps, rest) := scanD rest
  let (weight, rest) := scanD rest
  let numOps ← defined numOps
  let numIds ← defined numIds
  let r ← readOps path ((numOps * 12).toNat / 12) (rest.length + 1) ⟨rest, 0, none, 0, []⟩
  if r.maxIndex ≠ numIds - 1 then .error .assertion
  else if numOps ≠ BitVec.ofNat 32 r.ops.length then .error .assertion
  else return ⟨suggHeapsize, numIds, weight, r.ops⟩

/-! ## Section 2: Files in the usual form -/

def TraceOp.line : TraceOp → CStr
  | .alloc index size => ['a'] ++ ([' '] ++ (natText index.toNat ++ ([' '] ++ natText size.toNat)))
  | .realloc index size =>
    ['r'] ++ ([' '] ++ (natText index.toNat ++ ([' '] ++ natText size.toNat)))
  | .free index => ['f'] ++ ([' '] ++ natText index.toNat)

/-- The lines of a file. -/
def repLines (suggHeapsize numIds weight : BitVec 32) (ops : List TraceOp) : List CStr :=
  [intText suggHeapsize.toInt, intText numIds.toInt, intText ops.length, intText weight.toInt] ++
    ops.map TraceOp.line

/-- The text with these lines. -/
def unlines (lines : List CStr) : CStr := lines.flatMap fun line => line ++ ['\n']

/-- What `max_index` is after a request. -/
def TraceOp.maxIndex (m : BitVec 32) : TraceOp → BitVec 32
  | .alloc index _ => larger index m
  | .realloc index _ => larger index m
  | .free _ => m

/-- The largest id of a request that allocates. -/
def maxIndex (ops : List TraceOp) : BitVec 32 := ops.foldl TraceOp.maxIndex 0

theorem noDigit_newline (s : CStr) : NoDigit ('\n' :: s) := by
  rintro c hc
  cases hc
  rfl

theorem noDigit_space (s : CStr) : NoDigit ([' '] ++ s) := by
  rintro c hc
  cases hc
  rfl

theorem isspace_newline : ∀ c ∈ ['\n'], isspace c = true := List.forall_mem_singleton.mpr rfl

theorem isspace_blank : ∀ c ∈ [' '], isspace c = true := List.forall_mem_singleton.mpr rfl

/-- Two numbers of a line. -/
theorem scanPair_line (r : Reading) (index size : BitVec 32) (s : CStr) :
    r.scanPair ([' '] ++ (natText index.toNat ++ ([' '] ++ (natText size.toNat ++ '\n' :: s)))) =
      { r with rest := '\n' :: s, index := index, size := some size } := by
  unfold Reading.scanPair
  rw [scanU_natText isspace_blank index (noDigit_space _)]
  dsimp only
  rw [scanU_natText isspace_blank size (noDigit_newline s)]

theorem scanFree_line (r : Reading) (index : BitVec 32) (s : CStr) :
    r.scanFree ([' '] ++ (natText index.toNat ++ '\n' :: s)) =
      { r with rest := '\n' :: s, index := index } := by
  unfold Reading.scanFree
  rw [scanU_natText isspace_blank index (noDigit_newline s)]
  rfl

/-- The first word of a line. -/
theorem scanS_line {c : Char} (hc : isspace c = false) (s : CStr) :
    scanS ('\n' :: ([c] ++ ([' '] ++ s))) = some ([c], [' '] ++ s) := by
  refine @scanS_word ['\n'] _ _ isspace_newline (List.forall_mem_singleton.mpr hc)
    (List.cons_ne_nil _ _) ?_
  rintro d hd
  cases hd
  rfl

/-- A line is read as the request that it shows. -/
theorem readOp_line (path : String) {capacity : Nat} {r : Reading} (op : TraceOp) (s : CStr)
    (hrest : r.rest = '\n' :: (op.line ++ '\n' :: s)) (hroom : r.ops.length < capacity) :
    ∃ index size, readOp path capacity r =
      .ok (some ⟨'\n' :: s, index, size, op.maxIndex r.maxIndex, r.ops ++ [op]⟩) := by
  cases op
  -- the letter is the first word of the line, whatever the request
  all_goals
    unfold readOp
    rw [hrest]
    simp only [TraceOp.line, List.append_assoc]
    rw [scanS_line (by decide)]
    dsimp only
    rw [if_neg (by decide)]
  case alloc index size =>
    refine ⟨index, some size, ?_⟩
    simp only [List.head?_cons, scanPair_line, defined, Reading.store, hroom, if_true]
    rfl
  case realloc index size =>
    refine ⟨index, some size, ?_⟩
    simp only [List.head?_cons, scanPair_line, defined, Reading.store, hroom, if_true]
    rfl
  case free index =>
    refine ⟨index, r.size, ?_⟩
    simp only [List.head?_cons, scanFree_line, Reading.store, hroom, if_true]
    rfl

theorem unlines_cons (line : CStr) (lines : List CStr) :
    unlines (line :: lines) = line ++ '\n' :: unlines lines := by
  simp [unlines]

/-- All lines are read, in order. -/
theorem readOps_lines (path : String) {capacity : Nat} {ops : List TraceOp} :
    ∀ {fuel : Nat} {r : Reading},
    r.rest = '\n' :: unlines (ops.map TraceOp.line) → r.ops.length + ops.length ≤ capacity →
      ops.length < fuel →
      ∃ r', readOps path capacity fuel r = .ok r' ∧
        r'.maxIndex = ops.foldl TraceOp.maxIndex r.maxIndex ∧
        r'.ops = r.ops ++ ops := by
  induction ops with
  | nil =>
    intro fuel r hrest _ hfuel
    obtain ⟨fuel, rfl⟩ := Nat.exists_eq_succ_of_ne_zero hfuel.ne'
    have heof : readOp path capacity r = .ok none := by
      unfold readOp
      rw [hrest, show scanS ('\n' :: unlines ([].map TraceOp.line)) =
        none from scanS_eof isspace_newline]
    refine ⟨r, ?_, rfl, (List.append_nil _).symm⟩
    rw [readOps, heof]
    rfl
  | cons op ops ih =>
    intro fuel r hrest hroom hfuel
    rw [List.map_cons, unlines_cons] at hrest
    rw [List.length_cons] at hroom hfuel
    obtain ⟨fuel, rfl⟩ := Nat.exists_eq_succ_of_ne_zero (Nat.ne_zero_of_lt hfuel)
    have hroom₁ : r.ops.length < capacity := by omega
    obtain ⟨index, size, hop⟩ := readOp_line path op _ hrest hroom₁
    have hlen : (r.ops ++ [op]).length = r.ops.length + 1 := List.length_append
    have hroom₂ : (r.ops ++ [op]).length + ops.length ≤ capacity := by omega
    -- the loop goes on with what the line has left in the variables
    obtain ⟨r', hrun, hmax, hops⟩ := @ih fuel
      ⟨'\n' :: unlines (ops.map TraceOp.line), index, size, op.maxIndex r.maxIndex, r.ops ++ [op]⟩
        rfl hroom₂ (by omega)
    refine ⟨r', ?_, hmax, ?_⟩
    · rw [readOps, hop]
      exact hrun
    · rw [hops, List.append_assoc, List.singleton_append]

theorem length_le_unlines (lines : List CStr) : lines.length ≤ (unlines lines).length := by
  induction lines with
  | nil => exact Nat.le_refl _
  | cons line lines ih =>
    rw [unlines_cons, List.length_append, List.length_cons, List.length_cons]
    omega

/-- A number on a line of its own. -/
theorem scanD_line {ws : CStr} (hws : ∀ c ∈ ws, isspace c = true) (x : BitVec 32) (s : CStr) :
    scanD (ws ++ (intText x.toInt ++ '\n' :: s)) = (some x, '\n' :: s) :=
  scanD_intText hws x (noDigit_newline s)

theorem readTrace_unlines (path : String) {suggHeapsize numIds weight : BitVec 32}
    {ops : List TraceOp} (hids : maxIndex ops = numIds - 1) (hlen : 12 * ops.length < 2 ^ 32) :
    readTrace path (unlines (repLines suggHeapsize numIds weight ops)) =
      .ok ⟨some suggHeapsize, numIds, some weight, ops⟩ := by
  have hnum : (BitVec.ofNat 32 ops.length).toNat = ops.length := by
    rw [BitVec.toNat_ofNat]
    omega
  have hint : (ops.length : Int) = (BitVec.ofNat 32 ops.length).toInt := by
    rw [BitVec.toInt_eq_toNat_cond, hnum]
    split <;> omega
  -- the size of the array does not wrap around
  have hcapacity : (BitVec.ofNat 32 ops.length * 12).toNat / 12 = ops.length := by
    have htwelve : (12 : BitVec 32).toNat = 12 := rfl
    rw [BitVec.toNat_mul, hnum, htwelve]
    omega
  have hfuel := length_le_unlines (ops.map TraceOp.line)
  rw [List.length_map] at hfuel
  obtain ⟨r, hrun, hmax, hops⟩ := @readOps_lines path ops.length ops
    (('\n' :: unlines (ops.map TraceOp.line)).length + 1) ⟨_, 0, none, 0, []⟩ rfl (by simp)
    (by rw [List.length_cons]; omega)
  have hr : r.maxIndex = numIds - 1 := hmax.trans hids
  have hro : r.ops = ops := hops
  have htext : unlines (repLines suggHeapsize numIds weight ops) =
      [] ++ (intText suggHeapsize.toInt ++ '\n' :: (intText numIds.toInt ++ '\n' ::
        (intText (BitVec.ofNat 32 ops.length).toInt ++ '\n' ::
          (intText weight.toInt ++ '\n' :: unlines (ops.map TraceOp.line))))) := by
    simp only [repLines, List.cons_append, List.nil_append, unlines_cons, hint]
  -- every number leaves the newline behind it to the next conversion
  have hnext : ∀ (x : BitVec 32) (s : CStr), scanD ('\n' :: (intText x.toInt ++ '\n' :: s)) =
      (some x, '\n' :: s) :=
    fun x s => scanD_line isspace_newline x s
  unfold readTrace
  rw [htext, scanD_line (List.forall_mem_nil _)]
  dsimp only
  rw [hnext]
  dsimp only
  rw [hnext]
  dsimp only
  rw [hnext]
  refine bind_eq_ok.mpr ⟨_, rfl, bind_eq_ok.mpr ⟨_, rfl, bind_eq_ok.mpr ⟨r, ?_, ?_⟩⟩⟩
  · rw [hcapacity]
    exact hrun
  · rw [if_neg (not_not.mpr hr), hro, if_neg (not_not.mpr rfl)]
    rfl

/-! ## Section 3: Line numbers -/

theorem newline_notMem_natText (n : Nat) : '\n' ∉ natText n :=
  fun h => absurd (isdigit_of_mem_natText h) (by decide)

theorem newline_notMem_intText (x : Int) : '\n' ∉ intText x := by
  unfold intText
  split
  · rw [List.mem_cons, not_or]
    exact ⟨by decide, newline_notMem_natText _⟩
  · exact newline_notMem_natText _

theorem newline_notMem_line (op : TraceOp) : '\n' ∉ op.line := by
  cases op with
  | alloc index size => simp [TraceOp.line, newline_notMem_natText]
  | realloc index size => simp [TraceOp.line, newline_notMem_natText]
  | free index => simp [TraceOp.line, newline_notMem_natText]

theorem eachLine_line {line : CStr} (h : '\n' ∉ line) (s : CStr) :
    eachLine (line ++ '\n' :: s) = (line ++ ['\n']) :: eachLine s := by
  induction line with
  | nil => simp [eachLine]
  | cons c line ih =>
    obtain ⟨hc, hline⟩ := not_or.mp (mt List.mem_cons.mpr h)
    rw [List.cons_append, eachLine, if_neg fun heq => hc heq.symm, ih hline]
    rfl

/-- A text is taken apart into its lines. -/
theorem eachLine_unlines {lines : List CStr} (h : ∀ line ∈ lines, '\n' ∉ line) :
    eachLine (unlines lines) = lines.map fun line => line ++ ['\n'] := by
  induction lines with
  | nil => rfl
  | cons line lines ih =>
    obtain ⟨hline, hrest⟩ := List.forall_mem_cons.mp h
    rw [unlines_cons, eachLine_line hline, ih hrest, List.map_cons]

/-- The requests of `short2-bal.rep`. -/
def shortRequests : List TraceOp :=
  [.alloc 0 2040, .alloc 1 4010, .alloc 2 48, .alloc 3 4072, .alloc 4 4072, .alloc 5 4072,
    .free 0, .free 1, .free 2, .free 3, .free 4, .free 5]

theorem le_larger (index m : BitVec 32) : m ≤ larger index m ∧ index ≤ larger index m := by
  unfold larger
  split
  · rename_i h
    exact ⟨BitVec.le_of_lt h, BitVec.le_refl index⟩
  · rename_i h
    exact ⟨BitVec.le_refl m, BitVec.not_lt.mp h⟩

theorem TraceOp.le_maxIndex (m : BitVec 32) (op : TraceOp) : m ≤ op.maxIndex m := by
  cases op with
  | alloc index size => exact (le_larger index m).1
  | realloc index size => exact (le_larger index m).1
  | free index => exact BitVec.le_refl m

theorem le_foldl_maxIndex (m : BitVec 32) (ops : List TraceOp) :
    m ≤ ops.foldl TraceOp.maxIndex m := by
  induction ops generalizing m with
  | nil => exact BitVec.le_refl m
  | cons op ops ih => exact BitVec.le_trans (TraceOp.le_maxIndex m op) (ih _)

/-- An id that is given to a block is at most the largest one. -/
theorem id_le_maxIndex {ops : List TraceOp} {index size : BitVec 32}
    (h : .alloc index size ∈ ops ∨ .realloc index size ∈ ops) : index ≤ maxIndex ops := by
  have hop : ∃ op ∈ ops, ∀ m, index ≤ op.maxIndex m := by
    rcases h with h | h
    · exact ⟨_, h, fun m => (le_larger index m).2⟩
    · exact ⟨_, h, fun m => (le_larger index m).2⟩
  obtain ⟨op, hmem, hmax⟩ := hop
  obtain ⟨before, after, rfl⟩ := List.append_of_mem hmem
  unfold maxIndex
  rw [List.foldl_append, List.foldl_cons]
  exact BitVec.le_trans (hmax _) (le_foldl_maxIndex _ after)

/-- What has been read is stored in order and within the array. -/
structure Consistent (capacity : Nat) (r : Reading) : Prop where
  room : r.ops.length ≤ capacity
  largest : r.maxIndex = maxIndex r.ops

theorem store_consistent {capacity : Nat} {r r' : Reading} (op : TraceOp)
    (h : Consistent capacity r) (hr : r.store capacity op (op.maxIndex r.maxIndex) = .ok r') :
    Consistent capacity r' := by
  unfold Reading.store at hr
  split at hr
  · rename_i hroom
    cases hr
    refine ⟨?_, ?_⟩
    · rw [List.length_append]
      exact hroom
    · show op.maxIndex r.maxIndex = maxIndex (r.ops ++ [op])
      rw [h.largest, maxIndex, maxIndex, List.foldl_append, List.foldl_cons, List.foldl_nil]
  · cases hr

theorem scanPair_consistent {capacity : Nat} {r : Reading} (h : Consistent capacity r) (s : CStr) :
    Consistent capacity (r.scanPair s) := by
  unfold Reading.scanPair
  split
  · exact ⟨h.room, h.largest⟩
  · split
    · exact ⟨h.room, h.largest⟩
    · exact ⟨h.room, h.largest⟩

theorem scanFree_consistent {capacity : Nat} {r : Reading} (h : Consistent capacity r) (s : CStr) :
    Consistent capacity (r.scanFree s) := by
  unfold Reading.scanFree
  split
  · exact ⟨h.room, h.largest⟩
  · exact ⟨h.room, h.largest⟩
  · exact ⟨h.room, h.largest⟩

theorem readOp_consistent {path : String} {capacity : Nat} {r r' : Reading}
    (h : Consistent capacity r) (hr : readOp path capacity r = .ok (some r')) :
    Consistent capacity r' := by
  unfold readOp at hr
  split at hr
  · cases hr
  · rename_i type rest _
    split at hr
    · cases hr
    · split at hr
      · obtain ⟨size, _, hr⟩ := bind_eq_ok.mp hr
        obtain ⟨r₁, hstore, hr⟩ := bind_eq_ok.mp hr
        cases hr
        exact store_consistent (.alloc _ size) (scanPair_consistent h rest) hstore
      · obtain ⟨size, _, hr⟩ := bind_eq_ok.mp hr
        obtain ⟨r₁, hstore, hr⟩ := bind_eq_ok.mp hr
        cases hr
        exact store_consistent (.realloc _ size) (scanPair_consistent h rest) hstore
      · obtain ⟨r₁, hstore, hr⟩ := bind_eq_ok.mp hr
        cases hr
        exact store_consistent (.free _) (scanFree_consistent h rest) hstore
      · cases hr

theorem readOps_consistent {path : String} {capacity fuel : Nat} {r r' : Reading}
    (h : Consistent capacity r) (hr : readOps path capacity fuel r = .ok r') :
    Consistent capacity r' := by
  induction fuel generalizing r with
  | zero =>
    cases hr
    exact h
  | succ fuel ih =>
    obtain ⟨o, hop, hr⟩ := bind_eq_ok.mp hr
    cases o with
    | none =>
      cases hr
      exact h
    | some r₁ => exact ih (readOp_consistent h hop) hr

/-- An accepted file has at most as many requests as an array of 2^32 bytes
    holds, and its largest id is what the header says. -/
theorem readTrace_accepted {path : String} {file : CStr} {t : Trace}
    (h : readTrace path file = .ok t) :
    12 * t.ops.length < 2 ^ 32 ∧ maxIndex t.ops = t.numIds - 1 := by
  unfold readTrace at h
  obtain ⟨numOps, _, h⟩ := bind_eq_ok.mp h
  obtain ⟨numIds, _, h⟩ := bind_eq_ok.mp h
  obtain ⟨r, hrun, h⟩ := bind_eq_ok.mp h
  have hr := readOps_consistent ⟨Nat.zero_le _, rfl⟩ hrun
  have hroom := hr.room
  have hlt : (numOps * 12).toNat < 2 ^ 32 := BitVec.isLt _
  by_cases hids : r.maxIndex ≠ numIds - 1
  · rw [if_pos hids] at h
    cases h
  · rw [if_neg hids] at h
    by_cases hnum : numOps ≠ BitVec.ofNat 32 r.ops.length
    · rw [if_pos hnum] at h
      cases h
    · rw [if_neg hnum] at h
      cases h
      refine ⟨?_, hr.largest.symm.trans (not_not.mp hids)⟩
      show 12 * r.ops.length < 2 ^ 32
      omega

end MallocLab
