import CsappExperiments.CacheLab.LineAddress
import CsappExperiments.CacheLab.Modify
import CsappExperiments.CacheLab.TraceFile
import CsappExperiments.CacheLab.TransMisses
import CsappExperiments.Scanf

/-! # Cache Lab: the evaluation of a transpose function

    `eval_perf` of `test-trans.c` takes the accesses to data between two
    markers out of the text that the tool has printed, drops those to the
    stack, and hands the rest to the simulator. The program it calls is the
    reference simulator; here it is `csim`, which is to count the same.

    Section 4 puts the pieces together: for the text of a run of
    `transpose_submit`, whatever else is between its accesses, the misses that
    come out are those of `standardMisses`, up to one for each other access.
-/

open CLib

namespace CacheLab

/-! ## Section 1: eval_perf -/

/-- The test for a memory access. -/
def isAccess (buf : CStr) : Prop :=
  buf[0]? = some ' ' ∧ buf[2]? = some ' ' ∧
    (buf[1]? = some 'S' ∨ buf[1]? = some 'M' ∨ buf[1]? = some 'L')

instance (buf : CStr) : Decidable (isAccess buf) := inferInstanceAs (Decidable (_ ∧ _ ∧ _))

/-- The loop over the lines of the full trace: the lines that go to the other
    file. The variable `addr` keeps its value where `sscanf` finds none.
    `none` means that `addr` has not been initialized, or that the end marker
    is missing, so that the other file is not closed. -/
def partTrace (markerStart markerEnd : Addr) : Bool → Option Addr → List CStr → Option (List CStr)
  | _, _, [] => none
  | flag, addr, buf :: rest =>
    if isAccess buf then do
      let addr ← (scanX (buf.drop 3)).or addr
      let flag := flag || addr == markerStart
      let kept := if flag = true ∧ addr < 0xffffffff then [buf] else []
      if addr = markerEnd then some kept
      else (partTrace markerStart markerEnd flag (some addr) rest).map (kept ++ ·)
    else partTrace markerStart markerEnd flag addr rest

/-- `char buf[1000]`, without the NUL. -/
def BUF_ROOM : Nat := 999

/-- `eval_perf(5, 1, 5)` on the text in `trace.tmp`. -/
def evalPerf (markerStart markerEnd : Addr) (text : List Char) (memory : Nat → CStr) :
    Option Simulation := do
  let part ← partTrace markerStart markerEnd false none
      ((fgetsAll BUF_ROOM text.length text).map untilNul)
  csim 5 1 5 part.flatten memory

/-! ## Section 2: What the tool prints -/

/-- An access, and how its line shows it. -/
structure ToolAccess where
  op : Char
  addr : Addr
  hex : CStr
  size : CStr
  is_op : op = 'S' ∨ op = 'M' ∨ op = 'L'
  spells : Spells hex addr
  hex_length : hex.length ≤ 16
  numeral : IsNumeral size
  size_length : size.length ≤ 10

/-- The line without its newline. -/
def ToolAccess.line (x : ToolAccess) : CStr := dataLine x.op x.hex x.size

/-- Any other line: of an instruction, or a message. -/
structure ToolMessage where
  line : CStr
  no_access : ¬ isAccess (line ++ ['\n'])
  one_line : '\n' ∉ line ∧ '\x00' ∉ line
  length : line.length < BUF_ROOM

abbrev ToolLine : Type := ToolAccess ⊕ ToolMessage

/-- The line with its newline. -/
def ToolLine.text : ToolLine → CStr
  | .inl x => x.line ++ ['\n']
  | .inr m => m.line ++ ['\n']

namespace ToolAccess

variable (x : ToolAccess)

theorem length_line : x.line.length ≤ 30 := by
  have hhex := x.hex_length
  have hsize := x.size_length
  rw [line, length_dataLine]
  omega

theorem mem_line {c : Char} (h : c ∈ x.line) : c = ' ' ∨ c = x.op ∨ c = ',' ∨ isxdigit c := by
  simp only [line, dataLine, List.cons_append, List.mem_cons, List.mem_append] at h
  rcases h with rfl | rfl | rfl | hhex | rfl | hsize
  · exact .inl rfl
  · exact .inr (.inl rfl)
  · exact .inl rfl
  · exact .inr (.inr (.inr (x.spells.digits c hhex)))
  · exact .inr (.inr (.inl rfl))
  · exact .inr (.inr (.inr (isxdigit_of_isdigit (List.all_eq_true.mp x.numeral.2 c hsize))))

theorem notMem_line {c : Char} (hspace : c ≠ ' ') (hop : c ∉ ['S', 'M', 'L']) (hcomma : c ≠ ',')
    (hx : isxdigit c = false) :
    c ∉ x.line := by
  intro h
  rcases x.mem_line h with rfl | rfl | rfl | hdigit
  · exact hspace rfl
  · exact hop (by simpa using x.is_op)
  · exact hcomma rfl
  · rw [hx] at hdigit
    cases hdigit

theorem isAccess_line : isAccess (x.line ++ ['\n']) := by
  refine ⟨rfl, rfl, ?_⟩
  rcases x.is_op with h | h | h
  · exact .inl (congrArg some h)
  · exact .inr (.inl (congrArg some h))
  · exact .inr (.inr (congrArg some h))

end ToolAccess

/-- The digits of an address, and then a comma, are no prefix. -/
theorem skipPrefix_spells {hex : CStr} {a : Addr} (h : Spells hex a) (s : CStr) :
    skipPrefix (hex ++ ',' :: s) = hex ++ ',' :: s := by
  match hex, h with
  | [], h => exact absurd rfl h.nonempty
  | [c], _ =>
    have hx : ',' ≠ 'x' ∧ ',' ≠ 'X' := by decide
    unfold skipPrefix
    split
    · next heq =>
      obtain ⟨rfl, hrest⟩ := List.cons.inj heq
      obtain ⟨rfl, rfl⟩ := List.cons.inj hrest
      exact if_neg fun hprefix => hprefix.1.elim hx.1 hx.2
    · rfl
  | c :: d :: hex, h => exact skipPrefix_digits (h.digits d (by simp)) _

/-- `sscanf` finds the address. -/
theorem scanX_spells {hex : CStr} {a : Addr} (h : Spells hex a) (s : CStr) :
    scanX (hex ++ ',' :: s) = some a := by
  obtain ⟨c, hex', rfl⟩ := List.exists_cons_of_ne_nil h.nonempty
  have hc := h.digits c List.mem_cons_self
  have hminus : c ≠ '-' := by rintro rfl; exact absurd hc (by decide)
  have hplus : c ≠ '+' := by rintro rfl; exact absurd hc (by decide)
  -- the digits end at the comma, and so does the prefix
  have hfurther : further (c :: hex') (',' :: s) = [] := by
    unfold further
    rw [if_neg]
    · rfl
    · rintro ⟨hsingle, hprefixed⟩
      rw [hsingle] at h
      exact hprefixed (skipPrefix_spells h s)
  have hvalue : hexadecimal 0 (c :: hex' ++ ',' :: s) = a.toNat := by
    rw [← skipPrefix_spells h, hexadecimal_skipPrefix h, hfurther]
    rfl
  have hdrop : (c :: hex' ++ ',' :: s).dropWhile isspace = c :: hex' ++ ',' :: s :=
    List.dropWhile_cons_of_neg (by simp [isspace_of_isxdigit hc])
  have hlt := a.isLt
  have hsign : ¬ ((c :: hex' ++ ',' :: s).head? = some '-' ∨
      (c :: hex' ++ ',' :: s).head? = some '+') := by
    simp [hminus, hplus]
  have hneg : (c :: hex' ++ ',' :: s).head? ≠ some '-' := by simp [hminus]
  have hdigits : (c :: hex' ++ ',' :: s).takeWhile isxdigit ≠ [] := by simp [hc]
  unfold scanX
  dsimp only
  rw [hdrop, if_neg hsign, skipPrefix_spells h, hvalue, if_neg hdigits, if_neg (Nat.not_le.mpr hlt),
    if_neg hneg, BitVec.ofNat_toNat, BitVec.setWidth_eq]

/-! ## Section 3: What is kept -/

/-- `partTrace`, on lines that the tool prints. -/
def keptAccesses (markerStart markerEnd : Addr) : Bool → List ToolLine → Option (List ToolAccess)
  | _, [] => none
  | flag, .inr _ :: rest => keptAccesses markerStart markerEnd flag rest
  | flag, .inl x :: rest =>
    let flag := flag || x.addr == markerStart
    let kept := if flag = true ∧ x.addr < 0xffffffff then [x] else []
    if x.addr = markerEnd then some kept
    else (keptAccesses markerStart markerEnd flag rest).map (kept ++ ·)

theorem partTrace_text (markerStart markerEnd : Addr) (flag : Bool) (addr : Option Addr)
    (lines : List ToolLine) :
    partTrace markerStart markerEnd flag addr (lines.map ToolLine.text) =
      (keptAccesses markerStart markerEnd flag lines).map fun xs => xs.map fun x =>
        x.line ++ ['\n'] := by
  induction lines generalizing flag addr with
  | nil => rfl
  | cons line lines ih =>
    cases line with
    | inl x =>
      have hscan : scanX ((x.line ++ ['\n']).drop 3) = some x.addr := by
        show scanX (x.hex ++ ',' :: x.size ++ ['\n']) = _
        rw [List.append_assoc]
        exact scanX_spells x.spells _
      rw [List.map_cons, ToolLine.text, partTrace, if_pos x.isAccess_line, hscan, Option.some_or]
      show (if x.addr = markerEnd then _ else _) = _
      rw [keptAccesses]
      -- the line matters only by whether it turns the flag on, or ends the trace
      generalize (flag || x.addr == markerStart) = flag
      rw [ih]
      split
      · split <;> rfl
      · rw [Option.map_map, Option.map_map]
        congr 1
        funext xs
        split <;> rfl
    | inr m =>
      rw [List.map_cons, ToolLine.text, partTrace, if_neg m.no_access, ih]
      rfl

/-- The accesses below the stack. -/
def lowAccesses (lines : List ToolLine) : List ToolAccess :=
  lines.filterMap fun
    | .inl x => if x.addr < 0xffffffff then some x else none
    | .inr _ => none

/-- Between the markers, all of these are kept. -/
theorem keptAccesses_flag {markerStart markerEnd : Addr} {before : List ToolLine}
    {last : ToolAccess} {after : List ToolLine}
    (hbefore : ∀ x, .inl x ∈ before → x.addr ≠ markerEnd) (hlast : last.addr = markerEnd) :
    keptAccesses markerStart markerEnd true (before ++ .inl last :: after) =
      some (lowAccesses (before ++ [.inl last])) := by
  induction before with
  | nil =>
    rw [List.nil_append, keptAccesses, Bool.true_or]
    rw [if_pos hlast]
    simp only [true_and, lowAccesses, List.nil_append, List.filterMap_cons, List.filterMap_nil]
    split <;> simp_all
  | cons line before ih =>
    have ih := ih fun x hx => hbefore x (List.mem_cons_of_mem line hx)
    cases line with
    | inl x =>
      have hne := hbefore x List.mem_cons_self
      rw [List.cons_append, keptAccesses, Bool.true_or]
      rw [if_neg hne, ih]
      simp only [true_and, Option.map_some, lowAccesses, List.cons_append, List.filterMap_cons]
      split <;> simp_all
    | inr m =>
      rw [List.cons_append, keptAccesses, ih]
      rfl

/-- Nothing before the start marker is. -/
theorem keptAccesses_skip {markerStart markerEnd : Addr} {before : List ToolLine}
    (hbefore : ∀ x, .inl x ∈ before → x.addr ≠ markerStart ∧ x.addr ≠ markerEnd)
    (rest : List ToolLine) :
    keptAccesses markerStart markerEnd false (before ++ rest) =
      keptAccesses markerStart markerEnd false rest := by
  induction before with
  | nil => rfl
  | cons line before ih =>
    have ih := ih fun x hx => hbefore x (List.mem_cons_of_mem line hx)
    cases line with
    | inl x =>
      obtain ⟨hstart, hend⟩ := hbefore x List.mem_cons_self
      have hflag : (false || x.addr == markerStart) = false := by simp [hstart]
      rw [List.cons_append, keptAccesses, hflag]
      rw [if_neg hend, ih]
      simp
    | inr m =>
      rw [List.cons_append, keptAccesses, ih]

/-- The part between the markers, which are kept as well. -/
theorem keptAccesses_marked {markerStart markerEnd : Addr} {before during : List ToolLine}
    {first last : ToolAccess}
    (hbefore : ∀ x, .inl x ∈ before → x.addr ≠ markerStart ∧ x.addr ≠ markerEnd)
    (hfirst : first.addr = markerStart) (hne : markerStart ≠ markerEnd)
    (hduring : ∀ x, .inl x ∈ during → x.addr ≠ markerEnd) (hlast : last.addr = markerEnd)
    (after : List ToolLine) :
    keptAccesses markerStart markerEnd false
      (before ++ .inl first :: (during ++ .inl last :: after)) =
      some (lowAccesses (.inl first :: during ++ [.inl last])) := by
  have hflag : (false || first.addr == markerStart) = true := by simp [hfirst]
  rw [keptAccesses_skip hbefore, keptAccesses, hflag]
  rw [if_neg (hfirst ▸ hne), keptAccesses_flag hduring hlast]
  simp only [true_and, Option.map_some, lowAccesses, List.cons_append, List.filterMap_cons]
  split <;> simp_all

/-! ## Section 4: From the text to the misses -/

/-- The text of the tool. -/
def toolText (lines : List ToolLine) : List Char := (lines.map ToolLine.text).flatten

def ToolLine.line : ToolLine → CStr
  | .inl x => x.line
  | .inr m => m.line

theorem ToolLine.text_eq (l : ToolLine) : l.text = l.line ++ ['\n'] := by
  cases l <;> rfl

theorem ToolLine.one_line (l : ToolLine) :
    l.line.length < BUF_ROOM ∧ '\n' ∉ l.line ∧ '\x00' ∉ l.line := by
  cases l with
  | inl x =>
    have hlen := x.length_line
    refine ⟨show x.line.length < 999 by omega, ?_, ?_⟩
    · exact x.notMem_line (by decide) (by decide) (by decide) (by decide)
    · exact x.notMem_line (by decide) (by decide) (by decide) (by decide)
  | inr m => exact ⟨m.length, m.one_line⟩

theorem untilNul_line {line : CStr} (h : '\x00' ∉ line) :
    untilNul (line ++ ['\n']) = line ++ ['\n'] := by
  refine List.takeWhile_eq_self_iff.mpr fun c hc => ?_
  rcases List.mem_append.mp hc with hc | hc
  · simp only [ne_eq, decide_not, Bool.not_eq_eq_eq_not, Bool.not_true, decide_eq_false_iff_not]
    rintro rfl
    exact h hc
  · rw [List.mem_singleton.mp hc]
    rfl

/-- `fgets` reads the lines of the tool. -/
theorem lines_toolText (lines : List ToolLine) :
    (fgetsAll BUF_ROOM (toolText lines).length (toolText lines)).map untilNul =
      lines.map ToolLine.text := by
  have htext : lines.map ToolLine.text = (lines.map ToolLine.line).map (· ++ ['\n']) := by
    rw [List.map_map]
    exact List.map_congr_left fun l _ => l.text_eq
  have hfits : ∀ line ∈ lines.map ToolLine.line, line.length < BUF_ROOM ∧ '\n' ∉ line := by
    intro line hline
    obtain ⟨l, _, rfl⟩ := List.mem_map.mp hline
    exact ⟨l.one_line.1, l.one_line.2.1⟩
  unfold toolText
  rw [htext, fgetsAll_lines hfits (Nat.le_refl _), ← htext, List.map_map]
  refine List.map_congr_left fun l _ => ?_
  show untilNul l.text = l.text
  rw [l.text_eq, untilNul_line l.one_line.2.2]

theorem evalPerf_toolText (markerStart markerEnd : Addr) (lines : List ToolLine)
    (memory : Nat → CStr) :
    evalPerf markerStart markerEnd (toolText lines) memory =
      (keptAccesses markerStart markerEnd false lines).bind fun xs =>
        csim 5 1 5 (toolText (xs.map .inl)) memory := by
  unfold evalPerf
  rw [lines_toolText, partTrace_text]
  cases keptAccesses markerStart markerEnd false lines with
  | none => rfl
  | some xs =>
    show csim 5 1 5 (xs.map fun x => x.line ++ ['\n']).flatten memory =
        csim 5 1 5 (toolText (xs.map .inl)) memory
    rw [toolText, List.map_map]
    rfl

/-- `csim` hands on the lines without their newlines. -/
theorem csimLines_toolText (xs : List ToolAccess) :
    csimLines (toolText (xs.map .inl)) = xs.map ToolAccess.line := by
  have htext : toolText (xs.map .inl) = ((xs.map ToolAccess.line).map (· ++ ['\n'])).flatten := by
    rw [toolText, List.map_map, List.map_map]
    rfl
  -- a line of the tool fits into `line`, so `fgets` does not split it
  have hfits : ∀ line ∈ xs.map ToolAccess.line, line.length < LINE_ROOM ∧ '\n' ∉ line := by
    intro line hline
    obtain ⟨x, _, rfl⟩ := List.mem_map.mp hline
    have hlen := x.length_line
    exact ⟨show x.line.length < 255 by omega, (ToolLine.one_line (.inl x)).2.1⟩
  unfold csimLines
  rw [htext, fgetsAll_lines hfits (Nat.le_refl _), List.map_map]
  conv_rhs => rw [← List.map_id (xs.map ToolAccess.line)]
  refine List.map_congr_left fun line hline => ?_
  obtain ⟨x, _, rfl⟩ := List.mem_map.mp hline
  obtain ⟨_, (hnl : '\n' ∉ x.line), (hnul : '\x00' ∉ x.line)⟩ := ToolLine.one_line (.inl x)
  show strtokNewline (untilNul (x.line ++ ['\n'])) = x.line
  have hne : ∀ c ∈ x.line, decide (c ≠ '\n') = true := by
    intro c hc
    rw [decide_eq_true_iff]
    rintro rfl
    exact hnl hc
  rw [untilNul_line hnul, strtokNewline]
  show [] ++ (x.line ++ ['\n']).takeWhile (· ≠ '\n') = x.line
  rw [List.nil_append, List.takeWhile_append_of_pos hne]
  simp

/-- The memory behind the digits does not go on with a digit, nor with what
    would make a prefix of them. -/
def Stops (after : CStr) : Prop :=
  ∀ c, after.head? = some c → isxdigit c = false ∧ c ≠ 'x' ∧ c ≠ 'X'

theorem further_of_stops {hex after : CStr} (h : Stops after) : further hex after = [] := by
  cases after with
  | nil =>
    unfold further
    split <;> rfl
  | cons c after =>
    obtain ⟨hc, hx, hX⟩ := h c rfl
    have hskip : skipPrefix ('0' :: c :: after) = '0' :: c :: after := by
      unfold skipPrefix
      split
      · next heq =>
        obtain ⟨rfl, _⟩ := List.cons.inj (List.cons.inj heq).2
        exact (if_neg fun hprefix => hprefix.1.elim hx hX).trans heq.symm
      · rfl
    unfold further
    rw [if_neg fun hsingle => hsingle.2 hskip, List.takeWhile_cons_of_neg (by simp [hc])]

/-- `splitOneInst` reads the address of a line that is kept. -/
theorem splitOneInst_access (x : ToolAccess) (hlow : x.addr.toNat < 2 ^ 63) {after : CStr}
    (h : Stops after) :
    splitOneInst x.line after = some (x.op, x.addr) := by
  have hcomma : ',' ∉ x.hex := fun hmem => absurd (x.spells.digits ',' hmem) (by decide)
  unfold ToolAccess.line dataLine
  rw [splitOneInst_data hcomma, strtol16_spells x.spells, further_of_stops h]
  have hvalue : BitVec.ofInt 64 (min (2 ^ 63 - 1) ((hexadecimal x.addr.toNat [] : Nat) : Int)) =
      x.addr :=
    (ofInt_min_eq_iff (Nat.le_refl _)).mpr ⟨hlow, .inr rfl⟩
  rw [hvalue]

/-- The simulator counts the misses of the addresses. -/
theorem analyseAll_accesses {xs : List (ToolAccess × CStr)}
    (h : ∀ p ∈ xs, p.1.addr.toNat < 2 ^ 63 ∧ Stops p.2) :
    ∀ {sim : Simulation} {outcomes : List Outcome} {cache : Cache},
      accessAll sim.cache (xs.map fun p => p.1.addr) = some (outcomes, cache) →
        ∃ sim', analyseAll sim (xs.map fun p => (p.1.line, p.2)) = some sim' ∧
          sim'.miss = sim.miss + BitVec.ofNat 32 (misses outcomes) := by
  induction xs with
  | nil =>
    intro sim outcomes cache hrun
    cases hrun
    exact ⟨sim, rfl, (BitVec.add_zero _).symm⟩
  | cons p xs ih =>
    obtain ⟨x, after⟩ := p
    obtain ⟨⟨hlow, hstops⟩, hrest⟩ := List.forall_mem_cons.mp h
    intro sim outcomes cache hrun
    rw [List.map_cons, accessAll] at hrun
    cases haccess : accessMem sim.cache x.addr with
    | none => simp [haccess] at hrun
    | some r =>
      obtain ⟨res, cache₁⟩ := r
      simp only [haccess] at hrun
      obtain ⟨⟨outcomes₁, cache₂⟩, hrun₁, heq⟩ := Option.map_eq_some_iff.mp hrun
      cases heq
      have hop : x.op ≠ 'I' := by
        rcases x.is_op with h | h | h <;> rw [h] <;> decide
      -- the lines of the tool are short enough for the buffer, outcomes included
      have hfits : x.line.length + messageLength x.op res < STR_SIZE := by
        have hlen := x.length_line
        have hle := messageLength_le x.op res
        show _ < 80
        omega
      have hline := analyseOneLine_data (splitOneInst_access x hlow hstops) hop haccess
      rw [if_pos hfits] at hline
      obtain ⟨sim', hsim', hmiss⟩ := @ih hrest (counted sim x.op res cache₁) outcomes₁ cache₂ hrun₁
      refine ⟨sim', ?_, ?_⟩
      · rw [List.map_cons, analyseAll, hline]
        exact hsim'
      · rw [hmiss]
        show sim.miss + (if res = .HIT then 0 else 1) + _ =
            sim.miss + BitVec.ofNat 32 ((res :: outcomes₁).countP _)
        rw [List.countP_cons, BitVec.add_assoc]
        congr 1
        by_cases hhit : res = .HIT
        · simp [hhit, misses]
        · simp only [hhit, if_false, misses, ne_eq, not_false_eq_true, decide_true, if_true]
          rw [Nat.add_comm, BitVec.ofNat_add]
          rfl

/-! ## Section 5: A run of `transpose_submit` -/

/-- What the tool prints for a run with these accesses to the arrays: they
    are between the markers, behind the accesses of `main` that set up the
    call. There may be accesses to the stack anywhere. -/
structure Recording (a b : Nat) (accesses : List Addr) where
  markerStart : Addr
  markerEnd : Addr
  before : List ToolLine
  first : ToolAccess
  during : List ToolLine
  last : ToolAccess
  after : List ToolLine
  setup : List Addr
  rest : List Addr
  markers_ne : markerStart ≠ markerEnd
  first_marker : first.addr = markerStart
  last_marker : last.addr = markerEnd
  before_unmarked : ∀ x, .inl x ∈ before → x.addr ≠ markerStart ∧ x.addr ≠ markerEnd
  during_unmarked : ∀ x, .inl x ∈ during → x.addr ≠ markerEnd
  shown : (lowAccesses during).map ToolAccess.addr = setup ++ (accesses ++ rest)
  start_outside : Outside a b markerStart
  setup_outside : ∀ addr ∈ setup, Outside a b addr

namespace Recording

variable {a b : Nat} {accesses : List Addr} (r : Recording a b accesses)

def lines : List ToolLine := r.before ++ .inl r.first :: (r.during ++ .inl r.last :: r.after)

/-- The accesses between the markers that are not the function's, and the markers. -/
def others : Nat := r.setup.length + r.rest.length + 2

theorem lowAccesses_append (l l' : List ToolLine) :
    lowAccesses (l ++ l') = lowAccesses l ++ lowAccesses l' :=
  List.filterMap_append

theorem low_of_mem {lines : List ToolLine} {x : ToolAccess} (h : x ∈ lowAccesses lines) :
    x.addr.toNat < 2 ^ 63 := by
  obtain ⟨line, _, hline⟩ := List.mem_filterMap.mp h
  cases line with
  | inl y =>
    simp only at hline
    split at hline
    · next hlt =>
      cases hline
      exact Nat.lt_trans (BitVec.lt_def.mp hlt) (by decide)
    · cases hline
  | inr m => cases hline

theorem length_lowAccesses_singleton (x : ToolAccess) : (lowAccesses [.inl x]).length ≤ 1 := by
  simp only [lowAccesses, List.filterMap_cons, List.filterMap_nil]
  split <;> simp

/-- The simulator is given the accesses, and some before and after them. -/
theorem evalPerf_eq (memory : Nat → CStr) : ∃ xs : List ToolAccess, ∃ before after : List Addr,
    evalPerf r.markerStart r.markerEnd (toolText r.lines) memory =
      csim 5 1 5 (toolText (xs.map .inl)) memory ∧
      xs.map ToolAccess.addr = before ++ (accesses ++ after) ∧ (∀ x ∈ xs, x.addr.toNat < 2 ^ 63) ∧
      (∀ addr ∈ before, Outside a b addr) ∧ before.length + after.length ≤ r.others := by
  -- what is between the markers is kept, and the markers with it
  have hkept := keptAccesses_marked r.before_unmarked r.first_marker r.markers_ne r.during_unmarked
    r.last_marker r.after
  refine ⟨lowAccesses (.inl r.first :: r.during ++ [.inl r.last]),
    (lowAccesses [.inl r.first]).map ToolAccess.addr ++ r.setup,
    r.rest ++ (lowAccesses [.inl r.last]).map ToolAccess.addr, ?_, ?_, fun x => low_of_mem, ?_, ?_⟩
  · rw [evalPerf_toolText, lines, hkept, Option.bind_some]
  · rw [List.cons_append, ← List.singleton_append, lowAccesses_append, lowAccesses_append,
      List.map_append, List.map_append,
      r.shown]
    simp only [List.append_assoc]
  · intro addr haddr
    rcases List.mem_append.mp haddr with hfirst | hsetup
    · obtain ⟨x, hx, rfl⟩ := List.mem_map.mp hfirst
      obtain ⟨line, hline, hlow⟩ := List.mem_filterMap.mp hx
      rw [List.mem_singleton.mp hline] at hlow
      simp only at hlow
      split at hlow
      · cases hlow
        rw [r.first_marker]
        exact r.start_outside
      · cases hlow
    · exact r.setup_outside addr hsetup
  · have hfirst := length_lowAccesses_singleton r.first
    have hlast := length_lowAccesses_singleton r.last
    rw [List.length_append, List.length_append, List.length_map, List.length_map, others]
    omega

end Recording

/-- The simulator on accesses to the arrays, among others. -/
theorem csim_toolText {M N a b : Nat} (hsize : Covered M N) (hM : M ≤ 256) (hN : N ≤ 256)
    (p : Placement a b) {xs : List ToolAccess} {before after : List Addr}
    (hxs : xs.map ToolAccess.addr =
      before ++ ((submitAccesses M N).map (Access.addr a b M N) ++ after))
    (hlow : ∀ x ∈ xs, x.addr.toNat < 2 ^ 63) (hbefore : ∀ addr ∈ before, Outside a b addr)
    {memory : Nat → CStr} (hmemory : ∀ i, Stops (memory i)) :
    ∃ sim others, csim 5 1 5 (toolText (xs.map .inl)) memory = some sim ∧
      sim.miss = BitVec.ofNat 32 (standardMisses M N + others) ∧
        others ≤ before.length + after.length := by
  have hs : 5 ≤ 30 := by decide
  have hlines : ((xs.map ToolAccess.line).mapIdx fun i line => (line, memory i)) =
      (xs.mapIdx fun i x => (x, memory i)).map fun q => (q.1.line, q.2) := by
    refine List.mapIdx_eq_iff.mpr fun i => ?_
    cases hi : xs[i]? <;> simp [hi]
  have haddrs : ((xs.mapIdx fun i x => (x, memory i)).map fun q => q.1.addr) =
      xs.map ToolAccess.addr := by
    refine List.ext_getElem? fun i => ?_
    cases hi : xs[i]? <;> simp [hi]
  have hall : ∀ q ∈ xs.mapIdx fun i x => (x, memory i), q.1.addr.toNat < 2 ^ 63 ∧ Stops q.2 := by
    intro q hq
    obtain ⟨i, hi, rfl⟩ := List.mem_mapIdx.mp hq
    exact ⟨hlow _ (List.getElem_mem hi), hmemory i⟩
  obtain ⟨outcomes, cache, hrun, _, hmisses⟩ :=
    misses_accessAll hs (xs.map ToolAccess.addr) (tracks_createCache hs 5 1)
  obtain ⟨sim, hsim, hmiss⟩ :=
    @analyseAll_accesses _ hall (startSimulation 5 1 5) outcomes cache (haddrs ▸ hrun)
  -- each access before or after those of the transposition adds one miss at most
  have hcount : ∃ others, misses outcomes = standardMisses M N + others ∧
      others ≤ before.length + after.length := by
    rw [hmisses, hxs, List.map_append, List.map_append, DirectMapped.misses_append,
      DirectMapped.misses_append, after_lastOf,
      List.nil_append, misses_submitAccesses hsize hM hN p hbefore]
    refine ⟨_, Nat.add_left_comm _ _ _, ?_⟩
    refine Nat.add_le_add ?_ ?_
    · exact Nat.le_trans (DirectMapped.misses_le_length _ _ _) (by rw [List.length_map])
    · exact Nat.le_trans (DirectMapped.misses_le_length _ _ _) (by rw [List.length_map])
  obtain ⟨others, heq, hle⟩ := hcount
  refine ⟨sim, others, ?_, ?_, hle⟩
  · rw [csim, csimLines_toolText, hlines]
    exact hsim
  · rw [hmiss, heq]
    exact BitVec.zero_add _

/-- The sizes that the driver grades, and the misses up to which it gives all points. -/
def graded : List (Nat × Nat × Nat) := [(32, 32, 300), (64, 64, 1300), (61, 67, 2000)]

/-- The line of a load. -/
def loadLine (addr : Addr) : ToolAccess where
  op := 'L'
  addr := addr
  hex := hexText addr.toNat
  size := ['4']
  is_op := .inr (.inr rfl)
  spells := ⟨Nat.toDigits_ne_nil, (hexText_digits addr.toNat).1, (hexText_digits addr.toNat).2⟩
  hex_length := (Nat.length_toDigits_le_iff (by decide) (by decide)).mpr addr.isLt
  numeral := ⟨by decide, by decide⟩
  size_length := by decide

theorem lowAccesses_loadLine {accesses : List Addr} (h : ∀ addr ∈ accesses, addr < 0xffffffff) :
    (lowAccesses (accesses.map fun addr => Sum.inl (loadLine addr))).map ToolAccess.addr =
      accesses := by
  induction accesses with
  | nil => rfl
  | cons addr accesses ih =>
    obtain ⟨hlow, hrest⟩ := List.forall_mem_cons.mp h
    have hkept : lowAccesses ((addr :: accesses).map fun addr => Sum.inl (loadLine addr)) =
        loadLine addr :: lowAccesses (accesses.map fun addr => Sum.inl (loadLine addr)) := by
      show List.filterMap _ (Sum.inl (loadLine addr) :: _) = _
      exact List.filterMap_cons_some (if_pos hlow)
    rw [hkept, List.map_cons, ih hrest]
    rfl

/-- Nothing but the accesses and the markers. -/
def Recording.bare {a b : Nat} {accesses : List Addr} (markerStart markerEnd : Addr)
    (hne : markerStart ≠ markerEnd) (hstart : Outside a b markerStart)
    (h : ∀ addr ∈ accesses, addr < 0xffffffff ∧ addr ≠ markerEnd) :
    Recording a b accesses where
  markerStart := markerStart
  markerEnd := markerEnd
  before := []
  first := loadLine markerStart
  during := accesses.map fun addr => .inl (loadLine addr)
  last := loadLine markerEnd
  after := []
  setup := []
  rest := []
  markers_ne := hne
  first_marker := rfl
  last_marker := rfl
  before_unmarked := fun _ hx => absurd hx List.not_mem_nil
  during_unmarked := by
    intro x hx
    obtain ⟨addr, haddr, heq⟩ := List.mem_map.mp hx
    cases heq
    exact (h addr haddr).2
  shown := by
    rw [lowAccesses_loadLine fun addr haddr => (h addr haddr).1, List.nil_append, List.append_nil]
  start_outside := hstart
  setup_outside := List.forall_mem_nil _

end CacheLab
