import CsappExperiments.CacheLab.Counters

/-! # Cache Lab: any file as a trace

    The loop of `csim.c`, over a file with any content, and what it hands to
    `analyseOneLine`. Neither `splitOneInst` nor `analyseOneLine` checks a
    line first: the scan for the comma stops nowhere else, and the buffer for
    the message takes 79 characters whatever has been read.

    `csim_in_bounds_iff` says which files the simulator survives.
-/

open CLib

namespace CacheLab

/-! ## Section 1: The loop of `main` -/

/-- A character array as a string. -/
def untilNul (chars : List Char) : CStr := chars.takeWhile (· ≠ '\x00')

/-- What `strtok(line, "\n")` leaves of the line: newlines in front of the
    first token stay, the one behind it is overwritten. -/
def strtokNewline (line : CStr) : CStr :=
  line.takeWhile (· = '\n') ++ (line.dropWhile (· = '\n')).takeWhile (· ≠ '\n')

/-- `char line[256]`, without the NUL. -/
def LINE_ROOM : Nat := 255

/-- The lines that `main` hands to `analyseOneLine`. -/
def csimLines (content : List Char) : List CStr :=
  (fgetsAll LINE_ROOM content.length content).map fun chars => strtokNewline (untilNul chars)

/-- `main` of `csim.c`, on a file with this content. `memory i` is what the
    memory behind the digits of the line of index `i` holds. -/
def csim (s E b : Nat) (content : List Char) (memory : Nat → CStr) : Option Simulation :=
  analyseAll (startSimulation s E b) ((csimLines content).mapIdx fun i line => (line, memory i))

/-! ## Section 2: One line -/

/-- The address on a line, as `strtol` reads it. -/
def addressOf (line after : CStr) : Addr :=
  BitVec.ofInt 64 (strtol16 ((line.drop 3).takeWhile (· ≠ ',') ++ after))

/-- The line is an instruction, or it has a comma behind its third character
    and its message fits, if there is one. -/
def InBounds (sim : Simulation) (l after : CStr) : Prop :=
  l[0]? = some 'I' ∨
    ',' ∈ l.drop 3 ∧
      ∀ op ∈ l[1]?, op ≠ 'I' →
        l.length + messageLength op (predicted sim.cache (addressOf l after)) < STR_SIZE

theorem untilComma_eq (l : CStr) :
    untilComma l = if ',' ∈ l then some (l.takeWhile (· ≠ ',')) else none := by
  induction l with
  | nil => rfl
  | cons c l ih =>
    rw [untilComma, ih]
    by_cases hc : c = ','
    · simp [hc]
    · by_cases hl : ',' ∈ l <;> simp [hc, hl, Ne.symm hc]

/-- `splitOneInst` reads the operation and the address, if the scan ends. -/
theorem splitOneInst_eq {l : CStr} (hI : l[0]? ≠ some 'I') (after : CStr) :
    splitOneInst l after =
      if ',' ∈ l.drop 3 then l[1]?.map fun op => (op, addressOf l after) else none := by
  match l with
  | [] | [_] | [_, _] => unfold splitOneInst; split <;> simp_all
  | c :: op :: x :: rest =>
    have hc : c ≠ 'I' := fun heq => hI (by rw [heq]; rfl)
    unfold splitOneInst
    split
    · next heq => exact absurd (List.cons.inj heq).1 hc
    · next heq =>
      simp only [List.cons.injEq] at heq
      obtain ⟨_, rfl, _, rfl⟩ := heq
      rw [untilComma_eq]
      unfold addressOf
      by_cases hcomma : ',' ∈ rest <;> simp [hcomma]
    · next hno => exact absurd rfl (hno _ _ _ _)

/-- One line: it is processed when it is in bounds, and not otherwise. -/
theorem analyseOneLine_inBounds {s E b : Nat} (hs : s ≤ 30) {sim : Simulation}
    (hcache : Geometry s E b sim.cache) (l after : CStr) :
    (InBounds sim l after → ∃ sim', analyseOneLine sim l after = some sim' ∧
      Geometry s E b sim'.cache) ∧
      (¬ InBounds sim l after → analyseOneLine sim l after = none) := by
  by_cases hI : l[0]? = some 'I'
  · obtain ⟨rest, rfl⟩ : ∃ rest, l = 'I' :: rest := by
      cases l with
      | nil => cases hI
      | cons c rest => exact ⟨rest, by rw [Option.some.inj hI]⟩
    exact ⟨fun _ => ⟨sim, rfl, hcache⟩, fun hnot => absurd (.inl hI) hnot⟩
  -- the address ends at a comma; a line without one is read beyond its end
  have hsplit := splitOneInst_eq hI after
  by_cases hcomma : ',' ∈ l.drop 3
  · obtain ⟨op, hop⟩ : ∃ op, l[1]? = some op := by
      have hlen := List.length_pos_of_mem hcomma
      rw [List.length_drop] at hlen
      exact ⟨_, List.getElem?_eq_getElem (by omega)⟩
    rw [if_pos hcomma, hop, Option.map_some] at hsplit
    have hiff : InBounds sim l after ↔
        (op ≠ 'I' →
          l.length + messageLength op (predicted sim.cache (addressOf l after)) < STR_SIZE) := by
      simp [InBounds, hI, hcomma, hop]
    rw [hiff]
    by_cases hopI : op = 'I'
    · have hsame : analyseOneLine sim l after = some sim := by
        simp [analyseOneLine, hsplit, hopI]
      exact ⟨fun _ => ⟨sim, hsame, hcache⟩, fun hnot => absurd (fun hne => absurd hopI hne) hnot⟩
    · obtain ⟨res, cache, haccess, hcache'⟩ := hcache.accessMem hs (addressOf l after)
      rw [analyseOneLine_data hsplit hopI haccess, predicted_eq haccess]
      constructor
      · intro hfits
        exact ⟨_, if_pos (hfits hopI), hcache'⟩
      · intro hnot
        exact if_neg fun hfits => hnot fun _ => hfits
  · rw [if_neg hcomma] at hsplit
    constructor
    · rintro (h | h)
      · exact absurd h hI
      · exact absurd h.1 hcomma
    · intro _
      simp [analyseOneLine, hsplit]

/-! ## Section 3: Whole files -/

/-- Every line is in bounds, in the state that the lines before it have led to. -/
def AllInBounds (sim : Simulation) : List (CStr × CStr) → Prop
  | [] => True
  | (l, after) :: lines =>
    InBounds sim l after ∧ ∀ sim', analyseOneLine sim l after = some sim' → AllInBounds sim' lines

theorem analyseAll_inBounds {s E b : Nat} (hs : s ≤ 30) {sim : Simulation}
    (hcache : Geometry s E b sim.cache) (lines : List (CStr × CStr)) :
    (∃ sim', analyseAll sim lines = some sim') ↔ AllInBounds sim lines := by
  induction lines generalizing sim with
  | nil => exact iff_of_true ⟨sim, rfl⟩ trivial
  | cons entry lines ih =>
    obtain ⟨l, after⟩ := entry
    obtain ⟨hyes, hno⟩ := analyseOneLine_inBounds hs hcache l after
    by_cases hline : InBounds sim l after
    · obtain ⟨sim₁, hsim₁, hcache₁⟩ := hyes hline
      simp only [analyseAll, hsim₁, Option.bind_some, AllInBounds, Option.some_inj, forall_eq',
        hline, true_and]
      exact ih hcache₁
    · simp [analyseAll, hno hline, AllInBounds, hline]

/-- The simulator on any file. With a geometry that `createCache` can build,
    `csim` reads no line beyond its end and writes no message beyond the
    buffer, and so processes the whole file, exactly when every line that it
    reads is an instruction, or has a comma behind its third character and a
    message that fits. -/
theorem csim_in_bounds_iff {s : Nat} (hs : s ≤ 30) (E b : Nat) (content : List Char)
    (memory : Nat → CStr) :
    (∃ sim, csim s E b content memory = some sim) ↔
      AllInBounds (startSimulation s E b)
        ((csimLines content).mapIdx fun i line => (line, memory i)) :=
  analyseAll_inBounds hs (geometry_createCache hs E b) _

/-- A file of two lines, the second one an instruction. -/
def sampleFile : List Char :=
  [' ', 'L', ' ', '1', '0', ',', '1', '\n', 'I', ' ', ' ', '4', ',', '5', '\n']

theorem csim_in_bounds_run :
    AllInBounds (startSimulation 0 1 4)
      ((csimLines sampleFile).mapIdx fun _ line => (line, [])) := by
  have hrun : (csim 0 1 4 sampleFile fun _ => []).isSome = true := by decide +kernel
  exact (csim_in_bounds_iff (s := 0) (by decide) 1 4 sampleFile fun _ => []).mp
    (Option.isSome_iff_exists.mp hrun)

/-- An empty line has no comma, and a line of 80 characters is too long for
    its message. -/
theorem csim_leaves_bounds :
    csim 0 1 0 ['\n'] (fun _ => []) = none ∧
      csim 0 1 0 (paddedLine ++ ['\n']) (fun _ => []) = none := by
  decide +kernel

end CacheLab
