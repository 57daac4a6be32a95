import CsappExperiments.CacheLab.Lru

/-! # Cache Lab: the two loops over the lines of a set

    `hitCacheLine` carries the tag that it has displaced, and ends when this
    is the tag that was hit; `addCacheLine` shifts a fixed number of tags.
    Both are stated here for arbitrary lines, whatever their flags are.

    `move_to_front` says which lines the loops touch and what they leave there.
-/

namespace CacheLab

/-! ## Section 1: What the loops leave -/

/-- `hitCacheLine` moves the first line with the tag to the front of the tags,
    keeps all flags, and does not look at what comes after this line. -/
def HitMoves (set : CacheSet) (t : Tag) : Prop :=
  ∃ before line rest lines, set.lines = before ++ line :: rest ∧ (∀ l ∈ before, l.tag ≠ t) ∧
    line.tag = t ∧
    (∀ others, hitLoop t t (before ++ line :: others) = some (lines ++ others)) ∧
    hitCacheLine set t = some { set with lines := lines ++ rest } ∧
    lines.map CacheLine.tag = t :: before.map CacheLine.tag ∧
    lines.map CacheLine.valid = (before ++ [line]).map CacheLine.valid

/-- `addCacheLine` puts the tag in front of those in use, and drops the last
    one when the set is full. -/
def AddShifts (set : CacheSet) (t : Tag) : Prop :=
  ∃ lines, addCacheLine set t = some
      { set with
        lines := lines ++ set.lines.drop (min (set.size + 1) set.capacity)
        size := min (set.size + 1) set.capacity } ∧
    lines.map CacheLine.tag =
      (t :: (set.lines.take set.size).map CacheLine.tag).take (min (set.size + 1) set.capacity) ∧
    lines.length = min (set.size + 1) set.capacity ∧ ∀ l ∈ lines, l.valid = 1

/-! ## Section 2: The loops -/

/-- The loop of `hitCacheLine`, up to the first line with the tag. Every line
    gets the tag that was in front of it, and what follows is not looked at. -/
theorem hitLoop_shift {t : Tag} {before : List CacheLine} {line : CacheLine}
    (hbefore : ∀ l ∈ before, l.tag ≠ t) (hline : line.tag = t) (hold : Tag) :
    ∃ lines, (∀ rest, hitLoop t hold (before ++ line :: rest) = some (lines ++ rest)) ∧
      lines.map CacheLine.tag = hold :: before.map CacheLine.tag ∧
      lines.map CacheLine.valid = (before ++ [line]).map CacheLine.valid := by
  induction before generalizing hold with
  | nil =>
    refine ⟨[{ line with tag := hold }], ?_, rfl, rfl⟩
    intro rest
    rw [List.nil_append, hitLoop, if_pos hline]
    rfl
  | cons p before ih =>
    have hp : p.tag ≠ t := hbefore p List.mem_cons_self
    obtain ⟨lines, hrun, htags, hvalid⟩ :=
      ih (fun l hl => hbefore l (List.mem_cons_of_mem p hl)) p.tag
    refine ⟨{ p with tag := hold } :: lines, ?_, ?_, ?_⟩
    · intro rest
      rw [List.cons_append, hitLoop, if_neg hp, hrun]
      rfl
    · rw [List.map_cons, htags]
      rfl
    · rw [List.map_cons, hvalid]
      rfl

theorem hitCacheLine_moves {set : CacheSet} {t : Tag} (ht : t ∈ set.lines.map CacheLine.tag) :
    HitMoves set t := by
  obtain ⟨pre, post, hsplit, hpre⟩ := List.eq_append_cons_of_mem ht
  obtain ⟨before, rest', hlines, rfl, hrest⟩ := List.map_eq_append_iff.mp hsplit
  obtain ⟨line, rest, rfl, hline, rfl⟩ := List.map_eq_cons_iff.mp hrest
  have hbefore : ∀ l ∈ before, l.tag ≠ t := by
    intro l hl heq
    exact hpre (List.mem_map.mpr ⟨l, hl, heq⟩)
  obtain ⟨lines, hrun, htags, hvalid⟩ := hitLoop_shift hbefore hline t
  refine ⟨before, line, rest, lines, hlines, hbefore, hline, hrun, ?_, htags, hvalid⟩
  rw [hitCacheLine, hlines, hrun]
  rfl

theorem addCacheLine_shifts {set : CacheSet} (hsize : set.size ≤ set.capacity)
    (hcap : set.capacity ≤ set.lines.length) (t : Tag) : AddShifts set t := by
  have hn : (if set.size < set.capacity then set.size + 1 else set.size) =
      min (set.size + 1) set.capacity := by
    split <;> omega
  have hle : min (set.size + 1) set.capacity ≤ set.lines.length := by omega
  -- the loop reads the tags of the first lines only
  have htags : (t :: set.lines.map CacheLine.tag).take (min (set.size + 1) set.capacity) =
      (t :: (set.lines.take set.size).map CacheLine.tag).take
        (min (set.size + 1) set.capacity) := by
    rw [List.map_take, ← List.take_succ_cons, List.take_take, Nat.min_eq_left (Nat.min_le_left _ _)]
  refine ⟨((t :: set.lines.map CacheLine.tag).take (min (set.size + 1) set.capacity)).map validLine,
    ?_, ?_, ?_, ?_⟩
  · show (addLoop (if set.size < set.capacity then set.size + 1 else set.size) t set.lines).map
      (fun lines => { set with
        lines := lines
        size := if set.size < set.capacity then set.size + 1 else set.size }) = _
    rw [hn, addLoop_eq _ t set.lines hle]
    rfl
  · rw [List.map_map, htags]
    exact List.map_id _
  · rw [List.length_map, List.length_take, List.length_cons, List.length_map]
    omega
  · intro l hl
    obtain ⟨tag, _, rfl⟩ := List.mem_map.mp hl
    rfl

/-- The loops of any set move tags to the front: for every tag that occurs in
    the array, and, in a set with `size <= capacity`, for every new tag. -/
theorem move_to_front (set : CacheSet) (t : Tag) :
    (t ∈ set.lines.map CacheLine.tag → HitMoves set t) ∧
      (set.size ≤ set.capacity → set.capacity ≤ set.lines.length → AddShifts set t) :=
  ⟨hitCacheLine_moves, fun hsize hcap => addCacheLine_shifts hsize hcap t⟩

/-- Three lines of which two are in use. -/
theorem move_to_front_two_of_three :
    HitMoves ⟨[⟨1, 7⟩, ⟨1, 9⟩, ⟨INVALID, INVALID⟩], 3, 2⟩ 9 ∧
      AddShifts ⟨[⟨1, 7⟩, ⟨1, 9⟩, ⟨INVALID, INVALID⟩], 3, 2⟩ 4 :=
  ⟨(move_to_front _ 9).1 (by decide), (move_to_front _ 4).2 (by decide) (by decide)⟩

end CacheLab
