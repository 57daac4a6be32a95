import CsappExperiments.CacheLab.MoveToFront
import CsappExperiments.Framework.System

/-! # Cache Lab: what every set looks like

    The simulator as a transition system whose steps are the calls of
    `accessMem`. In every reachable state the valid lines of a set come first
    and have different tags (`WellFormed`).

    No function checks that. The loop of `hitCacheLine` does not look at the
    valid flags either, nor at the end of the array: it stops at the first
    line that has the tag. In a well formed set this is the line that the
    matching loop of `accessMem` has found (`StopsAt`), whatever the tag is.
-/

open LTS Recency

namespace CacheLab

/-! ## Section 1: Well formed sets -/

/-- The simulator. -/
def simulator (s E b : Nat) : System Cache Addr where
  init := createCache s E b
  step := fun cache addr => (accessMem cache addr).map Prod.snd

/-- A set with `E` lines. -/
structure Shaped (E : Nat) (set : CacheSet) : Prop where
  capacity : set.capacity = E
  lines : set.lines.length = E
  size : set.size ≤ E

/-- The first `size` lines are in use, the others are as `initCacheSet` left them. -/
structure WellFormed (E : Nat) (set : CacheSet) : Prop extends Shaped E set where
  valid : ∀ line ∈ set.lines.take set.size, line.valid = 1#32
  distinct : ((set.lines.take set.size).map CacheLine.tag).Nodup
  unused : ∀ line ∈ set.lines.drop set.size, line.valid = INVALID ∧ line.tag = INVALID

theorem take_setOf (E : Nat) (tags : List Tag) :
    (setOf E tags).lines.take (setOf E tags).size = tags.map validLine := by
  show (tags.map validLine ++ _).take tags.length = _
  rw [List.take_append_of_le_length (by simp), List.take_of_length_le (by simp)]

theorem drop_setOf (E : Nat) (tags : List Tag) :
    (setOf E tags).lines.drop (setOf E tags).size =
      List.replicate (E - tags.length) invalidLine := by
  show (tags.map validLine ++ _).drop tags.length = _
  rw [List.drop_append, List.drop_eq_nil_of_le (by simp)]
  simp

theorem wellFormed_setOf {E : Nat} {tags : List Tag} (hlen : tags.length ≤ E)
    (hnodup : tags.Nodup) :
    WellFormed E (setOf E tags) where
  capacity := rfl
  lines := by
    simp only [setOf, List.length_append, List.length_map, List.length_replicate]
    omega
  size := hlen
  valid := by
    intro line hline
    rw [take_setOf] at hline
    obtain ⟨tag, _, rfl⟩ := List.mem_map.mp hline
    rfl
  distinct := by
    have hmap : (tags.map validLine).map CacheLine.tag = tags := by
      simp [Function.comp_def, validLine]
    rw [take_setOf, hmap]
    exact hnodup
  unused := by
    intro line hline
    rw [drop_setOf] at hline
    rw [List.eq_of_mem_replicate hline]
    exact ⟨rfl, rfl⟩

/-! ## Section 2: The loop of `hitCacheLine` -/

/-- The loop of `hitCacheLine` ends at line `k` of the set, which is the one
    line in use that has the tag, and does not touch the lines after it. -/
structure StopsAt (set : CacheSet) (tag : Tag) (k : Nat) : Prop where
  inUse : k < set.size
  unique : ∀ j line, j < set.size → set.lines[j]? = some line → (line.tag = tag ↔ j = k)
  -- on the lines before `k` alone it runs past the end
  running : hitLoop tag tag (set.lines.take k) = none
  stops : ∃ lines, hitLoop tag tag (set.lines.take (k + 1)) = some lines ∧
    hitCacheLine set tag = some { set with lines := lines ++ set.lines.drop (k + 1) }

theorem hitLoop_eq_none {t : Tag} {lines : List CacheLine} (h : ∀ line ∈ lines, line.tag ≠ t)
    (hold : Tag) :
    hitLoop t hold lines = none := by
  induction lines generalizing hold with
  | nil => rfl
  | cons p rest ih =>
    have hp : p.tag ≠ t := h p List.mem_cons_self
    rw [hitLoop, if_neg hp, ih fun line hline => h line (List.mem_cons_of_mem p hline)]
    rfl

/-- Two lines in use that have the same tag are the same line. -/
theorem WellFormed.tag_eq_iff {E : Nat} {set : CacheSet} (h : WellFormed E set) {j k : Nat}
    {line line' : CacheLine} (hj : j < set.size) (hk : k < set.size)
    (hline : set.lines[j]? = some line) (hline' : set.lines[k]? = some line') :
    line.tag = line'.tag ↔ j = k := by
  have hget : ∀ i line, i < set.size → set.lines[i]? = some line →
      ((set.lines.take set.size).map CacheLine.tag)[i]? = some line.tag := by
    intro i line hi hget
    rw [List.getElem?_map, List.getElem?_take_of_lt hi, hget]
    rfl
  have hlen : j < ((set.lines.take set.size).map CacheLine.tag).length := by
    rw [List.length_map, List.length_take, h.lines]
    exact Nat.lt_min.mpr ⟨hj, Nat.lt_of_lt_of_le hj h.size⟩
  rw [← Option.some_inj, ← hget j line hj hline, ← hget k line' hk hline']
  exact List.getElem?_inj hlen h.distinct

/-- In a well formed set with a matching line, the loop stops at this line. -/
theorem WellFormed.stopsAt {E : Nat} {set : CacheSet} (h : WellFormed E set) {tag : Tag}
    (htag : tag ∈ (set.lines.take set.size).map CacheLine.tag) : ∃ k, StopsAt set tag k := by
  obtain ⟨pre, post, hsplit, hpre⟩ := List.eq_append_cons_of_mem htag
  obtain ⟨before, rest, huse, rfl, hrest⟩ := List.map_eq_append_iff.mp hsplit
  obtain ⟨line, after, rfl, hline, rfl⟩ := List.map_eq_cons_iff.mp hrest
  -- the lines of the set are those before, the one, those after it, and the unused ones
  have hlines : set.lines = before ++ line :: (after ++ set.lines.drop set.size) := by
    conv_lhs => rw [← List.take_append_drop set.size set.lines, huse]
    simp
  have hsize : before.length < set.size := by
    have hlen := List.length_take_le set.size set.lines
    rw [huse] at hlen
    simp at hlen
    omega
  refine ⟨before.length, hsize, ?_, ?_, ?_⟩
  · intro j line' hj hj'
    have hk : set.lines[before.length]? = some line := by
      rw [hlines]
      simp
    rw [← hline]
    exact h.tag_eq_iff hj hsize hj' hk
  · have htake : set.lines.take before.length = before := by
      rw [hlines]
      simp
    rw [htake]
    exact hitLoop_eq_none (fun line' hline' heq => hpre (List.mem_map.mpr ⟨line', hline', heq⟩)) tag
  · have htake : set.lines.take (before.length + 1) = before ++ [line] := by
      rw [hlines, List.take_length_add_append]
      simp
    have hbefore : ∀ l ∈ before, l.tag ≠ tag := by
      intro l hl heq
      exact hpre (List.mem_map.mpr ⟨l, hl, heq⟩)
    obtain ⟨lines, hrun, _, _⟩ := hitLoop_shift hbefore hline tag
    refine ⟨lines, by rw [htake, hrun, List.append_nil], ?_⟩
    have hfull := hrun (set.lines.drop (before.length + 1))
    rw [List.append_cons, ← htake, List.take_append_drop] at hfull
    rw [hitCacheLine, hfull]
    rfl

/-! ## Section 3: Reachable states -/

theorem accessMem_length {cache cache' : Cache} {addr : Addr} {res : Outcome}
    (h : accessMem cache addr = some (res, cache')) :
    cache'.cacheSets.length = cache.cacheSets.length := by
  obtain ⟨_, _, _, _, _, _, _, rfl⟩ := accessMem_cases h
  exact List.length_set

/-- A reachable state is the state after some history. -/
theorem reachable_tracks {s E b : Nat} (hs : s ≤ 30) (hE : 1 ≤ E) {cache : Cache}
    (h : (simulator s E b).Reachable cache) :
    cache.cacheSets.length = 2 ^ s ∧ ∃ past, Tracks s b E past cache := by
  refine h.invariant (P := fun cache => cache.cacheSets.length = 2 ^ s ∧
    ∃ past, Tracks s b E past cache) ?_ ?_
  · refine ⟨?_, [], tracks_createCache hs b E⟩
    show (List.replicate (intPow 2 s).toNat (initCacheSet E)).length = 2 ^ s
    rw [List.length_replicate, intPow_two hs]
  · intro cache addr cache' _ ⟨hlen, past, htracks⟩ hstep
    obtain ⟨cache'', hrun, htracks'⟩ := accessMem_tracks hs hE htracks addr
    have hcache : cache'' = cache' := by
      have hmap : (accessMem cache addr).map Prod.snd = some cache' := hstep
      rw [hrun] at hmap
      simpa using hmap
    rw [← hcache]
    exact ⟨(accessMem_length hrun).trans hlen, _, htracks'⟩

theorem Tracks.wellFormed {s b E : Nat} (hs : s ≤ 30) {past : List Key} {cache : Cache}
    (h : Tracks s b E past cache) (hlen : cache.cacheSets.length = 2 ^ s) :
    ∀ set ∈ cache.cacheSets, WellFormed E set := by
  intro set hmem
  obtain ⟨i, hi, hget⟩ := List.getElem_of_mem hmem
  have hpow : 2 ^ s ≤ 2 ^ 30 := Nat.pow_le_pow_right (by decide) hs
  have hi' : (BitVec.ofNat 32 i).toNat = i := by
    rw [BitVec.toNat_ofNat]
    omega
  have htracked := h.sets (BitVec.ofNat 32 i) (by omega)
  rw [hi', List.getElem?_eq_getElem hi, Option.some_inj, hget] at htracked
  rw [htracked]
  exact wellFormed_setOf (length_resident_le E past _) (nodup_resident E past _)

/-- The representation invariant. In every reachable state there are `2 ^ s`
    sets, and all of them are well formed. An access finds its set, whatever
    the address is, and does not fail. When the tag is matched, the loop of
    `hitCacheLine` stops at the line that has it. -/
theorem reachable_wellFormed {s E : Nat} (hs : s ≤ 30) (hE : 1 ≤ E) (b : Nat) {cache : Cache}
    (h : (simulator s E b).Reachable cache) :
    cache.cacheSets.length = 2 ^ s ∧ (∀ set ∈ cache.cacheSets, WellFormed E set) ∧
    ∀ addr setIndex tagIndex, splitAddr cache.offsetBits cache.setBits addr = (setIndex, tagIndex) →
      ∃ set res cache', cache.cacheSets[setIndex.toNat]? = some set ∧
        accessMem cache addr = some (res, cache') ∧
        (matchLoop set.capacity tagIndex set.lines = some true → ∃ k, StopsAt set tagIndex k) := by
  obtain ⟨hlen, past, htracks⟩ := reachable_tracks hs hE h
  refine ⟨hlen, htracks.wellFormed hs hlen, ?_⟩
  intro addr setIndex tagIndex hsplit
  rw [htracks.offsetBits, htracks.setBits] at hsplit
  have hlt : setIndex.toNat < 2 ^ s := by
    have hrange := splitAddr_lt hs b addr
    rwa [hsplit] at hrange
  obtain ⟨cache', hrun, _⟩ := accessMem_tracks hs hE htracks addr
  refine ⟨_, _, cache', htracks.sets setIndex hlt, hrun, ?_⟩
  intro hmatch
  have hwell := wellFormed_setOf (length_resident_le E past setIndex)
      (nodup_resident E past setIndex)
  apply hwell.stopsAt
  -- the matching loop finds tags of lines in use only
  have hle := length_resident_le E past setIndex
  have hfound := matchLoop_eq tagIndex (resident E past setIndex)
      (E - (resident E past setIndex).length)
  rw [Nat.add_sub_cancel' hle] at hfound
  have hmem : tagIndex ∈ resident E past setIndex := by
    have hdecide := hfound.symm.trans hmatch
    simpa using hdecide
  rw [take_setOf]
  exact List.mem_map.mpr ⟨validLine tagIndex, List.mem_map_of_mem hmem, rfl⟩

/-- A block whose tag is the constant `INVALID`, in a set with an unused line. -/
theorem reachable_wellFormed_run :
    ∃ cache set k, (simulator 0 2 0).Reachable cache ∧ cache.cacheSets[0]? = some set ∧
      WellFormed 2 set ∧
      StopsAt set INVALID k := by
  let set : CacheSet := ⟨[⟨1#32, INVALID⟩, ⟨INVALID, INVALID⟩], 2, 1⟩
  have hrun : (simulator 0 2 0).run (simulator 0 2 0).init [0x20150912#64] =
      some ⟨[set], 0, 0⟩ := by
    decide +kernel
  have hreach : (simulator 0 2 0).Reachable ⟨[set], 0, 0⟩ := System.Reachable.init.run _ hrun
  obtain ⟨_, hwell, hloop⟩ := reachable_wellFormed (by decide) (by decide) 0 hreach
  obtain ⟨set', _, _, hset', _, hstops⟩ := hloop 0x20150912#64 0#32 INVALID (by decide)
  obtain rfl : set = set' := by simpa using hset'
  obtain ⟨k, hk⟩ := hstops (by decide)
  exact ⟨⟨[set], 0, 0⟩, set, k, hreach, rfl, hwell set (by simp), hk⟩

end CacheLab
