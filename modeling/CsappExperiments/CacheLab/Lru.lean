import CsappExperiments.CacheLab.Cache
import CsappExperiments.Framework.Recency

/-! # Cache Lab: the simulator is an LRU cache

    `cache.c` keeps no time stamps. The lines of a set are an array whose
    order is the order of the last accesses: `hitCacheLine` rotates the
    matching line to the front, and `addCacheLine` shifts all lines down and
    loses the last one when the set is full.

    Each set of the simulator refines an LRU list (`accessSet_eq`), and the
    LRU lists are the recency stacks of the accesses to each set, cut to `E`
    elements (`Tracks`). This gives the meaning of every result over a whole
    trace in terms of the accesses alone (`access_outcomes`).
-/

open Recency

namespace CacheLab

/-! ## Section 1: One LRU list -/

section LruList

variable {α : Type*} [DecidableEq α]

/-- An access to an LRU list of capacity `E`. -/
def lruAccess (E : Nat) (a : α) (l : List α) : Outcome × List α :=
  if a ∈ l then (.HIT, touch a l)
  else (if l.length < E then .MISS else .EVICTION, (a :: l).take E)

theorem lruAccess_take_stack {E : Nat} (hE : 1 ≤ E) (h : List α) (a : α) :
    (lruAccess E a ((stack h).take E)).2 = (stack (h ++ [a])).take E := by
  rw [take_stack_append hE, lruAccess]
  split <;> rfl

/-- An injective renaming of the elements does not matter. -/
theorem lruAccess_map {β : Type*} [DecidableEq β] {f : α → β} {E : Nat} {a : α} {l : List α}
    (hf : ∀ b ∈ l, f b = f a → b = a) :
    lruAccess E (f a) (l.map f) = ((lruAccess E a l).1, (lruAccess E a l).2.map f) := by
  have hmem : f a ∈ l.map f ↔ a ∈ l := by
    constructor
    · intro h
      obtain ⟨b, hb, heq⟩ := List.mem_map.mp h
      rw [← hf b hb heq]
      exact hb
    · exact List.mem_map_of_mem
  -- the element that is moved is found under its image
  have herase : (l.map f).erase (f a) = (l.erase a).map f := by
    clear hmem
    induction l with
    | nil => rfl
    | cons b l ih =>
      have ih' := ih fun c hc => hf c (List.mem_cons_of_mem _ hc)
      by_cases hba : b = a
      · simp [hba]
      · have hne : f b ≠ f a := fun heq => hba (hf b List.mem_cons_self heq)
        rw [List.map_cons, List.erase_cons_tail (by simpa using hne),
          List.erase_cons_tail (by simpa using hba),
          ih', List.map_cons]
  unfold lruAccess
  by_cases ha : a ∈ l
  · rw [if_pos (hmem.mpr ha), if_pos ha, touch, herase]
    rfl
  · rw [if_neg (fun h => ha (hmem.mp h)), if_neg ha, List.length_map, ← List.map_cons,
      List.map_take]

end LruList

/-! ## Section 2: The sets of the simulator -/

/-- A line that holds a block. -/
def validLine (tag : Tag) : CacheLine := ⟨1#32, tag⟩

/-- A line as `initCacheSet` leaves it. -/
def invalidLine : CacheLine := ⟨INVALID, INVALID⟩

/-- The set of capacity `E` that holds the blocks `tags`, most recent first. -/
def setOf (E : Nat) (tags : List Tag) : CacheSet where
  lines := tags.map validLine ++ List.replicate (E - tags.length) invalidLine
  capacity := E
  size := tags.length

/-- The matching loop finds the tags of the valid lines. -/
theorem matchLoop_eq (t : Tag) (tags : List Tag) (m : Nat) :
    matchLoop (tags.length + m) t (tags.map validLine ++ List.replicate m invalidLine) =
      some (decide (t ∈ tags)) := by
  induction tags with
  | nil =>
    induction m with
    | zero => rfl
    | succ m ih =>
      have hinvalid : ¬ (invalidLine.valid ≠ INVALID ∧ invalidLine.tag = t) := fun h => h.1 rfl
      simp only [List.length_nil, Nat.zero_add, List.map_nil, List.nil_append] at ih ⊢
      rw [List.replicate_succ, matchLoop, if_neg hinvalid, ih]
  | cons u tags ih =>
    have hvalid : (validLine u).valid ≠ INVALID := by show 1#32 ≠ INVALID; decide
    rw [List.length_cons, Nat.add_right_comm, List.map_cons, List.cons_append, matchLoop]
    by_cases hut : u = t
    · rw [if_pos ⟨hvalid, hut⟩]
      simp [hut]
    · rw [if_neg fun h => hut h.2, ih]
      simp [Ne.symm hut]

/-- The shift of `hitCacheLine` ends at the line that was hit. -/
theorem hitLoop_eq {t : Tag} {tags : List Tag} (ht : t ∈ tags) (hold : Tag)
    (rest : List CacheLine) :
    hitLoop t hold (tags.map validLine ++ rest) =
      some ((hold :: tags.erase t).map validLine ++ rest) := by
  induction tags generalizing hold with
  | nil => cases ht
  | cons u tags ih =>
    rw [List.map_cons, List.cons_append, hitLoop]
    by_cases hut : u = t
    · have htag : (validLine u).tag = t := hut
      rw [if_pos htag, hut, List.erase_cons_head]
      rfl
    · have htag : ¬ (validLine u).tag = t := hut
      have ht' : t ∈ tags := by simpa [Ne.symm hut] using ht
      rw [if_neg htag, ih ht', List.erase_cons_tail (by simpa using hut)]
      rfl

/-- The shift of `addCacheLine` fills the first `n` lines. -/
theorem addLoop_eq (n : Nat) (t : Tag) (lines : List CacheLine) (hn : n ≤ lines.length) :
    addLoop n t lines =
      some (((t :: lines.map CacheLine.tag).take n).map validLine ++ lines.drop n) := by
  induction n generalizing t lines with
  | zero => rfl
  | succ n ih =>
    cases lines with
    | nil => simp at hn
    | cons p lines =>
      have hn' : n ≤ lines.length := by simpa using hn
      rw [addLoop, ih p.tag lines hn']
      rfl

theorem hitCacheLine_setOf {E : Nat} {tags : List Tag} {t : Tag} (ht : t ∈ tags) :
    hitCacheLine (setOf E tags) t = some (setOf E (touch t tags)) := by
  have hlen : (tags.erase t).length + 1 = tags.length := length_touch_of_mem ht
  show (hitLoop t t (tags.map validLine ++ _)).map _ = _
  rw [hitLoop_eq ht]
  simp [setOf, touch, hlen]

/-- `addCacheLine` shifts one more line while the set is not full, and all of
    them when it is. -/
theorem addCacheLine_setOf {E : Nat} {tags : List Tag} (hlen : tags.length ≤ E) (t : Tag) :
    addCacheLine (setOf E tags) t = some (setOf E ((t :: tags).take E)) := by
  -- `n` is the new size of the set
  let n := if tags.length < E then tags.length + 1 else tags.length
  have hsize : n = ((t :: tags).take E).length := by
    simp only [List.length_take, List.length_cons, n]
    split <;> omega
  have hge : tags.length ≤ n := by
    simp only [n]
    split <;> omega
  have hn : n ≤ (setOf E tags).lines.length := by
    simp only [setOf, List.length_append, List.length_map, List.length_replicate, n]
    split <;> omega
  -- the shifted lines hold the new list of tags, and the others are invalid
  have htags : (t :: (setOf E tags).lines.map CacheLine.tag).take n = (t :: tags).take E := by
    have hmap : (setOf E tags).lines.map CacheLine.tag =
        tags ++ List.replicate (E - tags.length) INVALID := by
      simp [setOf, Function.comp_def, validLine, invalidLine]
    have hle : n ≤ (t :: tags).length := by
      simp only [List.length_cons, n]
      split <;> omega
    rw [hmap, ← List.cons_append, List.take_append_of_le_length hle]
    by_cases hfull : tags.length < E
    · have hn' : n = (t :: tags).length := if_pos hfull
      have hle' : (t :: tags).length ≤ E := hfull
      rw [hn', List.take_length, List.take_of_length_le hle']
    · have hn' : n = E := by
        simp only [n, if_neg hfull]
        omega
      rw [hn']
  have hdrop : (setOf E tags).lines.drop n =
      List.replicate (E - ((t :: tags).take E).length) invalidLine := by
    rw [← hsize, setOf, List.drop_append, List.drop_eq_nil_of_le (by simpa using hge)]
    simp only [List.nil_append, List.length_map, List.drop_replicate]
    congr 1
    omega
  show (addLoop n t (setOf E tags).lines).map
    (fun lines => { setOf E tags with lines := lines, size := n }) = _
  rw [addLoop_eq n t _ hn, htags, hdrop, hsize]
  rfl

/-- A set of the simulator behaves as the LRU list of its tags. -/
theorem accessSet_eq {E : Nat} {tags : List Tag} (hlen : tags.length ≤ E) (t : Tag) :
    accessSet (setOf E tags) t =
      some ((lruAccess E t tags).1, setOf E (lruAccess E t tags).2) := by
  have hmatch : matchLoop (setOf E tags).capacity t (setOf E tags).lines =
      some (decide (t ∈ tags)) := by
    have h := matchLoop_eq t tags (E - tags.length)
    rwa [Nat.add_sub_cancel' hlen] at h
  rw [accessSet, hmatch, lruAccess]
  by_cases ht : t ∈ tags
  · rw [decide_eq_true ht, if_pos ht]
    show (hitCacheLine (setOf E tags) t).map (Outcome.HIT, ·) = _
    rw [hitCacheLine_setOf ht]
    rfl
  · rw [decide_eq_false ht, if_neg ht]
    show (if tags.length < E then (addCacheLine (setOf E tags) t).map (Outcome.MISS, ·)
      else (addCacheLine (setOf E tags) t).map (Outcome.EVICTION, ·)) = _
    rw [addCacheLine_setOf hlen]
    split <;> rfl

/-! ## Section 3: The whole cache -/

/-- What `splitAddr` makes of an address: its set and its tag. -/
abbrev Key : Type := BitVec 32 × Tag

/-- The accesses of a history to one set. -/
def accessesTo (i : BitVec 32) (past : List Key) : List Key := past.filter fun k => k.1 = i

/-- The blocks in set `i` after a history, most recent first. -/
def resident (E : Nat) (past : List Key) (i : BitVec 32) : List Tag :=
  ((stack (accessesTo i past)).take E).map Prod.snd

theorem set_of_mem_take {E : Nat} {past : List Key} {i : BitVec 32} {k : Key}
    (hk : k ∈ (stack (accessesTo i past)).take E) : k.1 = i := by
  have hmem : k ∈ accessesTo i past := mem_stack.mp (List.mem_of_mem_take hk)
  simpa using List.of_mem_filter hmem

theorem length_resident_le (E : Nat) (past : List Key) (i : BitVec 32) :
    (resident E past i).length ≤ E := by
  rw [resident, List.length_map]
  exact List.length_take_le _ _

/-- Within one set, blocks are told apart by their tags. -/
theorem nodup_resident (E : Nat) (past : List Key) (i : BitVec 32) : (resident E past i).Nodup := by
  apply List.Nodup.map_on
  · intro k hk k' hk' htag
    exact Prod.ext ((set_of_mem_take hk).trans (set_of_mem_take hk').symm) htag
  · exact (nodup_stack _).take

/-- The cache after a history: every set is the LRU list of its accesses. -/
structure Tracks (s b E : Nat) (past : List Key) (cache : Cache) : Prop where
  setBits : cache.setBits = s
  offsetBits : cache.offsetBits = b
  sets : ∀ i : BitVec 32, i.toNat < 2 ^ s →
    cache.cacheSets[i.toNat]? = some (setOf E (resident E past i))

theorem genMask_toNat {bits : Nat} (h : bits < 64) : (genMask bits).toNat = 2 ^ bits - 1 := by
  have hlt : 2 ^ bits < 2 ^ 64 := Nat.pow_lt_pow_right (by decide) h
  have hpos : 0 < 2 ^ bits := Nat.two_pow_pos bits
  have hshift : (1#64 <<< bits).toNat = 2 ^ bits := by
    rw [BitVec.toNat_shiftLeft, Nat.shiftLeft_eq]
    simp only [BitVec.toNat_ofNat]
    omega
  rw [genMask, BitVec.toNat_sub, hshift]
  simp only [BitVec.toNat_ofNat]
  omega

/-- The set index is in range. -/
theorem splitAddr_lt {s : Nat} (hs : s ≤ 30) (b : Nat) (addr : Addr) :
    (splitAddr b s addr).1.toNat < 2 ^ s := by
  have hpos : 0 < 2 ^ s := Nat.two_pow_pos s
  have hmask : (addr.sshiftRight b &&& genMask s).toNat ≤ 2 ^ s - 1 := by
    rw [BitVec.toNat_and, genMask_toNat (by omega)]
    exact Nat.and_le_right
  show ((addr.sshiftRight b &&& genMask s).setWidth 32).toNat < 2 ^ s
  rw [BitVec.toNat_setWidth]
  have := Nat.mod_le (addr.sshiftRight b &&& genMask s).toNat (2 ^ 32)
  omega

theorem tracks_createCache {s : Nat} (hs : s ≤ 30) (b E : Nat) :
    Tracks s b E [] (createCache s E b) where
  setBits := rfl
  offsetBits := rfl
  sets := by
    intro i hi
    have hset : initCacheSet E = setOf E (resident E [] i) := by
      simp [initCacheSet, setOf, resident, accessesTo, invalidLine]
    show (List.replicate (intPow 2 s).toNat (initCacheSet E))[i.toNat]? = _
    rw [intPow_two hs, List.getElem?_replicate_of_lt hi, hset]

/-- The result of an access to the block `k` after a history. -/
def outcomeAfter (E : Nat) (past : List Key) (k : Key) : Outcome :=
  (lruAccess E k ((stack (accessesTo k.1 past)).take E)).1

/-- One access moves the cache along the history. -/
theorem accessMem_tracks {s b E : Nat} {past : List Key} {cache : Cache} (hs : s ≤ 30) (hE : 1 ≤ E)
    (h : Tracks s b E past cache) (addr : Addr) :
    ∃ cache', accessMem cache addr = some (outcomeAfter E past (splitAddr b s addr), cache') ∧
      Tracks s b E (past ++ [splitAddr b s addr]) cache' := by
  obtain ⟨hbits, hoff, hsets⟩ := h
  have hlt := splitAddr_lt hs b addr
  generalize hk : splitAddr b s addr = k at hlt
  have hlen := length_resident_le E past k.1
  have hinj : ∀ l ∈ (stack (accessesTo k.1 past)).take E, l.2 = k.2 → l = k :=
    fun l hl htag => Prod.ext (set_of_mem_take hl) htag
  have haccess : lruAccess E k.2 (resident E past k.1) =
      (outcomeAfter E past k, resident E (past ++ [k]) k.1) := by
    have hself : accessesTo k.1 (past ++ [k]) = accessesTo k.1 past ++ [k] := by simp [accessesTo]
    rw [resident, lruAccess_map hinj, lruAccess_take_stack hE, resident, hself]
    rfl
  -- one set changes
  let cache' : Cache :=
    { cache with
      cacheSets := cache.cacheSets.set k.1.toNat (setOf E (resident E (past ++ [k]) k.1)) }
  refine ⟨cache', ?_, ⟨hbits, hoff, ?_⟩⟩
  · unfold accessMem
    simp only [hbits, hoff, hk, hsets k.1 hlt, accessSet_eq hlen, haccess, Option.map_some, cache']
  · intro i hi
    by_cases hik : i = k.1
    · subst hik
      exact List.getElem?_set_self (List.getElem?_eq_some_iff.mp (hsets k.1 hi)).1
    · -- the history of another set is not extended
      have hne : k.1.toNat ≠ i.toNat := fun heq => hik (BitVec.eq_of_toNat_eq heq.symm)
      have hother : resident E (past ++ [k]) i = resident E past i := by
        simp [resident, accessesTo, Ne.symm hik]
      show (cache.cacheSets.set _ _)[i.toNat]? = _
      rw [List.getElem?_set_ne hne, hsets i hi, hother]

/-- A whole trace, from any point of a history on. -/
theorem accessAll_tracks {s b E : Nat} (hs : s ≤ 30) (hE : 1 ≤ E) (addrs : List Addr) :
    ∀ {past : List Key} {cache : Cache}, Tracks s b E past cache →
      ∃ outcomes cache', accessAll cache addrs = some (outcomes, cache') ∧
        Tracks s b E (past ++ addrs.map (splitAddr b s)) cache' ∧ outcomes.length = addrs.length ∧
        ∀ i addr, addrs[i]? = some addr →
          outcomes[i]? = some (outcomeAfter E (past ++ (addrs.take i).map (splitAddr b s))
            (splitAddr b s addr)) := by
  induction addrs with
  | nil =>
    intro past cache h
    exact ⟨[], cache, rfl, by simpa using h, rfl, by simp⟩
  | cons addr addrs ih =>
    intro past cache h
    obtain ⟨cache₁, hstep, h₁⟩ := accessMem_tracks hs hE h addr
    obtain ⟨outcomes, cache', hrest, h', hlen, hout⟩ := ih h₁
    refine ⟨outcomeAfter E past (splitAddr b s addr) :: outcomes, cache', ?_, ?_, ?_, ?_⟩
    · rw [accessAll, hstep]
      simp only [hrest]
      rfl
    · simpa using h'
    · rw [List.length_cons, List.length_cons, hlen]
    · intro i addr' hi
      cases i with
      | zero =>
        obtain rfl : addr = addr' := by simpa using hi
        simp
      | succ i =>
        have hi' : addrs[i]? = some addr' := by simpa using hi
        simpa using hout i addr' hi'

/-! ## Section 4: The meaning of the results -/

/-- The block `k` was accessed before, and fewer than `E` distinct other
    blocks of its set have been accessed since its last access. -/
def RecentlyUsed (E : Nat) (past : List Key) (k : Key) : Prop :=
  ∃ old recent, past = old ++ k :: recent ∧ k ∉ recent ∧
    (recent.filter fun k' => k'.1 = k.1).toFinset.card < E

/-- At least `E` distinct blocks of the set of `k` have been accessed. -/
def SetWasFull (E : Nat) (past : List Key) (k : Key) : Prop :=
  E ≤ (past.filter fun k' => k'.1 = k.1).toFinset.card

theorem outcomeAfter_spec (E : Nat) (past : List Key) (k : Key) :
    (outcomeAfter E past k = .HIT ↔ RecentlyUsed E past k) ∧
    (outcomeAfter E past k = .EVICTION ↔ ¬ RecentlyUsed E past k ∧ SetWasFull E past k) ∧
    (outcomeAfter E past k = .MISS ↔ ¬ RecentlyUsed E past k ∧ ¬ SetWasFull E past k) := by
  have hrecent : k ∈ (stack (accessesTo k.1 past)).take E ↔ RecentlyUsed E past k :=
    mem_take_stack_filter (p := fun k' : Key => decide (k'.1 = k.1)) (by simp)
  have hfull : ((stack (accessesTo k.1 past)).take E).length < E ↔ ¬ SetWasFull E past k := by
    rw [List.length_take, length_stack, SetWasFull, accessesTo]
    omega
  unfold outcomeAfter lruAccess
  generalize (stack (accessesTo k.1 past)).take E = l at hrecent hfull
  by_cases hmem : k ∈ l
  · have hr := hrecent.mp hmem
    simp [if_pos hmem, hr]
  · have hr : ¬ RecentlyUsed E past k := fun h => hmem (hrecent.mpr h)
    rw [if_neg hmem]
    by_cases hlt : l.length < E
    · have hf := hfull.mp hlt
      simp [if_pos hlt, hr, hf]
    · have hf : SetWasFull E past k := by
        by_contra hnot
        exact hlt (hfull.mpr hnot)
      simp [if_neg hlt, hr, hf]

/-- The LRU meaning of the simulator. On a fresh cache with `2 ^ s` sets of
    `E` lines, every trace runs to its end, and each access returns

    * HIT if its block was accessed before and fewer than `E` distinct other
      blocks of its set have been accessed since then;
    * otherwise EVICTION if at least `E` distinct blocks of its set have been
      accessed before, and MISS if not. -/
theorem access_outcomes {s E : Nat} (hs : s ≤ 30) (hE : 1 ≤ E) (b : Nat) (addrs : List Addr) :
    ∃ outcomes cache, accessAll (createCache s E b) addrs = some (outcomes, cache) ∧
      outcomes.length = addrs.length ∧
      ∀ i addr, addrs[i]? = some addr →
        ∃ o, outcomes[i]? = some o ∧
          (o = .HIT ↔
            RecentlyUsed E ((addrs.take i).map (splitAddr b s)) (splitAddr b s addr)) ∧
          (o = .EVICTION ↔
            ¬ RecentlyUsed E ((addrs.take i).map (splitAddr b s)) (splitAddr b s addr) ∧
              SetWasFull E ((addrs.take i).map (splitAddr b s)) (splitAddr b s addr)) ∧
          (o = .MISS ↔
            ¬ RecentlyUsed E ((addrs.take i).map (splitAddr b s)) (splitAddr b s addr) ∧
              ¬ SetWasFull E ((addrs.take i).map (splitAddr b s)) (splitAddr b s addr)) := by
  obtain ⟨outcomes, cache, hrun, _, hlen, hout⟩ :=
    accessAll_tracks hs hE addrs (tracks_createCache hs b E)
  refine ⟨outcomes, cache, hrun, hlen, ?_⟩
  intro i addr hi
  refine ⟨_, hout i addr hi, ?_⟩
  rw [List.nil_append]
  exact outcomeAfter_spec E _ _

example : (accessAll (createCache 1 2 4) [0x20#64, 0x47#64, 0x2f#64, 0x80#64, 0x40#64, 0x10#64]).map
    Prod.fst = some [.MISS, .MISS, .HIT, .EVICTION, .EVICTION, .MISS] := by decide +kernel

/-- Two blocks of one set, and the first one again. -/
theorem access_outcomes_run :
    ∃ outcomes cache, accessAll (createCache 1 2 4) [0x20#64, 0x47#64, 0x2f#64] =
      some (outcomes, cache) ∧
      outcomes[2]? = some .HIT := by
  obtain ⟨outcomes, cache, hrun, _, hout⟩ :=
    access_outcomes (s := 1) (E := 2) (by decide) (by decide) 4 [0x20#64, 0x47#64, 0x2f#64]
  obtain ⟨o, ho, hhit, _⟩ := hout 2 0x2f#64 rfl
  have hrecent : RecentlyUsed 2 [splitAddr 4 1 0x20#64, splitAddr 4 1 0x47#64]
      (splitAddr 4 1 0x2f#64) :=
    ⟨[], [splitAddr 4 1 0x47#64], by decide, by decide, by decide⟩
  rw [hhit.mpr hrecent] at ho
  exact ⟨outcomes, cache, hrun, ho⟩

end CacheLab
