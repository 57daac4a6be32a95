import CsappExperiments.CacheLab.SetInvariant
import CsappExperiments.Framework.Components

/-! # Cache Lab: sets do not interfere

    `accessMem` reads and changes only the set that `splitAddr` names, so the
    sets of the simulator are independent components in the sense of
    `Components`. A run of the simulator is one run for each set.

    The initial cache need not be a fresh one: any cache whose arrays have
    the right lengths will do (`Geometry`), whatever its lines hold.
-/

open Components LTS

namespace CacheLab

/-! ## Section 1: Arrays of the right lengths -/

/-- A cache with `2 ^ s` sets of `E` lines. -/
structure Geometry (s E b : Nat) (cache : Cache) : Prop where
  setBits : cache.setBits = s
  offsetBits : cache.offsetBits = b
  length : cache.cacheSets.length = 2 ^ s
  sets : ∀ set ∈ cache.cacheSets, Shaped E set

/-- The matching loop stays within the array, and what it finds is there. -/
theorem exists_matchLoop {n : Nat} {t : Tag} {lines : List CacheLine} (hn : n ≤ lines.length) :
    ∃ found, matchLoop n t lines = some found ∧ (found = true → ∃ line ∈ lines, line.tag = t) := by
  induction n generalizing lines with
  | zero => exact ⟨false, rfl, by simp⟩
  | succ n ih =>
    cases lines with
    | nil => simp at hn
    | cons p rest =>
      rw [matchLoop]
      by_cases hp : p.valid ≠ INVALID ∧ p.tag = t
      · exact ⟨true, if_pos hp, fun _ => ⟨p, List.mem_cons_self, hp.2⟩⟩
      · obtain ⟨found, hfound, hline⟩ := ih (by simpa using hn : n ≤ rest.length)
        refine ⟨found, by rw [if_neg hp, hfound], ?_⟩
        intro htrue
        obtain ⟨line, hmem, htag⟩ := hline htrue
        exact ⟨line, List.mem_cons_of_mem p hmem, htag⟩

theorem Shaped.hitCacheLine {E : Nat} {set : CacheSet} (h : Shaped E set) {t : Tag}
    (ht : ∃ line ∈ set.lines, line.tag = t) :
    ∃ set', hitCacheLine set t = some set' ∧ Shaped E set' := by
  obtain ⟨before, line, rest, lines, hlines, _, _, _, hrun, htags, _⟩ :=
    hitCacheLine_moves (List.mem_map.mpr ht)
  refine ⟨_, hrun, h.capacity, ?_, h.size⟩
  have hlen : lines.length = before.length + 1 := by
    have hmap := congrArg List.length htags
    rwa [List.length_map, List.length_cons, List.length_map] at hmap
  show (lines ++ rest).length = E
  rw [← h.lines, hlines, List.length_append, List.length_append, List.length_cons, hlen]
  omega

theorem Shaped.addCacheLine {E : Nat} {set : CacheSet} (h : Shaped E set) (t : Tag) :
    ∃ set', addCacheLine set t = some set' ∧ Shaped E set' := by
  have hcap := h.capacity
  have hlines := h.lines
  have hsize : set.size ≤ set.capacity := hcap ▸ h.size
  have hroom : set.capacity ≤ set.lines.length := by omega
  obtain ⟨lines, hrun, _, hlen, _⟩ := addCacheLine_shifts hsize hroom t
  refine ⟨_, hrun, hcap, ?_, ?_⟩
  · show (lines ++ _).length = E
    rw [List.length_append, List.length_drop, hlen]
    omega
  · show min (set.size + 1) set.capacity ≤ E
    omega

/-- No access fails, whatever the lines hold. -/
theorem Shaped.accessSet {E : Nat} {set : CacheSet} (h : Shaped E set) (t : Tag) :
    ∃ res set', accessSet set t = some (res, set') ∧ Shaped E set' := by
  have hcap : set.capacity ≤ set.lines.length := by rw [h.capacity, h.lines]
  obtain ⟨found, hmatch, hline⟩ : ∃ found, matchLoop set.capacity t set.lines = some found ∧ _ :=
    exists_matchLoop hcap
  rw [CacheLab.accessSet, hmatch]
  cases found with
  | true =>
    obtain ⟨set', hset', hshape⟩ := h.hitCacheLine (hline rfl)
    exact ⟨.HIT, set', by rw [hset']; rfl, hshape⟩
  | false =>
    obtain ⟨set', hset', hshape⟩ := h.addCacheLine t
    by_cases hfull : set.size < set.capacity
    · exact ⟨.MISS, set', by dsimp only; rw [if_pos hfull, hset']; rfl, hshape⟩
    · exact ⟨.EVICTION, set', by dsimp only; rw [if_neg hfull, hset']; rfl, hshape⟩

theorem Geometry.accessMem {s E b : Nat} (hs : s ≤ 30) {cache : Cache} (h : Geometry s E b cache)
    (addr : Addr) :
    ∃ res cache', accessMem cache addr = some (res, cache') ∧ Geometry s E b cache' := by
  have hlt : (splitAddr b s addr).1.toNat < cache.cacheSets.length := by
    rw [h.length]
    exact splitAddr_lt hs b addr
  have hget := List.getElem?_eq_getElem hlt
  obtain ⟨res, set', haccess, hshape⟩ :=
    (h.sets _ (List.getElem_mem hlt)).accessSet (splitAddr b s addr).2
  refine ⟨res, { cache with cacheSets := cache.cacheSets.set (splitAddr b s addr).1.toNat set' },
    ?_, h.setBits, h.offsetBits, ?_, ?_⟩
  · unfold CacheLab.accessMem
    simp only [h.setBits, h.offsetBits, hget, haccess, Option.map_some]
  · show (cache.cacheSets.set _ set').length = 2 ^ s
    rw [List.length_set, h.length]
  · intro set hset
    rcases List.mem_or_eq_of_mem_set hset with hmem | heq
    · exact h.sets set hmem
    · rw [heq]
      exact hshape

theorem geometry_createCache {s : Nat} (hs : s ≤ 30) (E b : Nat) :
    Geometry s E b (createCache s E b) where
  setBits := rfl
  offsetBits := rfl
  length := by
    show (List.replicate (intPow 2 s).toNat (initCacheSet E)).length = 2 ^ s
    rw [List.length_replicate, intPow_two hs]
  sets := by
    intro set hset
    rw [List.eq_of_mem_replicate hset]
    exact ⟨rfl, List.length_replicate, Nat.zero_le E⟩

/-- The caches that the program can reach have the right geometry. -/
theorem Geometry.of_reachable {s E b : Nat} (hs : s ≤ 30) (hE : 1 ≤ E) {cache : Cache}
    (h : (simulator s E b).Reachable cache) : Geometry s E b cache := by
  obtain ⟨hlen, past, htracks⟩ := reachable_tracks hs hE h
  exact ⟨htracks.setBits, htracks.offsetBits, hlen,
    fun set hset => (htracks.wellFormed hs hlen set hset).toShaped⟩

/-! ## Section 2: The sets as components -/

/-- The number of the set of an address. -/
def setNumber (s b : Nat) (addr : Addr) : Nat := (splitAddr b s addr).1.toNat

/-- The sets of a cache, by their numbers. -/
def parts (cache : Cache) : Nat → Option CacheSet := fun i => cache.cacheSets[i]?

/-- An access, seen from its set. -/
def accessPart (s b : Nat) (set : Option CacheSet) (addr : Addr) :
    Option (Outcome × Option CacheSet) :=
  set.bind fun set => (accessSet set (splitAddr b s addr).2).map (Prod.map id some)

theorem accessAll_eq_run (cache : Cache) (addrs : List Addr) :
    accessAll cache addrs = run accessMem cache addrs := by
  induction addrs generalizing cache with
  | nil => rfl
  | cons addr addrs ih =>
    rw [accessAll, run]
    cases accessMem cache addr with
    | none => rfl
    | some r => simp only [ih]

theorem accessMem_parts {s b : Nat} {cache : Cache} (hs : cache.setBits = s)
    (hb : cache.offsetBits = b) (addr : Addr) :
    (accessMem cache addr).map (Prod.map id parts) =
      route (setNumber s b) (accessPart s b) (parts cache) addr := by
  unfold accessMem route accessPart
  have hpart : parts cache (setNumber s b addr) = cache.cacheSets[(splitAddr b s addr).1.toNat]? :=
    rfl
  simp only [hs, hb, hpart]
  cases hset : cache.cacheSets[(splitAddr b s addr).1.toNat]? with
  | none => rfl
  | some set =>
    simp only [Option.bind_some]
    cases accessSet set (splitAddr b s addr).2 with
    | none => rfl
    | some r =>
      obtain ⟨res, set'⟩ := r
      simp only [Option.map_some, Prod.map_apply, id_eq, Option.some_inj, Prod.mk.injEq, true_and]
      funext i
      by_cases hi : i = setNumber s b addr
      · subst hi
        rw [Function.update_self]
        exact List.getElem?_set_self (List.getElem?_eq_some_iff.mp hset).1
      · rw [Function.update_of_ne hi]
        exact List.getElem?_set_ne (Ne.symm hi)

/-- The simulator, seen as its sets. -/
theorem parts_of_accessAll {s E b : Nat} (hs : s ≤ 30) {cache final : Cache}
    (hcache : Geometry s E b cache) {addrs : List Addr} {outcomes : List Outcome}
    (h : accessAll cache addrs = some (outcomes, final)) :
    run (route (setNumber s b) (accessPart s b)) (parts cache) addrs =
      some (outcomes, parts final) := by
  rw [accessAll_eq_run] at h
  rw [← run_map (P := Geometry s E b)
    (fun _ addr hg => accessMem_parts hg.setBits hg.offsetBits addr) ?_ hcache, h]
  · rfl
  · intro cache addr res cache' hg hstep
    obtain ⟨res', cache'', hstep', hg'⟩ := hg.accessMem hs addr
    rw [hstep] at hstep'
    cases hstep'
    exact hg'

theorem Geometry.accessAll {s E b : Nat} (hs : s ≤ 30) {cache : Cache} (h : Geometry s E b cache)
    (addrs : List Addr) :
    ∃ outcomes final, accessAll cache addrs = some (outcomes, final) ∧ Geometry s E b final := by
  rw [accessAll_eq_run]
  exact exists_run (fun _ addr hg => hg.accessMem hs addr) h addrs

theorem Geometry.eq_of_parts {s E b : Nat} {cache cache' : Cache} (h : Geometry s E b cache)
    (h' : Geometry s E b cache') (hparts : parts cache = parts cache') : cache = cache' := by
  have hsets : cache.cacheSets = cache'.cacheSets := List.ext_getElem? fun i => congrFun hparts i
  have hset := h.setBits.trans h'.setBits.symm
  have hoff := h.offsetBits.trans h'.offsetBits.symm
  cases cache
  cases cache'
  simp_all

/-! ## Section 3: Reordering a trace -/

section Reordering

variable {s E b : Nat} {cache : Cache}

/-- Two traces with the same accesses to each set, in the same order. -/
theorem reordered_traces (hs : s ≤ 30) (hcache : Geometry s E b cache) {addrs addrs' : List Addr}
    (hsame : ∀ i, eventsAt (setNumber s b) i addrs = eventsAt (setNumber s b) i addrs') :
    ∃ outcomes outcomes' final, accessAll cache addrs = some (outcomes, final) ∧
      accessAll cache addrs' = some (outcomes', final) ∧
      ∀ i, resultsAt (setNumber s b) i addrs outcomes =
        resultsAt (setNumber s b) i addrs' outcomes' := by
  obtain ⟨outcomes, final, hrun, hfinal⟩ := hcache.accessAll hs addrs
  obtain ⟨outcomes', final', hrun', hfinal'⟩ := hcache.accessAll hs addrs'
  obtain ⟨hparts, hresults⟩ :=
    run_route_congr hsame (parts_of_accessAll hs hcache hrun) (parts_of_accessAll hs hcache hrun')
  obtain rfl : final = final' := hfinal.eq_of_parts hfinal' hparts
  exact ⟨outcomes, outcomes', final, hrun, hrun', hresults⟩

/-- Two adjacent accesses to different sets. -/
theorem swapped_accesses (hs : s ≤ 30) (hcache : Geometry s E b cache) (addrs₁ : List Addr)
    {addr addr' : Addr} (addrs₂ : List Addr) (hne : setNumber s b addr ≠ setNumber s b addr') :
    ∃ os₁ o o' os₂ final, os₁.length = addrs₁.length ∧
      accessAll cache (addrs₁ ++ addr :: addr' :: addrs₂) = some (os₁ ++ o :: o' :: os₂, final) ∧
      accessAll cache (addrs₁ ++ addr' :: addr :: addrs₂) =
        some (os₁ ++ o' :: o :: os₂, final) := by
  obtain ⟨os₁, cache₁, hrun₁, hcache₁⟩ := hcache.accessAll hs addrs₁
  obtain ⟨os, final, hrun, hfinal⟩ := hcache₁.accessAll hs (addr :: addr' :: addrs₂)
  obtain ⟨os', final', hrun', hfinal'⟩ := hcache₁.accessAll hs (addr' :: addr :: addrs₂)
  obtain ⟨o, o', os₂, rfl, hswap⟩ := run_route_swap hne (parts_of_accessAll hs hcache₁ hrun)
  rw [parts_of_accessAll hs hcache₁ hrun', Option.some_inj, Prod.mk.injEq] at hswap
  obtain ⟨rfl, hparts⟩ := hswap
  obtain rfl : final' = final := hfinal'.eq_of_parts hfinal hparts
  rw [accessAll_eq_run] at hrun₁ hrun hrun'
  refine ⟨os₁, o, o', os₂, final', length_of_run hrun₁, ?_, ?_⟩
  · rw [accessAll_eq_run]
    exact run_append.mpr ⟨os₁, cache₁, _, hrun₁, hrun, rfl⟩
  · rw [accessAll_eq_run]
    exact run_append.mpr ⟨os₁, cache₁, _, hrun₁, hrun', rfl⟩

/-- Alone, the accesses to a set have the results that they have within the trace. -/
theorem own_accesses (hs : s ≤ 30) (hcache : Geometry s E b cache) {addrs : List Addr}
    {outcomes : List Outcome} {final : Cache}
    (hrun : accessAll cache addrs = some (outcomes, final)) (i : Nat) :
    ∃ final', accessAll cache (eventsAt (setNumber s b) i addrs) =
      some (resultsAt (setNumber s b) i addrs outcomes, final') := by
  obtain ⟨own, final', hown, _⟩ := hcache.accessAll hs (eventsAt (setNumber s b) i addrs)
  have hi := (run_route_iff.mp (parts_of_accessAll hs hcache hrun)).2 i
  obtain ⟨hlen, howns⟩ := run_route_iff.mp (parts_of_accessAll hs hcache hown)
  have hown' := howns i
  have hall : ∀ addr ∈ eventsAt (setNumber s b) i addrs, setNumber s b addr = i := by
    intro addr haddr
    simpa using List.of_mem_filter haddr
  rw [eventsAt_eventsAt, resultsAt_of_forall hall hlen, hi, Option.some_inj, Prod.mk.injEq] at hown'
  exact ⟨final', by rw [hown, hown'.1]⟩

/-- Results are counted set by set. -/
theorem count_by_sets (hs : s ≤ 30) (hcache : Geometry s E b cache) {addrs : List Addr}
    {outcomes : List Outcome} {final : Cache}
    (hrun : accessAll cache addrs = some (outcomes, final)) (o : Outcome) :
    outcomes.count o =
      ∑ i ∈ Finset.range (2 ^ s), (resultsAt (setNumber s b) i addrs outcomes).count o := by
  have hlen := (run_route_iff.mp (parts_of_accessAll hs hcache hrun)).1
  apply count_eq_sum _ hlen
  intro addr _
  exact Finset.mem_range.mpr (splitAddr_lt hs b addr)

end Reordering

/-- Sets do not interfere, from any initial cache of the geometry.

    * Two traces that have the same accesses to each set lead to the same
      cache, with the same results for corresponding accesses and the same
      totals.
    * Two adjacent accesses to different sets may be swapped.
    * The totals of a trace are the sums of the totals that the accesses to
      each set have on their own. -/
theorem sets_do_not_interfere {s E b : Nat} (hs : s ≤ 30) {cache : Cache}
    (hcache : Geometry s E b cache) :
    (∀ addrs addrs', (∀ i, eventsAt (setNumber s b) i addrs = eventsAt (setNumber s b) i addrs') →
      ∃ outcomes outcomes' final, accessAll cache addrs = some (outcomes, final) ∧
        accessAll cache addrs' = some (outcomes', final) ∧
        (∀ i, resultsAt (setNumber s b) i addrs outcomes =
          resultsAt (setNumber s b) i addrs' outcomes') ∧
        ∀ o, outcomes.count o = outcomes'.count o) ∧
    (∀ addrs₁ addr addr' addrs₂, setNumber s b addr ≠ setNumber s b addr' →
      ∃ os₁ o o' os₂ final, os₁.length = addrs₁.length ∧
        accessAll cache (addrs₁ ++ addr :: addr' :: addrs₂) = some (os₁ ++ o :: o' :: os₂, final) ∧
        accessAll cache (addrs₁ ++ addr' :: addr :: addrs₂) = some (os₁ ++ o' :: o :: os₂, final)) ∧
    (∀ addrs, ∃ (outcomes : List Outcome) (final : Cache) (own : Nat → List Outcome),
      accessAll cache addrs = some (outcomes, final) ∧
      (∀ i, ∃ final', accessAll cache (eventsAt (setNumber s b) i addrs) = some (own i, final')) ∧
      ∀ o, outcomes.count o = ∑ i ∈ Finset.range (2 ^ s), (own i).count o) := by
  refine ⟨?_, ?_, ?_⟩
  · intro addrs addrs' hsame
    obtain ⟨outcomes, outcomes', final, hrun, hrun', hresults⟩ := reordered_traces hs hcache hsame
    refine ⟨outcomes, outcomes', final, hrun, hrun', hresults, ?_⟩
    intro o
    rw [count_by_sets hs hcache hrun, count_by_sets hs hcache hrun']
    exact Finset.sum_congr rfl fun i _ => by rw [hresults i]
  · intro addrs₁ addr addr' addrs₂ hne
    exact swapped_accesses hs hcache addrs₁ addrs₂ hne
  · intro addrs
    obtain ⟨outcomes, final, hrun, _⟩ := hcache.accessAll hs addrs
    exact ⟨outcomes, final, fun i => resultsAt (setNumber s b) i addrs outcomes, hrun,
      own_accesses hs hcache hrun, count_by_sets hs hcache hrun⟩

/-- Two sets of one line, and two accesses to each. -/
theorem sets_do_not_interfere_run :
    ∃ outcomes outcomes' final,
      accessAll (createCache 1 1 4) [0x20#64, 0x30#64, 0x2f#64, 0x50#64] = some (outcomes, final) ∧
      accessAll (createCache 1 1 4) [0x30#64, 0x50#64, 0x20#64, 0x2f#64] = some (outcomes', final) ∧
      ∀ o, outcomes.count o = outcomes'.count o := by
  have hcache : Geometry 1 1 4 (createCache 1 1 4) :=
    Geometry.of_reachable (by decide) (by decide)
      (System.Reachable.init : (simulator 1 1 4).Reachable _)
  have hsame : ∀ i, eventsAt (setNumber 1 4) i [0x20#64, 0x30#64, 0x2f#64, 0x50#64] =
      eventsAt (setNumber 1 4) i [0x30#64, 0x50#64, 0x20#64, 0x2f#64] := by
    intro i
    have h₁ : setNumber 1 4 0x20#64 = 0 := by decide
    have h₂ : setNumber 1 4 0x30#64 = 1 := by decide
    have h₃ : setNumber 1 4 0x2f#64 = 0 := by decide
    have h₄ : setNumber 1 4 0x50#64 = 1 := by decide
    rcases i with _ | _ | i <;> simp [eventsAt, h₁, h₂, h₃, h₄]
  obtain ⟨outcomes, outcomes', final, hrun, hrun', _, hcount⟩ :=
    (sets_do_not_interfere (by decide) hcache).1 _ _ hsame
  exact ⟨outcomes, outcomes', final, hrun, hrun', hcount⟩

end CacheLab
