import CsappExperiments.CacheLab.Counters

/-! # Cache Lab: a modify is a load and a store

    For an `M` line `analyseOneLine` performs one access only and counts a
    hit for the second one. That is what the second access comes to: after
    any access the tag is at the front of its set, so another access to the
    same address hits there and moves nothing.
-/

open CLib LTS Recency

namespace CacheLab

/-! ## Section 1: Accessing an address again -/

/-- The element that has been accessed is at the front. -/
theorem lruAccess_again {α : Type*} [DecidableEq α] {E : Nat} (hE : 1 ≤ E) (a : α) (l : List α) :
    lruAccess E a (lruAccess E a l).2 = (.HIT, (lruAccess E a l).2) := by
  have hfront : ∃ rest, (lruAccess E a l).2 = a :: rest := by
    obtain ⟨n, rfl⟩ := Nat.exists_eq_add_of_le' hE
    unfold lruAccess
    split
    · exact ⟨_, rfl⟩
    · exact ⟨_, List.take_succ_cons⟩
  obtain ⟨rest, hrest⟩ := hfront
  rw [hrest, lruAccess, if_pos List.mem_cons_self, touch, List.erase_cons_head]

theorem accessSet_again {E : Nat} (hE : 1 ≤ E) {tags : List Tag} (hlen : tags.length ≤ E)
    {t : Tag} {res : Outcome} {set : CacheSet} (h : accessSet (setOf E tags) t = some (res, set)) :
    accessSet set t = some (.HIT, set) := by
  rw [accessSet_eq hlen] at h
  obtain ⟨_, rfl⟩ := Prod.mk.inj (Option.some.inj h)
  have hlen' : (lruAccess E t tags).2.length ≤ E := by
    unfold lruAccess
    split
    · next ht => exact (length_touch_of_mem ht).trans_le hlen
    · exact List.length_take_le _ _
  rw [accessSet_eq hlen', lruAccess_again hE]

/-- After an access to an address, another one is a hit and changes nothing. -/
theorem accessMem_again {s E b : Nat} (hs : s ≤ 30) (hE : 1 ≤ E) {past : List Key}
    {cache cache' : Cache} (h : Tracks s b E past cache) {addr : Addr} {res : Outcome}
    (haccess : accessMem cache addr = some (res, cache')) :
    accessMem cache' addr = some (.HIT, cache') := by
  obtain ⟨setIndex, tagIndex, set, set', hsplit, hset, hset', rfl⟩ := accessMem_cases haccess
  have hlt : setIndex.toNat < 2 ^ s := by
    have hrange := splitAddr_lt hs b addr
    rwa [← h.offsetBits, ← h.setBits, hsplit, h.setBits] at hrange
  obtain rfl : set = setOf E (resident E past setIndex) :=
    Option.some.inj (hset.symm.trans (h.sets setIndex hlt))
  have hagain := accessSet_again hE (length_resident_le E past setIndex) hset'
  have hget : (cache.cacheSets.set setIndex.toNat set')[setIndex.toNat]? = some set' :=
    List.getElem?_set_self (List.getElem?_eq_some_iff.mp hset).1
  unfold accessMem
  simp only [hsplit, hget, hagain, Option.map_some, List.set_set]

/-! ## Section 2: The three lines -/

/-- The line for one operation at an address. -/
def dataLine (op : Char) (hex size : CStr) : CStr := ' ' :: op :: ' ' :: hex ++ ',' :: size

theorem length_dataLine (op : Char) (hex size : CStr) :
    (dataLine op hex size).length = hex.length + size.length + 4 := by
  simp only [dataLine, List.length_append, List.length_cons]
  omega

/-- The extra hit of an `M` line is the hit of a store after the load. -/
theorem counted_modify (sim : Simulation) (res : Outcome) (cache : Cache) :
    counted sim 'M' res cache = counted (counted sim 'L' res cache) 'S' .HIT cache := by
  cases res <;> simp [counted]

theorem messageLength_load_le (res : Outcome) : messageLength 'L' res ≤ messageLength 'M' res := by
  cases res <;> decide

theorem messageLength_store_le (res : Outcome) :
    messageLength 'S' .HIT ≤ messageLength 'M' res := by
  cases res <;> decide

theorem messageLength_le (op : Char) (res : Outcome) : messageLength op res ≤ 18 := by
  unfold messageLength
  cases res <;> split <;> decide

/-- Modify is load and store. In every state of the simulator that has a
    reachable cache, whatever the counters are, and for lines that
    `splitOneInst` finds the same address on: what the `M` line does to the
    cache and to the counters is what the `L` line followed by the `S` line
    does. It does so exactly on the lines whose message fits, and on all lines
    of up to 61 characters, which is more than an address and a size of 64 bits
    take. -/
theorem modify_eq_load_store {s E : Nat} (hs : s ≤ 30) (hE : 1 ≤ E) (b : Nat) {sim : Simulation}
    (hreach : (simulator s E b).Reachable sim.cache) {hex : CStr} (hcomma : ',' ∉ hex)
    (size : CStr) {afterM afterL afterS : CStr}
    (hL : strtol16 (hex ++ afterL) = strtol16 (hex ++ afterM))
    (hS : strtol16 (hex ++ afterS) = strtol16 (hex ++ afterM)) :
    (∀ sim', analyseOneLine sim (dataLine 'M' hex size) afterM = some sim' →
      ((analyseOneLine sim (dataLine 'L' hex size) afterL).bind fun sim₁ =>
        analyseOneLine sim₁ (dataLine 'S' hex size) afterS) = some sim') ∧
    (hex.length + size.length ≤ 57 →
      ∃ sim', analyseOneLine sim (dataLine 'M' hex size) afterM = some sim') ∧
    ((∃ sim', analyseOneLine sim (dataLine 'M' hex size) afterM = some sim') ↔
      Fits sim (dataLine 'M' hex size) afterM) := by
  obtain ⟨_, past, htracks⟩ := reachable_tracks hs hE hreach
  have hM : splitOneInst (dataLine 'M' hex size) afterM = some ('M', _) :=
    splitOneInst_data hcomma 'M' size afterM
  have hL : splitOneInst (dataLine 'L' hex size) afterL = some ('L', _) :=
    (splitOneInst_data hcomma 'L' size afterL).trans (by rw [hL])
  have hS : splitOneInst (dataLine 'S' hex size) afterS = some ('S', _) :=
    (splitOneInst_data hcomma 'S' size afterS).trans (by rw [hS])
  generalize BitVec.ofInt 64 (strtol16 (hex ++ afterM)) = addr at hM hL hS
  obtain ⟨cache, haccess, _⟩ := accessMem_tracks hs hE htracks addr
  have hagain := accessMem_again hs hE htracks haccess
  generalize outcomeAfter E past (splitAddr b s addr) = res at haccess
  have hmodify := analyseOneLine_data hM (by decide) haccess
  have hfitsM := fits_iff hM (by decide) haccess
  have hload := analyseOneLine_data hL (by decide) haccess
  have hstore : analyseOneLine (counted sim 'L' res cache) (dataLine 'S' hex size) afterS = _ :=
    analyseOneLine_data hS (by decide) hagain
  rw [length_dataLine] at hmodify hload hstore hfitsM
  rw [hmodify, hfitsM]
  refine ⟨?_, ?_, ?_⟩
  · intro sim' h
    split at h
    · next hfits =>
      -- the message for the modify is the longest of the three
      have hfitsL : hex.length + size.length + 4 + messageLength 'L' res < STR_SIZE :=
        lt_of_le_of_lt (Nat.add_le_add_left (messageLength_load_le res) _) hfits
      have hfitsS : hex.length + size.length + 4 + messageLength 'S' .HIT < STR_SIZE :=
        lt_of_le_of_lt (Nat.add_le_add_left (messageLength_store_le res) _) hfits
      rw [hload, if_pos hfitsL, Option.bind_some, hstore, if_pos hfitsS, ← counted_modify]
      exact h
    · cases h
  · intro hlen
    have hle := messageLength_le 'M' res
    refine ⟨counted sim 'M' res cache, if_pos ?_⟩
    show _ < 80
    omega
  · constructor
    · rintro ⟨sim', h⟩
      by_contra hnot
      rw [if_neg hnot] at h
      cases h
    · exact fun hfits => ⟨counted sim 'M' res cache, if_pos hfits⟩

/-- One line, which another block has by now: the modify evicts it. A digit
    follows the address of the load in memory, but behind the `x` that ends it. -/
theorem modify_eq_load_store_run :
    ∃ sim sim' : Simulation, (simulator 0 1 4).Reachable sim.cache ∧ sim.eviction = 0 ∧
      sim'.eviction = 1 ∧
      analyseOneLine sim (dataLine 'M' ['2', '0'] ['4']) [] = some sim' ∧
      ((analyseOneLine sim (dataLine 'L' ['2', '0'] ['4']) ['x', '7']).bind fun sim₁ =>
        analyseOneLine sim₁ (dataLine 'S' ['2', '0'] ['4']) []) = some sim' := by
  have hrun : ((simulator 0 1 4).run (simulator 0 1 4).init [0x20#64, 0x47#64]).any
      (fun cache => (analyseOneLine ⟨cache, 0, 0, 0⟩ (dataLine 'M' ['2', '0'] ['4']) []).any
        fun sim' => decide (sim'.eviction = 1)) = true := by
    decide +kernel
  obtain ⟨cache, hreach, hany⟩ := System.Reachable.init.exists_run hrun
  obtain ⟨sim', hsim', hone⟩ := (Option.any_eq_true _ _).mp hany
  have hL : strtol16 (['2', '0'] ++ ['x', '7']) = strtol16 (['2', '0'] ++ []) := by decide
  have hS : strtol16 (['2', '0'] ++ []) = strtol16 (['2', '0'] ++ []) := rfl
  have hcache : (simulator 0 1 4).Reachable (Simulation.mk cache 0 0 0).cache := hreach
  obtain ⟨hsame, _⟩ := modify_eq_load_store (by decide) (by decide) 4 hcache (by decide) ['4'] hL hS
  exact ⟨⟨cache, 0, 0, 0⟩, sim', hreach, rfl, of_decide_eq_true hone, hsim', hsame sim' hsim'⟩

end CacheLab
