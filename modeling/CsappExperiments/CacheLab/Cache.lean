import Mathlib.Data.List.Basic
import Mathlib.Tactic.Positivity
import Mathlib.Tactic.Ring
import CsappExperiments.CLib

/-! # Cache Lab: the cache simulator

    The cache of `cache.c`: sets of lines, the split of an address into set
    index and tag, and `accessMem`. The loops walk a pointer over the array
    of lines; a list is the array from the pointer on, and `none` means that
    a loop or an index has left its array.

    Left out: the counters of `Cache` that no function updates, `setSize`
    and `tagBits` (and the `TAG_MASK` made of it), which only the debug
    output uses. With no set bits and no offset bits the shift that makes
    `TAG_MASK` is by 64.
-/

open CLib

namespace CacheLab

/-! ## Section 1: Data -/

/-- A `long` that holds an address. -/
abbrev Addr : Type := BitVec 64

/-- An `int` that holds a tag. -/
abbrev Tag : Type := BitVec 32

def INVALID : BitVec 32 := 0x20150912#32

structure CacheLine where
  valid : BitVec 32
  tag : Tag
  deriving DecidableEq, Repr

structure CacheSet where
  lines : List CacheLine
  /-- All lines that can be contained. -/
  capacity : Nat
  /-- Number of lines currently contained. -/
  size : Nat
  deriving DecidableEq, Repr

structure Cache where
  cacheSets : List CacheSet
  offsetBits : Nat
  setBits : Nat
  deriving DecidableEq, Repr

/-- The results of `accessMem`. -/
inductive Outcome where
  | HIT
  | EVICTION
  | MISS
  deriving DecidableEq, Repr

/-! ## Section 2: Creating a cache -/

/-- The loop of `int_pow`. A signed overflow wraps around. -/
def intPowLoop (result base : Int) (exp : Nat) : Int :=
  if exp = 0 then result
  else
    intPowLoop (if exp % 2 = 1 then wrap32 (result * base) else result)
      (wrap32 (base * base)) (exp / 2)
termination_by exp
decreasing_by omega

/-- `int_pow`. -/
def intPow (base : Int) (exp : Nat) : Int := intPowLoop 1 base exp

def genMask (bits : Nat) : BitVec 64 := (1#64 <<< bits) - 1#64

/-- The set after `initCacheSet`. -/
def initCacheSet (linePerSet : Nat) : CacheSet where
  lines := List.replicate linePerSet ⟨INVALID, INVALID⟩
  capacity := linePerSet
  size := 0

/-- For 16 and more set bits the last square in `int_pow` overflows; it is not used. -/
def createCache (setBits linePerSet offsetBits : Nat) : Cache where
  cacheSets := List.replicate (intPow 2 setBits).toNat (initCacheSet linePerSet)
  offsetBits := offsetBits
  setBits := setBits

/-! ## Section 3: Accessing memory -/

/-- `splitAddr`: the set index and the tag of an address. -/
def splitAddr (offsetBits setBits : Nat) (addr : Addr) : BitVec 32 × Tag :=
  let tagSetBits := addr.sshiftRight offsetBits
  ((tagSetBits &&& genMask setBits).setWidth 32, (tagSetBits.sshiftRight setBits).setWidth 32)

/-- The loop of `hitCacheLine`: shift the tags down until the one that was
    hit has been read. -/
def hitLoop (hitTag hold : Tag) : List CacheLine → Option (List CacheLine)
  | [] => none
  | p :: rest =>
    let p' := { p with tag := hold }
    if p.tag = hitTag then some (p' :: rest)
    else (hitLoop hitTag p.tag rest).map (p' :: ·)

def hitCacheLine (set : CacheSet) (hitTag : Tag) : Option CacheSet :=
  (hitLoop hitTag hitTag set.lines).map fun lines => { set with lines := lines }

/-- The loop of `addCacheLine`: `tag` goes into the line at the pointer, and
    the tag found there into the next one. -/
def addLoop : Nat → Tag → List CacheLine → Option (List CacheLine)
  | 0, _, lines => some lines
  | _ + 1, _, [] => none
  | n + 1, tag, p :: rest => (addLoop n p.tag rest).map (⟨1#32, tag⟩ :: ·)

def addCacheLine (set : CacheSet) (tag : Tag) : Option CacheSet :=
  let size := if set.size < set.capacity then set.size + 1 else set.size
  (addLoop size tag set.lines).map fun lines => { set with lines := lines, size := size }

/-- The tag matching loop of `accessMem`: is one of the next `n` lines valid
    and has the tag? -/
def matchLoop : Nat → Tag → List CacheLine → Option Bool
  | 0, _, _ => some false
  | _ + 1, _, [] => none
  | n + 1, tagIndex, p :: rest =>
    if p.valid ≠ INVALID ∧ p.tag = tagIndex then some true else matchLoop n tagIndex rest

/-- `accessMem`, once the set has been located. -/
def accessSet (hitSet : CacheSet) (tagIndex : Tag) : Option (Outcome × CacheSet) :=
  match matchLoop hitSet.capacity tagIndex hitSet.lines with
  | none => none
  | some true => (hitCacheLine hitSet tagIndex).map (.HIT, ·)
  | some false =>
    if hitSet.size < hitSet.capacity then (addCacheLine hitSet tagIndex).map (.MISS, ·)
    else (addCacheLine hitSet tagIndex).map (.EVICTION, ·)

/-- `accessMem`. -/
def accessMem (cache : Cache) (addr : Addr) : Option (Outcome × Cache) :=
  let (setIndex, tagIndex) := splitAddr cache.offsetBits cache.setBits addr
  match cache.cacheSets[setIndex.toNat]? with
  | none => none
  | some hitSet =>
    (accessSet hitSet tagIndex).map fun (res, set) =>
      (res, { cache with cacheSets := cache.cacheSets.set setIndex.toNat set })

/-- The addresses of a trace, passed to `accessMem` one after another. -/
def accessAll (cache : Cache) : List Addr → Option (List Outcome × Cache)
  | [] => some ([], cache)
  | addr :: addrs =>
    match accessMem cache addr with
    | none => none
    | some (res, cache') =>
      (accessAll cache' addrs).map fun (ress, cache'') => (res :: ress, cache'')

/-! ## Section 4: What an access does -/

/-- An access to a set either finds its tag, or adds it. -/
theorem accessSet_cases {set set' : CacheSet} {tagIndex : Tag} {res : Outcome}
    (h : accessSet set tagIndex = some (res, set')) :
    (matchLoop set.capacity tagIndex set.lines = some true ∧ res = .HIT ∧
      hitCacheLine set tagIndex = some set') ∨
    (matchLoop set.capacity tagIndex set.lines = some false ∧
      res = (if set.size < set.capacity then .MISS else .EVICTION) ∧
      addCacheLine set tagIndex = some set') := by
  rw [accessSet] at h
  cases hmatch : matchLoop set.capacity tagIndex set.lines with
  | none =>
    rw [hmatch] at h
    cases h
  | some found =>
    rw [hmatch] at h
    cases found with
    | true =>
      obtain ⟨set'', hhit, heq⟩ := Option.map_eq_some_iff.mp h
      obtain ⟨rfl, rfl⟩ := Prod.mk.inj heq
      exact .inl ⟨rfl, rfl, hhit⟩
    | false =>
      by_cases hfull : set.size < set.capacity
      · simp only [if_pos hfull] at h
        obtain ⟨set'', hadd, heq⟩ := Option.map_eq_some_iff.mp h
        obtain ⟨rfl, rfl⟩ := Prod.mk.inj heq
        exact .inr ⟨rfl, (if_pos hfull).symm, hadd⟩
      · simp only [if_neg hfull] at h
        obtain ⟨set'', hadd, heq⟩ := Option.map_eq_some_iff.mp h
        obtain ⟨rfl, rfl⟩ := Prod.mk.inj heq
        exact .inr ⟨rfl, (if_neg hfull).symm, hadd⟩

/-- An access to memory is an access to one set. -/
theorem accessMem_cases {cache cache' : Cache} {addr : Addr} {res : Outcome}
    (h : accessMem cache addr = some (res, cache')) :
    ∃ setIndex tagIndex set set', splitAddr cache.offsetBits cache.setBits addr =
      (setIndex, tagIndex) ∧
      cache.cacheSets[setIndex.toNat]? = some set ∧ accessSet set tagIndex = some (res, set') ∧
      cache' = { cache with cacheSets := cache.cacheSets.set setIndex.toNat set' } := by
  unfold accessMem at h
  cases hset : cache.cacheSets[(splitAddr cache.offsetBits cache.setBits addr).1.toNat]? with
  | none =>
    simp only [hset] at h
    cases h
  | some set =>
    simp only [hset] at h
    obtain ⟨⟨res', set'⟩, haccess, heq⟩ := Option.map_eq_some_iff.mp h
    obtain ⟨hres, rfl⟩ := Prod.mk.inj heq
    obtain rfl : res' = res := hres
    exact ⟨_, _, set, set', rfl, hset, haccess, rfl⟩

/-! ## Section 5: `intPow` -/

/-- A round multiplies the result by the base if the last digit of the
    exponent is 1, and goes on with the square and the other digits. -/
theorem mul_pow_half (result base : Int) (exp : Nat) :
    (if exp % 2 = 1 then result * base else result) * (base * base) ^ (exp / 2) =
      result * base ^ exp := by
  by_cases hodd : exp % 2 = 1
  · rw [if_pos hodd]
    conv_rhs => rw [show exp = 1 + 2 * (exp / 2) by omega, pow_add, pow_mul]
    ring
  · rw [if_neg hodd]
    conv_rhs => rw [show exp = 2 * (exp / 2) by omega, pow_mul]
    ring

/-- The loop multiplies `result` by `base ^ exp`, modulo 2 ^ 32. -/
theorem intPowLoop_modEq (exp : Nat) :
    ∀ result base : Int, intPowLoop result base exp ≡ result * base ^ exp [ZMOD 2 ^ 32] := by
  induction exp using Nat.strongRecOn with
  | _ exp ih =>
    intro result base
    rw [intPowLoop]
    by_cases hexp : exp = 0
    · rw [if_pos hexp, hexp, pow_zero, mul_one]
    · have hlt : exp / 2 < exp := by omega
      have hmul : (if exp % 2 = 1 then wrap32 (result * base) else result) ≡
          (if exp % 2 = 1 then result * base else result) [ZMOD 2 ^ 32] := by
        split
        · exact wrap32_modEq _
        · exact Int.ModEq.refl _
      have hsquare : wrap32 (base * base) ^ (exp / 2) ≡ (base * base) ^ (exp / 2) [ZMOD 2 ^ 32] :=
        (wrap32_modEq _).pow _
      rw [if_neg hexp, ← mul_pow_half]
      exact (ih (exp / 2) hlt _ _).trans (hmul.mul hsquare)

/-- The result of the loop is one of the values that it stores. -/
theorem intPowLoop_wrap32 (exp : Nat) :
    ∀ result base : Int, wrap32 result = result →
      wrap32 (intPowLoop result base exp) = intPowLoop result base exp := by
  induction exp using Nat.strongRecOn with
  | _ exp ih =>
    intro result base hresult
    rw [intPowLoop]
    by_cases hexp : exp = 0
    · rw [if_pos hexp]
      exact hresult
    · rw [if_neg hexp]
      refine ih (exp / 2) (by omega) _ _ ?_
      split
      · exact wrap32_wrap32 _
      · exact hresult

/-- `int_pow` is exact when the power is an `int`. -/
theorem intPow_eq {base : Int} {exp : Nat} (hpow : wrap32 (base ^ exp) = base ^ exp) :
    intPow base exp = base ^ exp := by
  have hmod : intPow base exp ≡ base ^ exp [ZMOD 2 ^ 32] := by
    have h := intPowLoop_modEq exp 1 base
    rwa [one_mul] at h
  calc intPow base exp = wrap32 (intPow base exp) := (intPowLoop_wrap32 exp 1 base (by decide)).symm
    _ = wrap32 (base ^ exp) := wrap32_eq_iff.mpr hmod
    _ = base ^ exp := hpow

/-- The number of sets. -/
theorem intPow_two {setBits : Nat} (hs : setBits ≤ 30) :
    (intPow 2 setBits).toNat = 2 ^ setBits := by
  have hle : (2 : Int) ^ setBits ≤ 2 ^ 30 := pow_le_pow_right₀ (by decide) hs
  have hpos : (0 : Int) < 2 ^ setBits := by positivity
  have hcast : ((2 ^ setBits : Nat) : Int) = 2 ^ setBits := by push_cast; rfl
  rw [intPow_eq (wrap32_of_range (by omega) (by omega)), ← hcast, Int.toNat_natCast]

end CacheLab
