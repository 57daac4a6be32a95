import CsappExperiments.CacheLab.Lru
import Mathlib.Tactic.Tauto

/-! # Cache Lab: what the tag of an address forgets

    `splitAddr` makes a set index and a tag of an address, and two addresses
    in one memory block get the same ones. The tag is computed with all of
    its `64 - s - b` bits (`tagBits` in `createCache`), but stored in an
    `int`. So `splitAddr` sees `s + 32` bits of a block (`splitAddr_eq_iff`):
    it tells all blocks apart exactly when there are no more than these, and
    the simulator never takes one block for another exactly then.
-/

namespace CacheLab

/-! ## Section 1: Bits -/

/-- A value is its low `n` bits and the rest. -/
theorem eq_iff_low_high {x y : BitVec 64} (n : Nat) :
    x = y ↔ x.setWidth n = y.setWidth n ∧ x.sshiftRight n = y.sshiftRight n := by
  constructor
  · intro h
    rw [h]
    exact ⟨rfl, rfl⟩
  · intro ⟨hlow, hhigh⟩
    apply BitVec.eq_of_getLsbD_eq
    intro i hi
    by_cases hin : i < n
    · have hbit := congrArg (BitVec.getLsbD · i) hlow
      simpa [BitVec.getLsbD_setWidth, hin] using hbit
    · have hbit := congrArg (BitVec.getLsbD · (i - n)) hhigh
      have hsum : n + (i - n) = i := by omega
      have hlt : ¬ 64 ≤ i - n := by omega
      simpa [BitVec.getLsbD_sshiftRight, hsum, hi, hlt] using hbit

theorem getLsbD_genMask {bits : Nat} (h : bits < 64) (i : Nat) :
    (genMask bits).getLsbD i = decide (i < bits) := by
  rw [← BitVec.testBit_toNat, genMask_toNat h, Nat.testBit_two_pow_sub_one]

theorem getLsbD_setIndex {s : Nat} (hs : s ≤ 30) (x : BitVec 64) (i : Nat) :
    ((x &&& genMask s).setWidth 32).getLsbD i = (decide (i < s) && x.getLsbD i) := by
  rw [BitVec.getLsbD_setWidth, BitVec.getLsbD_and, getLsbD_genMask (by omega)]
  by_cases hi : i < s
  · have hi' : i < 32 := by omega
    simp [hi, hi']
  · simp [hi]

theorem getLsbD_tagIndex {s : Nat} (hs : s ≤ 30) (x : BitVec 64) (i : Nat) :
    ((x.sshiftRight s).setWidth 32).getLsbD i = (decide (i < 32) && x.getLsbD (s + i)) := by
  rw [BitVec.getLsbD_setWidth, BitVec.getLsbD_sshiftRight]
  by_cases hi : i < 32
  · have hi' : ¬ 64 ≤ i := by omega
    have hsi : s + i < 64 := by omega
    simp [hi, hi', hsi]
  · simp [hi]

/-- `splitAddr` keeps the low `s + 32` bits of a block. -/
theorem splitAddr_eq_iff {s : Nat} (hs : s ≤ 30) (b : Nat) (a₁ a₂ : Addr) :
    splitAddr b s a₁ = splitAddr b s a₂ ↔
      (a₁.sshiftRight b).setWidth (s + 32) = (a₂.sshiftRight b).setWidth (s + 32) := by
  unfold splitAddr
  generalize a₁.sshiftRight b = x
  generalize a₂.sshiftRight b = y
  rw [Prod.mk.injEq]
  constructor
  · intro ⟨h₁, h₂⟩
    apply BitVec.eq_of_getLsbD_eq
    intro i hi
    rw [BitVec.getLsbD_setWidth, BitVec.getLsbD_setWidth]
    -- the lower bits are in the set number, the upper 32 in the tag
    by_cases his : i < s
    · have hbit := congrArg (BitVec.getLsbD · i) h₁
      simp only [getLsbD_setIndex hs, his, decide_true, Bool.true_and] at hbit
      rw [hbit]
    · have hbit := congrArg (BitVec.getLsbD · (i - s)) h₂
      have hsum : s + (i - s) = i := by omega
      have hlt : i - s < 32 := by omega
      simp only [getLsbD_tagIndex hs, hsum, hlt, decide_true, Bool.true_and] at hbit
      rw [hbit]
  · intro h
    have hlow : ∀ i < s + 32, x.getLsbD i = y.getLsbD i := by
      intro i hi
      have hbit := congrArg (BitVec.getLsbD · i) h
      simpa [BitVec.getLsbD_setWidth, hi] using hbit
    constructor
    · apply BitVec.eq_of_getLsbD_eq
      intro i hi
      rw [getLsbD_setIndex hs, getLsbD_setIndex hs, hlow i (by omega)]
    · apply BitVec.eq_of_getLsbD_eq
      intro i hi
      rw [getLsbD_tagIndex hs, getLsbD_tagIndex hs, hlow (s + i) (by omega)]

/-! ## Section 2: Blocks -/

/-- Two addresses agree from bit `s + b + 32` on, or differ in the `s + 32`
    bits before it that are not part of the offset. -/
def Separated (s b : Nat) (a₁ a₂ : Addr) : Prop :=
  a₁.sshiftRight (s + b + 32) = a₂.sshiftRight (s + b + 32) ∨
    (a₁.sshiftRight b).setWidth (s + 32) ≠ (a₂.sshiftRight b).setWidth (s + 32)

/-- The split of two addresses tells whether they are in one block. -/
def FaithfulFor (s b : Nat) (a₁ a₂ : Addr) : Prop :=
  splitAddr b s a₁ = splitAddr b s a₂ ↔ a₁.sshiftRight b = a₂.sshiftRight b

theorem faithfulFor_iff {s : Nat} (hs : s ≤ 30) (b : Nat) (a₁ a₂ : Addr) :
    FaithfulFor s b a₁ a₂ ↔ Separated s b a₁ a₂ := by
  have hblock := eq_iff_low_high (x := a₁.sshiftRight b) (y := a₂.sshiftRight b) (s + 32)
  have hshift : b + (s + 32) = s + b + 32 := by omega
  rw [← BitVec.sshiftRight_add, ← BitVec.sshiftRight_add, hshift] at hblock
  unfold FaithfulFor Separated
  rw [splitAddr_eq_iff hs, hblock]
  tauto

/-- When `s + 32` bits are all that a block has, every two addresses are separated. -/
theorem separated_of_le {s b : Nat} (h : 32 ≤ s + b) (hsb : s + b < 64) (a₁ a₂ : Addr) :
    Separated s b a₁ a₂ := by
  by_cases hlow : (a₁.sshiftRight b).setWidth (s + 32) = (a₂.sshiftRight b).setWidth (s + 32)
  · left
    -- the last bit of the address is among the bits that agree
    have hmsb : a₁.msb = a₂.msb := by
      have hbit := congrArg (BitVec.getLsbD · (63 - b)) hlow
      have hlt : 63 - b < s + 32 := by omega
      have hsum : b + (63 - b) = 63 := by omega
      have hge : ¬ 64 ≤ 63 - b := by omega
      rw [BitVec.msb_eq_getLsbD_last, BitVec.msb_eq_getLsbD_last]
      simpa [BitVec.getLsbD_setWidth, BitVec.getLsbD_sshiftRight, hlt, hsum, hge] using hbit
    apply BitVec.eq_of_getLsbD_eq
    intro i hi
    have hge : ¬ s + b + 32 + i < 64 := by omega
    rw [BitVec.getLsbD_sshiftRight, BitVec.getLsbD_sshiftRight, if_neg hge, if_neg hge, hmsb]
  · right
    exact hlow

/-- The lowest bit that is lost, if any is. -/
def lostBit (s b : Nat) : Addr := BitVec.twoPow 64 (s + b + 32)

theorem splitAddr_lostBit {s b : Nat} (hs : s ≤ 30) (h : s + b < 32) :
    splitAddr b s (lostBit s b) = splitAddr b s 0#64 := by
  rw [splitAddr_eq_iff hs]
  apply BitVec.eq_of_getLsbD_eq
  intro i hi
  have hlt : b + i < 64 := by omega
  have hne : ¬ b + i = s + b + 32 := by omega
  simp [lostBit, BitVec.getLsbD_setWidth, BitVec.getLsbD_sshiftRight, hlt, hne]

theorem block_lostBit {s b : Nat} (h : s + b < 32) :
    (lostBit s b).sshiftRight b ≠ (0#64).sshiftRight b := by
  intro heq
  have hbit := congrArg (BitVec.getLsbD · (s + 32)) heq
  have hlt : b + (s + 32) < 64 := by omega
  have hge : ¬ 64 ≤ s + 32 := by omega
  have hsum : s + b + 32 = b + (s + 32) := by omega
  simp [lostBit, BitVec.getLsbD_sshiftRight, hlt, hge, hsum] at hbit

/-- Every two blocks are told apart. -/
theorem faithful_iff {s b : Nat} (hs : s ≤ 30) (hsb : s + b < 64) :
    (∀ a₁ a₂, FaithfulFor s b a₁ a₂) ↔ 32 ≤ s + b := by
  constructor
  · intro h
    by_contra hlt
    have hlt' : s + b < 32 := by omega
    exact block_lostBit hlt' ((h (lostBit s b) 0#64).mp (splitAddr_lostBit hs hlt'))
  · intro h a₁ a₂
    exact (faithfulFor_iff hs b a₁ a₂).mpr (separated_of_le h hsb a₁ a₂)

/-! ## Section 3: False hits -/

/-- On a fresh cache, a trace reports a hit only for blocks that it has
    accessed before. -/
def NoFalseHit (s E b : Nat) (addrs : List Addr) : Prop :=
  ∃ outcomes cache, accessAll (createCache s E b) addrs = some (outcomes, cache) ∧
    ∀ (i : Nat) (addr : Addr), addrs[i]? = some addr → outcomes[i]? = some .HIT →
      ∃ addr' ∈ addrs.take i, addr'.sshiftRight b = addr.sshiftRight b

/-- A hit was accessed before, as far as the split can tell. -/
theorem noFalseHit_of_faithful {s E b : Nat} (hs : s ≤ 30) (hE : 1 ≤ E) {addrs : List Addr}
    (h : ∀ a₁ ∈ addrs, ∀ a₂ ∈ addrs, FaithfulFor s b a₁ a₂) : NoFalseHit s E b addrs := by
  obtain ⟨outcomes, cache, hrun, _, _, hout⟩ :=
    accessAll_tracks hs hE addrs (tracks_createCache hs b E)
  refine ⟨outcomes, cache, hrun, ?_⟩
  intro i addr hi hhit
  rw [hout i addr hi, List.nil_append, Option.some_inj] at hhit
  obtain ⟨old, recent, heq, _⟩ := (outcomeAfter_spec E _ _).1.mp hhit
  have hmem : splitAddr b s addr ∈ (addrs.take i).map (splitAddr b s) := by
    rw [heq]
    simp
  obtain ⟨addr', haddr', hsplit⟩ := List.mem_map.mp hmem
  exact ⟨addr', haddr',
    (h addr' (List.mem_of_mem_take haddr') addr (List.mem_of_getElem? hi)).mp hsplit⟩

/-- The second access to one set and tag is a hit. -/
theorem second_access_hits {s E b : Nat} (hs : s ≤ 30) (hE : 1 ≤ E) {a₁ a₂ : Addr}
    (h : splitAddr b s a₁ = splitAddr b s a₂) :
    ∃ outcomes cache, accessAll (createCache s E b) [a₁, a₂] = some (outcomes, cache) ∧
      outcomes[1]? = some .HIT := by
  obtain ⟨outcomes, cache, hrun, _, _, hout⟩ :=
    accessAll_tracks hs hE [a₁, a₂] (tracks_createCache hs b E)
  refine ⟨outcomes, cache, hrun, ?_⟩
  rw [hout 1 a₂ rfl, Option.some_inj]
  apply (outcomeAfter_spec E _ _).1.mpr
  refine ⟨[], [], by simp [h], List.not_mem_nil, ?_⟩
  show 0 < E
  omega

theorem noFalseHit_iff {s E b : Nat} (hs : s ≤ 30) (hsb : s + b < 64) (hE : 1 ≤ E) :
    (∀ addrs, NoFalseHit s E b addrs) ↔ 32 ≤ s + b := by
  constructor
  · intro h
    by_contra hlt
    have hlt' : s + b < 32 := by omega
    obtain ⟨outcomes, cache, hrun, hfalse⟩ := h [0#64, lostBit s b]
    obtain ⟨outcomes', cache', hrun', hhit⟩ :=
      second_access_hits hs hE (splitAddr_lostBit hs hlt').symm
    rw [hrun] at hrun'
    cases hrun'
    obtain ⟨addr', haddr', hblock⟩ := hfalse 1 (lostBit s b) rfl hhit
    obtain rfl : addr' = 0#64 := by simpa using haddr'
    exact block_lostBit hlt' hblock.symm
  · intro h addrs
    exact noFalseHit_of_faithful hs hE fun a₁ _ a₂ _ => (faithful_iff hs hsb).mpr h a₁ a₂

/-- When the split of addresses is faithful. The set index is always in
    range. Two addresses are told apart as their blocks are, unless they
    differ only in bits that the tag has lost. All of them are, and no hit of
    the simulator is for a block that was not loaded, exactly when the bits
    from the set index on fit into the tag. -/
theorem splitAddr_faithful_iff {s b E : Nat} (hs : s ≤ 30) (hsb : s + b < 64) (hE : 1 ≤ E) :
    (∀ a, (splitAddr b s a).1.toNat < 2 ^ s) ∧
    (∀ a₁ a₂, (splitAddr b s a₁ = splitAddr b s a₂ ↔ a₁.sshiftRight b = a₂.sshiftRight b) ↔
      Separated s b a₁ a₂) ∧
    ((∀ a₁ a₂, splitAddr b s a₁ = splitAddr b s a₂ ↔ a₁.sshiftRight b = a₂.sshiftRight b) ↔
      32 ≤ s + b) ∧
    ((∀ addrs, NoFalseHit s E b addrs) ↔ 32 ≤ s + b) :=
  ⟨splitAddr_lt hs b, faithfulFor_iff hs b, faithful_iff hs hsb, noFalseHit_iff hs hsb hE⟩

/-- One set of one byte lines. -/
theorem splitAddr_faithful_iff_bytes :
    (∀ a, (splitAddr 0 0 a).1.toNat < 1) ∧ ¬ ∀ addrs, NoFalseHit 0 1 0 addrs := by
  obtain ⟨hrange, _, _, hhit⟩ :=
    splitAddr_faithful_iff (s := 0) (b := 0) (E := 1) (by decide) (by decide) (by decide)
  exact ⟨hrange, fun h => absurd (hhit.mp h) (by decide)⟩

/-- Two bytes that are `2 ^ 32` apart: the second one is reported as a hit. -/
theorem splitAddr_confuses_blocks :
    splitAddr 0 0 0x0#64 = splitAddr 0 0 0x100000000#64 ∧
      (0x0#64).sshiftRight 0 ≠ (0x100000000#64).sshiftRight 0 ∧
      (accessAll (createCache 0 1 0) [0x0#64, 0x100000000#64]).map Prod.fst =
        some [.MISS, .HIT] := by
  decide +kernel

end CacheLab
