import Mathlib.Data.List.TakeWhile
import CsappExperiments.CacheLab.TraceLine

/-! # Cache Lab: the address on a trace line

    `splitOneInst` copies the digits of the address into a buffer of exactly
    their number and hands that to `strtol`, which stops at the first
    character that is no digit. There is none in the buffer: `strtol` reads
    on into whatever follows in memory. It also saturates at the largest
    `long`, below half of the addresses.
-/

open CLib

namespace CacheLab

/-- `hex` writes the address `a`, with any number of zeros in front. -/
structure Spells (hex : CStr) (a : Addr) : Prop where
  nonempty : hex ≠ []
  digits : ∀ c ∈ hex, isxdigit c
  value : hexadecimal 0 hex = a.toNat

/-- The digits that `strtol` goes on to read behind `hex`. An `x` and a digit
    behind a single `0` make a prefix of it. -/
def further (hex after : CStr) : CStr :=
  if hex = ['0'] ∧ skipPrefix ('0' :: after) ≠ '0' :: after then after.tail.takeWhile isxdigit
  else after.takeWhile isxdigit

theorem isxdigit_of_mem_further {hex after : CStr} {c : Char} (h : c ∈ further hex after) :
    isxdigit c := by
  unfold further at h
  split at h <;> exact List.mem_takeWhile_imp h

theorem skipPrefix_zero (after : CStr) :
    skipPrefix ('0' :: after) = '0' :: after ∨ skipPrefix ('0' :: after) = after.tail := by
  unfold skipPrefix
  split
  · next x d s heq =>
    obtain rfl := (List.cons.inj heq).2
    split
    · exact .inr rfl
    · exact .inl rfl
  · exact .inl rfl

/-- Two digits make no prefix. -/
theorem skipPrefix_digits {c d : Char} (hd : isxdigit d) (s : CStr) :
    skipPrefix (c :: d :: s) = c :: d :: s := by
  unfold skipPrefix
  split
  · next x d' s' heq =>
    obtain ⟨hc, htail⟩ := List.cons.inj heq
    obtain ⟨rfl, rfl⟩ := List.cons.inj htail
    rw [hc]
    refine if_neg ?_
    rintro ⟨rfl | rfl, _⟩ <;> exact absurd hd (by decide)
  · rfl

/-- What `strtol` reads: the address, and the digits behind it. -/
theorem hexadecimal_skipPrefix {hex : CStr} {a : Addr} (h : Spells hex a) (after : CStr) :
    hexadecimal 0 (skipPrefix (hex ++ after)) = hexadecimal a.toNat (further hex after) := by
  unfold further
  split
  · next hsingle =>
    obtain ⟨rfl, hprefixed⟩ := hsingle
    have hskip := (skipPrefix_zero after).resolve_left hprefixed
    rw [List.singleton_append, hskip, ← h.value, hexadecimal_takeWhile]
    rfl
  · next hsingle =>
    have hskip : skipPrefix (hex ++ after) = hex ++ after := by
      match hex, h with
      | [], h => exact absurd rfl h.nonempty
      | [c], h =>
        by_cases hc : c = '0'
        · subst hc
          by_contra hne
          exact hsingle ⟨rfl, hne⟩
        · unfold skipPrefix
          split
          · next heq => exact absurd (List.cons.inj heq).1 hc
          · rfl
      | _ :: d :: _, h => exact skipPrefix_digits (h.digits d (by simp)) _
    rw [hskip, hexadecimal_append h.digits, h.value, hexadecimal_takeWhile]

theorem strtol16_spells {hex : CStr} {a : Addr} (h : Spells hex a) (after : CStr) :
    strtol16 (hex ++ after) = min (2 ^ 63 - 1) (hexadecimal a.toNat (further hex after) : Int) := by
  rw [← hexadecimal_skipPrefix h]
  obtain ⟨c, rest, rfl⟩ := List.exists_cons_of_ne_nil h.nonempty
  exact strtol16_of_isxdigit (h.digits c List.mem_cons_self) _

/-- The saturated value is the address: it is a positive `long`, and either
    the largest one or nothing has changed its value. -/
theorem ofInt_min_eq_iff {a : Addr} {v : Nat} (hv : a.toNat ≤ v) :
    BitVec.ofInt 64 (min (2 ^ 63 - 1) (v : Int)) = a ↔
      a.toNat < 2 ^ 63 ∧ (a.toNat = 2 ^ 63 - 1 ∨ v = a.toNat) := by
  have hcast : (min (2 ^ 63 - 1) (v : Int)) = ((min (2 ^ 63 - 1) v : Nat) : Int) := by
    push_cast; rfl
  have hlt : min (2 ^ 63 - 1) v < 2 ^ 64 := by omega
  rw [hcast, BitVec.ofInt_natCast, ← BitVec.toNat_inj, BitVec.toNat_ofNat, Nat.mod_eq_of_lt hlt]
  omega

/-- Reading an address back. On the line for `op`, the address `a` and any
    size, `splitOneInst` finds `op` and `a` exactly when `a` is a positive
    `long` and the memory behind the copied digits does not go on with digits
    that change it: either there are none, or the address is zero and they
    are zeros, or it is the largest `long`, where `strtol` saturates. Only
    that one is read back whatever the memory holds. -/
theorem splitOneInst_reads_address_iff (op : Char) {a : Addr} {hex : CStr} (h : Spells hex a)
    (size : CStr) :
    (∀ after, splitOneInst (' ' :: op :: ' ' :: hex ++ ',' :: size) after = some (op, a) ↔
      a.toNat < 2 ^ 63 ∧
        (a.toNat = 2 ^ 63 - 1 ∨ further hex after = [] ∨
          a.toNat = 0 ∧ ∀ c ∈ further hex after, c = '0')) ∧
    ((∀ after, splitOneInst (' ' :: op :: ' ' :: hex ++ ',' :: size) after = some (op, a)) ↔
      a.toNat = 2 ^ 63 - 1) := by
  have hcomma : ',' ∉ hex := fun hmem => absurd (h.digits ',' hmem) (by decide)
  have hmain : ∀ after, splitOneInst (' ' :: op :: ' ' :: hex ++ ',' :: size) after = some (op, a) ↔
      a.toNat < 2 ^ 63 ∧
        (a.toNat = 2 ^ 63 - 1 ∨ further hex after = [] ∨
          a.toNat = 0 ∧ ∀ c ∈ further hex after, c = '0') := by
    intro after
    rw [splitOneInst_data hcomma, Option.some_inj, Prod.mk.injEq, strtol16_spells h,
      ofInt_min_eq_iff (le_hexadecimal _ _),
      hexadecimal_eq_self_iff fun c => isxdigit_of_mem_further]
    exact and_iff_right rfl
  refine ⟨hmain, ?_⟩
  constructor
  · intro hall
    by_contra hne
    -- a digit other than zero
    have hseven : further hex ['7'] = ['7'] := by
      unfold further
      rw [if_neg fun hsingle => hsingle.2 (by decide)]
      rfl
    obtain ⟨_, hlargest | hnil | ⟨_, hzeros⟩⟩ := (hmain ['7']).mp (hall ['7'])
    · exact hne hlargest
    · exact absurd (hseven.symm.trans hnil) (by decide)
    · rw [hseven] at hzeros
      exact absurd (hzeros '7' List.mem_cons_self) (by decide)
  · intro hlargest after
    exact (hmain after).mpr ⟨by omega, .inl hlargest⟩

theorem spells_ten : Spells ['1', '0'] 0x10#64 := ⟨by decide, List.all_eq_true.mp rfl, rfl⟩

theorem splitOneInst_reads_address_ten :
    splitOneInst (' ' :: 'L' :: ' ' :: ['1', '0'] ++ ',' :: ['1']) [] = some ('L', 0x10#64) :=
  ((splitOneInst_reads_address_iff 'L' spells_ten ['1']).1 []).mpr ⟨by simp, .inr (.inl rfl)⟩

/-- The memory behind the digits `10` goes on with a `7`; and an address with
    the top bit set, whatever the memory holds. -/
theorem splitOneInst_misreads :
    (Spells ['1', '0'] 0x10#64 ∧ splitOneInst " L 10,1".toList ['7'] ≠ some ('L', 0x10#64)) ∧
      (Spells "8000000000000000".toList 0x8000000000000000#64 ∧
        splitOneInst " L 8000000000000000,1".toList [] ≠ some ('L', 0x8000000000000000#64)) := by
  exact ⟨⟨spells_ten, by decide⟩, ⟨by decide, List.all_eq_true.mp (by decide), rfl⟩, by decide⟩

end CacheLab
