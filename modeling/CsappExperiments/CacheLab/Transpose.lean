import CsappExperiments.CacheLab.Trans
import Mathlib.Tactic.IntervalCases

/-! # Cache Lab: the transposition is correct

    A command on `B` that overwrites a region by the transpose of `A`,
    whatever `B` held, is correct on its own, and such commands compose
    (`Writes`). `trans` is built of single stores of this kind, and
    `transpose_submit` of blocks. Within a block the kernels for 32 and 64
    columns leave elements at other places for a while, which takes an
    invariant of their own (`Swapping`, `Unparking`).

    On the sizes that the kernels cover, `transpose_submit` does what `trans`
    does. Section 6 says on which inputs of any size it does.
-/

open Loops

namespace CacheLab

/-! ## Section 1: Regions of `B` -/

/-- The elements that `B` should have. -/
def transposed (A : Cells) : Cells := fun p => A (p.2, p.1)

/-- The rows from `r₁` to `r₂` and the columns from `c₁` to `c₂`, without the ends. -/
def rect (r₁ r₂ c₁ c₂ : Nat) : Set (Nat × Nat) := {p | r₁ ≤ p.1 ∧ p.1 < r₂ ∧ c₁ ≤ p.2 ∧ p.2 < c₂}

@[simp] theorem mem_rect {r₁ r₂ c₁ c₂ : Nat} {p : Nat × Nat} :
    p ∈ rect r₁ r₂ c₁ c₂ ↔ r₁ ≤ p.1 ∧ p.1 < r₂ ∧ c₁ ≤ p.2 ∧ p.2 < c₂ := Iff.rfl

theorem load_of_lt {rows cols r c : Nat} (hr : r < rows) (hc : c < cols) (X : Cells) :
    load rows cols X r c = some (X (r, c)) := if_pos ⟨hr, hc⟩

theorem store_of_lt {rows cols r c : Nat} (hr : r < rows) (hc : c < cols) (X : Cells)
    (v : BitVec 32) :
    store rows cols X r c v = some (Function.update X (r, c) v) := if_pos ⟨hr, hc⟩

theorem writes_store {rows cols r c : Nat} (hr : r < rows) (hc : c < cols) {v : BitVec 32}
    {f : Cells} (hv : v = f (r, c)) : Writes {(r, c)} f fun X => store rows cols X r c v :=
  fun X => ⟨_, store_of_lt hr hc X v, .update X hv⟩

/-- Eight stores in a row. -/
theorem writes_storeRow {M N s i : Nat} (hs : s < M) (hi : i + 8 ≤ N) {f : Cells} :
    Writes (rect s (s + 1) i (i + 8)) f
      (storeRow M N s i (f (s, i)) (f (s, i + 1)) (f (s, i + 2)) (f (s, i + 3)) (f (s, i + 4))
        (f (s, i + 5)) (f (s, i + 6)) (f (s, i + 7))) := by
  have hstore : ∀ m < 8, Writes {(s, i + m)} f fun B => store M N B s (i + m) (f (s, i + m)) :=
    fun m hm => writes_store hs (by omega) rfl
  refine ((hstore 0 (by decide)).seq <| (hstore 1 (by decide)).seq <| (hstore 2 (by decide)).seq <|
    (hstore 3 (by decide)).seq <| (hstore 4 (by decide)).seq <| (hstore 5 (by decide)).seq <|
    (hstore 6 (by decide)).seq <| hstore 7 (by decide)).congr ?_
  intro p
  simp only [mem_rect, Set.mem_union, Set.mem_singleton_iff, Prod.ext_iff]
  omega

/-- One element. -/
theorem writes_element {M N k s : Nat} (hk : k < N) (hs : s < M) (A : Cells) :
    Writes {(s, k)} (transposed A) fun B => (do
      let a ← load N M A k s
      store M N B s k a) := by
  rw [load_of_lt hk hs]
  exact writes_store hs hk rfl

/-- `trans` overwrites the whole of `B`. -/
theorem writes_trans (M N : Nat) (A : Cells) :
    Writes (rect 0 M 0 N) (transposed A) (trans M N A) := by
  refine (Writes.forLoop fun i hi => Writes.forLoop fun j hj =>
    writes_element (round_zero.mp hi).1 (round_zero.mp hj).1 A).congr ?_
  intro p
  simp only [mem_rect, Set.mem_ofPred_eq, round_one, Set.mem_singleton_iff, Prod.ext_iff]
  constructor
  · rintro ⟨_, h₁, _, h₂⟩
    exact ⟨p.2, ⟨Nat.zero_le _, h₂⟩, p.1, ⟨Nat.zero_le _, h₁⟩, rfl, rfl⟩
  · rintro ⟨i, hi, j, hj, rfl, rfl⟩
    exact ⟨Nat.zero_le _, hj.2, Nat.zero_le _, hi.2⟩

/-- Tiles of `a` columns and `b` rows of `A`, cut off at the edges, cover `B`. -/
theorem writes_tiles {M N a b : Nat} [NeZero a] [NeZero b] {f : Cells}
    {kernel : Nat → Nat → Cells → Option Cells}
    (hkernel : ∀ i j, Round 0 N b i → Round 0 M a j →
      Writes (rect j (min (j + a) M) i (min (i + b) N)) f (kernel i j)) :
    Writes (rect 0 M 0 N) f (forLoop 0 N b fun i => forLoop 0 M a fun j => kernel i j) := by
  refine (Writes.forLoop fun i hi => Writes.forLoop fun j hj => hkernel i j hi hj).congr ?_
  intro p
  simp only [mem_rect, Set.mem_ofPred_eq]
  constructor
  · rintro ⟨_, h₁, _, h₂⟩
    obtain ⟨i, hi, hip, hpi⟩ : ∃ i, Round 0 N b i ∧ i ≤ p.2 ∧ p.2 < i + b := Round.exists_of_lt h₂
    obtain ⟨j, hj, hjp, hpj⟩ : ∃ j, Round 0 M a j ∧ j ≤ p.1 ∧ p.1 < j + a := Round.exists_of_lt h₁
    exact ⟨i, hi, j, hj, by omega⟩
  · rintro ⟨i, hi, j, hj, hp⟩
    omega

/-- A block that is transposed, element by element. -/
theorem overlay_block {A B₀ B : Cells} {i j : Nat}
    (hon : ∀ n m, n < 8 → m < 8 → B (j + n, i + m) = A (i + m, j + n))
    (hoff : ∀ p, p ∉ rect j (j + 8) i (i + 8) → B p = B₀ p) :
    Overlay (rect j (j + 8) i (i + 8)) (transposed A) B₀ B where
  on := by
    intro p hp
    rw [mem_rect] at hp
    obtain ⟨n, hn⟩ : ∃ n, p.1 = j + n := ⟨p.1 - j, by omega⟩
    obtain ⟨m, hm⟩ : ∃ m, p.2 = i + m := ⟨p.2 - i, by omega⟩
    obtain rfl : p = (j + n, i + m) := Prod.ext hn hm
    exact hon n m (by omega) (by omega)
  off := fun p hp => hoff p hp

/-! ## Section 2: 32 columns -/

/-- The block at `(i, j)` of `A`, as it is, at the place of its transpose. -/
def copied (A : Cells) (i j : Nat) : Cells := fun p => A (i + (p.1 - j), j + (p.2 - i))

theorem writes_copyRow {M N i j k : Nat} (hk : i ≤ k) (hk' : k < i + 8) (hi : i + 8 ≤ N)
    (hj : j + 8 ≤ M) (A : Cells) :
    Writes (rect (j + (k - i)) (j + (k - i) + 1) i (i + 8)) (copied A i j)
      (copyRow M N A i j k (j + (k - i))) := by
  have hload : ∀ m < 8, load N M A k (j + m) = some (copied A i j (j + (k - i), i + m)) := by
    intro m hm
    rw [load_of_lt (by omega) (by omega), copied]
    congr 3 <;> dsimp only <;> omega
  have hs : j + (k - i) < M := by omega
  have hload₀ : load N M A k j = some (copied A i j (j + (k - i), i)) := hload 0 (by decide)
  refine (writes_storeRow hs hi).of_eq fun B => ?_
  rw [copyRow, hload₀, hload 1 (by decide), hload 2 (by decide), hload 3 (by decide),
    hload 4 (by decide), hload 5 (by decide), hload 6 (by decide), hload 7 (by decide)]
  rfl

/-- The copied block, while its elements are exchanged: those before the pair
    `(k, s)` have been. -/
structure Swapping (A B₀ : Cells) (i j k s : Nat) (B : Cells) : Prop where
  done : ∀ n m, n < m → m < 8 → n < k ∨ n = k ∧ m < s →
    B (j + n, i + m) = A (i + m, j + n) ∧ B (j + m, i + n) = A (i + n, j + m)
  todo : ∀ n m, n < m → m < 8 → ¬ (n < k ∨ n = k ∧ m < s) →
    B (j + n, i + m) = A (i + n, j + m) ∧ B (j + m, i + n) = A (i + m, j + n)
  diagonal : ∀ n < 8, B (j + n, i + n) = A (i + n, j + n)
  off : ∀ p, p ∉ rect j (j + 8) i (i + 8) → B p = B₀ p

namespace Swapping

variable {A B₀ B : Cells} {i j k s : Nat}

theorem of_copied (h : Overlay (rect j (j + 8) i (i + 8)) (copied A i j) B₀ B) :
    Swapping A B₀ i j 0 1 B := by
  have hcopied : ∀ n m, n < 8 → m < 8 → B (j + n, i + m) = A (i + n, j + m) := by
    intro n m hn hm
    have hmem : (j + n, i + m) ∈ rect j (j + 8) i (i + 8) := by
      rw [mem_rect]
      omega
    rw [h.on hmem, copied, Nat.add_sub_cancel_left, Nat.add_sub_cancel_left]
  constructor
  · intro n m hnm hm hbefore
    omega
  · intro n m hnm hm _
    exact ⟨hcopied n m (by omega) hm, hcopied m n hm (by omega)⟩
  · intro n hn
    exact hcopied n n hn hn
  · exact fun p hp => h.off hp

/-- The same pairs are done, counted from another place. -/
theorem of_before_iff (h : Swapping A B₀ i j k s B) {k' s' : Nat}
    (hiff : ∀ n m, n < m → m < 8 → ((n < k' ∨ n = k' ∧ m < s') ↔ (n < k ∨ n = k ∧ m < s))) :
    Swapping A B₀ i j k' s' B :=
  { h with
    done := fun n m hnm hm hb => h.done n m hnm hm ((hiff n m hnm hm).mp hb)
    todo := fun n m hnm hm hb => h.todo n m hnm hm fun hb' => hb ((hiff n m hnm hm).mpr hb') }

/-- The pair `(k, s)` is exchanged. -/
theorem exchange (h : Swapping A B₀ i j k s B) (hks : k < s) (hs : s < 8) {B' : Cells}
    (hfst : B' (j + k, i + s) = B (j + s, i + k)) (hsnd : B' (j + s, i + k) = B (j + k, i + s))
    (hrest : ∀ p, p ≠ (j + k, i + s) → p ≠ (j + s, i + k) → B' p = B p) :
    Swapping A B₀ i j k (s + 1) B' := by
  have hpair := h.todo k s hks hs (by omega)
  -- the other pairs are not touched
  have hother : ∀ n m, n < m → ¬ (n = k ∧ m = s) →
      B' (j + n, i + m) = B (j + n, i + m) ∧ B' (j + m, i + n) = B (j + m, i + n) := by
    intro n m hnm hne
    -- what is done stays done, and what is still to do is as it was
    constructor <;> apply hrest <;> simp only [ne_eq, Prod.mk.injEq] <;> omega
  constructor
  · intro n m hnm hm hbefore
    by_cases hthis : n = k ∧ m = s
    · obtain ⟨rfl, rfl⟩ := hthis
      rw [hfst, hsnd]
      exact ⟨hpair.2, hpair.1⟩
    · obtain ⟨h₁, h₂⟩ := hother n m hnm hthis
      rw [h₁, h₂]
      exact h.done n m hnm hm (by omega)
  · intro n m hnm hm hafter
    obtain ⟨h₁, h₂⟩ := hother n m hnm (by omega)
    rw [h₁, h₂]
    exact h.todo n m hnm hm (by omega)
  · intro n hn
    rw [hrest _ (by simp only [ne_eq, Prod.mk.injEq]; omega)
      (by simp only [ne_eq, Prod.mk.injEq]; omega)]
    exact h.diagonal n hn
  · intro p hp
    rw [hrest p, h.off p hp]
    · rintro rfl
      exact hp (by rw [mem_rect]; omega)
    · rintro rfl
      exact hp (by rw [mem_rect]; omega)

theorem swapPair {M N : Nat} (h : Swapping A B₀ i j k s B) (hks : k < s) (hs : s < 8)
    (hi : i + 8 ≤ N) (hj : j + 8 ≤ M) :
    ∃ B', swapPair M N i j k s B = some B' ∧ Swapping A B₀ i j k (s + 1) B' := by
  have hrun : CacheLab.swapPair M N i j k s B =
      some (Function.update (Function.update B (k + j, s + i) (B (s + j, k + i))) (s + j, k + i)
        (B (k + j, s + i))) := by
    rw [CacheLab.swapPair, load_of_lt (by omega) (by omega), load_of_lt (by omega) (by omega)]
    simp only [Option.bind_eq_bind, Option.bind_some]
    rw [store_of_lt (by omega) (by omega), Option.bind_some, store_of_lt (by omega) (by omega)]
  rw [hrun, Nat.add_comm k j, Nat.add_comm s i, Nat.add_comm s j, Nat.add_comm k i]
  have hne : (j + k, i + s) ≠ (j + s, i + k) := by
    simp only [ne_eq, Prod.mk.injEq]
    omega
  refine ⟨_, rfl, h.exchange hks hs ?_ (Function.update_self _ _ _) ?_⟩
  · rw [Function.update_of_ne hne, Function.update_self]
  · intro p hp hp'
    rw [Function.update_of_ne hp', Function.update_of_ne hp]

/-- When all pairs are done the block is transposed. -/
theorem overlay (h : Swapping A B₀ i j k s B) (hk : 8 ≤ k) :
    Overlay (rect j (j + 8) i (i + 8)) (transposed A) B₀ B := by
  refine overlay_block ?_ h.off
  intro n m hn hm
  rcases Nat.lt_trichotomy n m with hlt | rfl | hgt
  · exact (h.done n m hlt (by omega) (by omega)).1
  · exact h.diagonal n (by omega)
  · exact (h.done m n hgt (by omega) (by omega)).2

end Swapping

theorem writes_block32 {M N i j : Nat} (hi : i + 8 ≤ N) (hj : j + 8 ≤ M) (A : Cells) :
    Writes (rect j (j + 8) i (i + 8)) (transposed A) (block32 M N A i j) := by
  intro B₀
  -- first the block is copied as it is, row by row
  have hcopy : Writes (rect j (j + 8) i (i + 8)) (copied A i j)
      (forLoop i (i + 8) 1 fun k => copyRow M N A i j k (j + (k - i))) := by
    refine (Writes.forLoop fun k hk => writes_copyRow (round_one.mp hk).1 (round_one.mp hk).2 hi hj
      A).congr ?_
    intro p
    simp only [mem_rect, Set.mem_ofPred_eq, round_one]
    constructor
    · intro hp
      exact ⟨i + (p.1 - j), by omega, by omega⟩
    · rintro ⟨k, hk, hp⟩
      omega
  obtain ⟨B₁, hB₁, hcopied⟩ := hcopy B₀
  -- then it is transposed in place
  have hrow : ∀ k B, Round 0 8 1 k → Swapping A B₀ i j k (k + 1) B →
      ∃ B', forLoop (k + 1) 8 1 (fun s => swapPair M N i j k s) B = some B' ∧
        Swapping A B₀ i j (k + 1) (k + 1 + 1) B' := by
    intro k B hk hB
    have hstep : ∀ s B, Round (k + 1) 8 1 s → Swapping A B₀ i j k s B →
        ∃ B', swapPair M N i j k s B = some B' ∧ Swapping A B₀ i j k (s + 1) B' := by
      intro s B hs hB
      obtain ⟨hks, hs⟩ := round_one.mp hs
      exact hB.swapPair hks hs hi hj
    obtain ⟨s, B', hrun, hs, hB'⟩ := forLoop_invariant hstep hB
    exact ⟨B', hrun, hB'.of_before_iff fun n m hnm hm => by omega⟩
  obtain ⟨k, B₂, hrun, hk, hB₂⟩ := forLoop_invariant hrow (Swapping.of_copied hcopied)
  refine ⟨B₂, ?_, hB₂.overlay hk⟩
  rw [block32, hB₁]
  exact hrun

/-! ## Section 3: 64 columns -/

/-- What the upper half of a block of `B` holds after the first pass: on the
    left its elements, on the right those of the lower half. -/
def parked (A : Cells) (i : Nat) : Cells :=
  fun p => if p.2 < i + 4 then A (p.2, p.1) else A (p.2 - 4, p.1 + 4)

theorem writes_parkRow {M N i j k : Nat} (hk : k < 4) (hi : i + 8 ≤ N) (hj : j + 8 ≤ M)
    (A : Cells) :
    Writes (rect j (j + 4) (k + i) (k + i + 1) ∪ rect j (j + 4) (k + 4 + i) (k + 4 + i + 1))
      (parked A i)
      (parkRow M N A i j k) := by
  -- the eight loads come first
  have hload : ∀ m < 8, load N M A (k + i) (j + m) = some (A (k + i, j + m)) :=
    fun m hm => load_of_lt (by omega) (by omega) A
  have hload₀ : load N M A (k + i) j = some (A (k + i, j)) := hload 0 (by decide)
  have hleft : ∀ m < 4, Writes {(j + m, k + i)} (parked A i)
      fun B => store M N B (j + m) (k + i) (A (k + i, j + m)) := by
    intro m hm
    refine writes_store (by omega) (by omega) ?_
    rw [parked, if_pos (by dsimp only; omega)]
  have hright : ∀ m < 4, Writes {(j + m, k + 4 + i)} (parked A i)
      fun B => store M N B (j + m) (k + 4 + i) (A (k + i, j + (m + 4))) := by
    intro m hm
    refine writes_store (by omega) (by omega) ?_
    rw [parked, if_neg (by dsimp only; omega)]
    congr 2
    dsimp only
    omega
  have hrightHalf : Writes (rect j (j + 4) (k + 4 + i) (k + 4 + i + 1)) (parked A i) _ :=
    ((hright 0 (by decide)).seq <| (hright 1 (by decide)).seq <| (hright 2 (by decide)).seq <|
      hright 3 (by decide)).congr fun p => by
        simp only [mem_rect, Set.mem_union, Set.mem_singleton_iff, Prod.ext_iff]
        omega
  refine (((hleft 0 (by decide)).seq <| (hleft 1 (by decide)).seq <| (hleft 2 (by decide)).seq <|
    (hleft 3 (by decide)).seq hrightHalf).congr ?_).of_eq fun B => ?_
  · intro p
    simp only [mem_rect, Set.mem_union, Set.mem_singleton_iff, Prod.ext_iff]
    omega
  · rw [parkRow, hload₀, hload 1 (by decide), hload 2 (by decide), hload 3 (by decide),
      hload 4 (by decide), hload 5 (by decide), hload 6 (by decide), hload 7 (by decide)]
    rfl

/-- The stores of step 3. -/
theorem writes_step3 {M N s i : Nat} (hs : s < M) (hi : i + 8 ≤ N) {f : Cells} :
    Writes (rect s (s + 1) (i + 4) (i + 8)) f fun B => (do
      let B ← store M N B s (i + 4) (f (s, i + 4))
      let B ← store M N B s (i + 5) (f (s, i + 5))
      let B ← store M N B s (i + 6) (f (s, i + 6))
      store M N B s (i + 7) (f (s, i + 7))) := by
  have hstore : ∀ m < 8, Writes {(s, i + m)} f fun B => store M N B s (i + m) (f (s, i + m)) :=
    fun m hm => writes_store hs (by omega) rfl
  refine ((hstore 4 (by decide)).seq <| (hstore 5 (by decide)).seq <| (hstore 6 (by decide)).seq <|
    hstore 7 (by decide)).congr ?_
  intro p
  simp only [mem_rect, Set.mem_union, Set.mem_singleton_iff, Prod.ext_iff]
  omega

/-- The stores of step 4. -/
theorem writes_step4 {M N s i : Nat} (hs : s < M) (hi : i + 8 ≤ N) {f : Cells} :
    Writes (rect s (s + 1) i (i + 8)) f fun B => (do
      let B ← store M N B s i (f (s, i))
      let B ← store M N B s (i + 4) (f (s, i + 4))
      let B ← store M N B s (i + 1) (f (s, i + 1))
      let B ← store M N B s (i + 5) (f (s, i + 5))
      let B ← store M N B s (i + 2) (f (s, i + 2))
      let B ← store M N B s (i + 6) (f (s, i + 6))
      let B ← store M N B s (i + 3) (f (s, i + 3))
      store M N B s (i + 7) (f (s, i + 7))) := by
  have hstore : ∀ m < 8, Writes {(s, i + m)} f fun B => store M N B s (i + m) (f (s, i + m)) :=
    fun m hm => writes_store hs (by omega) rfl
  refine ((hstore 0 (by decide)).seq <| (hstore 4 (by decide)).seq <| (hstore 1 (by decide)).seq <|
    (hstore 5 (by decide)).seq <| (hstore 2 (by decide)).seq <| (hstore 6 (by decide)).seq <|
    (hstore 3 (by decide)).seq <| hstore 7 (by decide)).congr ?_
  intro p
  simp only [mem_rect, Set.mem_union, Set.mem_singleton_iff, Prod.ext_iff]
  omega

/-- The second pass puts what was parked in row `k` in its place, and the
    lower half of two columns of `A` as well. -/
theorem unparkRow_overlay {M N i j k : Nat} (hk : k < 4) (hi : i + 8 ≤ N) (hj : j + 8 ≤ M)
    {A B : Cells} (hparked : ∀ m < 4, B (j + k, i + 4 + m) = A (i + m, j + k + 4)) :
    ∃ B', unparkRow M N A i j k B = some B' ∧
      Overlay
        (rect (j + k) (j + k + 1) (i + 4) (i + 8) ∪ rect (j + k + 4) (j + k + 4 + 1) i (i + 8))
        (transposed A) B B' := by
  have hk₀ : j + k < M := by omega
  have hk₁ : j + k + 4 < M := by omega
  -- all elements can be loaded first
  obtain ⟨B', hB', ho⟩ := ((writes_step3 hk₀ hi).seq (writes_step4 hk₁ hi)) B
  refine ⟨B', ?_, ho⟩
  have hparked₀ : B (j + k, i + 4) = transposed A (j + k + 4, i) := hparked 0 (by decide)
  have hparked₁ : B (j + k, i + 5) = transposed A (j + k + 4, i + 1) := hparked 1 (by decide)
  have hparked₂ : B (j + k, i + 6) = transposed A (j + k + 4, i + 2) := hparked 2 (by decide)
  have hparked₃ : B (j + k, i + 7) = transposed A (j + k + 4, i + 3) := hparked 3 (by decide)
  rw [← hB']
  simp (disch := omega) only [unparkRow, load_of_lt, store_of_lt, Option.bind_eq_bind,
    Option.bind_some]
  -- what is read from `B` was parked before the first store
  simp (disch := simp) only [Function.update_of_ne]
  rw [hparked₀, hparked₁, hparked₂, hparked₃]
  rfl

/-- A block in the second pass: the rows before `k` have been exchanged. -/
structure Unparking (A B₀ : Cells) (i j k : Nat) (B : Cells) : Prop where
  left : ∀ n m, n < 4 → m < 4 → B (j + n, i + m) = A (i + m, j + n)
  done : ∀ n m, n < k → n < 4 → m < 4 → B (j + n, i + 4 + m) = A (i + 4 + m, j + n)
  lower : ∀ n m, n < k → n < 4 → m < 8 → B (j + n + 4, i + m) = A (i + m, j + n + 4)
  todo : ∀ n m, k ≤ n → n < 4 → m < 4 → B (j + n, i + 4 + m) = A (i + m, j + n + 4)
  off : ∀ p, p ∉ rect j (j + 8) i (i + 8) → B p = B₀ p

namespace Unparking

variable {A B₀ B : Cells} {i j k : Nat}

theorem of_parked (h : Overlay (rect j (j + 4) i (i + 8)) (parked A i) B₀ B) :
    Unparking A B₀ i j 0 B := by
  have hparked : ∀ n m, n < 4 → m < 8 → B (j + n, i + m) = parked A i (j + n, i + m) := by
    intro n m hn hm
    exact h.on (by rw [mem_rect]; omega)
  constructor
  · intro n m hn hm
    rw [hparked n m hn (by omega), parked, if_pos (by dsimp only; omega)]
  · intro n m hn
    omega
  · intro n m hn
    omega
  · intro n m _ hn hm
    rw [Nat.add_assoc i, hparked n (4 + m) hn (by omega), parked, if_neg (by dsimp only; omega)]
    congr 2
    dsimp only
    omega
  · intro p hp
    refine h.off fun hmem => hp ?_
    rw [mem_rect] at hmem ⊢
    omega

/-- The row `k` is exchanged. -/
theorem exchange (h : Unparking A B₀ i j k B) {B' : Cells}
    (ho : Overlay
      (rect (j + k) (j + k + 1) (i + 4) (i + 8) ∪ rect (j + k + 4) (j + k + 4 + 1) i (i + 8))
      (transposed A) B B') (hk : k < 4) : Unparking A B₀ i j (k + 1) B' := by
  have hon : ∀ n m, n = k ∧ 4 ≤ m ∧ m < 8 ∨ n = k + 4 ∧ m < 8 →
      B' (j + n, i + m) = A (i + m, j + n) := by
    intro n m hnm
    refine ho.on ?_
    simp only [Set.mem_union, mem_rect]
    omega
  have hoff : ∀ n m, ¬ (n = k ∧ 4 ≤ m ∧ m < 8 ∨ n = k + 4 ∧ m < 8) →
      B' (j + n, i + m) = B (j + n, i + m) := by
    intro n m hnm
    refine ho.off ?_
    simp only [Set.mem_compl_iff, Set.mem_union, mem_rect]
    omega
  constructor
  · intro n m hn hm
    rw [hoff n m (by omega)]
    exact h.left n m hn hm
  · intro n m hnk hn hm
    by_cases hthis : n = k
    · rw [Nat.add_assoc i]
      exact hon n (4 + m) (by omega)
    · rw [Nat.add_assoc i, hoff n (4 + m) (by omega), ← Nat.add_assoc]
      exact h.done n m (by omega) hn hm
  · intro n m hnk hn hm
    by_cases hthis : n = k
    · rw [Nat.add_assoc j]
      exact hon (n + 4) m (by omega)
    · rw [Nat.add_assoc j, hoff (n + 4) m (by omega), ← Nat.add_assoc]
      exact h.lower n m (by omega) hn hm
  · intro n m hnk hn hm
    rw [Nat.add_assoc i, hoff n (4 + m) (by omega), ← Nat.add_assoc]
    exact h.todo n m (by omega) hn hm
  · intro p hp
    rw [ho.off, h.off p hp]
    intro hmem
    refine hp ?_
    simp only [Set.mem_union, mem_rect] at hmem ⊢
    omega

/-- When all rows are exchanged the block is transposed. -/
theorem overlay (h : Unparking A B₀ i j k B) (hk : 4 ≤ k) :
    Overlay (rect j (j + 8) i (i + 8)) (transposed A) B₀ B := by
  refine overlay_block ?_ h.off
  intro n m hn hm
  by_cases hn4 : n < 4
  · by_cases hm4 : m < 4
    · exact h.left n m hn4 hm4
    · obtain ⟨m', rfl⟩ : ∃ m', m = 4 + m' := ⟨m - 4, by omega⟩
      have hdone := h.done n m' (by omega) hn4 (by omega)
      rwa [Nat.add_assoc] at hdone
  · obtain ⟨n', rfl⟩ : ∃ n', n = n' + 4 := ⟨n - 4, by omega⟩
    exact h.lower n' m (by omega) (by omega) (by omega)

end Unparking

theorem writes_block64 {M N i j : Nat} (hi : i + 8 ≤ N) (hj : j + 8 ≤ M) (A : Cells) :
    Writes (rect j (j + 8) i (i + 8)) (transposed A) (block64 M N A i j) := by
  intro B₀
  -- the upper half of the block of `A` is stored, its right part where it does not belong
  have hpark : Writes (rect j (j + 4) i (i + 8)) (parked A i)
      (forLoop 0 (8 / 2) 1 fun k => parkRow M N A i j k) := by
    refine (Writes.forLoop fun k hk => writes_parkRow (round_one.mp hk).2 hi hj A).congr ?_
    intro p
    simp only [Set.mem_ofPred_eq, Set.mem_union, mem_rect, round_one]
    constructor
    · intro hp
      by_cases hleft : p.2 < i + 4
      · exact ⟨p.2 - i, by omega, by omega⟩
      · exact ⟨p.2 - i - 4, by omega, by omega⟩
    · rintro ⟨k, hk, hp⟩
      omega
  obtain ⟨B₁, hB₁, hparked⟩ := hpark B₀
  -- each round moves what is parked in a row of `B` down to its place
  have hrow : ∀ k B, Round 0 (8 / 2) 1 k → Unparking A B₀ i j k B →
      ∃ B', unparkRow M N A i j k B = some B' ∧ Unparking A B₀ i j (k + 1) B' := by
    intro k B hk hB
    have hk4 : k < 4 := (round_one.mp hk).2
    obtain ⟨B', hrun, ho⟩ :=
      unparkRow_overlay hk4 hi hj fun m hm => hB.todo k m (Nat.le_refl k) hk4 hm
    exact ⟨B', hrun, hB.exchange ho hk4⟩
  obtain ⟨k, B₂, hrun, hk, hB₂⟩ := forLoop_invariant hrow (Unparking.of_parked hparked)
  refine ⟨B₂, ?_, hB₂.overlay hk⟩
  rw [block64, hB₁]
  exact hrun

/-! ## Section 4: 61 columns -/

theorem writes_copyColumn {M N i s : Nat} (hi : i + 8 ≤ N) (hs : s < M) (A : Cells) :
    Writes (rect s (s + 1) i (i + 8)) (transposed A) (copyColumn M N A i s) := by
  have hload : ∀ m < 8, load N M A (i + m) s = some (transposed A (s, i + m)) :=
    fun m hm => load_of_lt (by omega) hs A
  have hload₀ : load N M A i s = some (transposed A (s, i)) := hload 0 (by decide)
  refine (writes_storeRow hs hi).of_eq fun B => ?_
  rw [copyColumn, hload₀, hload 1 (by decide), hload 2 (by decide), hload 3 (by decide),
    hload 4 (by decide), hload 5 (by decide), hload 6 (by decide), hload 7 (by decide)]
  rfl

/-- A tile, cut off at the edges of `B`. -/
theorem writes_tile61 {M N i j : Nat} (A : Cells) :
    Writes (rect j (min (j + 23) M) i (min (i + 8) N)) (transposed A) (tile61 M N A i j) := by
  -- a whole tile is copied by columns, one at the edge element by element
  by_cases hwhole : i + 8 ≤ N ∧ j + 23 ≤ M
  · have hcols : Writes (rect j (min (j + 23) M) i (min (i + 8) N)) (transposed A)
        (forLoop j (j + 23) 1 fun s => copyColumn M N A i s) := by
      refine (Writes.forLoop fun s hs =>
        writes_copyColumn hwhole.1 (by have := round_one.mp hs; omega) A).congr ?_
      intro p
      simp only [mem_rect, Set.mem_ofPred_eq, round_one]
      constructor
      · intro hp
        exact ⟨p.1, by omega, by omega⟩
      · rintro ⟨s, hs, hp⟩
        omega
    exact hcols.of_eq fun B => by rw [tile61, if_pos hwhole]
  · have helements : Writes (rect j (min (j + 23) M) i (min (i + 8) N)) (transposed A)
        (forLoop i (min (i + 8) N) 1 fun k => forLoop j (min (j + 23) M) 1 fun s B => do
          let a ← load N M A k s
          store M N B s k a) := by
      refine (Writes.forLoop fun k hk => Writes.forLoop fun s hs =>
        writes_element (by have := round_one.mp hk; omega) (by have := round_one.mp hs; omega)
          A).congr ?_
      intro p
      simp only [mem_rect, Set.mem_ofPred_eq, round_one, Set.mem_singleton_iff]
      constructor
      · intro hp
        exact ⟨p.2, by omega, p.1, by omega, rfl⟩
      · rintro ⟨k, hk, s, hs, rfl⟩
        exact ⟨hs.1, hs.2, hk.1, hk.2⟩
    exact helements.of_eq fun B => by rw [tile61, if_neg hwhole]

/-! ## Section 5: `transpose_submit` against `trans` -/

/-- A kernel that transposes whole blocks of eight rows and columns. -/
theorem writes_blocks {M N : Nat} (hM : 8 ∣ M) (hN : 8 ∣ N) {f : Cells}
    {kernel : Nat → Nat → Cells → Option Cells}
    (hkernel : ∀ i j, i + 8 ≤ N → j + 8 ≤ M → Writes (rect j (j + 8) i (i + 8)) f (kernel i j)) :
    Writes (rect 0 M 0 N) f (forLoop 0 N 8 fun i => forLoop 0 M 8 fun j => kernel i j) := by
  refine writes_tiles fun i j hi hj => ?_
  have hi' : i + 8 ≤ N := hi.add_le hN
  have hj' : j + 8 ≤ M := hj.add_le hM
  rw [Nat.min_eq_left hi', Nat.min_eq_left hj']
  exact hkernel i j hi' hj'

theorem writes_transposeSubmit_32 {N : Nat} (hN : 8 ∣ N) (A : Cells) :
    Writes (rect 0 32 0 N) (transposed A) (transposeSubmit 32 N A) :=
  writes_blocks (by decide) hN fun _ _ hi hj => writes_block32 hi hj A

theorem writes_transposeSubmit_64 {N : Nat} (hN : 8 ∣ N) (A : Cells) :
    Writes (rect 0 64 0 N) (transposed A) (transposeSubmit 64 N A) :=
  writes_blocks (by decide) hN fun _ _ hi hj => writes_block64 hi hj A

theorem writes_transposeSubmit_61 (N : Nat) (A : Cells) :
    Writes (rect 0 61 0 N) (transposed A) (transposeSubmit 61 N A) :=
  writes_tiles fun _ _ _ _ => writes_tile61 A

/-- What overwrites `B` by the transpose of `A` does what `trans` does. -/
theorem run_of_writes {M N : Nat} {A : Cells} {cmd : Cells → Option Cells}
    (hcmd : Writes (rect 0 M 0 N) (transposed A) cmd) (B : Cells) :
    ∃ B', cmd B = some B' ∧ trans M N A B = some B' ∧ ∀ r < N, ∀ c < M, B' (c, r) = A (r, c) := by
  obtain ⟨B', hB', ho⟩ := hcmd B
  refine ⟨B', hB', ?_, ?_⟩
  · rw [← hB', hcmd.unique (writes_trans M N A)]
  · intro r hr c hc
    exact ho.on (mem_rect.mpr ⟨Nat.zero_le _, hc, Nat.zero_le _, hr⟩)

/-- With 32 columns, and blocks of rows that are whole, `transpose_submit`
    stays within `A` and `B` and leaves the transpose of `A` in `B`, as
    `trans` does. -/
theorem transposeSubmit_32 {N : Nat} (hN : 8 ∣ N) (A B : Cells) :
    ∃ B', transposeSubmit 32 N A B = some B' ∧ trans 32 N A B = some B' ∧
      ∀ r < N, ∀ c < 32, B' (c, r) = A (r, c) :=
  run_of_writes (writes_transposeSubmit_32 hN A) B

/-- Eight rows of 32 columns. -/
theorem transposeSubmit_32_eight :
    ∃ B', transposeSubmit 32 8 (fun p => BitVec.ofNat 32 (32 * p.1 + p.2)) (fun _ => 0#32) =
      some B' ∧ B' (31, 7) = 255#32 := by
  obtain ⟨B', hrun, _, hB'⟩ := transposeSubmit_32 (N := 8) (by decide)
    (fun p => BitVec.ofNat 32 (32 * p.1 + p.2)) (fun _ => 0#32)
  exact ⟨B', hrun, hB' 7 (by decide) 31 (by decide)⟩

/-- The same with 64 columns. -/
theorem transposeSubmit_64 {N : Nat} (hN : 8 ∣ N) (A B : Cells) :
    ∃ B', transposeSubmit 64 N A B = some B' ∧ trans 64 N A B = some B' ∧
      ∀ r < N, ∀ c < 64, B' (c, r) = A (r, c) :=
  run_of_writes (writes_transposeSubmit_64 hN A) B

/-- Eight rows of 64 columns. -/
theorem transposeSubmit_64_eight :
    ∃ B', transposeSubmit 64 8 (fun p => BitVec.ofNat 32 (64 * p.1 + p.2)) (fun _ => 0#32) =
      some B' ∧ B' (63, 7) = 511#32 := by
  obtain ⟨B', hrun, _, hB'⟩ := transposeSubmit_64 (N := 8) (by decide)
    (fun p => BitVec.ofNat 32 (64 * p.1 + p.2)) (fun _ => 0#32)
  exact ⟨B', hrun, hB' 7 (by decide) 63 (by decide)⟩

/-- With 61 columns the number of rows does not matter: tiles are cut off. For
    `int` counters that is up to 2147483640 rows. -/
theorem transposeSubmit_61 (N : Nat) (A B : Cells) :
    ∃ B', transposeSubmit 61 N A B = some B' ∧ trans 61 N A B = some B' ∧
      ∀ r < N, ∀ c < 61, B' (c, r) = A (r, c) :=
  run_of_writes (writes_transposeSubmit_61 N A) B

/-! ## Section 6: Other sizes -/

theorem load_eq_none {rows cols r c : Nat} (hr : rows ≤ r) (X : Cells) :
    load rows cols X r c = none :=
  if_neg fun h => Nat.not_lt.mpr hr h.1

/-- When the last block of rows is cut off, the kernel for 32 columns reads
    the row behind `A`. -/
theorem block32_eq_none {M N i : Nat} (hi : i ≤ N) (hcut : N < i + 8) (A : Cells) (j : Nat)
    (B : Cells) :
    block32 M N A i j B = none := by
  have hrow : Round i (i + 8) 1 N := round_one.mpr ⟨hi, hcut⟩
  have hbad : ∀ B, copyRow M N A i j N (j + (N - i)) B = none := by
    intro B
    rw [copyRow, load_eq_none (Nat.le_refl N)]
    rfl
  rw [block32, forLoop_eq_none hrow hbad]
  rfl

/-- So does the one for 64 columns, in its second pass at the latest. -/
theorem block64_eq_none {M N i : Nat} (hcut : N < i + 8) (A : Cells) (j : Nat) (B : Cells) :
    block64 M N A i j B = none := by
  have hbad : ∀ B, unparkRow M N A i j 0 B = none := by
    intro B
    have hload : ∀ c, load N M A (i + 7) c = none := fun c => load_eq_none (by omega) A
    -- whatever the loads from the three rows before give
    iterate 6 refine Option.bind_eq_none_iff.mpr fun _ _ => ?_
    rw [hload]
    rfl
  have hpass : ∀ B, forLoop 0 (8 / 2) 1 (fun k => unparkRow M N A i j k) B = none :=
    forLoop_eq_none (Round.start (by decide)) hbad
  simp only [block64, hpass, Option.bind_eq_bind, Option.bind_fun_none]

/-- A kernel that cannot work on a block that is cut off fails when eight
    does not divide the number of rows. -/
theorem blocks_eq_none {M N : Nat} (hM : 0 < M) (hN : ¬ 8 ∣ N)
    {kernel : Nat → Nat → Cells → Option Cells}
    (hkernel : ∀ i B, i ≤ N → N < i + 8 → kernel i 0 B = none) (B : Cells) :
    forLoop 0 N 8 (fun i => forLoop 0 M 8 fun j => kernel i j) B = none := by
  have hlast : Round 0 N 8 (8 * (N / 8)) := round_zero.mpr ⟨by omega, Nat.dvd_mul_right _ _⟩
  refine forLoop_eq_none hlast (fun B => ?_) B
  exact forLoop_eq_none (Round.start hM) (fun B => hkernel _ B (by omega) (by omega)) B

theorem transposeSubmit_32_eq_none {N : Nat} (hN : ¬ 8 ∣ N) (A B : Cells) :
    transposeSubmit 32 N A B = none :=
  blocks_eq_none (by decide) hN (fun _ B hi hcut => block32_eq_none hi hcut A 0 B) B

theorem transposeSubmit_64_eq_none {N : Nat} (hN : ¬ 8 ∣ N) (A B : Cells) :
    transposeSubmit 64 N A B = none :=
  blocks_eq_none (by decide) hN (fun _ B _ hcut => block64_eq_none hcut A 0 B) B

/-- Without a case for the number of columns nothing is done. -/
theorem transposeSubmit_other {M N : Nat} {A B : Cells} (h32 : M ≠ 32) (h64 : M ≠ 64)
    (h61 : M ≠ 61) :
    transposeSubmit M N A B = some B := by
  rw [transposeSubmit, if_neg h32, if_neg h64, if_neg h61]

/-- `trans` changes nothing exactly when `B` is the transpose already. -/
theorem trans_eq_self_iff {M N : Nat} {A B : Cells} :
    trans M N A B = some B ↔ ∀ r < N, ∀ c < M, B (c, r) = A (r, c) := by
  obtain ⟨B', hB', ho⟩ := writes_trans M N A B
  rw [hB', Option.some_inj]
  constructor
  · rintro rfl r hr c hc
    exact ho.on (mem_rect.mpr ⟨Nat.zero_le _, hc, Nat.zero_le _, hr⟩)
  · intro h
    refine ho.unique ⟨?_, fun _ _ => rfl⟩
    rintro ⟨c, r⟩ ⟨_, hc, _, hr⟩
    exact h r hr c hc

/-- On which sizes `transpose_submit` stays within its arrays and does what
    `trans` does. -/
theorem transposeSubmit_eq_trans_iff (M N : Nat) (A B : Cells) :
    (∃ B', transposeSubmit M N A B = some B' ∧ trans M N A B = some B') ↔
      M = 61 ∨ (M = 32 ∨ M = 64) ∧ 8 ∣ N ∨
      (M ≠ 32 ∧ M ≠ 64 ∧ M ≠ 61) ∧ ∀ r < N, ∀ c < M, B (c, r) = A (r, c) := by
  constructor
  · rintro ⟨B', hsubmit, htrans⟩
    -- the cases of the switch, and no `default`
    by_cases h61 : M = 61
    · exact .inl h61
    by_cases h32 : M = 32
    · subst h32
      refine .inr (.inl ⟨.inl rfl, ?_⟩)
      by_contra hN
      rw [transposeSubmit_32_eq_none hN] at hsubmit
      cases hsubmit
    by_cases h64 : M = 64
    · subst h64
      refine .inr (.inl ⟨.inr rfl, ?_⟩)
      by_contra hN
      rw [transposeSubmit_64_eq_none hN] at hsubmit
      cases hsubmit
    · rw [transposeSubmit_other h32 h64 h61] at hsubmit
      cases hsubmit
      exact .inr (.inr ⟨⟨h32, h64, h61⟩, trans_eq_self_iff.mp htrans⟩)
  · rintro (rfl | ⟨rfl | rfl, hN⟩ | ⟨⟨h32, h64, h61⟩, hB⟩)
    · obtain ⟨B', hsubmit, htrans, _⟩ := run_of_writes (writes_transposeSubmit_61 N A) B
      exact ⟨B', hsubmit, htrans⟩
    · obtain ⟨B', hsubmit, htrans, _⟩ := run_of_writes (writes_transposeSubmit_32 hN A) B
      exact ⟨B', hsubmit, htrans⟩
    · obtain ⟨B', hsubmit, htrans, _⟩ := run_of_writes (writes_transposeSubmit_64 hN A) B
      exact ⟨B', hsubmit, htrans⟩
    · exact ⟨B, transposeSubmit_other h32 h64 h61, trans_eq_self_iff.mpr hB⟩

/-- One row of 32 columns sends the kernel out of `A`. One element is
    not transposed at all. -/
theorem transposeSubmit_leaves_arrays :
    transposeSubmit 32 1 (fun _ => 1#32) (fun _ => 0#32) = none ∧
      ¬ ∃ B', transposeSubmit 1 1 (fun _ => 1#32) (fun _ => 0#32) = some B' ∧
        trans 1 1 (fun _ => 1#32) (fun _ => 0#32) = some B' := by
  refine ⟨transposeSubmit_32_eq_none (by decide) _ _, ?_⟩
  rintro ⟨B', hsubmit, htrans⟩
  rw [transposeSubmit_other (by decide) (by decide) (by decide)] at hsubmit
  cases hsubmit
  exact absurd (trans_eq_self_iff.mp htrans 0 (by decide) 0 (by decide)) (by decide)

end CacheLab
