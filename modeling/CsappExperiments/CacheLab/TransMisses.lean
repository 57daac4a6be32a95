import CsappExperiments.CacheLab.Inclusion
import CsappExperiments.CacheLab.TransLog
import CsappExperiments.CacheLab.Transpose
import CsappExperiments.Framework.DirectMapped
import Mathlib.Algebra.Order.Ring.Nat

/-! # Cache Lab: the misses of the transposition

    `test-trans` replays the accesses of `transpose_submit` on a cache of 32
    sets with one line of 32 bytes each, and the number of misses is the
    grade. `A` and `B` are static arrays that begin at the start of a block
    and, as they are 256 KB large, at places that the cache does not tell
    apart.

    The number of misses depends neither on where the arrays are, nor on what
    they hold, nor on what else has been accessed before
    (`submitMisses_eq`). So it can be computed once for each size.
-/

open Loops Logging

namespace CacheLab

/-! ## Section 1: Addresses -/

/-- The size of `static int A[256][256]`. -/
def ARRAY_BYTES : Nat := 262144

/-- `tracegen` may have its arrays at `a` and at `b`. -/
structure Placement (a b : Nat) : Prop where
  aligned : 32 ∣ a
  same_sets : a % 1024 = b % 1024
  apart : a + ARRAY_BYTES ≤ b ∨ b + ARRAY_BYTES ≤ a
  low : a + ARRAY_BYTES < 2 ^ 32 ∧ b + ARRAY_BYTES < 2 ^ 32

/-- The number of an element in its array. -/
def Access.index (M N : Nat) (x : Access) : Nat :=
  match x.matrix with
  | .A => x.row * M + x.col
  | .B => x.row * N + x.col

/-- The base address of an array. -/
def Matrix.base (a b : Nat) : Matrix → Nat
  | .A => a
  | .B => b

def Access.addr (a b M N : Nat) (x : Access) : Addr :=
  BitVec.ofNat 64 (x.matrix.base a b + 4 * x.index M N)

/-- The block that the element is in. -/
def Access.block (a b M N : Nat) (x : Access) : Nat := (x.matrix.base a b + 4 * x.index M N) / 32

/-- The element is one of its array. -/
def Access.InRange (M N : Nat) (x : Access) : Prop :=
  match x.matrix with
  | .A => x.row < N ∧ x.col < M
  | .B => x.row < M ∧ x.col < N

theorem Access.InRange.index_lt {M N : Nat} {x : Access} (h : x.InRange M N) :
    x.index M N < M * N := by
  obtain ⟨op, matrix, row, col⟩ := x
  cases matrix with
  | A =>
    obtain ⟨hr, hc⟩ : row < N ∧ col < M := h
    show row * M + col < M * N
    have hle : (row + 1) * M ≤ N * M := Nat.mul_le_mul_right M hr
    rw [Nat.mul_comm M N]
    rw [Nat.add_mul, Nat.one_mul] at hle
    omega
  | B =>
    obtain ⟨hr, hc⟩ : row < M ∧ col < N := h
    show row * N + col < M * N
    have hle : (row + 1) * N ≤ M * N := Nat.mul_le_mul_right N hr
    rw [Nat.add_mul, Nat.one_mul] at hle
    omega

/-! ## Section 2: The log stays within the arrays -/

theorem inRange_row {op : Char} {M N r c : Nat} {matrix : Matrix}
    (h : ∀ m < 8, Access.InRange M N ⟨op, matrix, r, c + m⟩) :
    ∀ x ∈ rowAccesses op matrix r c, x.InRange M N := by
  simp only [rowAccesses, List.forall_mem_cons]
  exact ⟨h 0 (by decide), h 1 (by decide), h 2 (by decide), h 3 (by decide), h 4 (by decide),
    h 5 (by decide),
    h 6 (by decide), h 7 (by decide), List.forall_mem_nil _⟩

theorem inRange_column {op : Char} {M N r c : Nat} {matrix : Matrix}
    (h : ∀ m < 8, Access.InRange M N ⟨op, matrix, r + m, c⟩) :
    ∀ x ∈ columnAccesses op matrix r c, x.InRange M N := by
  simp only [columnAccesses, List.forall_mem_cons]
  exact ⟨h 0 (by decide), h 1 (by decide), h 2 (by decide), h 3 (by decide), h 4 (by decide),
    h 5 (by decide),
    h 6 (by decide), h 7 (by decide), List.forall_mem_nil _⟩

theorem inRange_block32 {M N i j : Nat} (hi : i + 8 ≤ N) (hj : j + 8 ≤ M) :
    ∀ x ∈ block32Accesses i j, x.InRange M N := by
  intro x hx
  rcases List.mem_append.mp hx with hx | hx
  · obtain ⟨k, hk, hx⟩ := List.mem_flatMap.mp hx
    rw [mem_rounds_iff, round_one] at hk
    rcases List.mem_append.mp hx with hx | hx
    · refine inRange_row (fun m hm => ?_) x hx
      show k < N ∧ j + m < M
      omega
    · refine inRange_row (fun m hm => ?_) x hx
      show j + (k - i) < M ∧ i + m < N
      omega
  · obtain ⟨k, hk, hx⟩ := List.mem_flatMap.mp hx
    obtain ⟨s, hs, hx⟩ := List.mem_flatMap.mp hx
    rw [mem_rounds_iff, round_one] at hk hs
    simp only [List.mem_cons, List.not_mem_nil, or_false] at hx
    rcases hx with rfl | rfl | rfl | rfl
    all_goals simp only [Access.InRange]; omega

theorem inRange_block64 {M N i j : Nat} (hi : i + 8 ≤ N) (hj : j + 8 ≤ M) :
    ∀ x ∈ block64Accesses i j, x.InRange M N := by
  intro x hx
  rcases List.mem_append.mp hx with hx | hx
  · obtain ⟨k, hk, hx⟩ := List.mem_flatMap.mp hx
    rw [mem_rounds_iff, round_one] at hk
    rcases List.mem_append.mp hx with hx | hx
    · refine inRange_row (fun m hm => ?_) x hx
      show k + i < N ∧ j + m < M
      omega
    · simp only [List.mem_cons, List.not_mem_nil, or_false] at hx
      rcases hx with rfl | rfl | rfl | rfl | rfl | rfl | rfl | rfl
      all_goals simp only [Access.InRange]; omega
  · obtain ⟨k, hk, hx⟩ := List.mem_flatMap.mp hx
    rw [mem_rounds_iff, round_one] at hk
    simp only [List.mem_cons, List.not_mem_nil, or_false] at hx
    rcases hx with rfl | rfl | rfl | rfl | rfl | rfl | rfl | rfl | rfl | rfl | rfl | rfl |
      rfl | rfl | rfl | rfl | rfl | rfl | rfl | rfl | rfl | rfl | rfl | rfl
    all_goals simp only [Access.InRange]; omega

theorem inRange_tile61 {M N i j : Nat} : ∀ x ∈ tile61Accesses M N i j, x.InRange M N := by
  intro x hx
  unfold tile61Accesses at hx
  split at hx
  · next hwhole =>
    obtain ⟨s, hs, hx⟩ := List.mem_flatMap.mp hx
    rw [mem_rounds_iff, round_one] at hs
    rcases List.mem_append.mp hx with hx | hx
    · refine inRange_column (fun m hm => ?_) x hx
      show i + m < N ∧ s < M
      omega
    · refine inRange_row (fun m hm => ?_) x hx
      show s < M ∧ i + m < N
      omega
  · obtain ⟨k, hk, hx⟩ := List.mem_flatMap.mp hx
    obtain ⟨s, hs, hx⟩ := List.mem_flatMap.mp hx
    rw [mem_rounds_iff, round_one] at hk hs
    simp only [List.mem_cons, List.not_mem_nil, or_false] at hx
    rcases hx with rfl | rfl
    all_goals simp only [Access.InRange]; omega

/-- The sizes on which `transpose_submit` transposes. -/
def Covered (M N : Nat) : Prop := M = 61 ∨ (M = 32 ∨ M = 64) ∧ 8 ∣ N

theorem inRange_submit {M N : Nat} (h : Covered M N) : ∀ x ∈ submitAccesses M N, x.InRange M N := by
  intro x hx
  rcases h with rfl | ⟨rfl | rfl, hN⟩
  · obtain ⟨i, _, hx⟩ := List.mem_flatMap.mp hx
    obtain ⟨j, _, hx⟩ := List.mem_flatMap.mp hx
    exact inRange_tile61 x hx
  · obtain ⟨i, hi, hx⟩ := List.mem_flatMap.mp hx
    obtain ⟨j, hj, hx⟩ := List.mem_flatMap.mp hx
    exact inRange_block32 ((mem_rounds_iff.mp hi).add_le hN)
      ((mem_rounds_iff.mp hj).add_le (by decide)) x hx
  · obtain ⟨i, hi, hx⟩ := List.mem_flatMap.mp hx
    obtain ⟨j, hj, hx⟩ := List.mem_flatMap.mp hx
    exact inRange_block64 ((mem_rounds_iff.mp hi).add_le hN)
      ((mem_rounds_iff.mp hj).add_le (by decide)) x hx

/-! ## Section 3: One line in each set -/

/-- The block of a set that was accessed last. -/
def lastOf (past : List Key) (i : BitVec 32) : Option Key :=
  (Recency.stack (accessesTo i past)).head?

theorem lastOf_append (past : List Key) (k : Key) :
    lastOf (past ++ [k]) = DirectMapped.place Prod.fst (lastOf past) k := by
  funext i
  unfold lastOf DirectMapped.place
  by_cases hi : i = k.1
  · have happend : accessesTo i (past ++ [k]) = accessesTo i past ++ [k] := by simp [accessesTo, hi]
    rw [if_pos hi, happend, Recency.stack_append_singleton]
    rfl
  · have hsame : accessesTo i (past ++ [k]) = accessesTo i past := by simp [accessesTo, Ne.symm hi]
    rw [if_neg hi, hsame]

theorem after_lastOf (past ks : List Key) :
    DirectMapped.after Prod.fst (lastOf past) ks = lastOf (past ++ ks) := by
  induction ks generalizing past with
  | nil => rw [List.append_nil]; rfl
  | cons k ks ih =>
    show DirectMapped.after Prod.fst (DirectMapped.place Prod.fst (lastOf past) k) ks = _
    rw [← lastOf_append, ih, List.append_assoc, List.singleton_append]

theorem mem_of_lastOf {past : List Key} {i : BitVec 32} {k : Key} (h : lastOf past i = some k) :
    k ∈ past :=
  List.mem_of_mem_filter (Recency.mem_stack.mp (List.mem_of_head? h))

theorem outcomeAfter_one (past : List Key) (k : Key) :
    outcomeAfter 1 past k = .HIT ↔ lastOf past k.1 = some k := by
  unfold outcomeAfter lruAccess lastOf
  cases Recency.stack (accessesTo k.1 past) with
  | nil => simp
  | cons k' l =>
    by_cases hk : k' = k
    · simp [hk]
    · simp [hk, Ne.symm hk]

/-- The simulator with one line in each set misses like a direct-mapped buffer. -/
theorem misses_accessAll {s b : Nat} (hs : s ≤ 30) (addrs : List Addr) :
    ∀ {past : List Key} {cache : Cache},
    Tracks s b 1 past cache → ∃ outcomes cache', accessAll cache addrs = some (outcomes, cache') ∧
      Tracks s b 1 (past ++ addrs.map (splitAddr b s)) cache' ∧
      misses outcomes = DirectMapped.misses Prod.fst (lastOf past) (addrs.map (splitAddr b s)) := by
  -- `lastOf` is what the line of each set holds
  induction addrs with
  | nil =>
    intro past cache h
    exact ⟨[], cache, rfl, by simpa using h, rfl⟩
  | cons addr addrs ih =>
    intro past cache h
    obtain ⟨cache₁, hstep, h₁⟩ := accessMem_tracks hs (Nat.le_refl 1) h addr
    obtain ⟨outcomes, cache', hrest, h', hmisses⟩ := ih h₁
    refine ⟨outcomeAfter 1 past (splitAddr b s addr) :: outcomes, cache', ?_, by simpa using h', ?_⟩
    · rw [accessAll, hstep]
      simp only [hrest]
      rfl
    · rw [List.map_cons, DirectMapped.misses_cons, ← lastOf_append, ← hmisses]
      unfold misses
      rw [List.countP_cons]
      simp only [decide_not, Bool.not_eq_eq_eq_not, Bool.not_true, decide_eq_false_iff_not,
        outcomeAfter_one]
      congr 1
      split <;> simp_all

/-! ## Section 4: Other places -/

/-- The accesses that do not touch the arrays. -/
def Outside (a b : Nat) (addr : Addr) : Prop :=
  addr.toNat < 2 ^ 32 ∧ (addr.toNat < a ∨ a + ARRAY_BYTES ≤ addr.toNat) ∧
    (addr.toNat < b ∨ b + ARRAY_BYTES ≤ addr.toNat)

section Places

variable {a b a' b' M N : Nat} {x y : Access}

theorem Access.place_lt (p : Placement a b) (hsize : M * N ≤ 65536) (hx : x.InRange M N) :
    x.matrix.base a b + 4 * x.index M N < 2 ^ 32 := by
  have hindex := hx.index_lt
  have hlow := p.low
  unfold ARRAY_BYTES at hlow
  unfold Matrix.base
  split <;> omega

theorem splitAddr_addr {s : Nat} (hs : s ≤ 30) (p : Placement a b) (hsize : M * N ≤ 65536)
    (hx : x.InRange M N) :
    splitAddr 5 s (x.addr a b M N) = blockKey s (x.block a b M N) := by
  have hplace := Access.place_lt p hsize hx
  have htoNat : (x.addr a b M N).toNat = x.matrix.base a b + 4 * x.index M N := by
    rw [Access.addr, BitVec.toNat_ofNat]
    omega
  rw [splitAddr_eq_blockKey hs (htoNat ▸ hplace), CacheLab.block, htoNat]
  rfl

theorem blockKey_set_iff {n m : Nat} : (blockKey 5 n).1 = (blockKey 5 m).1 ↔ n % 32 = m % 32 := by
  constructor
  · intro h
    have htoNat := congrArg BitVec.toNat h
    simp only [blockKey, BitVec.toNat_ofNat] at htoNat
    omega
  · intro h
    show BitVec.ofNat 32 (n % 32) = BitVec.ofNat 32 (m % 32)
    rw [h]

/-- Two elements are in one block, and in one set, at one place of the arrays
    when they are at another. -/
theorem Access.block_congr (p : Placement a b) (p' : Placement a' b') (hsize : M * N ≤ 65536)
    (hx : x.InRange M N) (hy : y.InRange M N) :
    (x.block a b M N = y.block a b M N ↔ x.block a' b' M N = y.block a' b' M N) ∧
      (x.block a b M N % 32 = y.block a b M N % 32 ↔
        x.block a' b' M N % 32 = y.block a' b' M N % 32) := by
  have hu := hx.index_lt
  have hv := hy.index_lt
  obtain ⟨h₁, h₂, h₃, _⟩ := p
  obtain ⟨h₁', h₂', h₃', _⟩ := p'
  unfold ARRAY_BYTES at h₃ h₃'
  unfold Access.block
  generalize x.index M N = u at hu
  generalize y.index M N = v at hv
  cases x.matrix <;> cases y.matrix <;> simp only [Matrix.base] <;> constructor <;> omega

theorem Access.block_lt (p : Placement a b) (hsize : M * N ≤ 65536) (hx : x.InRange M N) :
    x.block a b M N < 2 ^ 32 := by
  have hplace := Access.place_lt p hsize hx
  unfold Access.block
  omega

/-- Other accesses leave no block of the arrays in the cache. -/
theorem lastOf_ne (p : Placement a b) (hsize : M * N ≤ 65536) (hx : x.InRange M N)
    {before : List Addr} (hbefore : ∀ addr ∈ before, Outside a b addr) (i : BitVec 32) :
    lastOf (before.map (splitAddr 5 5)) i ≠ some (blockKey 5 (x.block a b M N)) := by
  intro h
  obtain ⟨addr, hmem, hkey⟩ := List.mem_map.mp (mem_of_lastOf h)
  obtain ⟨hlow, houta, houtb⟩ := hbefore addr hmem
  rw [splitAddr_eq_blockKey (by decide) hlow] at hkey
  have hblock := blockKey_inj (by decide) (block_lt hlow) (Access.block_lt p hsize hx) hkey
  have hindex := hx.index_lt
  obtain ⟨h₁, h₂, _, _⟩ := p
  unfold CacheLab.block Access.block at hblock
  unfold ARRAY_BYTES at houta houtb
  generalize x.index M N = u at hindex hblock
  cases hm : x.matrix with
  | A =>
    rw [hm] at hblock
    simp only [Matrix.base] at hblock
    omega
  | B =>
    rw [hm] at hblock
    simp only [Matrix.base] at hblock
    omega

end Places

/-! ## Section 5: The misses of a run -/

/-- The misses of a trace on the cache of `eval_perf(5, 1, 5)`, after other accesses. -/
def traceMisses (before addrs : List Addr) : Option Nat := do
  let (_, cache) ← accessAll (createCache 5 1 5) before
  let (outcomes, _) ← accessAll cache addrs
  return misses outcomes

/-- The misses of `transpose_submit` on arrays at `a` and at `b`. -/
def submitMisses (M N a b : Nat) (before : List Addr) (A B : Cells) : Option Nat := do
  let (_, log) ← transposeSubmitLogged M N A (B, [])
  traceMisses before (log.map (Access.addr a b M N))

/-- The misses with the arrays behind each other, from address 0 on. -/
def standardMisses (M N : Nat) : Nat :=
  DirectMapped.misses (· % 32) (fun _ => none)
    ((submitAccesses M N).map (Access.block 0 ARRAY_BYTES M N))

theorem placement_zero : Placement 0 ARRAY_BYTES := ⟨by decide, by decide, by decide, by decide⟩

theorem traceMisses_eq (before addrs : List Addr) :
    traceMisses before addrs =
      some (DirectMapped.misses Prod.fst (lastOf (before.map (splitAddr 5 5)))
      (addrs.map (splitAddr 5 5))) := by
  have hs : 5 ≤ 30 := by decide
  obtain ⟨outcomes₀, cache₀, hrun₀, htracks, _⟩ :=
    misses_accessAll hs before (tracks_createCache hs 5 1)
  obtain ⟨outcomes, cache, hrun, _, hmisses⟩ := misses_accessAll hs addrs htracks
  rw [List.nil_append] at hmisses
  unfold traceMisses
  rw [hrun₀]
  show (accessAll cache₀ addrs).bind _ = _
  rw [hrun, ← hmisses]
  rfl

theorem transposeSubmit_covered {M N : Nat} (h : Covered M N) (A B : Cells) :
    ∃ B', transposeSubmit M N A B = some B' := by
  rcases h with rfl | ⟨rfl | rfl, hN⟩
  · obtain ⟨B', hB', _⟩ := writes_transposeSubmit_61 N A B
    exact ⟨B', hB'⟩
  · obtain ⟨B', hB', _⟩ := writes_transposeSubmit_32 hN A B
    exact ⟨B', hB'⟩
  · obtain ⟨B', hB', _⟩ := writes_transposeSubmit_64 hN A B
    exact ⟨B', hB'⟩

/-- Wherever the arrays are, and whatever else has been accessed, the accesses
    miss equally often. -/
theorem misses_submitAccesses {M N a b : Nat} (hsize : Covered M N) (hM : M ≤ 256) (hN : N ≤ 256)
    (p : Placement a b) {before : List Addr} (hbefore : ∀ addr ∈ before, Outside a b addr) :
    DirectMapped.misses Prod.fst (lastOf (before.map (splitAddr 5 5)))
      (((submitAccesses M N).map (Access.addr a b M N)).map (splitAddr 5 5)) =
        standardMisses M N := by
  have hcells : M * N ≤ 65536 := Nat.mul_le_mul hM hN
  have hin := inRange_submit hsize
  have hkey : ∀ x ∈ submitAccesses M N, (splitAddr 5 5 ∘ Access.addr a b M N) x =
      blockKey 5 (x.block a b M N) :=
    fun x hx => splitAddr_addr (by decide) p hcells (hin x hx)
  rw [List.map_map, standardMisses]
  refine DirectMapped.misses_map_congr ?_ ?_ ?_
  · intro x hx y hy
    rw [hkey x hx, hkey y hy,
      ← (Access.block_congr p placement_zero hcells (hin x hx) (hin y hy)).1]
    exact ⟨blockKey_inj (by decide) (Access.block_lt p hcells (hin x hx))
      (Access.block_lt p hcells (hin y hy)), congrArg (blockKey 5)⟩
  · intro x hx y hy
    rw [hkey x hx, hkey y hy, blockKey_set_iff]
    exact (Access.block_congr p placement_zero hcells (hin x hx) (hin y hy)).2
  · intro x hx
    rw [hkey x hx]
    exact iff_of_false (lastOf_ne p hcells (hin x hx) hbefore _) (by simp)

theorem transposeSubmitLogged_eq {M N : Nat} (hsize : Covered M N) (A B : Cells) :
    ∃ B', transposeSubmit M N A B = some B' ∧
      transposeSubmitLogged M N A (B, []) = some (B', submitAccesses M N) := by
  obtain ⟨B', hB'⟩ := transposeSubmit_covered hsize A B
  refine ⟨B', hB', ?_⟩
  rw [transposeSubmit_instruments, hB', Option.map_some, List.nil_append]

/-- The number of misses of `transpose_submit`. -/
theorem submitMisses_eq {M N a b : Nat} (hsize : Covered M N) (hM : M ≤ 256) (hN : N ≤ 256)
    (p : Placement a b) {before : List Addr} (hbefore : ∀ addr ∈ before, Outside a b addr)
    (A B : Cells) :
    submitMisses M N a b before A B = some (standardMisses M N) := by
  obtain ⟨B', _, hlog⟩ := transposeSubmitLogged_eq hsize A B
  unfold submitMisses
  rw [hlog]
  show traceMisses before _ = _
  rw [traceMisses_eq, misses_submitAccesses hsize hM hN p hbefore]

theorem standardMisses_32 : standardMisses 32 32 = 256 := by decide +kernel

theorem standardMisses_64 : standardMisses 64 64 = 1104 := by decide +kernel

theorem standardMisses_61 : standardMisses 61 67 = 1860 := by decide +kernel

theorem mem_of_hit {E : Nat} {past : List Key} {k : Key} (h : outcomeAfter E past k = .HIT) :
    k ∈ past := by
  obtain ⟨old, recent, rfl, _⟩ := (outcomeAfter_spec E past k).1.mp h
  exact List.mem_append_right old List.mem_cons_self

/-- Every block that is accessed for the first time is a miss. -/
theorem card_le_misses {s E b : Nat} (hs : s ≤ 30) (hE : 1 ≤ E) (addrs : List Addr) :
    ∀ {past : List Key} {cache : Cache},
    Tracks s b E past cache → ∃ outcomes cache', accessAll cache addrs = some (outcomes, cache') ∧
      ((addrs.map (splitAddr b s)).toFinset.filter fun k => k ∉ past).card ≤ misses outcomes := by
  -- a key that has not occurred costs a miss when it is first accessed
  induction addrs with
  | nil =>
    intro past cache _
    exact ⟨[], cache, rfl, Nat.le_refl 0⟩
  | cons addr addrs ih =>
    intro past cache h
    obtain ⟨cache₁, hstep, h₁⟩ := accessMem_tracks hs hE h addr
    obtain ⟨outcomes, cache', hrest, hcard⟩ := ih h₁
    refine ⟨outcomeAfter E past (splitAddr b s addr) :: outcomes, cache', ?_, ?_⟩
    · rw [accessAll, hstep]
      simp only [hrest]
      rfl
    · rw [List.map_cons]
      generalize splitAddr b s addr = k at hcard ⊢
      have hnew : outcomeAfter E past k = .HIT → k ∈ past := mem_of_hit
      have hsub : ((k :: addrs.map (splitAddr b s)).toFinset.filter fun k' => k' ∉ past) ⊆
          (if k ∈ past then ∅ else {k}) ∪
              ((addrs.map (splitAddr b s)).toFinset.filter fun k' => k' ∉ past ++ [k]) := by
        intro k' hk'
        simp only [Finset.mem_filter, List.mem_toFinset, List.mem_cons, Finset.mem_union,
          List.mem_append,
          List.not_mem_nil, or_false] at hk' ⊢
        by_cases heq : k' = k
        · subst heq
          rw [if_neg hk'.2]
          exact .inl (Finset.mem_singleton_self k')
        · exact .inr ⟨hk'.1.resolve_left heq, not_or.mpr ⟨hk'.2, heq⟩⟩
      have hone : (if k ∈ past then ∅ else ({k} : Finset Key)).card ≤
          if outcomeAfter E past k = .HIT then 0 else 1 := by
        by_cases hhit : outcomeAfter E past k = .HIT
        · rw [if_pos hhit, if_pos (hnew hhit)]
          exact Nat.le_refl 0
        · rw [if_neg hhit]
          split
          · exact Nat.zero_le 1
          · exact Nat.le_refl 1
      have hcount : misses (outcomeAfter E past k :: outcomes) =
          misses outcomes + if outcomeAfter E past k = .HIT then 0 else 1 := by
        unfold misses
        rw [List.countP_cons]
        by_cases hhit : outcomeAfter E past k = .HIT <;> simp [hhit]
      have hunion := Finset.card_union_le (if k ∈ past then ∅ else ({k} : Finset Key))
        ((addrs.map (splitAddr b s)).toFinset.filter fun k' => k' ∉ past ++ [k])
      have hle := Finset.card_le_card hsub
      rw [hcount]
      omega

/-- The blocks of an array. -/
theorem Access.block_of_index {M N a b n : Nat} {x : Access} (h : x.index M N = 8 * n)
    (ha : 32 ∣ x.matrix.base a b) :
    x.block a b M N = x.matrix.base a b / 32 + n := by
  unfold Access.block
  rw [h]
  omega

/-- The keys of the blocks of both arrays. -/
def arrayKeys (s a b n : Nat) : Finset Key :=
  ((Finset.range n).image fun i => blockKey s (a / 32 + i)) ∪ (Finset.range n).image fun i =>
    blockKey s (b / 32 + i)

theorem card_arrayKeys {s a b n : Nat} (hs : s ≤ 30) (p : Placement a b) (hn : n ≤ 8192) :
    (arrayKeys s a b n).card = 2 * n := by
  obtain ⟨haligned, hsame, hapart, hlow⟩ := p
  unfold ARRAY_BYTES at hapart hlow
  have hinj : ∀ base, base + 262144 < 2 ^ 32 →
      ((Finset.range n).image fun i => blockKey s (base / 32 + i)).card = n := by
    intro base hbase
    rw [Finset.card_image_of_injOn, Finset.card_range]
    intro i hi j hj hij
    have hi' := Finset.mem_range.mp (Finset.mem_coe.mp hi)
    have hj' := Finset.mem_range.mp (Finset.mem_coe.mp hj)
    have heq := blockKey_inj hs (by omega) (by omega) hij
    omega
  have hdisjoint : Disjoint ((Finset.range n).image fun i => blockKey s (a / 32 + i))
      ((Finset.range n).image fun i => blockKey s (b / 32 + i)) := by
    rw [Finset.disjoint_left]
    intro k hka hkb
    obtain ⟨i, hi, rfl⟩ := Finset.mem_image.mp hka
    obtain ⟨j, hj, hij⟩ := Finset.mem_image.mp hkb
    have hi' := Finset.mem_range.mp hi
    have hj' := Finset.mem_range.mp hj
    have heq := blockKey_inj hs (by omega) (by omega) hij
    omega
  rw [arrayKeys, Finset.card_union_of_disjoint hdisjoint, hinj a hlow.1, hinj b hlow.2]
  omega

/-- Every block of an array has an element. -/
theorem exists_access {s a b M N : Nat} (p : Placement a b) {k : Key}
    (hk : k ∈ arrayKeys s a b ((M * N + 7) / 8)) :
    ∃ x : Access, x.InRange M N ∧ blockKey s (x.block a b M N) = k := by
  have haligned := p.aligned
  have hsame := p.same_sets
  rcases Finset.mem_union.mp hk with hk | hk
  · obtain ⟨i, hi, rfl⟩ := Finset.mem_image.mp hk
    have hlt : 8 * i < N * M := by have := Finset.mem_range.mp hi; rw [Nat.mul_comm N M]; omega
    have hpos : 0 < M := Nat.pos_of_ne_zero (by rintro rfl; omega)
    refine ⟨⟨'L', .A, 8 * i / M, 8 * i % M⟩,
      ⟨(Nat.div_lt_iff_lt_mul hpos).mpr hlt, Nat.mod_lt _ hpos⟩, ?_⟩
    have hindex : Access.index M N ⟨'L', .A, 8 * i / M, 8 * i % M⟩ = 8 * i :=
      Nat.div_add_mod' (8 * i) M
    rw [Access.block_of_index hindex haligned]
    rfl
  · obtain ⟨i, hi, rfl⟩ := Finset.mem_image.mp hk
    have hlt : 8 * i < M * N := by have := Finset.mem_range.mp hi; omega
    have hpos : 0 < N := Nat.pos_of_ne_zero (by rintro rfl; omega)
    have hbase : 32 ∣ b := by omega
    refine ⟨⟨'L', .B, 8 * i / N, 8 * i % N⟩,
      ⟨(Nat.div_lt_iff_lt_mul hpos).mpr hlt, Nat.mod_lt _ hpos⟩, ?_⟩
    have hindex : Access.index M N ⟨'L', .B, 8 * i / N, 8 * i % N⟩ = 8 * i :=
      Nat.div_add_mod' (8 * i) N
    rw [Access.block_of_index hindex hbase]
    rfl

/-- Whoever accesses all elements of both arrays misses once for each of
    their blocks, in every cache with blocks of 32 bytes. -/
theorem transposition_misses {s E M N a b : Nat} (hs : s ≤ 30) (hE : 1 ≤ E) (hM : M ≤ 256)
    (hN : N ≤ 256) (p : Placement a b) {addrs : List Addr}
    (hall : ∀ x : Access, x.InRange M N → x.addr a b M N ∈ addrs) :
    ∃ outcomes cache, accessAll (createCache s E 5) addrs = some (outcomes, cache) ∧
      2 * ((M * N + 7) / 8) ≤ misses outcomes := by
  have hcells : M * N ≤ 65536 := Nat.mul_le_mul hM hN
  obtain ⟨outcomes, cache, hrun, hcard⟩ := card_le_misses hs hE addrs (tracks_createCache hs 5 E)
  refine ⟨outcomes, cache, hrun, Nat.le_trans ?_ hcard⟩
  have hsub : arrayKeys s a b ((M * N + 7) / 8) ⊆
      (addrs.map (splitAddr 5 s)).toFinset.filter fun k => k ∉ ([] : List Key) := by
    intro k hk
    obtain ⟨x, hin, hkey⟩ := exists_access p hk
    rw [Finset.mem_filter, List.mem_toFinset]
    refine ⟨List.mem_map.mpr ⟨x.addr a b M N, hall x hin, ?_⟩, List.not_mem_nil⟩
    rw [splitAddr_addr hs p hcells hin, hkey]
  calc 2 * ((M * N + 7) / 8) = (arrayKeys s a b ((M * N + 7) / 8)).card :=
    (card_arrayKeys hs p (by omega)).symm
    _ ≤ _ := Finset.card_le_card hsub

end CacheLab
