import CsappExperiments.Framework.Loops

/-! # Cache Lab: matrix transposition

    `trans.c`: the plain `trans`, and `transpose_submit` with its three
    kernels, one for each number of columns that it knows.

    `A` is an array `int A[N][M]` and `B` an array `int B[M][N]`. They do not
    overlap, and nothing is stored in `A`, so the state of the program is `B`.
    `none` means that an index has left its array. Loop counters are natural
    numbers: the drivers pass at most 256 rows and columns (`MAXN`), and an
    `int` that goes up by 8 does not overflow for up to 2147483640.
-/

open Loops

namespace CacheLab

/-! ## Section 1: Arrays -/

/-- The elements of an array `int X[rows][cols]`, by row and column. -/
abbrev Cells : Type := Nat × Nat → BitVec 32

/-- The value of `X[r][c]`. -/
def load (rows cols : Nat) (X : Cells) (r c : Nat) : Option (BitVec 32) :=
  if r < rows ∧ c < cols then some (X (r, c)) else none

/-- `X[r][c] = v`. -/
def store (rows cols : Nat) (X : Cells) (r c : Nat) (v : BitVec 32) : Option Cells :=
  if r < rows ∧ c < cols then some (Function.update X (r, c) v) else none

/-! ## Section 2: `trans` -/

def trans (M N : Nat) (A B : Cells) : Option Cells :=
  forLoop 0 N 1 (fun i => forLoop 0 M 1 fun j B => do
    let tmp ← load N M A i j
    store M N B j i tmp) B

/-! ## Section 3: `transpose_submit` -/

/-- Store eight values next to each other in a row of `B`, from column `i` on. -/
def storeRow (M N s i : Nat) (a0 a1 a2 a3 a4 a5 a6 a7 : BitVec 32) (B : Cells) : Option Cells := do
  let B ← store M N B s i a0
  let B ← store M N B s (i + 1) a1
  let B ← store M N B s (i + 2) a2
  let B ← store M N B s (i + 3) a3
  let B ← store M N B s (i + 4) a4
  let B ← store M N B s (i + 5) a5
  let B ← store M N B s (i + 6) a6
  store M N B s (i + 7) a7

/-- `case 32`: copy row `k` of the block at `(i, j)` of `A`, as it is, to row `s` of `B`. -/
def copyRow (M N : Nat) (A : Cells) (i j k s : Nat) (B : Cells) : Option Cells := do
  let a0 ← load N M A k j
  let a1 ← load N M A k (j + 1)
  let a2 ← load N M A k (j + 2)
  let a3 ← load N M A k (j + 3)
  let a4 ← load N M A k (j + 4)
  let a5 ← load N M A k (j + 5)
  let a6 ← load N M A k (j + 6)
  let a7 ← load N M A k (j + 7)
  storeRow M N s i a0 a1 a2 a3 a4 a5 a6 a7 B

/-- `case 32`: exchange two elements of the block of `B`. -/
def swapPair (M N i j k s : Nat) (B : Cells) : Option Cells := do
  let a0 ← load M N B (k + j) (s + i)
  let x ← load M N B (s + j) (k + i)
  let B ← store M N B (k + j) (s + i) x
  store M N B (s + j) (k + i) a0

/-- `case 32`: copy a block, and transpose it in place. -/
def block32 (M N : Nat) (A : Cells) (i j : Nat) (B : Cells) : Option Cells := do
  -- the counter s runs along with k
  let B ← forLoop i (i + 8) 1 (fun k => copyRow M N A i j k (j + (k - i))) B
  forLoop 0 8 1 (fun k => forLoop (k + 1) 8 1 fun s => swapPair M N i j k s) B

/-- `case 64`, first pass: a row of the upper half of the block of `A`. Its
    right half is parked in the upper right quarter of the block of `B`. -/
def parkRow (M N : Nat) (A : Cells) (i j k : Nat) (B : Cells) : Option Cells := do
  -- A top left
  let a0 ← load N M A (k + i) j
  let a1 ← load N M A (k + i) (j + 1)
  let a2 ← load N M A (k + i) (j + 2)
  let a3 ← load N M A (k + i) (j + 3)
  -- A top right
  let a4 ← load N M A (k + i) (j + 4)
  let a5 ← load N M A (k + i) (j + 5)
  let a6 ← load N M A (k + i) (j + 6)
  let a7 ← load N M A (k + i) (j + 7)
  -- B top left
  let B ← store M N B j (k + i) a0
  let B ← store M N B (j + 1) (k + i) a1
  let B ← store M N B (j + 2) (k + i) a2
  let B ← store M N B (j + 3) (k + i) a3
  -- B top right
  let B ← store M N B (j + 0) (k + 4 + i) a4
  let B ← store M N B (j + 1) (k + 4 + i) a5
  let B ← store M N B (j + 2) (k + 4 + i) a6
  store M N B (j + 3) (k + 4 + i) a7

/-- `case 64`, second pass: two columns of the lower half of the block of `A`,
    exchanged with what was parked. -/
def unparkRow (M N : Nat) (A : Cells) (i j k : Nat) (B : Cells) : Option Cells := do
  -- step 1 2
  let a0 ← load N M A (i + 4) (j + k)
  let a4 ← load N M A (i + 4) (j + k + 4)
  let a1 ← load N M A (i + 5) (j + k)
  let a5 ← load N M A (i + 5) (j + k + 4)
  let a2 ← load N M A (i + 6) (j + k)
  let a6 ← load N M A (i + 6) (j + k + 4)
  let a3 ← load N M A (i + 7) (j + k)
  let a7 ← load N M A (i + 7) (j + k + 4)
  -- step 3
  let tmp ← load M N B (j + k) (i + 4)
  let B ← store M N B (j + k) (i + 4) a0
  let a0 := tmp
  let tmp ← load M N B (j + k) (i + 5)
  let B ← store M N B (j + k) (i + 5) a1
  let a1 := tmp
  let tmp ← load M N B (j + k) (i + 6)
  let B ← store M N B (j + k) (i + 6) a2
  let a2 := tmp
  let tmp ← load M N B (j + k) (i + 7)
  let B ← store M N B (j + k) (i + 7) a3
  let a3 := tmp
  -- step 4
  let B ← store M N B (j + k + 4) (i + 0) a0
  let B ← store M N B (j + k + 4) (i + 4 + 0) a4
  let B ← store M N B (j + k + 4) (i + 1) a1
  let B ← store M N B (j + k + 4) (i + 4 + 1) a5
  let B ← store M N B (j + k + 4) (i + 2) a2
  let B ← store M N B (j + k + 4) (i + 4 + 2) a6
  let B ← store M N B (j + k + 4) (i + 3) a3
  store M N B (j + k + 4) (i + 4 + 3) a7

/-- `case 64`: one block, in two passes. -/
def block64 (M N : Nat) (A : Cells) (i j : Nat) (B : Cells) : Option Cells := do
  let B ← forLoop 0 (8 / 2) 1 (fun k => parkRow M N A i j k) B
  forLoop 0 (8 / 2) 1 (fun k => unparkRow M N A i j k) B

/-- `case 61`: a column of a whole tile. -/
def copyColumn (M N : Nat) (A : Cells) (i s : Nat) (B : Cells) : Option Cells := do
  let a0 ← load N M A i s
  let a1 ← load N M A (i + 1) s
  let a2 ← load N M A (i + 2) s
  let a3 ← load N M A (i + 3) s
  let a4 ← load N M A (i + 4) s
  let a5 ← load N M A (i + 5) s
  let a6 ← load N M A (i + 6) s
  let a7 ← load N M A (i + 7) s
  storeRow M N s i a0 a1 a2 a3 a4 a5 a6 a7 B

/-- `case 61`: a tile, which may be cut off at the edges of the matrix. -/
def tile61 (M N : Nat) (A : Cells) (i j : Nat) (B : Cells) : Option Cells :=
  if i + 8 ≤ N ∧ j + 23 ≤ M then
    forLoop j (j + 23) 1 (fun s => copyColumn M N A i s) B
  else
    forLoop i (min (i + 8) N) 1 (fun k => forLoop j (min (j + 23) M) 1 fun s B => do
      let a ← load N M A k s
      store M N B s k a) B

def transposeSubmit (M N : Nat) (A B : Cells) : Option Cells :=
  if M = 32 then forLoop 0 N 8 (fun i => forLoop 0 M 8 fun j => block32 M N A i j) B
  else if M = 64 then forLoop 0 N 8 (fun i => forLoop 0 M 8 fun j => block64 M N A i j) B
  else if M = 61 then forLoop 0 N 8 (fun i => forLoop 0 M 23 fun j => tile61 M N A i j) B
  else some B

end CacheLab
