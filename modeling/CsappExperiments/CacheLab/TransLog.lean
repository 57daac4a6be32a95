import CsappExperiments.CacheLab.Trans
import CsappExperiments.Framework.Logging

/-! # Cache Lab: the accesses of the transposition

    `tracegen` runs `transpose_submit` under a tool that records every load
    and store. `trans.c` is compiled with `-O0`, so each reference to an
    element is an access of its own, in the order of the program. The local
    variables are accessed too, but they are on the stack, and `test-trans`
    drops them.

    Here the functions of `trans.c` carry a log of their accesses to the two
    arrays. `transposeSubmit_instruments` says that they do what they do
    without the log, and what is in it: the accesses do not depend on what the
    arrays hold.
-/

open Loops Logging

namespace CacheLab

/-! ## Section 1: Logged accesses -/

inductive Matrix where
  | A
  | B
  deriving DecidableEq, Repr

/-- A load (`L`) or a store (`S`) of an element. -/
structure Access where
  op : Char
  matrix : Matrix
  row : Nat
  col : Nat
  deriving DecidableEq, Repr

/-- `B` and the log. -/
abbrev Logged : Type := Cells × List Access

def loadA (M N : Nat) (A : Cells) (r c : Nat) (t : Logged) : Option (BitVec 32 × Logged) :=
  logRead (fun _ => load N M A r c) ⟨'L', .A, r, c⟩ t

def loadB (M N r c : Nat) (t : Logged) : Option (BitVec 32 × Logged) :=
  logRead (fun B => load M N B r c) ⟨'L', .B, r, c⟩ t

def storeB (M N r c : Nat) (v : BitVec 32) (t : Logged) : Option Logged :=
  logWrite (fun B => store M N B r c v) ⟨'S', .B, r, c⟩ t

/-! ## Section 2: `transpose_submit` with a log -/

-- The strides of the loops.
local instance one_stride : NeZero 1 := ⟨Nat.one_ne_zero⟩

local instance block_stride : NeZero 8 := ⟨Nat.succ_ne_zero 7⟩

local instance tile_stride : NeZero 23 := ⟨Nat.succ_ne_zero 22⟩

def storeRowLogged (M N s i : Nat) (a0 a1 a2 a3 a4 a5 a6 a7 : BitVec 32) (t : Logged) :
    Option Logged := do
  let t ← storeB M N s i a0 t
  let t ← storeB M N s (i + 1) a1 t
  let t ← storeB M N s (i + 2) a2 t
  let t ← storeB M N s (i + 3) a3 t
  let t ← storeB M N s (i + 4) a4 t
  let t ← storeB M N s (i + 5) a5 t
  let t ← storeB M N s (i + 6) a6 t
  storeB M N s (i + 7) a7 t

def copyRowLogged (M N : Nat) (A : Cells) (i j k s : Nat) (t : Logged) : Option Logged := do
  let (a0, t) ← loadA M N A k j t
  let (a1, t) ← loadA M N A k (j + 1) t
  let (a2, t) ← loadA M N A k (j + 2) t
  let (a3, t) ← loadA M N A k (j + 3) t
  let (a4, t) ← loadA M N A k (j + 4) t
  let (a5, t) ← loadA M N A k (j + 5) t
  let (a6, t) ← loadA M N A k (j + 6) t
  let (a7, t) ← loadA M N A k (j + 7) t
  storeRowLogged M N s i a0 a1 a2 a3 a4 a5 a6 a7 t

def swapPairLogged (M N i j k s : Nat) (t : Logged) : Option Logged := do
  let (a0, t) ← loadB M N (k + j) (s + i) t
  let (x, t) ← loadB M N (s + j) (k + i) t
  let t ← storeB M N (k + j) (s + i) x t
  storeB M N (s + j) (k + i) a0 t

def block32Logged (M N : Nat) (A : Cells) (i j : Nat) (t : Logged) : Option Logged := do
  let t ← forLoop i (i + 8) 1 (fun k => copyRowLogged M N A i j k (j + (k - i))) t
  forLoop 0 8 1 (fun k => forLoop (k + 1) 8 1 fun s => swapPairLogged M N i j k s) t

def parkRowLogged (M N : Nat) (A : Cells) (i j k : Nat) (t : Logged) : Option Logged := do
  -- A top left
  let (a0, t) ← loadA M N A (k + i) j t
  let (a1, t) ← loadA M N A (k + i) (j + 1) t
  let (a2, t) ← loadA M N A (k + i) (j + 2) t
  let (a3, t) ← loadA M N A (k + i) (j + 3) t
  -- A top right
  let (a4, t) ← loadA M N A (k + i) (j + 4) t
  let (a5, t) ← loadA M N A (k + i) (j + 5) t
  let (a6, t) ← loadA M N A (k + i) (j + 6) t
  let (a7, t) ← loadA M N A (k + i) (j + 7) t
  -- B top left
  let t ← storeB M N j (k + i) a0 t
  let t ← storeB M N (j + 1) (k + i) a1 t
  let t ← storeB M N (j + 2) (k + i) a2 t
  let t ← storeB M N (j + 3) (k + i) a3 t
  -- B top right
  let t ← storeB M N (j + 0) (k + 4 + i) a4 t
  let t ← storeB M N (j + 1) (k + 4 + i) a5 t
  let t ← storeB M N (j + 2) (k + 4 + i) a6 t
  storeB M N (j + 3) (k + 4 + i) a7 t

def unparkRowLogged (M N : Nat) (A : Cells) (i j k : Nat) (t : Logged) : Option Logged := do
  -- step 1 2
  let (a0, t) ← loadA M N A (i + 4) (j + k) t
  let (a4, t) ← loadA M N A (i + 4) (j + k + 4) t
  let (a1, t) ← loadA M N A (i + 5) (j + k) t
  let (a5, t) ← loadA M N A (i + 5) (j + k + 4) t
  let (a2, t) ← loadA M N A (i + 6) (j + k) t
  let (a6, t) ← loadA M N A (i + 6) (j + k + 4) t
  let (a3, t) ← loadA M N A (i + 7) (j + k) t
  let (a7, t) ← loadA M N A (i + 7) (j + k + 4) t
  -- step 3
  let (tmp, t) ← loadB M N (j + k) (i + 4) t
  let t ← storeB M N (j + k) (i + 4) a0 t
  let a0 := tmp
  let (tmp, t) ← loadB M N (j + k) (i + 5) t
  let t ← storeB M N (j + k) (i + 5) a1 t
  let a1 := tmp
  let (tmp, t) ← loadB M N (j + k) (i + 6) t
  let t ← storeB M N (j + k) (i + 6) a2 t
  let a2 := tmp
  let (tmp, t) ← loadB M N (j + k) (i + 7) t
  let t ← storeB M N (j + k) (i + 7) a3 t
  let a3 := tmp
  -- step 4
  let t ← storeB M N (j + k + 4) (i + 0) a0 t
  let t ← storeB M N (j + k + 4) (i + 4 + 0) a4 t
  let t ← storeB M N (j + k + 4) (i + 1) a1 t
  let t ← storeB M N (j + k + 4) (i + 4 + 1) a5 t
  let t ← storeB M N (j + k + 4) (i + 2) a2 t
  let t ← storeB M N (j + k + 4) (i + 4 + 2) a6 t
  let t ← storeB M N (j + k + 4) (i + 3) a3 t
  storeB M N (j + k + 4) (i + 4 + 3) a7 t

def block64Logged (M N : Nat) (A : Cells) (i j : Nat) (t : Logged) : Option Logged := do
  let t ← forLoop 0 (8 / 2) 1 (fun k => parkRowLogged M N A i j k) t
  forLoop 0 (8 / 2) 1 (fun k => unparkRowLogged M N A i j k) t

def copyColumnLogged (M N : Nat) (A : Cells) (i s : Nat) (t : Logged) : Option Logged := do
  let (a0, t) ← loadA M N A i s t
  let (a1, t) ← loadA M N A (i + 1) s t
  let (a2, t) ← loadA M N A (i + 2) s t
  let (a3, t) ← loadA M N A (i + 3) s t
  let (a4, t) ← loadA M N A (i + 4) s t
  let (a5, t) ← loadA M N A (i + 5) s t
  let (a6, t) ← loadA M N A (i + 6) s t
  let (a7, t) ← loadA M N A (i + 7) s t
  storeRowLogged M N s i a0 a1 a2 a3 a4 a5 a6 a7 t

def tile61Logged (M N : Nat) (A : Cells) (i j : Nat) (t : Logged) : Option Logged :=
  if i + 8 ≤ N ∧ j + 23 ≤ M then
    forLoop j (j + 23) 1 (fun s => copyColumnLogged M N A i s) t
  else
    forLoop i (min (i + 8) N) 1 (fun k => forLoop j (min (j + 23) M) 1 fun s t => do
      let (a, t) ← loadA M N A k s t
      storeB M N s k a t) t

def transposeSubmitLogged (M N : Nat) (A : Cells) (t : Logged) : Option Logged :=
  if M = 32 then forLoop 0 N 8 (fun i => forLoop 0 M 8 fun j => block32Logged M N A i j) t
  else if M = 64 then forLoop 0 N 8 (fun i => forLoop 0 M 8 fun j => block64Logged M N A i j) t
  else if M = 61 then forLoop 0 N 8 (fun i => forLoop 0 M 23 fun j => tile61Logged M N A i j) t
  else some t

/-! ## Section 3: What is in the log -/

/-- Eight accesses to a row, and to a column. -/
def rowAccesses (op : Char) (matrix : Matrix) (r c : Nat) : List Access :=
  [⟨op, matrix, r, c⟩, ⟨op, matrix, r, c + 1⟩, ⟨op, matrix, r, c + 2⟩, ⟨op, matrix, r, c + 3⟩,
    ⟨op, matrix, r, c + 4⟩, ⟨op, matrix, r, c + 5⟩, ⟨op, matrix, r, c + 6⟩, ⟨op, matrix, r, c + 7⟩]

def columnAccesses (op : Char) (matrix : Matrix) (r c : Nat) : List Access :=
  [⟨op, matrix, r, c⟩, ⟨op, matrix, r + 1, c⟩, ⟨op, matrix, r + 2, c⟩, ⟨op, matrix, r + 3, c⟩,
    ⟨op, matrix, r + 4, c⟩, ⟨op, matrix, r + 5, c⟩, ⟨op, matrix, r + 6, c⟩, ⟨op, matrix, r + 7, c⟩]

def block32Accesses (i j : Nat) : List Access :=
  ((rounds i (i + 8) 1).flatMap fun k =>
    rowAccesses 'L' .A k j ++ rowAccesses 'S' .B (j + (k - i)) i) ++
  (rounds 0 8 1).flatMap fun k => (rounds (k + 1) 8 1).flatMap fun s =>
    [⟨'L', .B, k + j, s + i⟩, ⟨'L', .B, s + j, k + i⟩, ⟨'S', .B, k + j, s + i⟩,
      ⟨'S', .B, s + j, k + i⟩]

def block64Accesses (i j : Nat) : List Access :=
  ((rounds 0 (8 / 2) 1).flatMap fun k => rowAccesses 'L' .A (k + i) j ++
    [⟨'S', .B, j, k + i⟩, ⟨'S', .B, j + 1, k + i⟩, ⟨'S', .B, j + 2, k + i⟩, ⟨'S', .B, j + 3, k + i⟩,
      ⟨'S', .B, j + 0, k + 4 + i⟩, ⟨'S', .B, j + 1, k + 4 + i⟩, ⟨'S', .B, j + 2, k + 4 + i⟩,
      ⟨'S', .B, j + 3, k + 4 + i⟩]) ++
  (rounds 0 (8 / 2) 1).flatMap fun k =>
    [⟨'L', .A, i + 4, j + k⟩, ⟨'L', .A, i + 4, j + k + 4⟩, ⟨'L', .A, i + 5, j + k⟩,
      ⟨'L', .A, i + 5, j + k + 4⟩,
      ⟨'L', .A, i + 6, j + k⟩, ⟨'L', .A, i + 6, j + k + 4⟩, ⟨'L', .A, i + 7, j + k⟩,
        ⟨'L', .A, i + 7, j + k + 4⟩,
      ⟨'L', .B, j + k, i + 4⟩, ⟨'S', .B, j + k, i + 4⟩, ⟨'L', .B, j + k, i + 5⟩,
        ⟨'S', .B, j + k, i + 5⟩,
      ⟨'L', .B, j + k, i + 6⟩, ⟨'S', .B, j + k, i + 6⟩, ⟨'L', .B, j + k, i + 7⟩,
        ⟨'S', .B, j + k, i + 7⟩,
      ⟨'S', .B, j + k + 4, i + 0⟩, ⟨'S', .B, j + k + 4, i + 4 + 0⟩, ⟨'S', .B, j + k + 4, i + 1⟩,
      ⟨'S', .B, j + k + 4, i + 4 + 1⟩, ⟨'S', .B, j + k + 4, i + 2⟩, ⟨'S', .B, j + k + 4, i + 4 + 2⟩,
      ⟨'S', .B, j + k + 4, i + 3⟩, ⟨'S', .B, j + k + 4, i + 4 + 3⟩]

def tile61Accesses (M N i j : Nat) : List Access :=
  if i + 8 ≤ N ∧ j + 23 ≤ M then
    (rounds j (j + 23) 1).flatMap fun s => columnAccesses 'L' .A i s ++ rowAccesses 'S' .B s i
  else
    (rounds i (min (i + 8) N) 1).flatMap fun k => (rounds j (min (j + 23) M) 1).flatMap fun s =>
      [⟨'L', .A, k, s⟩, ⟨'S', .B, s, k⟩]

def submitAccesses (M N : Nat) : List Access :=
  if M = 32 then (rounds 0 N 8).flatMap fun i => (rounds 0 M 8).flatMap fun j => block32Accesses i j
  else if M = 64 then (rounds 0 N 8).flatMap fun i => (rounds 0 M 8).flatMap fun j =>
    block64Accesses i j
  else if M = 61 then (rounds 0 N 8).flatMap fun i => (rounds 0 M 23).flatMap fun j =>
    tile61Accesses M N i j
  else []

/-! ## Section 4: The log is right -/

theorem storeRow_instruments (M N s i : Nat) (a0 a1 a2 a3 a4 a5 a6 a7 : BitVec 32) :
    Instruments (rowAccesses 'S' .B s i) (storeRow M N s i a0 a1 a2 a3 a4 a5 a6 a7)
      (storeRowLogged M N s i a0 a1 a2 a3 a4 a5 a6 a7) :=
  .write <| .write <| .write <| .write <| .write <| .write <| .write <| .last

theorem copyRow_instruments (M N : Nat) (A : Cells) (i j k s : Nat) :
    Instruments (rowAccesses 'L' .A k j ++ rowAccesses 'S' .B s i) (copyRow M N A i j k s)
      (copyRowLogged M N A i j k s) :=
  .read fun a0 => .read fun a1 => .read fun a2 => .read fun a3 => .read fun a4 => .read fun a5 =>
    .read fun a6 =>
    .read fun a7 => storeRow_instruments M N s i a0 a1 a2 a3 a4 a5 a6 a7

theorem swapPair_instruments (M N i j k s : Nat) :
    Instruments [⟨'L', .B, k + j, s + i⟩, ⟨'L', .B, s + j, k + i⟩, ⟨'S', .B, k + j, s + i⟩,
      ⟨'S', .B, s + j, k + i⟩]
      (swapPair M N i j k s) (swapPairLogged M N i j k s) :=
  .read fun _ => .read fun _ => .write .last

theorem block32_instruments (M N : Nat) (A : Cells) (i j : Nat) :
    Instruments (block32Accesses i j) (block32 M N A i j) (block32Logged M N A i j) :=
  .seq (.forLoop fun k _ => copyRow_instruments M N A i j k (j + (k - i)))
    (.forLoop fun k _ => .forLoop fun s _ => swapPair_instruments M N i j k s)

theorem parkRow_instruments (M N : Nat) (A : Cells) (i j k : Nat) :
    Instruments (rowAccesses 'L' .A (k + i) j ++
      [⟨'S', .B, j, k + i⟩, ⟨'S', .B, j + 1, k + i⟩, ⟨'S', .B, j + 2, k + i⟩,
        ⟨'S', .B, j + 3, k + i⟩,
        ⟨'S', .B, j + 0, k + 4 + i⟩, ⟨'S', .B, j + 1, k + 4 + i⟩, ⟨'S', .B, j + 2, k + 4 + i⟩,
        ⟨'S', .B, j + 3, k + 4 + i⟩]) (parkRow M N A i j k) (parkRowLogged M N A i j k) :=
  .read fun _ => .read fun _ => .read fun _ => .read fun _ => .read fun _ => .read fun _ =>
    .read fun _ =>
    .read fun _ => .write <| .write <| .write <| .write <| .write <| .write <| .write .last

theorem unparkRow_instruments (M N : Nat) (A : Cells) (i j k : Nat) :
    Instruments
      [⟨'L', .A, i + 4, j + k⟩, ⟨'L', .A, i + 4, j + k + 4⟩, ⟨'L', .A, i + 5, j + k⟩,
        ⟨'L', .A, i + 5, j + k + 4⟩,
        ⟨'L', .A, i + 6, j + k⟩, ⟨'L', .A, i + 6, j + k + 4⟩, ⟨'L', .A, i + 7, j + k⟩,
          ⟨'L', .A, i + 7, j + k + 4⟩,
        ⟨'L', .B, j + k, i + 4⟩, ⟨'S', .B, j + k, i + 4⟩, ⟨'L', .B, j + k, i + 5⟩,
          ⟨'S', .B, j + k, i + 5⟩,
        ⟨'L', .B, j + k, i + 6⟩, ⟨'S', .B, j + k, i + 6⟩, ⟨'L', .B, j + k, i + 7⟩,
          ⟨'S', .B, j + k, i + 7⟩,
        ⟨'S', .B, j + k + 4, i + 0⟩, ⟨'S', .B, j + k + 4, i + 4 + 0⟩, ⟨'S', .B, j + k + 4, i + 1⟩,
        ⟨'S', .B, j + k + 4, i + 4 + 1⟩, ⟨'S', .B, j + k + 4, i + 2⟩,
          ⟨'S', .B, j + k + 4, i + 4 + 2⟩,
        ⟨'S', .B, j + k + 4, i + 3⟩, ⟨'S', .B, j + k + 4, i + 4 + 3⟩]
      (unparkRow M N A i j k) (unparkRowLogged M N A i j k) :=
  .read fun _ => .read fun _ => .read fun _ => .read fun _ => .read fun _ => .read fun _ =>
    .read fun _ =>
    .read fun _ => .read fun _ => .write <| .read fun _ => .write <| .read fun _ => .write <|
      .read fun _ =>
      .write <| .write <| .write <| .write <| .write <| .write <| .write <| .write .last

theorem block64_instruments (M N : Nat) (A : Cells) (i j : Nat) :
    Instruments (block64Accesses i j) (block64 M N A i j) (block64Logged M N A i j) :=
  .seq (.forLoop fun k _ => parkRow_instruments M N A i j k)
    (.forLoop fun k _ => unparkRow_instruments M N A i j k)

theorem copyColumn_instruments (M N : Nat) (A : Cells) (i s : Nat) :
    Instruments (columnAccesses 'L' .A i s ++ rowAccesses 'S' .B s i) (copyColumn M N A i s)
      (copyColumnLogged M N A i s) :=
  .read fun a0 => .read fun a1 => .read fun a2 => .read fun a3 => .read fun a4 => .read fun a5 =>
    .read fun a6 =>
    .read fun a7 => storeRow_instruments M N s i a0 a1 a2 a3 a4 a5 a6 a7

theorem element_instruments (M N : Nat) (A : Cells) (k s : Nat) :
    Instruments [⟨'L', .A, k, s⟩, ⟨'S', .B, s, k⟩]
      (fun B => do
        let a ← load N M A k s
        store M N B s k a)
      (fun t => do
        let (a, t) ← loadA M N A k s t
        storeB M N s k a t) :=
  .read fun _ => .last

theorem tile61_instruments (M N : Nat) (A : Cells) (i j : Nat) :
    Instruments (tile61Accesses M N i j) (tile61 M N A i j) (tile61Logged M N A i j) := by
  unfold tile61Accesses
  by_cases hwhole : i + 8 ≤ N ∧ j + 23 ≤ M
  · rw [if_pos hwhole]
    refine Instruments.of_eq (.forLoop fun s _ => copyColumn_instruments M N A i s)
      (fun B => ?_) fun t => ?_
    · rw [tile61, if_pos hwhole]
    · rw [tile61Logged, if_pos hwhole]
  · rw [if_neg hwhole]
    refine Instruments.of_eq (.forLoop fun k _ => .forLoop fun s _ => element_instruments M N A k s)
      (fun B => ?_) fun t => ?_
    · rw [tile61, if_neg hwhole]
    · rw [tile61Logged, if_neg hwhole]

/-- The accesses of `transpose_submit` to its arrays, for every size. -/
theorem transposeSubmit_instruments (M N : Nat) (A : Cells) :
    Instruments (submitAccesses M N) (transposeSubmit M N A) (transposeSubmitLogged M N A) := by
  unfold submitAccesses
  by_cases h32 : M = 32
  · rw [if_pos h32]
    refine Instruments.of_eq (.forLoop fun i _ => .forLoop fun j _ => block32_instruments M N A i j)
      (fun B => ?_) fun t => ?_
    · rw [transposeSubmit, if_pos h32]
    · rw [transposeSubmitLogged, if_pos h32]
  · rw [if_neg h32]
    by_cases h64 : M = 64
    · rw [if_pos h64]
      refine Instruments.of_eq (.forLoop fun i _ => .forLoop fun j _ =>
        block64_instruments M N A i j) (fun B => ?_) fun t => ?_
      · rw [transposeSubmit, if_neg h32, if_pos h64]
      · rw [transposeSubmitLogged, if_neg h32, if_pos h64]
    · rw [if_neg h64]
      by_cases h61 : M = 61
      · rw [if_pos h61]
        refine Instruments.of_eq (.forLoop fun i _ => .forLoop fun j _ =>
          tile61_instruments M N A i j) (fun B => ?_)
          fun t => ?_
        · rw [transposeSubmit, if_neg h32, if_neg h64, if_pos h61]
        · rw [transposeSubmitLogged, if_neg h32, if_neg h64, if_pos h61]
      · rw [if_neg h61]
        refine Instruments.skip.of_eq (fun B => ?_) fun t => ?_
        · rw [transposeSubmit, if_neg h32, if_neg h64, if_neg h61]
        · rw [transposeSubmitLogged, if_neg h32, if_neg h64, if_neg h61]

end CacheLab
