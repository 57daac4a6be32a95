import CsappExperiments.MallocLab.Replay

/-! # Malloc Lab: the driver's verdict on mm.c

    `verdict` says from the requests alone where `eval_mm_valid` stops on
    `mm.c`, and why: what matters is the room that is left, and one complaint
    is not the allocator's fault. The driver fills blocks with the low byte of
    their id, and compares `char`s with it, which are negative from 128 on.
-/

open ByteMemory

namespace MallocLab

/-! ## Section 1: The verdict -/

/-- Is the byte that blocks with this id are filled with negative as a `char`? -/
def Negative (index : BitVec 32) : Prop := 128 ≤ index.toNat % 256

instance (index : BitVec 32) : Decidable (Negative index) := inferInstanceAs (Decidable (_ ≤ _))

/-- Does the request resize a block that is filled with a negative `char`? -/
def TraceOp.Mistaken : TraceOp → Prop
  | .realloc index _ => Negative index
  | _ => False

instance (op : TraceOp) : Decidable op.Mistaken :=
  match op with
  | .realloc index _ => inferInstanceAs (Decidable (Negative index))
  | .alloc _ _ => isFalse id
  | .free _ => isFalse id

/-- What the driver complains of, where there is room for so many bytes. -/
def TraceOp.complaint (left : Nat) : TraceOp → Option Complaint
  | .alloc _ size => if left < MallocLab.extent size.toNat then some .mallocFailed else none
  | .realloc index size =>
    if left < MallocLab.extent size.toNat then some .reallocFailed
    else if Negative index then some .notPreserved
    else none
  | .free _ => none

/-- The request at which `eval_mm_valid` stops, where there is room for so
    many bytes before request `i`. -/
def verdict : Nat → Nat → List TraceOp → Option (Nat × Complaint)
  | _, _, [] => none
  | left, i, op :: ops =>
    match op.complaint left with
    | some c => some (i, c)
    | none => verdict (left - op.extent) (i + 1) ops

theorem complaint_eq_none_iff {left : Nat} {op : TraceOp} :
    op.complaint left = none ↔ op.extent ≤ left ∧ ¬ op.Mistaken := by
  cases op with
  | alloc index size => simp [TraceOp.complaint, TraceOp.extent, TraceOp.Mistaken]
  | free index => simp [TraceOp.complaint, TraceOp.extent, TraceOp.Mistaken]
  | realloc index size =>
    simp only [TraceOp.complaint, TraceOp.extent, TraceOp.Mistaken]
    split
    · next hlt => simp [hlt]
    · next hle => simp [Nat.not_lt.mp hle]

/-- The driver stops nowhere exactly when there is room for all requests and
    no block is resized that it cannot check. -/
theorem verdict_eq_none_iff {ops : List TraceOp} : ∀ {left i : Nat},
    verdict left i ops = none ↔ totalExtent ops ≤ left ∧ ∀ op ∈ ops, ¬ op.Mistaken := by
  induction ops with
  | nil => simp [verdict, totalExtent]
  | cons op ops ih =>
    intro left i
    have htotal : totalExtent (op :: ops) = op.extent + totalExtent ops := by simp [totalExtent]
    rw [htotal, List.forall_mem_cons, verdict]
    cases hc : op.complaint left with
    | none =>
      obtain ⟨hroom, hok⟩ := complaint_eq_none_iff.mp hc
      show verdict (left - op.extent) (i + 1) ops = none ↔ _
      rw [ih]
      constructor
      · rintro ⟨hsum, hall⟩
        exact ⟨by omega, hok, hall⟩
      · rintro ⟨hsum, _, hall⟩
        exact ⟨by omega, hall⟩
    | some c =>
      refine iff_of_false (Option.some_ne_none _) ?_
      rintro ⟨hsum, hok, _⟩
      have hnone : op.complaint left = none := complaint_eq_none_iff.mpr ⟨by omega, hok⟩
      rw [hc] at hnone
      cases hnone

/-! ## Section 2: The check of mm_realloc -/

theorem toInt_fillByte_iff (index : BitVec 32) :
    (fillByte index).toInt = (index &&& 0xFF).toInt ↔ ¬ Negative index := by
  have hmask : (0xFF : BitVec 32).toNat = 2 ^ 8 - 1 := rfl
  have hlow : (index &&& 0xFF).toNat = index.toNat % 256 := by
    rw [BitVec.toNat_and, hmask, Nat.and_two_pow_sub_one_eq_mod]
  have hbyte : (fillByte index).toNat = index.toNat % 256 := by
    rw [fillByte, BitVec.toNat_setWidth, hlow]
    omega
  unfold Negative
  rw [BitVec.toInt_eq_toNat_cond, BitVec.toInt_eq_toNat_cond, hlow, hbyte]
  split <;> split <;> omega

/-- Where all bytes are what the block has been filled with, the loop finds a
    difference if they are negative. -/
theorem changed_of_filled {heap : Heap} {newp : Addr} {index : BitVec 32} {n : Nat} : ∀ {j : Nat},
    heap.Contains newp (j + n) →
      (∀ k, j ≤ k → k < j + n → heap.mem (newp.toNat + k) = fillByte index) →
      changed heap newp index j n = some (decide (n ≠ 0 ∧ Negative index)) := by
  induction n with
  | zero => exact fun _ _ => rfl
  | succ n ih =>
    intro j hcontains hfilled
    have hmax : heap.memMaxAddr.toNat < 2 ^ 32 := heap.memMaxAddr.isLt
    obtain ⟨hlo, hhi⟩ := hcontains
    have hj : (newp + BitVec.ofNat 32 j).toNat = newp.toNat + j := by
      rw [BitVec.toNat_add, BitVec.toNat_ofNat]
      omega
    have hone : heap.Contains (newp + BitVec.ofNat 32 j) 1 := ⟨by omega, by omega⟩
    have hload : loadByte heap (newp + BitVec.ofNat 32 j) = some (fillByte index) := by
      rw [loadByte, if_pos hone, hj, hfilled j (Nat.le_refl j) (by omega)]
    rw [changed, hload]
    show (if (fillByte index).toInt ≠ (index &&& 0xFF).toInt then some true
      else changed heap newp index (j + 1) n) = _
    by_cases hneg : Negative index
    · rw [if_pos (mt (toInt_fillByte_iff index).mp (not_not.mpr hneg))]
      simp [hneg]
    · rw [if_neg (not_not.mpr ((toInt_fillByte_iff index).mpr hneg)),
        ih ⟨hlo, by omega⟩ fun k hk hk' => hfilled k (by omega) (by omega)]
      simp [hneg]

/-! ## Section 3: The driver and the allocator -/

/-- The blocks are filled, and the records of the range list are payloads that
    have been handed out. -/
structure Linked (area : Area) (numIds : Nat) (live : Live) (s : State)
    (d : Driver Unit) : Prop extends Known area numIds live s d where
  in_sizes : d.blockSizes.length = numIds
  sizes : ∀ e ∈ live, loadAt d.blockSizes e.1 = some e.2 ∧ 0 < e.2.toInt
  filled : ∀ e ∈ live, ∀ p, loadAt d.blocks e.1 = some p →
    read d.heap.mem p.toNat e.2.toNat = List.replicate e.2.toNat (fillByte e.1)
  ranges : ∀ r ∈ d.ranges, ∃ b ∈ s.blocks, r = payloadRange b.ptr b.size ∧ 0 < b.size.toInt

/-- The sizes of a request that is not refused are kept, as numbers. -/
theorem toNat_keptSize {oldsize size : BitVec 32} (hold : 0 < oldsize.toInt)
    (hnew : 0 < size.toInt) :
    (keptSize oldsize size).toInt.toNat = min oldsize.toNat size.toNat := by
  obtain ⟨_, hold'⟩ := toNat_pos_of_toInt hold
  obtain ⟨_, hnew'⟩ := toNat_pos_of_toInt hnew
  have hoi : oldsize.toInt = oldsize.toNat := by
    rw [BitVec.toInt_eq_toNat_cond]
    split <;> omega
  have hni : size.toInt = size.toNat := by
    rw [BitVec.toInt_eq_toNat_cond]
    split <;> omega
  unfold keptSize
  split <;> omega

section OneRequest

variable {area : Area} {numIds : Nat} {live : Live} {s : State} {d : Driver Unit} {tracenum i : Nat}
  {size : Size}
  {p : Addr} {heap : Heap}

theorem Fresh.bounds (f : Fresh area s size p heap) :
    area.start.toNat + 8 ≤ p.toNat ∧ p.toNat + size.toNat ≤ heap.memBrk.toNat :=
  f.inv.bounds (b := ⟨p, size⟩) List.mem_cons_self

theorem Fresh.geometry (f : Fresh area s size p heap) : Geometry area heap := f.inv.geometry

/-- The driver accepts a new block. -/
theorem Linked.accepted (l : Linked area numIds live s d) (hpos : 0 < size.toInt)
    (f : Fresh area s size p heap) :
    Accepted d.ranges heap p size := by
  obtain ⟨hsize, _⟩ := toNat_pos_of_toInt hpos
  have hbounds := f.bounds
  have habove := f.above
  have haligned : 8 ∣ p.toNat := (f.inv.aligned ⟨p, size⟩ List.mem_cons_self).1
  have hbrk : heap.memBrk.toNat < 2 ^ 32 := heap.memBrk.isLt
  have hend : (p + size - 1).toNat = p.toNat + size.toNat - 1 := toNat_hi (by omega) hsize
  have hlow : (memHeapLo heap).toNat = area.start.toNat := congrArg BitVec.toNat f.geometry.start
  have hhigh : (memHeapHi heap).toNat = heap.memBrk.toNat - 1 := toNat_memHeapHi (by omega)
  refine ⟨hpos, (isAligned_iff p).mpr haligned, ?_, ?_⟩
  · rw [BitVec.le_def, BitVec.le_def, BitVec.le_def, BitVec.le_def, hlow, hhigh, hend]
    omega
  · intro r hr
    obtain ⟨b, hb, rfl, hbpos⟩ := l.ranges r hr
    obtain ⟨hbsize, _⟩ := toNat_pos_of_toInt hbpos
    have hold := l.inv.bounds hb
    have hbend : (payloadRange b.ptr b.size).hi.toNat = b.ptr.toNat + b.size.toNat - 1 :=
      toNat_hi (by omega) hbsize
    simp only [Range.hits, decide_eq_false_iff_not, not_or, ge_iff_le, BitVec.le_def, hbend, hend]
    omega

/-- What the rest of a run needs to know of a run that goes on. -/
structure Goes (area : Area) (numIds : Nat) (live : Live) (left : Nat)
    (d d' : Driver Unit) : Prop where
  linked : ∃ s, Linked area numIds live s d'
  room : room d'.heap = left
  errors : d'.errors = d.errors
  printed : d'.printed = d.printed

/-- The block is filled, and remembered. -/
theorem Linked.remember (l : Linked area numIds live s d) {index : BitVec 32}
    (hnew : index ∉ live.map Prod.fst) (hindex : index.toNat < numIds) (hpos : 0 < size.toInt)
    (f : Fresh area s size p heap) :
    ∃ d', ({ d with heap := heap, ranges := payloadRange p size :: d.ranges } :
        Driver Unit).remember index p size = .ok d' ∧
      Goes area numIds ((index, size) :: live) (room heap) d d' := by
  have hbounds := f.bounds
  have hcontains : heap.Contains p size.toNat :=
    f.geometry.contains (by omega) (le_trans hbounds.2 f.geometry.brk_le)
  have hlen : (List.replicate size.toNat (fillByte index)).length = size.toNat :=
    List.length_replicate
  let mem := write heap.mem p.toNat (List.replicate size.toNat (fillByte index))
  let d' : Driver Unit := { d with
    heap := { heap with mem := mem }
    ranges := payloadRange p size :: d.ranges
    blocks := d.blocks.set index.toNat (some p)
    blockSizes := d.blockSizes.set index.toNat (some size) }
  have hne : ∀ e ∈ live, e.1 ≠ index := fun e he h => hnew (List.mem_map.mpr ⟨e, he, h⟩)
  have hin_blocks : index.toNat < d.blocks.length := l.in_blocks ▸ hindex
  have hin_sizes : index.toNat < d.blockSizes.length := l.in_sizes ▸ hindex
  have hsub : Set.Ico p.toNat (p.toNat + (List.replicate size.toNat (fillByte index)).length) ⊆
      Block.payload ⟨p, size⟩ := by
    rw [hlen]
    exact subset_refl _
  have hknown : Known area numIds ((index, size) :: live) _ d' :=
    l.toKnown.push hnew hindex (f.inv.write List.mem_cons_self hsub) rfl
  refine ⟨d', remember_eq_ok_iff.mpr ⟨hin_blocks, hin_sizes, if_pos hcontains, rfl⟩,
    ⟨_, hknown, ?_, ?_, ?_, ?_⟩, rfl, rfl, rfl⟩
  · exact List.length_set.trans l.in_sizes
  · refine List.forall_mem_cons.mpr ⟨⟨loadAt_set_self hin_sizes size, hpos⟩, fun e he => ?_⟩
    exact ⟨(loadAt_set_ne _ (hne e he) size).trans (l.sizes e he).1, (l.sizes e he).2⟩
  · refine List.forall_mem_cons.mpr ⟨?_, ?_⟩
    · intro q hq
      obtain rfl : p = q := Option.some.inj ((loadAt_set_self hin_blocks p).symm.trans hq)
      have hfilled := read_write heap.mem p.toNat (List.replicate size.toNat (fillByte index))
      rwa [hlen] at hfilled
    · intro e he q hq
      have hblock : loadAt d.blocks e.1 = some q := (loadAt_set_ne _ (hne e he) p).symm.trans hq
      obtain ⟨q', hq', hmem⟩ := l.entries e he
      obtain rfl : q' = q := Option.some.inj (hq'.symm.trans hblock)
      -- an older block lies below the old `mem_brk`, and what has been written above it
      have hold := l.inv.bounds hmem
      have hbelow : Set.EqOn mem heap.mem (Set.Iio s.heap.memBrk.toNat) :=
        eqOn_write_below heap.mem f.above _
      have hpayload : Set.EqOn mem s.heap.mem (Block.payload ⟨q', e.2⟩) :=
        (hbelow.mono fun x hx => lt_of_lt_of_le hx.2 hold.2).trans (f.same _ hmem)
      rw [← l.filled e he q' hblock, ← l.heap]
      exact read_eq_iff.mpr hpayload
  · refine List.forall_mem_cons.mpr ⟨⟨_, List.mem_cons_self, rfl, hpos⟩, ?_⟩
    intro r hr
    obtain ⟨b, hb, hrb⟩ := l.ranges r hr
    exact ⟨b, List.mem_cons_of_mem _ hb, hrb⟩

/-- A block is no longer looked at. -/
theorem Linked.remove (l : Linked area numIds live s d) (index : BitVec 32) (q : Addr) :
    Linked area numIds (live.eraseP (·.1 == index)) s
      { d with ranges := removeRange d.ranges q } where
  toKnown := l.toKnown.erase index rfl rfl
  in_sizes := l.in_sizes
  sizes e he := l.sizes e (List.mem_of_mem_eraseP he)
  filled e he := l.filled e (List.mem_of_mem_eraseP he)
  ranges r hr := l.ranges r (List.mem_of_mem_eraseP hr)

/-! ## Section 4: One request -/

theorem Linked.evalOp_alloc (l : Linked area numIds live s d) {index : BitVec 32}
    (hlegit : (TraceOp.alloc index size).Legit numIds live)
    (hroom : extent size.toNat ≤ room d.heap) :
    ∃ d', evalOp naive tracenum i d (.alloc index size) = .ok (true, d') ∧
      Goes area numIds ((index, size) :: live) (room d.heap - extent size.toNat) d d' := by
  obtain ⟨hindex, hnew, hpos⟩ := hlegit
  obtain ⟨p, heap, hmalloc, f⟩ := l.mmMalloc hroom
  obtain ⟨d', hd', hgoes⟩ := l.remember hnew hindex hpos f
  have hleft := f.room
  rw [l.heap] at hleft
  refine ⟨d', ?_, hleft ▸ hgoes⟩
  exact evalOp_alloc_iff.mpr ⟨p, heap, d.data, hmalloc, f.ne, l.accepted hpos f,
    remember_eq_ok_iff.mp hd'⟩

/-- What has been copied from a filled block. -/
theorem copied_of_filled {mem mem' : Memory} {a a' n k : Nat} {b : Byte}
    (hfilled : read mem a n = List.replicate n b)
    (hcopied : read mem' a' (min n k) = read mem a (min n k)) :
    ∀ j, 0 ≤ j → j < 0 + min n k → mem' (a' + j) = b := by
  intro j _ hj
  have hmin : j < min n k := by omega
  have hsize : j < n := by omega
  have hnew := congrArg (fun bytes => bytes[j]?) hcopied
  have hold := congrArg (fun bytes => bytes[j]?) hfilled
  rw [getElem?_read hmin, getElem?_read hmin] at hnew
  rw [getElem?_read hsize, List.getElem?_replicate_of_lt hsize] at hold
  exact Option.some.inj (hnew.trans hold)

/-- `mm_realloc` succeeds, and the driver looks at the copied bytes. -/
structure Resized (area : Area) (d : Driver Unit) (index size : BitVec 32) (oldp newp : Addr)
    (heap : Heap) (oldsize : Size) : Prop where
  old : loadAt d.blocks index = some oldp
  run : naive.mmRealloc d.heap d.data oldp size = some (newp, heap, d.data)
  ne : newp ≠ NULL
  accepted : Accepted (removeRange d.ranges oldp) heap newp size
  kept : loadAt d.blockSizes index = some oldsize
  changed : changed heap newp index 0 (keptSize oldsize size).toInt.toNat =
    some (decide (Negative index))
  geometry : Geometry area heap

theorem Linked.resize (l : Linked area numIds live s d) {index : BitVec 32}
    (hlegit : (TraceOp.realloc index size).Legit numIds live)
    (hroom : extent size.toNat ≤ room d.heap) :
    ∃ oldp newp heap oldsize, Resized area d index size oldp newp heap oldsize ∧
      ∃ d', ({ d with
          heap := heap, ranges := payloadRange newp size :: removeRange d.ranges oldp } :
          Driver Unit).remember index newp size = .ok d' ∧
        Goes area numIds ((TraceOp.realloc index size).after live)
          (room d.heap - extent size.toNat) d d' := by
  obtain ⟨hmem, hpos⟩ := hlegit
  obtain ⟨oldp, oldsize, he, hblock, hb⟩ := l.entry hmem
  obtain ⟨hsize, hold⟩ : loadAt d.blockSizes index = some oldsize ∧ 0 < oldsize.toInt :=
    l.sizes _ he
  obtain ⟨newp, heap, hrun, f, hcopied⟩ := l.mmRealloc hb hroom
  have l' := l.remove index oldp
  obtain ⟨d', hd', hgoes⟩ := l'.remember (notMem_erase l.ids index) (l.bounds _ he) hpos f
  have hleft := f.room
  rw [l.heap] at hleft
  have hbounds := f.bounds
  have hbrk := f.geometry.brk_le
  have hcontains : heap.Contains newp (0 + min oldsize.toNat size.toNat) :=
    f.geometry.contains (by omega) (by omega)
  -- at least one byte is compared
  have hpos' : min oldsize.toNat size.toNat ≠ 0 := by
    have hold' := (toNat_pos_of_toInt hold).1
    have hnew' := (toNat_pos_of_toInt hpos).1
    omega
  refine ⟨oldp, newp, heap, oldsize,
    ⟨hblock, hrun, f.ne, l'.accepted hpos f, hsize, ?_, f.geometry⟩, d', hd', ?_⟩
  · rw [toNat_keptSize hold hpos,
      changed_of_filled hcontains (copied_of_filled (l.filled _ he oldp hblock) hcopied)]
    simp [hpos']
  · exact ⟨hgoes.linked, hgoes.room.trans hleft, hgoes.errors, hgoes.printed⟩

/-- A request that the driver does not complain of. -/
theorem Linked.goes (l : Linked area numIds live s d) {op : TraceOp} (hlegit : op.Legit numIds live)
    (hc : op.complaint (room d.heap) = none) :
    ∃ d', evalOp naive tracenum i d op = .ok (true, d') ∧
      Goes area numIds (op.after live) (room d.heap - op.extent) d d' := by
  obtain ⟨hroom, hok⟩ := complaint_eq_none_iff.mp hc
  cases op with
  | alloc index size => exact l.evalOp_alloc hlegit hroom
  | free index =>
    obtain ⟨p, _, _, hblock, _⟩ := l.entry hlegit
    exact ⟨_, evalOp_free_iff.mpr ⟨p, d.heap, d.data, hblock, rfl, rfl⟩, ⟨s, l.remove index p⟩,
      rfl, rfl, rfl⟩
  | realloc index size =>
    obtain ⟨oldp, newp, heap, oldsize, r, d', hd', hgoes⟩ := l.resize hlegit hroom
    have hsame := r.changed
    rw [decide_eq_false (show ¬ Negative index from hok)] at hsame
    refine ⟨d', ?_, hgoes⟩
    exact evalOp_realloc_iff.mpr ⟨oldp, newp, heap, d.data, oldsize, r.old, r.run, r.ne, r.accepted,
      r.kept, hsame,
      remember_eq_ok_iff.mp hd'⟩

/-- What is left of a run: the heap is intact, the arrays have their sizes,
    and the verdict has been reported. -/
structure Ended (area : Area) (numIds tracenum : Nat) (v : Option (Nat × Complaint))
    (d d' : Driver Unit) : Prop where
  geometry : Geometry area d'.heap
  in_blocks : d'.blocks.length = numIds
  in_sizes : d'.blockSizes.length = numIds
  errors : d'.errors = d.errors + v.toList.length
  printed : d'.printed = d.printed ++ v.toList.map fun c => errorLine tracenum c.1 c.2

theorem evalOp_alloc_refused (h : mmMalloc d.heap size = some (NULL, d.heap)) (index : BitVec 32) :
    evalOp naive tracenum i d (.alloc index size) =
      .ok (false, d.mallocError tracenum i .mallocFailed) := by
  simp only [evalOp, bind_eq_ok, defined_eq_ok]
  exact ⟨_, naive_mmMalloc h d.data, if_pos rfl⟩

theorem evalOp_realloc_refused {index : BitVec 32} {oldp : Addr}
    (hold : loadAt d.blocks index = some oldp)
    (h : mmRealloc d.heap oldp size = some (NULL, d.heap)) :
    evalOp naive tracenum i d (.realloc index size) =
      .ok (false, d.mallocError tracenum i .reallocFailed) := by
  simp only [evalOp, bind_eq_ok, defined_eq_ok]
  exact ⟨oldp, hold, _, naive_mmRealloc h d.data, if_pos rfl⟩

theorem Resized.evalOp_realloc {index : BitVec 32} {oldp newp : Addr} {oldsize : Size}
    (r : Resized area d index size oldp newp heap oldsize) (hneg : Negative index) :
    evalOp naive tracenum i d (.realloc index size) = .ok (false,
      { d with
        heap := heap
        ranges := payloadRange newp size :: removeRange d.ranges oldp }.mallocError tracenum i
          .notPreserved) := by
  have hchanged := r.changed
  rw [decide_eq_true hneg] at hchanged
  simp only [evalOp, bind_eq_ok, defined_eq_ok]
  refine ⟨oldp, r.old, _, r.run, ?_⟩
  rw [if_neg r.ne]
  exact bind_eq_ok.mpr ⟨_, addRange_eq_ok_iff.mpr ⟨r.accepted, rfl⟩,
    bind_eq_ok.mpr ⟨oldsize, defined_eq_ok.mpr r.kept,
      bind_eq_ok.mpr ⟨true, defined_eq_ok.mpr hchanged, rfl⟩⟩⟩

/-- A request that the driver complains of. -/
theorem Linked.stops (l : Linked area numIds live s d) {op : TraceOp}
    (hlegit : op.Legit numIds live) (hafford : op.Affordable area) {c : Complaint}
    (hc : op.complaint (room d.heap) = some c) :
    ∃ d', evalOp naive tracenum i d op = .ok (false, d') ∧
      Ended area numIds tracenum (some (i, c)) d d' := by
  have g := l.geometry
  cases op with
  | alloc index size =>
    obtain ⟨hfull, rfl⟩ : room d.heap < extent size.toNat ∧ Complaint.mallocFailed = c := by
      simpa [TraceOp.complaint] using hc
    exact ⟨_, evalOp_alloc_refused (mmMalloc_of_no_room g hafford hfull) index, g, l.in_blocks,
      l.in_sizes, rfl, rfl⟩
  | free index => cases hc
  | realloc index size =>
    obtain ⟨oldp, _, _, hold, _⟩ := l.entry hlegit.1
    rw [TraceOp.complaint] at hc
    split at hc
    · next hfull =>
      cases hc
      have hnull := mmRealloc_of_null (mmMalloc_of_no_room g hafford hfull) oldp
      exact ⟨_, evalOp_realloc_refused hold hnull, g, l.in_blocks, l.in_sizes, rfl, rfl⟩
    · next hroom =>
      -- there is room, but the bytes may be compared with a negative `char`
      split at hc
      · next hneg =>
        cases hc
        obtain ⟨oldp, newp, heap, oldsize, r, _⟩ := l.resize hlegit (Nat.not_lt.mp hroom)
        exact ⟨_, r.evalOp_realloc hneg, r.geometry, l.in_blocks, l.in_sizes, rfl, rfl⟩
      · cases hc

/-! ## Section 5: A whole trace -/

theorem Linked.ended (l : Linked area numIds live s d) (tracenum : Nat) :
    Ended area numIds tracenum none d d where
  geometry := l.geometry
  in_blocks := l.in_blocks
  in_sizes := l.in_sizes
  errors := rfl
  printed := (List.append_nil _).symm

theorem Ended.of_goes {live : Live} {left : Nat} {v : Option (Nat × Complaint)}
    {d₁ d' : Driver Unit} (h : Goes area numIds live left d d₁)
    (hrest : Ended area numIds tracenum v d₁ d') : Ended area numIds tracenum v d d' where
  geometry := hrest.geometry
  in_blocks := hrest.in_blocks
  in_sizes := hrest.in_sizes
  errors := h.errors ▸ hrest.errors
  printed := h.printed ▸ hrest.printed

theorem Linked.evalOps (tracenum : Nat) {ops : List TraceOp} :
    ∀ {i : Nat} {live : Live} {s : State} {d : Driver Unit},
    Linked area numIds live s d → Proper numIds live ops → (∀ op ∈ ops, op.Affordable area) →
      ∃ d', evalOps naive tracenum i d ops = .ok ((verdict (room d.heap) i ops).isNone, d') ∧
        Ended area numIds tracenum (verdict (room d.heap) i ops) d d' := by
  induction ops with
  | nil => exact fun l _ _ => ⟨_, rfl, l.ended tracenum⟩
  | cons op ops ih =>
    intro i live s d l hproper hafford
    obtain ⟨hthis, hrest⟩ := List.forall_mem_cons.mp hafford
    simp only [MallocLab.evalOps, bind_eq_ok]
    cases hc : op.complaint (room d.heap) with
    | some c =>
      obtain ⟨d', hop, hended⟩ := l.stops hproper.1 hthis hc
      have hverdict : verdict (room d.heap) i (op :: ops) = some (i, c) := by rw [verdict, hc]
      rw [hverdict]
      exact ⟨d', ⟨(false, d'), hop, rfl⟩, hended⟩
    | none =>
      obtain ⟨d₁, hop, hgoes⟩ := l.goes hproper.1 hc
      obtain ⟨s₁, hlink⟩ := hgoes.linked
      obtain ⟨d', hrun, hended⟩ := ih (i := i + 1) hlink hproper.2 hrest
      have hverdict : verdict (room d.heap) i (op :: ops) = verdict (room d₁.heap) (i + 1) ops := by
        rw [verdict, hc, hgoes.room]
      rw [hverdict]
      exact ⟨d', ⟨(true, d₁), hop, hrun⟩, hended.of_goes hgoes⟩

end OneRequest

/-- No block has been handed out. -/
theorem linked_reset {area : Area} {numIds : Nat} {d : Driver Unit} (g : Geometry area d.heap)
    (hblocks : d.blocks.length = numIds) (hsizes : d.blockSizes.length = numIds) :
    Linked area numIds [] { heap := memResetBrk d.heap, blocks := [] }
      { d with heap := memResetBrk d.heap, ranges := [] } where
  toKnown := known_reset g rfl hblocks
  in_sizes := hsizes
  sizes := List.forall_mem_nil _
  filled := List.forall_mem_nil _
  ranges := List.forall_mem_nil _

/-- For every proper trace, `eval_mm_valid` stops where the verdict says, with
    the error that it says, whatever the heap held before. -/
theorem evalMmValid_naive {area : Area} {trace : Trace} {d : Driver Unit}
    (g : Geometry area d.heap) (hblocks : d.blocks.length = trace.numIds.toNat)
    (hsizes : d.blockSizes.length = trace.numIds.toNat)
    (hproper : Proper trace.numIds.toNat [] trace.ops)
    (hafford : ∀ op ∈ trace.ops, op.Affordable area) (tracenum : Nat) :
    ∃ d', evalMmValid naive tracenum trace d = .ok ((verdict MAX_HEAP 0 trace.ops).isNone, d') ∧
      Ended area trace.numIds.toNat tracenum (verdict MAX_HEAP 0 trace.ops) d d' := by
  have l := linked_reset g hblocks hsizes
  obtain ⟨d', hrun, hended⟩ := l.evalOps tracenum (i := 0) hproper hafford
  have hroom := room_reset g
  rw [hroom] at hrun hended
  refine ⟨d', ?_, hended.geometry, hended.in_blocks, hended.in_sizes, hended.errors, hended.printed⟩
  simp only [evalMmValid, bind_eq_ok, defined_eq_ok]
  exact ⟨(0, memResetBrk d.heap, d.data), rfl, hrun⟩

/-- `eval_mm_valid` accepts `mm.c` exactly when there is room for all requests
    of the trace and no block is resized whose id has a low byte of 128 or
    more; otherwise it prints the line of the request that the verdict names. -/
theorem mm_valid_iff {area : Area} {trace : Trace} (hclean : Clean area trace) {d : Driver Unit}
    (g : Geometry area d.heap) (hblocks : d.blocks.length = trace.numIds.toNat)
    (hsizes : d.blockSizes.length = trace.numIds.toNat) (tracenum : Nat) :
    ∃ valid d', evalMmValid naive tracenum trace d = .ok (valid, d') ∧
      (valid = true ↔ totalExtent trace.ops ≤ MAX_HEAP ∧ ∀ op ∈ trace.ops, ¬ op.Mistaken) ∧
      (valid = false → ∃ i c, verdict MAX_HEAP 0 trace.ops = some (i, c) ∧
        d'.errors = d.errors + 1 ∧
        d'.printed = d.printed ++ [errorLine tracenum i c]) := by
  obtain ⟨d', hrun, hended⟩ :=
    evalMmValid_naive g hblocks hsizes hclean.proper hclean.affordable tracenum
  refine ⟨_, d', hrun, Option.isNone_iff_eq_none.trans verdict_eq_none_iff, fun hinvalid => ?_⟩
  obtain ⟨⟨i, c⟩, hverdict⟩ := Option.isSome_iff_exists.mp (Option.isNone_eq_false_iff.mp hinvalid)
  have herrors := hended.errors
  have hprinted := hended.printed
  rw [hverdict] at herrors hprinted
  exact ⟨i, c, hverdict, herrors, hprinted⟩

/-- Block 128 is resized. -/
def resizing : Trace := ⟨none, 129, none, [.alloc 128 24, .free 128, .alloc 128 5, .realloc 128 9]⟩

theorem mm_valid_resizing :
    ∃ d', evalMmValid naive 3 resizing ((Driver.start lowArea (fun _ => 0) ()).withArrays 129) =
        .ok (false, d') ∧
      d'.printed =
        ["ERROR [trace 3, line 8]: mm_realloc did not preserve the data from old block\n"] := by
  obtain ⟨valid, d', hrun, hvalid, hinvalid⟩ := mm_valid_iff (show Clean lowArea resizing by decide)
    (d := (Driver.start lowArea (fun _ => 0) ()).withArrays 129)
      (geometry_memInit lowArea fun _ => 0) rfl rfl 3
  have hmistaken :
      ¬ (totalExtent resizing.ops ≤ MAX_HEAP ∧ ∀ op ∈ resizing.ops, ¬ op.Mistaken) := by decide
  obtain rfl : valid = false := Bool.eq_false_iff.mpr fun h => hmistaken (hvalid.mp h)
  obtain ⟨i, c, hverdict, _, hprinted⟩ := hinvalid rfl
  obtain ⟨rfl, rfl⟩ : i = 3 ∧ c = .notPreserved := by
    have hcase : verdict MAX_HEAP 0 resizing.ops = some (3, .notPreserved) := by decide
    cases hcase.symm.trans hverdict
    exact ⟨rfl, rfl⟩
  exact ⟨d', hrun, hprinted⟩

end MallocLab
