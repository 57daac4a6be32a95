import CsappExperiments.MallocLab.Heap

/-! # Malloc Lab: what a request does

    `mm_malloc` adds 15 to the size and rounds down, `mem_sbrk` takes the
    result as an `int` and adds it to `mem_brk`. If none of these sums wraps
    around, the block is carved from above the old `mem_brk` or the request
    is refused (`mmMalloc_cases`).

    Nothing checks for the wraps. `served_iff` says for which requests the
    caller gets as much as it has asked for.
-/

open ByteMemory LTS

namespace MallocLab

/-! ## Section 1: The rounded size -/

/-- The room that a block of this size takes, with its header. -/
def extent (size : Nat) : Nat := (size + 15) / 8 * 8

theorem and_not_seven (x : Size) : (x &&& ~~~7#32).toNat = x.toNat / 8 * 8 := by
  have hshift : x &&& ~~~7#32 = (x >>> 3) <<< 3 := by
    have hseven : ∀ i, i < 32 → (7#32).getLsbD i = decide (i < 3) := by decide
    apply BitVec.eq_of_getLsbD_eq
    intro i hi
    rw [BitVec.getLsbD_and, BitVec.getLsbD_not, hseven i hi, BitVec.getLsbD_shiftLeft,
      BitVec.getLsbD_ushiftRight]
    by_cases hlow : i < 3
    · simp [hlow]
    · simp [hlow, hi, Nat.add_sub_cancel' (Nat.le_of_not_lt hlow)]
  have hlt : x.toNat < 2 ^ 32 := x.isLt
  rw [hshift, BitVec.toNat_shiftLeft, BitVec.toNat_ushiftRight, Nat.shiftLeft_eq,
    Nat.shiftRight_eq_div_pow]
  omega

/-- The size that is passed to `mem_sbrk`. -/
theorem toNat_newsize (size : Size) :
    (align (size + SIZE_T_SIZE)).toNat = (size.toNat + 15) % 2 ^ 32 / 8 * 8 := by
  have hsum : size + SIZE_T_SIZE + (ALIGNMENT - 1) = size + 15#32 := by
    rw [BitVec.add_assoc]
    rfl
  have hconst : (15#32).toNat = 15 := rfl
  unfold align
  rw [hsum]
  exact (and_not_seven _).trans (by rw [BitVec.toNat_add, hconst])

/-- The payload comes behind the header. -/
theorem toNat_payload {p : Addr} (h : p.toNat + 8 < 2 ^ 32) :
    (p + SIZE_T_SIZE).toNat = p.toNat + 8 := by
  have height : SIZE_T_SIZE.toNat = 8 := by decide
  rw [← height] at h ⊢
  exact BitVec.toNat_add_of_lt h

theorem ne_null_of_toNat {p : Addr} {n : Nat} (h : p.toNat = n + 8) : p ≠ NULL := by
  rintro rfl
  have hzero : NULL.toNat = 0 := rfl
  omega

/-! ## Section 2: The area and `mem_brk` -/

/-- What `mem_init` and `mem_sbrk` maintain. -/
structure Geometry (area : Area) (heap : Heap) : Prop where
  start : heap.memStartBrk = area.start
  max : heap.memMaxAddr.toNat = area.start.toNat + MAX_HEAP
  le_brk : area.start.toNat ≤ heap.memBrk.toNat
  brk_le : heap.memBrk.toNat ≤ heap.memMaxAddr.toNat
  aligned : 8 ∣ heap.memBrk.toNat

theorem toNat_maxAddr (area : Area) (mem : Memory) :
    (memInit area mem).memMaxAddr.toNat = area.start.toNat + MAX_HEAP := by
  have hfits := area.fits
  show (area.start + BitVec.ofNat 32 MAX_HEAP).toNat = _
  unfold MAX_HEAP at hfits ⊢
  rw [BitVec.toNat_add, BitVec.toNat_ofNat]
  omega

theorem geometry_memInit (area : Area) (mem : Memory) : Geometry area (memInit area mem) where
  start := rfl
  max := toNat_maxAddr area mem
  le_brk := Nat.le_refl _
  brk_le := by
    rw [toNat_maxAddr]
    exact Nat.le_add_right _ _
  aligned := area.aligned

theorem Geometry.max_aligned {area : Area} {heap : Heap} (g : Geometry area heap) :
    8 ∣ heap.memMaxAddr.toNat := by
  rw [g.max]
  exact Nat.dvd_add area.aligned (by decide)

/-- What lies between the start of the heap and its limit may be accessed. -/
theorem Geometry.contains {area : Area} {heap : Heap} (g : Geometry area heap) {p : Addr}
    {n : Nat} (hlo : area.start.toNat ≤ p.toNat) (hhi : p.toNat + n ≤ heap.memMaxAddr.toNat) :
    heap.Contains p n :=
  ⟨g.start.symm ▸ hlo, hhi⟩

/-- The contents do not matter. -/
theorem Geometry.withMem {area : Area} {heap : Heap} (g : Geometry area heap) (mem : Memory) :
    Geometry area { heap with mem := mem } := ⟨g.start, g.max, g.le_brk, g.brk_le, g.aligned⟩

/-! ## Section 3: The two outcomes -/

/-- The sums that the allocator and `mem_sbrk` compute for this request do
    not wrap around. (A rounded size from 2 ^ 31 on is a negative `int`, and is
    not added to `mem_brk`.) -/
def NoWrap (heap : Heap) (size : Size) : Prop :=
  size.toNat + 15 < 2 ^ 32 ∧
    (extent size.toNat < 2 ^ 31 → heap.memBrk.toNat + extent size.toNat < 2 ^ 32)

/-- A new block with its header, right above the old `mem_brk`. -/
structure Carved (heap : Heap) (size : Size) (p : Addr) (heap' : Heap) : Prop where
  ptr : p.toNat = heap.memBrk.toNat + 8
  brk : heap'.memBrk.toNat = heap.memBrk.toNat + extent size.toNat
  room : heap'.memBrk.toNat ≤ heap.memMaxAddr.toNat
  mem : heap'.mem = write heap.mem heap.memBrk.toNat (leBytes 4 size.toNat)
  start : heap'.memStartBrk = heap.memStartBrk
  max : heap'.memMaxAddr = heap.memMaxAddr

theorem Carved.ptr_ne {heap heap' : Heap} {size : Size} {p : Addr} (c : Carved heap size p heap') :
    p ≠ NULL :=
  ne_null_of_toNat c.ptr

/-- The room of a block is enough for its header and its payload. -/
theorem le_extent (size : Nat) : size + 8 ≤ extent size := by
  unfold extent
  omega

theorem Carved.geometry {area : Area} {heap heap' : Heap} {size : Size} {p : Addr}
    (c : Carved heap size p heap') (g : Geometry area heap) : Geometry area heap' where
  start := c.start.trans g.start
  max := c.max ▸ g.max
  le_brk := by
    rw [c.brk]
    exact Nat.le_trans g.le_brk (Nat.le_add_right _ _)
  brk_le := c.max ▸ c.room
  aligned := by
    rw [c.brk]
    exact Nat.dvd_add g.aligned (Nat.dvd_mul_left _ _)

/-- The test of `mem_sbrk` for the rounded size. -/
def Refused (heap : Heap) (size : Size) : Prop :=
  (align (size + SIZE_T_SIZE)).toInt < 0 ∨ heap.memBrk + align (size + SIZE_T_SIZE) >
    heap.memMaxAddr

theorem mmMalloc_of_refused {heap : Heap} {size : Size} (h : Refused heap size) :
    mmMalloc heap size = some (NULL, heap) := by
  have hsbrk : memSbrk heap (align (size + SIZE_T_SIZE)) = (FAILED, heap) := if_pos h
  unfold mmMalloc
  dsimp only
  rw [hsbrk]
  rfl

/-- The block is carved from above the old `mem_brk`. -/
theorem mmMalloc_of_not_refused {area : Area} {heap : Heap} (g : Geometry area heap) {size : Size}
    (h : ¬ Refused heap size) :
    mmMalloc heap size =
      (storeSize { heap with memBrk := heap.memBrk + align (size + SIZE_T_SIZE) }
        heap.memBrk size).map
      fun heap' => (heap.memBrk + SIZE_T_SIZE, heap') := by
  have hsbrk : memSbrk heap (align (size + SIZE_T_SIZE)) =
      (heap.memBrk, { heap with memBrk := heap.memBrk + align (size + SIZE_T_SIZE) }) := if_neg h
  have hne : heap.memBrk ≠ FAILED := by
    intro heq
    have haligned := g.aligned
    rw [heq] at haligned
    exact absurd haligned (by decide)
  unfold mmMalloc
  dsimp only
  rw [hsbrk]
  show (if heap.memBrk = FAILED then _ else _) = _
  rw [if_neg hne]

theorem toInt_neg_iff (x : Size) : x.toInt < 0 ↔ 2 ^ 31 ≤ x.toNat := by
  have hlt : x.toNat < 2 ^ 32 := x.isLt
  rw [BitVec.toInt_eq_toNat_cond]
  split <;> omega

/-- `mem_brk` moves up, or the request is refused. -/
theorem mmMalloc_cases {area : Area} {heap : Heap} (g : Geometry area heap) {size : Size}
    (h : NoWrap heap size) :
    mmMalloc heap size = some (NULL, heap) ∨ ∃ p heap', mmMalloc heap size = some (p, heap') ∧
      Carved heap size p heap' := by
  by_cases hrefused : Refused heap size
  · exact .inl (mmMalloc_of_refused hrefused)
  have hnew : (align (size + SIZE_T_SIZE)).toNat = extent size.toNat := by
    rw [toNat_newsize, Nat.mod_eq_of_lt h.1]
    rfl
  -- a rounded size from 2 ^ 31 on would have been refused as a negative increment
  have hpos : extent size.toNat < 2 ^ 31 := by
    have hsign := mt Or.inl hrefused
    rw [toInt_neg_iff, hnew] at hsign
    omega
  have hsum : (heap.memBrk + align (size + SIZE_T_SIZE)).toNat =
      heap.memBrk.toNat + extent size.toNat := by
    rw [← hnew]
    exact BitVec.toNat_add_of_lt (hnew ▸ h.2 hpos)
  have hroom : heap.memBrk.toNat + extent size.toNat ≤ heap.memMaxAddr.toNat := by
    have hle := BitVec.not_lt.mp (mt Or.inr hrefused)
    rw [BitVec.le_def, hsum] at hle
    exact hle
  have hext := le_extent size.toNat
  have hmax : heap.memMaxAddr.toNat < 2 ^ 32 := heap.memMaxAddr.isLt
  have hptr : (heap.memBrk + SIZE_T_SIZE).toNat = heap.memBrk.toNat + 8 := toNat_payload (by omega)
  have hstore : Heap.Contains { heap with memBrk := heap.memBrk + align (size + SIZE_T_SIZE) }
      heap.memBrk 4 :=
    g.contains g.le_brk (by omega)
  right
  refine ⟨heap.memBrk + SIZE_T_SIZE,
    { heap with
      mem := write heap.mem heap.memBrk.toNat (leBytes 4 size.toNat)
      memBrk := heap.memBrk + align (size + SIZE_T_SIZE) }, ?_, hptr, hsum, ?_, rfl, rfl, rfl⟩
  · rw [mmMalloc_of_not_refused g hrefused, storeSize, if_pos hstore]
    rfl
  · exact hsum ▸ hroom

/-- `mm_realloc` is a request, and then a copy from the old block to the new. -/
theorem mmRealloc_cases {heap heap' : Heap} {ptr p : Addr} {size : Size}
    (h : mmRealloc heap ptr size = some (p, heap')) :
    (p = NULL ∧ mmMalloc heap size = some (NULL, heap')) ∨
      ∃ heap₁ copySize, p ≠ NULL ∧ mmMalloc heap size = some (p, heap₁) ∧
        loadSize heap₁ (ptr - SIZE_T_SIZE) = some copySize ∧
        memcpy heap₁ p ptr (if size < copySize then size else copySize) = some heap' := by
  unfold mmRealloc at h
  cases hmalloc : mmMalloc heap size with
  | none =>
    rw [hmalloc] at h
    cases h
  | some r =>
    obtain ⟨newptr, heap₁⟩ := r
    rw [hmalloc] at h
    change (if newptr = NULL then some (NULL, heap₁)
      else (loadSize heap₁ (ptr - SIZE_T_SIZE)).bind fun copySize =>
      (memcpy heap₁ newptr ptr (if size < copySize then size else copySize)).bind fun heap₂ =>
        some (newptr, heap₂)) = _ at h
    by_cases hnull : newptr = NULL
    · rw [if_pos hnull] at h
      cases h
      exact .inl ⟨rfl, by rw [hnull]⟩
    · rw [if_neg hnull] at h
      obtain ⟨copySize, hload, hcopy⟩ := Option.bind_eq_some_iff.mp h
      obtain ⟨heap₂, hmemcpy, heq⟩ := Option.bind_eq_some_iff.mp hcopy
      cases heq
      exact .inr ⟨heap₁, copySize, hnull, rfl, hload, hmemcpy⟩

/-! ## Section 4: Undersized blocks -/

/-- The promise to a caller: NULL and an unchanged heap, or `size` bytes that
    the heap did not have before, with a header in the heap. -/
def Served (heap : Heap) (size : Size) : Prop :=
  ∃ p heap', mmMalloc heap size = some (p, heap') ∧
    (p = NULL ∧ heap'.memBrk = heap.memBrk ∧ heap'.mem = heap.mem ∨
      p ≠ NULL ∧ heap.memBrk.toNat ≤ p.toNat ∧ p.toNat + size.toNat ≤ heap'.memBrk.toNat ∧
        heap.memStartBrk.toNat + 8 ≤ p.toNat)

/-- No sum wraps around, or the heap is full and the rounded size, although it
    has wrapped around to 8, is still refused. -/
def Fits (heap : Heap) (size : Size) : Prop :=
  NoWrap heap size ∨ heap.memBrk = heap.memMaxAddr ∧ 2 ^ 32 - 8 < size.toNat ∧
    heap.memMaxAddr.toNat + 8 < 2 ^ 32

/-- A condition on the requests of a run. -/
def Requests (ok : Heap → Size → Prop) (s : State) : Call → Prop
  | .malloc size => ok s.heap size
  | .realloc _ size => ok s.heap size
  | _ => True

theorem refused_of_full {heap : Heap} {size : Size} (hfull : heap.memBrk = heap.memMaxAddr)
    (hsize : 2 ^ 32 - 8 < size.toNat) (hmax : heap.memMaxAddr.toNat + 8 < 2 ^ 32) :
    Refused heap size := by
  right
  have hlt : size.toNat < 2 ^ 32 := size.isLt
  have hnew := toNat_newsize size
  show heap.memMaxAddr.toNat < (heap.memBrk + align (size + SIZE_T_SIZE)).toNat
  rw [BitVec.toNat_add, hnew, hfull]
  omega

theorem mmMalloc_of_fits {area : Area} {heap : Heap} (g : Geometry area heap) {size : Size}
    (h : Fits heap size) :
    mmMalloc heap size = some (NULL, heap) ∨ ∃ p heap', mmMalloc heap size = some (p, heap') ∧
      Carved heap size p heap' := by
  rcases h with hno | ⟨hfull, hsize, hmax⟩
  · exact mmMalloc_cases g hno
  · exact .inl (mmMalloc_of_refused (refused_of_full hfull hsize hmax))

theorem served_of_fits {area : Area} {heap : Heap} (g : Geometry area heap) {size : Size}
    (h : Fits heap size) :
    Served heap size := by
  rcases mmMalloc_of_fits g h with hrun | ⟨p, heap', hrun, c⟩
  · exact ⟨NULL, heap, hrun, .inl ⟨rfl, rfl, rfl⟩⟩
  · have hptr := c.ptr
    have hbrk := c.brk
    have hext := le_extent size.toNat
    have hlo := g.le_brk
    have hstart := g.start
    refine ⟨p, heap', hrun, .inr ⟨c.ptr_ne, by omega, by omega, ?_⟩⟩
    rw [hstart]
    omega

/-- Where a sum wraps around, the request is not refused, and `mem_brk` does
    not move as far as it should. -/
theorem not_refused_of_not_fits {area : Area} {heap : Heap} (g : Geometry area heap) {size : Size}
    (h : ¬ Fits heap size) :
    ¬ Refused heap size ∧
      (heap.memBrk + align (size + SIZE_T_SIZE)).toNat < heap.memBrk.toNat + 8 + size.toNat := by
  have hsize : size.toNat < 2 ^ 32 := size.isLt
  have hmax : heap.memMaxAddr.toNat < 2 ^ 32 := heap.memMaxAddr.isLt
  have hle := g.brk_le
  have haligned := g.aligned
  have hmaxAligned := g.max_aligned
  have hnew := toNat_newsize size
  have hfull : heap.memBrk = heap.memMaxAddr ↔ heap.memBrk.toNat = heap.memMaxAddr.toNat :=
    BitVec.toNat_inj.symm
  unfold Fits NoWrap extent at h
  rw [hfull] at h
  unfold Refused
  rw [toInt_neg_iff, hnew]
  show ¬ (_ ∨ heap.memMaxAddr.toNat < (heap.memBrk + align (size + SIZE_T_SIZE)).toNat) ∧ _
  rw [BitVec.toNat_add, hnew]
  omega

theorem not_served_of_not_fits {area : Area} {heap : Heap} (g : Geometry area heap) {size : Size}
    (h : ¬ Fits heap size) :
    ¬ Served heap size := by
  rintro ⟨p, heap', hrun, hcases⟩
  obtain ⟨hrefused, hshort⟩ := not_refused_of_not_fits g h
  have hmax : heap.memMaxAddr.toNat < 2 ^ 32 := heap.memMaxAddr.isLt
  have hle := g.brk_le
  have haligned := g.aligned
  have hmaxAligned := g.max_aligned
  rw [mmMalloc_of_not_refused g hrefused, storeSize] at hrun
  by_cases hroom :
    Heap.Contains { heap with memBrk := heap.memBrk + align (size + SIZE_T_SIZE) } heap.memBrk 4
  · rw [if_pos hroom] at hrun
    cases hrun
    have hfour : heap.memBrk.toNat + 4 ≤ heap.memMaxAddr.toNat := hroom.2
    have hptr : (heap.memBrk + SIZE_T_SIZE).toNat = heap.memBrk.toNat + 8 :=
      toNat_payload (by omega)
    rcases hcases with ⟨hnull, _⟩ | ⟨_, _, hsize, _⟩
    · exact ne_null_of_toNat hptr hnull
    · rw [hptr] at hsize
      exact absurd hshort (Nat.not_lt.mpr hsize)
  · rw [if_neg hroom] at hrun
    cases hrun

theorem Geometry.reset {area : Area} {heap : Heap} (g : Geometry area heap) :
    Geometry area (memResetBrk heap) where
  start := g.start
  max := g.max
  le_brk := by
    show _ ≤ heap.memStartBrk.toNat
    rw [g.start]
  brk_le := by
    show heap.memStartBrk.toNat ≤ heap.memMaxAddr.toNat
    rw [g.start, g.max]
    exact Nat.le_add_right _ _
  aligned := by
    show 8 ∣ heap.memStartBrk.toNat
    rw [g.start]
    exact area.aligned

theorem memcpy_eq {heap heap' : Heap} {dst src : Addr} {n : Size}
    (h : memcpy heap dst src n = some heap') :
    heap' = { heap with mem := write heap.mem dst.toNat (read heap.mem src.toNat n.toNat) } := by
  unfold memcpy at h
  split at h
  · exact (Option.some.inj h).symm
  · cases h

theorem storeByte_eq {heap heap' : Heap} {p : Addr} {b : Byte}
    (h : storeByte heap p b = some heap') :
    heap' = { heap with mem := write heap.mem p.toNat [b] } := by
  unfold storeByte at h
  split at h
  · exact (Option.some.inj h).symm
  · cases h

/-- What a request that fits returns. -/
theorem mmMalloc_outcome {area : Area} {heap heap' : Heap} (g : Geometry area heap) {size : Size}
    {p : Addr} (hfits : Fits heap size) (h : mmMalloc heap size = some (p, heap')) :
    p = NULL ∧ heap' = heap ∨ Carved heap size p heap' := by
  rcases mmMalloc_of_fits g hfits with hrun | ⟨p', heap₁, hrun, c⟩
  · cases h.symm.trans hrun
    exact .inl ⟨rfl, rfl⟩
  · cases h.symm.trans hrun
    exact .inr c

theorem geometry_mmMalloc {area : Area} {heap heap' : Heap} (g : Geometry area heap) {size : Size}
    {p : Addr} (hfits : Fits heap size) (h : mmMalloc heap size = some (p, heap')) :
    Geometry area heap' := by
  rcases mmMalloc_outcome g hfits h with ⟨_, rfl⟩ | c
  · exact g
  · exact c.geometry g

theorem geometry_mmRealloc {area : Area} {heap heap' : Heap} (g : Geometry area heap)
    {size : Size} {ptr p : Addr} (hfits : Fits heap size)
    (h : mmRealloc heap ptr size = some (p, heap')) : Geometry area heap' := by
  rcases mmRealloc_cases h with ⟨_, hrun⟩ | ⟨heap₁, copySize, _, hrun, _, hcopy⟩
  · exact geometry_mmMalloc g hfits hrun
  · rw [memcpy_eq hcopy]
    exact (geometry_mmMalloc g hfits hrun).withMem _

theorem geometry_step {area : Area} {s s' : State} {c : Call} (g : Geometry area s.heap)
    (hok : Requests Fits s c) (h : step s c = some s') : Geometry area s'.heap := by
  cases c with
  | malloc size =>
    obtain ⟨⟨p, heap⟩, hrun, rfl⟩ := Option.map_eq_some_iff.mp h
    exact geometry_mmMalloc g hok hrun
  | free ptr =>
    cases h
    exact g
  | realloc ptr size =>
    obtain ⟨⟨p, heap⟩, hrun, rfl⟩ := Option.map_eq_some_iff.mp h
    exact geometry_mmRealloc g hok hrun
  | write p b =>
    obtain ⟨heap, hrun, rfl⟩ := Option.map_eq_some_iff.mp h
    rw [storeByte_eq hrun]
    exact g.withMem _
  | reset =>
    cases h
    exact g.reset

/-- In every run whose requests fit, the allocator serves the next request as
    promised exactly when it fits too. -/
theorem served_iff (area : Area) (mem : Memory) {s : State}
    (h : (system area mem).ReachableUnder (Requests Fits) s) (size : Size) :
    Served s.heap size ↔ Fits s.heap size := by
  have g : Geometry area s.heap :=
    h.invariant (P := fun s => Geometry area s.heap) (geometry_memInit area mem)
      fun _ _ _ _ g hok hstep => geometry_step g hok hstep
  exact ⟨fun hserved => Classical.byContradiction fun hno => not_served_of_not_fits g hno hserved,
    served_of_fits g⟩

instance (heap : Heap) (size : Size) : Decidable (NoWrap heap size) :=
  inferInstanceAs (Decidable (_ ∧ _))

instance (heap : Heap) (size : Size) : Decidable (Fits heap size) :=
  inferInstanceAs (Decidable (_ ∨ _))

instance (ok : Heap → Size → Prop) [∀ heap size, Decidable (ok heap size)] (s : State) (c : Call) :
    Decidable (Requests ok s c) :=
  match c with
  | .malloc _ => inferInstanceAs (Decidable (ok _ _))
  | .realloc _ _ => inferInstanceAs (Decidable (ok _ _))
  | .free _ => isTrue trivial
  | .write _ _ => isTrue trivial
  | .reset => isTrue trivial

/-- An area in the lower half of the addresses. -/
def lowArea : Area := ⟨0x08000000, by decide, by decide⟩

theorem served_after_two : ∃ s : State, s.blocks.length = 2 ∧ Served s.heap 24 := by
  have hrun : ((system lowArea fun _ => 0).runUnder (Requests Fits) (system lowArea fun _ => 0).init
      [.malloc 100, .malloc 7]).any
          (fun s : State => decide (s.blocks.length = 2 ∧ Fits s.heap 24)) = true := by
    decide +kernel
  obtain ⟨s, hs, hp⟩ := System.ReachableUnder.init.exists_run hrun
  obtain ⟨htwo, hfits⟩ := of_decide_eq_true hp
  exact ⟨s, htwo, (served_iff lowArea (fun _ => 0) hs 24).mpr hfits⟩

/-- On the empty heap, a request for 2 ^ 32 - 8 bytes is rounded to 0 and
    succeeds. -/
theorem not_served_huge : ¬ Served (system lowArea fun _ => 0).init.heap 0xfffffff8 :=
  not_served_of_not_fits (geometry_memInit lowArea fun _ => 0) (by decide)

end MallocLab