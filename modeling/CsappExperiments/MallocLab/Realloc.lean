import CsappExperiments.MallocLab.Layout

/-! # Malloc Lab: `mm_realloc`

    `mm_realloc` finds out how much to copy from a header, after it has
    carved a new block. The layout of the heap makes this right: the header is
    still there, the old block fits below the new one, and nothing below the
    old `mem_brk` is written.

    With this every call is defined, so that callers who keep to the rules of
    `WellUsed` can make as many as they like (`calls_defined`).
-/

open ByteMemory LTS

namespace MallocLab

/-! ## Section 1: What is copied -/

/-- The number of bytes that are copied. -/
theorem toNat_copySize (n m : Size) : (if m < n then m else n).toNat = min n.toNat m.toNat := by
  split
  · next h =>
    have hlt : m.toNat < n.toNat := h
    omega
  · next h =>
    have hle : n.toNat ≤ m.toNat := BitVec.not_lt.mp h
    omega

theorem mmRealloc_of_carved {heap heap₁ heap₂ : Heap} {ptr p : Addr} {size copySize : Size}
    (hmalloc : mmMalloc heap size = some (p, heap₁)) (hne : p ≠ NULL)
    (hload : loadSize heap₁ (ptr - SIZE_T_SIZE) = some copySize)
    (hcopy : memcpy heap₁ p ptr (if size < copySize then size else copySize) = some heap₂) :
    mmRealloc heap ptr size = some (p, heap₂) := by
  unfold mmRealloc
  rw [hmalloc]
  show (if p = NULL then _ else (loadSize heap₁ (ptr - SIZE_T_SIZE)).bind _) = _
  rw [if_neg hne, hload]
  show (memcpy heap₁ p ptr (if size < copySize then size else copySize)).bind _ = _
  rw [hcopy]
  rfl

theorem mmRealloc_of_null {heap heap₁ : Heap} {size : Size}
    (hmalloc : mmMalloc heap size = some (NULL, heap₁)) (ptr : Addr) :
    mmRealloc heap ptr size = some (NULL, heap₁) := by
  unfold mmRealloc
  rw [hmalloc]
  rfl

/-- What a caller gets for a block of `n` bytes at `ptr`: NULL and an
    unchanged heap, or a pointer to as many of its bytes as the new size has
    room for, where all blocks are as they were. -/
def Preserves (s : State) (b : Block) (m : Size) (p : Addr) (heap : Heap) : Prop :=
  if p = NULL then heap = s.heap
  else
    read heap.mem p.toNat (min b.size.toNat m.toNat) =
      read s.heap.mem b.ptr.toNat (min b.size.toNat m.toNat) ∧
      Disjoint (Set.Ico p.toNat (p.toNat + min b.size.toNat m.toNat))
        (Set.Ico b.ptr.toNat (b.ptr.toNat + min b.size.toNat m.toNat)) ∧
      ∀ c ∈ s.blocks, Set.EqOn heap.mem s.heap.mem (c.header ∪ c.payload)

/-- The copy is within the area, and between ranges that do not overlap. -/
theorem Inv.memcpy {area : Area} {s : State} (inv : Inv area s) {b : Block} (hb : b ∈ s.blocks)
    {m p : BitVec 32} {heap : Heap} (c : Carved s.heap m p heap) :
    MallocLab.memcpy heap p b.ptr (if m < b.size then m else b.size) = some
      { heap with
        mem := ByteMemory.write heap.mem p.toNat
          (read heap.mem b.ptr.toNat (min b.size.toNat m.toNat)) } := by
  have hn := toNat_copySize b.size m
  have hbounds := inv.bounds hb
  have hgeometry := c.geometry inv.geometry
  have hmax := hgeometry.brk_le
  have hlo := inv.geometry.le_brk
  have hptr := c.ptr
  have hbrk := c.brk
  have hext := le_extent m.toNat
  have hpre : heap.Contains p (if m < b.size then m else b.size).toNat ∧
      heap.Contains b.ptr (if m < b.size then m else b.size).toNat ∧
      (p.toNat + (if m < b.size then m else b.size).toNat ≤ b.ptr.toNat ∨
        b.ptr.toNat + (if m < b.size then m else b.size).toNat ≤ p.toNat) := by
    rw [hn]
    exact ⟨hgeometry.contains (by omega) (by omega), hgeometry.contains (by omega) (by omega),
      .inr (by omega)⟩
  unfold MallocLab.memcpy
  rw [if_pos hpre, hn]

/-- What the copy leaves. -/
theorem Inv.preserves {area : Area} {s : State} (inv : Inv area s) {b : Block} (hb : b ∈ s.blocks)
    {m p : BitVec 32} {heap : Heap} (c : Carved s.heap m p heap) :
    Preserves s b m p
      { heap with
        mem := ByteMemory.write heap.mem p.toNat
          (read heap.mem b.ptr.toNat (min b.size.toNat m.toNat)) } := by
  have hbounds := inv.bounds hb
  have hptr := c.ptr
  have habove : s.heap.memBrk.toNat ≤ p.toNat := by omega
  have hold : Set.Ico b.ptr.toNat (b.ptr.toNat + min b.size.toNat m.toNat) ⊆
      Set.Iio s.heap.memBrk.toNat :=
    fun x hx => Nat.lt_of_lt_of_le hx.2 (by omega)
  have hframe : Set.EqOn
      (ByteMemory.write heap.mem p.toNat (read heap.mem b.ptr.toNat (min b.size.toNat m.toNat)))
      heap.mem
      (Set.Iio s.heap.memBrk.toNat) := eqOn_write_below _ habove _
  unfold Preserves
  rw [if_neg c.ptr_ne]
  refine ⟨?_, ?_, ?_⟩
  · have hcopied := read_write heap.mem p.toNat
        (read heap.mem b.ptr.toNat (min b.size.toNat m.toNat))
    rw [length_read] at hcopied
    exact hcopied.trans (read_eq_iff.mpr (c.eqOn.mono hold))
  · exact ((Set.Iio_disjoint_Ici habove).mono hold Set.Ico_subset_Ici_self).symm
  · intro d hd
    have hbelow := (inv.subset hd).trans Set.Ico_subset_Iio_self
    exact (hframe.trans c.eqOn).mono hbelow

theorem Inv.mmRealloc {area : Area} {s : State} (inv : Inv area s) {b : Block} (hb : b ∈ s.blocks)
    {m : Size} (hm : Small s.heap m) :
    ∃ p heap, mmRealloc s.heap b.ptr m = some (p, heap) ∧ Preserves s b m p heap := by
  rcases mmMalloc_of_fits inv.geometry hm.fits with hnull | ⟨p, heap, hmalloc, c⟩
  · refine ⟨NULL, s.heap, mmRealloc_of_null hnull b.ptr, ?_⟩
    unfold Preserves
    rw [if_pos rfl]
  · have hload := (inv.carve c).loadSize (List.mem_cons_of_mem _ hb)
    exact ⟨p, _, mmRealloc_of_carved hmalloc c.ptr_ne hload (inv.memcpy hb c), inv.preserves hb c⟩

/-- `mm_realloc` preserves data: in every state of every run in which callers
    keep to the rules, for every block and every new size. -/
theorem realloc_preserves {area : Area} {mem : Memory} {s : State}
    (h : (system area mem).ReachableUnder WellUsed s) {b : Block} (hb : b ∈ s.blocks) {m : Size}
    (hm : Small s.heap m) :
    ∃ p heap, mmRealloc s.heap b.ptr m = some (p, heap) ∧ Preserves s b m p heap :=
  (inv_of_reachable h).mmRealloc hb hm

/-- The old block of a block that has grown is itself shrunk, to a new place. -/
theorem realloc_preserves_after_grow :
    ∃ (s : State) (b : Block),
      (system lowArea fun _ => 0).runUnder WellUsed (system lowArea fun _ => 0).init
        [.malloc 5, .write 0x0800000a 7, .realloc 0x08000008 12] = some s ∧ b ∈ s.blocks ∧
          b.size = 5 ∧
      ∃ p heap, mmRealloc s.heap b.ptr 3 = some (p, heap) ∧ p ≠ NULL ∧ Preserves s b 3 p heap := by
  have hrun : ((system lowArea fun _ => 0).runUnder WellUsed (system lowArea fun _ => 0).init
      [.malloc 5, .write 0x0800000a 7, .realloc 0x08000008 12]).any
        (fun s : State => decide (⟨0x08000008, 5⟩ ∈ s.blocks ∧ Small s.heap 3 ∧
          (mmRealloc s.heap 0x08000008 3).any (fun r => decide (r.1 ≠ NULL)) = true)) = true := by
    decide +kernel
  obtain ⟨s, hs, hp⟩ := (Option.any_eq_true _ _).mp hrun
  obtain ⟨hb, hm, hany⟩ := of_decide_eq_true hp
  obtain ⟨p, heap, hrealloc, hpres⟩ := realloc_preserves (System.ReachableUnder.init.run _ hs) hb hm
  rw [hrealloc] at hany
  exact ⟨s, _, hs, hb, rfl, p, heap, hrealloc, of_decide_eq_true hany, hpres⟩

/-! ## Section 2: Memory safety -/

/-- A call that keeps to the rules does not make the allocator leave the area. -/
theorem step_defined {area : Area} {mem : Memory} {s : State}
    (h : (system area mem).ReachableUnder WellUsed s) {c : Call} (hok : WellUsed s c) :
    ∃ s', step s c = some s' := by
  have inv := inv_of_reachable h
  cases c with
  | malloc size =>
    rcases mmMalloc_of_fits inv.geometry hok.fits with hrun | ⟨p, heap, hrun, _⟩
    · exact ⟨_, congrArg (Option.map _) hrun⟩
    · exact ⟨_, congrArg (Option.map _) hrun⟩
  | free ptr => exact ⟨_, rfl⟩
  | realloc ptr size =>
    obtain ⟨b, hb, rfl⟩ := List.mem_map.mp hok.1
    obtain ⟨p, heap, hrun, _⟩ := inv.mmRealloc hb hok.2
    exact ⟨_, congrArg (Option.map _) hrun⟩
  | write p byte =>
    obtain ⟨b, hb, hle, hlt⟩ := hok
    have hbounds := inv.bounds hb
    have hmax := inv.geometry.brk_le
    have hcontains : s.heap.Contains p 1 := inv.geometry.contains (by omega) (by omega)
    exact ⟨_, congrArg (Option.map _) (if_pos hcontains)⟩
  | reset => exact ⟨_, rfl⟩

/-- However many calls are made, and in whatever order: if the callers keep to
    the rules, then no header, no copy and no write of theirs is outside the
    area, and the blocks are in their places at the end. -/
theorem calls_defined {area : Area} {mem : Memory} {s : State}
    (h : (system area mem).ReachableUnder WellUsed s) {calls : List Call}
    (hcalls : (system area mem).Keeps WellUsed s calls) :
    ∃ s', (system area mem).run s calls = some s' ∧ Layout s' := by
  obtain ⟨s', hrun, hr⟩ := h.run_of_keeps (fun _ _ hs hok => step_defined hs hok) calls hcalls
  exact ⟨s', hrun, layout hr⟩

/-- The heap is used again after a reset. -/
theorem calls_defined_reset :
    ∃ s', (system lowArea fun _ => 0).run (system lowArea fun _ => 0).init
        [.malloc 24, .write 0x0800001f 9, .realloc 0x08000008 3, .free 0x08000028, .reset,
          .malloc 0] = some s' ∧ Layout s' :=
  calls_defined .init (by decide +kernel)

end MallocLab
