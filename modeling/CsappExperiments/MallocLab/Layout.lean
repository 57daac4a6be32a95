import CsappExperiments.MallocLab.Requests

/-! # Malloc Lab: the layout of the heap

    Every block that has been handed out occupies its own part of the heap:
    the blocks lie one above the other between the start of the heap and
    `mem_brk` (`Stacked`), header below payload, and callers that write inside
    payloads only never touch a header.

    `layout` says this of every state of every run in which callers keep to
    the rules of `WellUsed`.
-/

open ByteMemory LTS

namespace MallocLab

/-! ## Section 1: Well-behaved callers -/

def Block.header (b : Block) : Set Nat := Set.Ico (b.ptr.toNat - 8) b.ptr.toNat

def Block.payload (b : Block) : Set Nat := Set.Ico b.ptr.toNat (b.ptr.toNat + b.size.toNat)

/-- A size of at most 2 ^ 31 - 16, and no address beyond 2 ^ 32. -/
def Small (heap : Heap) (size : Size) : Prop :=
  size.toNat ≤ 2 ^ 31 - 16 ∧ heap.memBrk.toNat + extent size.toNat < 2 ^ 32

/-- Callers pass pointers that they were given, and write inside payloads. -/
def WellUsed (s : State) : Call → Prop
  | .malloc size => Small s.heap size
  | .free ptr => ptr ∈ s.blocks.map Block.ptr
  | .realloc ptr size => ptr ∈ s.blocks.map Block.ptr ∧ Small s.heap size
  | .write p _ => ∃ b ∈ s.blocks, p.toNat ∈ b.payload
  | .reset => True

theorem Small.fits {heap : Heap} {size : Size} (h : Small heap size) : Fits heap size := by
  obtain ⟨hsize, hbrk⟩ := h
  exact .inl ⟨by omega, fun _ => hbrk⟩

/-- Where the blocks are, and what their headers hold. -/
structure Layout (s : State) : Prop where
  aligned : ∀ b ∈ s.blocks, 8 ∣ b.ptr.toNat
  disjoint : (s.blocks.flatMap fun b => [b.payload, b.header]).Pairwise Disjoint
  inside : ∀ b ∈ s.blocks, 8 ≤ b.ptr.toNat ∧
    b.header ∪ b.payload ⊆ Set.Ico s.heap.memStartBrk.toNat s.heap.memBrk.toNat
  sizes : ∀ b ∈ s.blocks, loadSize s.heap (b.ptr - SIZE_T_SIZE) = some b.size
  brk_le : s.heap.memBrk.toNat ≤ s.heap.memMaxAddr.toNat

/-! ## Section 2: The invariant -/

/-- The payloads and headers of the blocks, from the top. -/
def regions (blocks : List Block) : List (Set Nat) := blocks.flatMap fun b => [b.payload, b.header]

structure Inv (area : Area) (s : State) : Prop where
  geometry : Geometry area s.heap
  stacked : Stacked area.start.toNat s.heap.memBrk.toNat (regions s.blocks)
  aligned : ∀ b ∈ s.blocks, 8 ∣ b.ptr.toNat ∧ 8 ≤ b.ptr.toNat
  headers : ∀ b ∈ s.blocks, read s.heap.mem (b.ptr.toNat - 8) 4 = leBytes 4 b.size.toNat

theorem mem_regions {blocks : List Block} {b : Block} (hb : b ∈ blocks) :
    b.payload ∈ regions blocks ∧ b.header ∈ regions blocks :=
  ⟨List.mem_flatMap.mpr ⟨b, hb, by simp⟩, List.mem_flatMap.mpr ⟨b, hb, by simp⟩⟩

/-- Blocks lie below `mem_brk`. -/
theorem Inv.subset {area : Area} {s : State} (inv : Inv area s) {b : Block} (hb : b ∈ s.blocks) :
    b.header ∪ b.payload ⊆ Set.Ico area.start.toNat s.heap.memBrk.toNat :=
  Set.union_subset (inv.stacked.subset _ (mem_regions hb).2)
    (inv.stacked.subset _ (mem_regions hb).1)

/-- No payload overlaps a header, whosever it is. -/
theorem Inv.payload_header {area : Area} {s : State} (inv : Inv area s) {b c : Block}
    (hb : b ∈ s.blocks) (hc : c ∈ s.blocks) : Disjoint b.payload c.header := by
  have hheader : c.header ∈ [c.payload, c.header] := List.mem_cons_of_mem _ List.mem_cons_self
  by_cases heq : b = c
  · subst heq
    have hown := (List.pairwise_flatMap.mp inv.stacked.pairwise).1 b hb
    exact (List.pairwise_cons.mp hown).1 _ List.mem_cons_self
  · exact disjoint_of_ne inv.stacked.pairwise hb hc heq List.mem_cons_self hheader

/-- The size is stored at the start of the header. -/
theorem Inv.size_subset {area : Area} {s : State} (inv : Inv area s) {b : Block}
    (hb : b ∈ s.blocks) :
    Set.Ico (b.ptr.toNat - 8) (b.ptr.toNat - 8 + 4) ⊆ b.header := by
  have height := (inv.aligned b hb).2
  exact Set.Ico_subset_Ico_right (by omega)

/-! ## Section 3: What the steps preserve -/

/-- A write inside a payload. -/
theorem Inv.write {area : Area} {s : State} (inv : Inv area s) {b : Block} (hb : b ∈ s.blocks)
    {a : Nat} {bytes : List Byte} (hin : Set.Ico a (a + bytes.length) ⊆ b.payload) :
    Inv area { s with heap := { s.heap with mem := ByteMemory.write s.heap.mem a bytes } } where
  geometry := inv.geometry.withMem _
  stacked := inv.stacked
  aligned := inv.aligned
  headers := by
    intro c hc
    have hdisjoint := ((inv.payload_header hb hc).mono hin (inv.size_subset hc)).symm
    rw [← inv.headers c hc]
    exact read_eq_iff.mpr (eqOn_write_of_disjoint _ hdisjoint)

/-- A new block changes nothing below the old `mem_brk`. -/
theorem Carved.eqOn {heap heap' : Heap} {size : Size} {p : Addr} (c : Carved heap size p heap') :
    Set.EqOn heap'.mem heap.mem (Set.Iio heap.memBrk.toNat) := by
  rw [c.mem]
  exact eqOn_write_below _ (Nat.le_refl _) _

theorem Inv.carve {area : Area} {s : State} (inv : Inv area s) {size : Size} {p : Addr}
    {heap : Heap} (c : Carved s.heap size p heap) :
    Inv area { heap := heap, blocks := ⟨p, size⟩ :: s.blocks } where
  geometry := c.geometry inv.geometry
  stacked := by
    have hptr := c.ptr
    have hbrk := c.brk
    have hext := le_extent size.toNat
    -- the header goes on top of the old blocks, the payload on top of the header
    have hheader : Stacked area.start.toNat p.toNat (Block.header ⟨p, size⟩ :: regions s.blocks) :=
      inv.stacked.push (by omega)
        (Set.Ico_subset_Ico_left (show s.heap.memBrk.toNat ≤ p.toNat - 8 by omega))
    exact hheader.push (show p.toNat ≤ heap.memBrk.toNat by omega)
      (Set.Ico_subset_Ico_right (show p.toNat + size.toNat ≤ heap.memBrk.toNat by omega))
  aligned := by
    intro b hb
    have hptr := c.ptr
    have haligned := inv.geometry.aligned
    rcases List.mem_cons.mp hb with rfl | hb
    · show 8 ∣ p.toNat ∧ 8 ≤ p.toNat
      omega
    · exact inv.aligned b hb
  headers := by
    intro b hb
    have hptr := c.ptr
    have hlen := length_leBytes 4 size.toNat
    rcases List.mem_cons.mp hb with rfl | hb
    · have hread := read_write s.heap.mem s.heap.memBrk.toNat (leBytes 4 size.toNat)
      show read heap.mem (p.toNat - 8) 4 = leBytes 4 size.toNat
      rwa [hlen, ← c.mem, ← Nat.add_sub_cancel s.heap.memBrk.toNat 8, ← hptr] at hread
    · -- an old header lies below the new one
      have hbelow := (inv.size_subset hb).trans (Set.subset_union_left.trans (inv.subset hb))
      rw [← inv.headers b hb]
      exact read_eq_iff.mpr (c.eqOn.mono (hbelow.trans Set.Ico_subset_Iio_self))

theorem returned_of_ne (s : State) (size : Size) {p : Addr} (h : p ≠ NULL) (heap : Heap) :
    s.returned size p heap = { heap := heap, blocks := ⟨p, size⟩ :: s.blocks } := by
  unfold State.returned
  rw [if_neg h]

theorem Inv.malloc {area : Area} {s : State} (inv : Inv area s) {size : Size}
    (hsmall : Small s.heap size) {p : Addr} {heap : Heap}
    (h : mmMalloc s.heap size = some (p, heap)) : Inv area (s.returned size p heap) := by
  rcases mmMalloc_outcome inv.geometry hsmall.fits h with ⟨rfl, rfl⟩ | c
  · exact inv
  · rw [returned_of_ne s size c.ptr_ne]
    exact inv.carve c

/-- What is copied is no more than fits into the new block. -/
theorem copySize_le (size copySize : Size) :
    (if size < copySize then size else copySize).toNat ≤ size.toNat := by
  split
  · exact Nat.le_refl _
  · next h => exact BitVec.not_lt.mp h

theorem Inv.realloc {area : Area} {s : State} (inv : Inv area s) {size : Size}
    (hsmall : Small s.heap size) {ptr p : Addr} {heap : Heap}
    (h : mmRealloc s.heap ptr size = some (p, heap)) : Inv area (s.returned size p heap) := by
  rcases mmRealloc_cases h with ⟨rfl, hrun⟩ | ⟨heap₁, copySize, hne, hrun, _, hcopy⟩
  · exact inv.malloc hsmall hrun
  · have hnew := inv.malloc hsmall hrun
    rw [returned_of_ne s size hne] at hnew ⊢
    rw [memcpy_eq hcopy]
    have hle := copySize_le size copySize
    refine hnew.write (b := ⟨p, size⟩) List.mem_cons_self ?_
    rw [length_read]
    exact Set.Ico_subset_Ico_right (Nat.add_le_add_left hle _)

theorem Inv.step {area : Area} {s s' : State} (inv : Inv area s) {c : Call} (hok : WellUsed s c)
    (h : MallocLab.step s c = some s') : Inv area s' := by
  cases c with
  | malloc size =>
    obtain ⟨⟨p, heap⟩, hrun, rfl⟩ := Option.map_eq_some_iff.mp h
    exact inv.malloc hok hrun
  | free ptr =>
    cases h
    exact inv
  | realloc ptr size =>
    obtain ⟨⟨p, heap⟩, hrun, rfl⟩ := Option.map_eq_some_iff.mp h
    exact inv.realloc hok.2 hrun
  | write p byte =>
    obtain ⟨heap, hrun, rfl⟩ := Option.map_eq_some_iff.mp h
    obtain ⟨b, hb, hin⟩ := hok
    rw [storeByte_eq hrun]
    -- a write of one byte inside a payload
    apply inv.write hb
    rintro x ⟨hle, hlt⟩
    obtain rfl : x = p.toNat := by
      change x < p.toNat + 1 at hlt
      omega
    exact hin
  | reset =>
    cases h
    exact ⟨inv.geometry.reset, inv.geometry.reset.le_brk, fun b hb => absurd hb List.not_mem_nil,
      fun b hb => absurd hb List.not_mem_nil⟩

theorem inv_of_reachable {area : Area} {mem : Memory} {s : State}
    (h : (system area mem).ReachableUnder WellUsed s) :
    Inv area s := by
  apply h.invariant (P := Inv area)
  · exact ⟨geometry_memInit area mem, Nat.le_refl _, fun b hb => absurd hb List.not_mem_nil,
      fun b hb => absurd hb List.not_mem_nil⟩
  · intro s c s' _ inv hok hstep
    exact inv.step hok hstep

/-! ## Section 4: The layout -/

theorem Inv.bounds {area : Area} {s : State} (inv : Inv area s) {b : Block} (hb : b ∈ s.blocks) :
    area.start.toNat + 8 ≤ b.ptr.toNat ∧ b.ptr.toNat + b.size.toNat ≤ s.heap.memBrk.toNat := by
  have height := (inv.aligned b hb).2
  obtain ⟨hlo, hhi⟩ :=
    (Set.Ico_subset_Ico_iff (by omega)).mp (inv.stacked.subset _ (mem_regions hb).2)
  refine ⟨by omega, ?_⟩
  by_cases hsize : b.size.toNat = 0
  · omega
  · exact ((Set.Ico_subset_Ico_iff (by omega)).mp (inv.stacked.subset _ (mem_regions hb).1)).2

theorem toNat_header {ptr : Addr} (h : 8 ≤ ptr.toNat) :
    (ptr - SIZE_T_SIZE).toNat = ptr.toNat - 8 := by
  have hlt : ptr.toNat < 2 ^ 32 := ptr.isLt
  have height : SIZE_T_SIZE.toNat = 8 := by decide
  rw [BitVec.toNat_sub, height]
  omega

/-- A header is read as the size that was stored. -/
theorem Inv.loadSize {area : Area} {s : State} (inv : Inv area s) {b : Block} (hb : b ∈ s.blocks) :
    MallocLab.loadSize s.heap (b.ptr - SIZE_T_SIZE) = some b.size := by
  have height := (inv.aligned b hb).2
  obtain ⟨hlo, hhi⟩ := inv.bounds hb
  have hbrk := inv.geometry.brk_le
  have hcontains : s.heap.Contains (b.ptr - SIZE_T_SIZE) 4 := by
    apply inv.geometry.contains
    · rw [toNat_header height]
      omega
    · rw [toNat_header height]
      omega
  have hfits : b.size.toNat < 256 ^ 4 := b.size.isLt
  unfold MallocLab.loadSize
  rw [if_pos hcontains, toNat_header height, inv.headers b hb, ofLeBytes_leBytes,
    Nat.mod_eq_of_lt hfits,
    BitVec.ofNat_toNat, BitVec.setWidth_eq]

/-- Callers that keep to the rules find the blocks that they were given: in
    their places, apart from each other, and with the sizes that they asked
    for. -/
theorem layout {area : Area} {mem : Memory} {s : State}
    (h : (system area mem).ReachableUnder WellUsed s) : Layout s := by
  have inv := inv_of_reachable h
  refine ⟨fun b hb => (inv.aligned b hb).1, inv.stacked.pairwise, ?_, fun b hb => inv.loadSize hb,
    inv.geometry.brk_le⟩
  intro b hb
  refine ⟨(inv.aligned b hb).2, ?_⟩
  rw [inv.geometry.start]
  exact inv.subset hb

instance (b : Block) (x : Nat) : Decidable (x ∈ b.payload) := inferInstanceAs (Decidable (_ ∧ _))

instance (heap : Heap) (size : Size) : Decidable (Small heap size) :=
  inferInstanceAs (Decidable (_ ∧ _))

instance (s : State) (c : Call) : Decidable (WellUsed s c) :=
  match c with
  | .malloc size => inferInstanceAs (Decidable (Small s.heap size))
  | .free ptr => inferInstanceAs (Decidable (ptr ∈ s.blocks.map Block.ptr))
  | .realloc ptr size =>
    inferInstanceAs (Decidable (ptr ∈ s.blocks.map Block.ptr ∧ Small s.heap size))
  | .write p _ => inferInstanceAs (Decidable (∃ b ∈ s.blocks, p.toNat ∈ b.payload))
  | .reset => isTrue trivial

/-- A block is written to, grown and freed. -/
theorem layout_after_grow :
    ∃ s : State, (system lowArea fun _ => 0).runUnder WellUsed (system lowArea fun _ => 0).init
        [.malloc 5, .malloc 0, .write 0x0800000c 7, .realloc 0x08000008 12, .free 0x08000008] =
          some s ∧
      s.blocks.length = 3 ∧ Layout s := by
  have hrun : ((system lowArea fun _ => 0).runUnder WellUsed (system lowArea fun _ => 0).init
      [.malloc 5, .malloc 0, .write 0x0800000c 7, .realloc 0x08000008 12, .free 0x08000008]).any
        (fun s : State => decide (s.blocks.length = 3)) = true := by
    decide +kernel
  obtain ⟨s, hs, hp⟩ := (Option.any_eq_true _ _).mp hrun
  exact ⟨s, hs, of_decide_eq_true hp, layout (System.ReachableUnder.init.run _ hs)⟩

end MallocLab
