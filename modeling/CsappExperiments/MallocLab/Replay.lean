import CsappExperiments.MallocLab.Checker
import CsappExperiments.MallocLab.Realloc

/-! # Malloc Lab: replaying a trace against mm.c

    The allocator of `mm.c` never reuses a byte. Whether a request succeeds
    depends on nothing but the room that is left, and every block that has
    been handed out stays where it is. `Known` ties the driver's array
    `blocks` to the blocks of `Inv`: the pointers that the driver passes to
    the allocator are ones that it was given.
-/

open ByteMemory

namespace MallocLab

/-! ## Section 1: Requests and room -/

/-- The number of bytes between `mem_brk` and the end of the area. -/
def room (heap : Heap) : Nat := heap.memMaxAddr.toNat - heap.memBrk.toNat

/-- The rounded size is less than 2 ^ 31, or no `int`; if it is less, no
    address that is computed from it is beyond 2 ^ 32. -/
def Affordable (area : Area) (size : Size) : Prop :=
  size.toNat + 15 < 2 ^ 32 ∧
    (extent size.toNat < 2 ^ 31 → area.start.toNat + MAX_HEAP + extent size.toNat < 2 ^ 32)

instance (area : Area) (size : Size) : Decidable (Affordable area size) :=
  inferInstanceAs (Decidable (_ ∧ _))

theorem Affordable.noWrap {area : Area} {heap : Heap} (g : Geometry area heap) {size : Size}
    (h : Affordable area size) :
    NoWrap heap size := by
  have hle := g.brk_le
  have hmax := g.max
  exact ⟨h.1, fun hlt => by have := h.2 hlt; omega⟩

theorem room_le {area : Area} {heap : Heap} (g : Geometry area heap) : room heap ≤ MAX_HEAP := by
  have hmax := g.max
  have hle := g.le_brk
  unfold room
  omega

theorem small_of_room {area : Area} {heap : Heap} (g : Geometry area heap) {size : Size}
    (hroom : extent size.toNat ≤ room heap) : Small heap size := by
  have hmax : heap.memMaxAddr.toNat < 2 ^ 32 := heap.memMaxAddr.isLt
  have hle := g.brk_le
  have hbound := room_le g
  have hext := le_extent size.toNat
  unfold MAX_HEAP at hbound
  unfold room at hroom hbound
  exact ⟨by omega, by omega⟩

/-- Where there is room, the request succeeds. -/
theorem mmMalloc_of_room {area : Area} {heap : Heap} (g : Geometry area heap) {size : Size}
    (hroom : extent size.toNat ≤ room heap) :
    ∃ p heap', mmMalloc heap size = some (p, heap') ∧ Carved heap size p heap' := by
  rcases mmMalloc_of_fits g (small_of_room g hroom).fits with hnull | hcarved
  · -- there is room, so `mem_sbrk` does not refuse, and no block is at NULL
    exfalso
    have hsmall := small_of_room g hroom
    have hle := g.brk_le
    have hnew : (align (size + SIZE_T_SIZE)).toNat = extent size.toNat := by
      rw [toNat_newsize, Nat.mod_eq_of_lt (by have := hsmall.1; omega)]
      rfl
    have hsum : (heap.memBrk + align (size + SIZE_T_SIZE)).toNat =
        heap.memBrk.toNat + extent size.toNat := by
      rw [← hnew]
      exact BitVec.toNat_add_of_lt (hnew ▸ hsmall.2)
    have hok : ¬ Refused heap size := by
      have hbound := room_le g
      unfold MAX_HEAP at hbound
      unfold Refused room at *
      rw [toInt_neg_iff, hnew, gt_iff_lt, BitVec.lt_def, hsum]
      omega
    rw [mmMalloc_of_not_refused g hok] at hnull
    obtain ⟨_, _, heq⟩ := Option.map_eq_some_iff.mp hnull
    have hlt := heap.memMaxAddr.isLt
    have hext := le_extent size.toNat
    unfold room at hroom
    exact ne_null_of_toNat (toNat_payload (by omega)) (congrArg Prod.fst heq)
  · exact hcarved

/-- Where there is none, it is refused. -/
theorem mmMalloc_of_no_room {area : Area} {heap : Heap} (g : Geometry area heap) {size : Size}
    (h : Affordable area size) (hroom : room heap < extent size.toNat) :
    mmMalloc heap size = some (NULL, heap) := by
  rcases mmMalloc_cases g (h.noWrap g) with hnull | ⟨p, heap', _, c⟩
  · exact hnull
  · have hbrk := c.brk
    have hfits := c.room
    unfold room at hroom
    omega

theorem Carved.room_eq {heap heap' : Heap} {size : Size} {p : Addr} (c : Carved heap size p heap') :
    MallocLab.room heap' = MallocLab.room heap - extent size.toNat := by
  have hbrk := c.brk
  unfold MallocLab.room
  rw [c.max, hbrk]
  omega

/-- `mm_realloc` where there is room: the new block is there, it is above all
    others, and what it keeps of the old one has been copied. -/
theorem Inv.realloc_of_room {area : Area} {s : State} (inv : Inv area s) {b : Block}
    (hb : b ∈ s.blocks) {size : Size} (hroom : extent size.toNat ≤ room s.heap) :
    ∃ p heap, MallocLab.mmRealloc s.heap b.ptr size = some (p, heap) ∧ p ≠ NULL ∧
      s.heap.memBrk.toNat ≤ p.toNat ∧
      room heap = room s.heap - extent size.toNat ∧
        Inv area { heap := heap, blocks := ⟨p, size⟩ :: s.blocks } ∧
      Preserves s b size p heap := by
  obtain ⟨p, heap, hmalloc, c⟩ := mmMalloc_of_room inv.geometry hroom
  have hload := (inv.carve c).loadSize (List.mem_cons_of_mem _ hb)
  have hptr := c.ptr
  refine ⟨p, _, mmRealloc_of_carved hmalloc c.ptr_ne hload (inv.memcpy hb c), c.ptr_ne, by omega,
    c.room_eq, ?_, inv.preserves hb c⟩
  refine (inv.carve c).write (b := ⟨p, size⟩) List.mem_cons_self ?_
  rw [length_read]
  exact Set.Ico_subset_Ico_right (Nat.add_le_add_left (Nat.min_le_right _ _) _)

/-! ## Section 2: The requests of a trace -/

/-- The room that a request takes. -/
def TraceOp.extent : TraceOp → Nat
  | .alloc _ size => MallocLab.extent size.toNat
  | .realloc _ size => MallocLab.extent size.toNat
  | .free _ => 0

/-- All the room that the requests take. -/
def totalExtent (ops : List TraceOp) : Nat := (ops.map TraceOp.extent).sum

def TraceOp.Affordable (area : Area) : TraceOp → Prop
  | .alloc _ size => MallocLab.Affordable area size
  | .realloc _ size => MallocLab.Affordable area size
  | .free _ => True

instance (area : Area) (op : TraceOp) : Decidable (op.Affordable area) :=
  match op with
  | .alloc _ _ => inferInstanceAs (Decidable (MallocLab.Affordable area _))
  | .realloc _ _ => inferInstanceAs (Decidable (MallocLab.Affordable area _))
  | .free _ => isTrue trivial

/-- A proper trace whose requests do not wrap around. -/
structure Clean (area : Area) (trace : Trace) : Prop where
  proper : Proper trace.numIds.toNat [] trace.ops
  affordable : ∀ op ∈ trace.ops, op.Affordable area

instance (area : Area) (trace : Trace) : Decidable (Clean area trace) :=
  decidable_of_iff (Proper trace.numIds.toNat [] trace.ops ∧ ∀ op ∈ trace.ops, op.Affordable area)
    ⟨fun h => ⟨h.1, h.2⟩, fun h => ⟨h.1, h.2⟩⟩

theorem naive_mmMalloc {heap heap' : Heap} {size : Size} {p : Addr}
    (h : mmMalloc heap size = some (p, heap')) (data : Unit) :
    naive.mmMalloc heap data size = some (p, heap', data) := congrArg (Option.map _) h

theorem naive_mmRealloc {heap heap' : Heap} {ptr p : Addr} {size : Size}
    (h : mmRealloc heap ptr size = some (p, heap')) (data : Unit) :
    naive.mmRealloc heap data ptr size = some (p, heap', data) := congrArg (Option.map _) h

/-! ## Section 3: What the driver knows -/

/-- The entries of `blocks` for the allocated blocks are pointers that have
    been handed out, with these sizes. -/
structure Known (area : Area) (numIds : Nat) (live : Live) (s : State)
    (d : Driver Unit) : Prop where
  heap : s.heap = d.heap
  inv : Inv area s
  ids : (live.map Prod.fst).Nodup
  bounds : ∀ e ∈ live, e.1.toNat < numIds
  in_blocks : d.blocks.length = numIds
  entries : ∀ e ∈ live, ∃ p, loadAt d.blocks e.1 = some p ∧ ⟨p, e.2⟩ ∈ s.blocks

section Knowledge

variable {area : Area} {numIds : Nat} {live : Live} {s : State} {d d' : Driver Unit}

theorem Known.geometry (k : Known area numIds live s d) : Geometry area d.heap :=
  k.heap ▸ k.inv.geometry

/-- The entry of an id. -/
theorem Known.entry (k : Known area numIds live s d) {index : BitVec 32}
    (h : index ∈ live.map Prod.fst) :
    ∃ p size, (index, size) ∈ live ∧ loadAt d.blocks index = some p ∧ ⟨p, size⟩ ∈ s.blocks := by
  obtain ⟨⟨_, size⟩, he, rfl⟩ := List.mem_map.mp h
  obtain ⟨p, hblock, hmem⟩ := k.entries _ he
  exact ⟨p, size, he, hblock, hmem⟩

/-- A new block is remembered. -/
theorem Known.push (k : Known area numIds live s d) {index size : BitVec 32} {p : Addr}
    (hnew : index ∉ live.map Prod.fst) (hindex : index.toNat < numIds)
    (inv : Inv area { heap := d'.heap, blocks := ⟨p, size⟩ :: s.blocks })
    (hblocks : d'.blocks = d.blocks.set index.toNat (some p)) :
    Known area numIds ((index, size) :: live)
      { heap := d'.heap, blocks := ⟨p, size⟩ :: s.blocks } d' where
  heap := rfl
  inv := inv
  ids := List.nodup_cons.mpr ⟨hnew, k.ids⟩
  bounds := List.forall_mem_cons.mpr ⟨hindex, k.bounds⟩
  in_blocks := by
    rw [hblocks]
    exact List.length_set.trans k.in_blocks
  entries := by
    rw [hblocks]
    refine List.forall_mem_cons.mpr
      ⟨⟨p, loadAt_set_self (k.in_blocks ▸ hindex) p, List.mem_cons_self⟩, ?_⟩
    intro e he
    obtain ⟨q, hblock, hmem⟩ := k.entries e he
    have hne : e.1 ≠ index := fun heq => hnew (List.mem_map.mpr ⟨e, he, heq⟩)
    exact ⟨q, (loadAt_set_ne _ hne p).trans hblock, List.mem_cons_of_mem _ hmem⟩

/-- A block is forgotten. -/
theorem Known.erase (k : Known area numIds live s d) (index : BitVec 32) (hheap : d'.heap = d.heap)
    (hblocks : d'.blocks = d.blocks) : Known area numIds (live.eraseP (·.1 == index)) s d' where
  heap := k.heap.trans hheap.symm
  inv := k.inv
  ids := nodup_erase k.ids index
  bounds e he := k.bounds e (List.mem_of_mem_eraseP he)
  in_blocks := (congrArg List.length hblocks).trans k.in_blocks
  entries e he := by
    rw [hblocks]
    exact k.entries e (List.mem_of_mem_eraseP he)

/-- No block has been handed out. -/
theorem known_reset (g : Geometry area d.heap) (hheap : d'.heap = memResetBrk d.heap)
    (hblocks : d'.blocks.length = numIds) :
    Known area numIds [] { heap := memResetBrk d.heap, blocks := [] } d' where
  heap := hheap.symm
  inv := ⟨g.reset, g.reset.le_brk, List.forall_mem_nil _, List.forall_mem_nil _⟩
  ids := List.nodup_nil
  bounds := List.forall_mem_nil _
  in_blocks := hblocks
  entries := List.forall_mem_nil _

/-- A new block from `mm_malloc`. -/
structure Fresh (area : Area) (s : State) (size : Size) (p : Addr) (heap : Heap) : Prop where
  ne : p ≠ NULL
  above : s.heap.memBrk.toNat ≤ p.toNat
  inv : Inv area { heap := heap, blocks := ⟨p, size⟩ :: s.blocks }
  room : room heap = room s.heap - extent size.toNat
  same : ∀ b ∈ s.blocks, Set.EqOn heap.mem s.heap.mem b.payload

theorem Known.mmMalloc (k : Known area numIds live s d) {size : Size}
    (hroom : extent size.toNat ≤ room d.heap) :
    ∃ p heap, naive.mmMalloc d.heap d.data size = some (p, heap, d.data) ∧
      Fresh area s size p heap := by
  rw [← k.heap] at hroom ⊢
  obtain ⟨p, heap, hmalloc, c⟩ := mmMalloc_of_room k.inv.geometry hroom
  have hptr := c.ptr
  refine ⟨p, heap, naive_mmMalloc hmalloc d.data, c.ptr_ne, by omega, k.inv.carve c,
    c.room_eq, fun b hb => ?_⟩
  exact c.eqOn.mono ((Set.subset_union_right.trans (k.inv.subset hb)).trans Set.Ico_subset_Iio_self)

/-- A new block from `mm_realloc`, with what it keeps of the old one. -/
theorem Known.mmRealloc (k : Known area numIds live s d) {b : Block} (hb : b ∈ s.blocks)
    {size : Size} (hroom : extent size.toNat ≤ room d.heap) :
    ∃ p heap, naive.mmRealloc d.heap d.data b.ptr size = some (p, heap, d.data) ∧
      Fresh area s size p heap ∧
      read heap.mem p.toNat (min b.size.toNat size.toNat) =
        read d.heap.mem b.ptr.toNat (min b.size.toNat size.toNat) := by
  rw [← k.heap] at hroom ⊢
  obtain ⟨p, heap, hrun, hne, habove, hleft, inv, hpres⟩ := k.inv.realloc_of_room hb hroom
  unfold Preserves at hpres
  rw [if_neg hne] at hpres
  obtain ⟨hcopied, _, hframe⟩ := hpres
  exact ⟨p, heap, naive_mmRealloc hrun d.data,
    ⟨hne, habove, inv, hleft, fun c hc => (hframe c hc).mono Set.subset_union_right⟩, hcopied⟩

end Knowledge

theorem room_reset {area : Area} {heap : Heap} (g : Geometry area heap) :
    room (memResetBrk heap) = MAX_HEAP := by
  have hstart : heap.memStartBrk.toNat = area.start.toNat := congrArg BitVec.toNat g.start
  have hmax := g.max
  show heap.memMaxAddr.toNat - heap.memStartBrk.toNat = MAX_HEAP
  omega

end MallocLab
