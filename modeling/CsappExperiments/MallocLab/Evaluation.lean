import CsappExperiments.MallocLab.Verdict

/-! # Malloc Lab: the evaluation of mm.c

    `eval_mm_util` keeps the number of allocated bytes in an `int`, and
    remembers its maximum: for every package this is the largest sum of the
    sizes of the blocks that are allocated at one time (`peak`).

    A trace that `eval_mm_valid` has accepted on `mm.c` is replayed without
    failure by `eval_mm_util` and `eval_mm_speed`, so that the results of
    `main` are those of the traces, each taken by itself.
-/

open ByteMemory

namespace MallocLab

/-! ## Section 1: The peak -/

/-- The number of allocated bytes. -/
def liveBytes (live : Live) : Nat := (live.map fun e => e.2.toNat).sum

/-- The largest number of bytes that are allocated at one time. -/
def peak : Live → List TraceOp → Nat
  | live, [] => liveBytes live
  | live, op :: ops => max (liveBytes live) (peak (op.after live) ops)

theorem liveBytes_le_peak (live : Live) (ops : List TraceOp) : liveBytes live ≤ peak live ops := by
  cases ops with
  | nil => exact Nat.le_refl _
  | cons op ops => exact Nat.le_max_left _ _

theorem liveBytes_cons (e : BitVec 32 × Size) (live : Live) :
    liveBytes (e :: live) = e.2.toNat + liveBytes live := by
  simp [liveBytes]

theorem liveBytes_erase {live : Live} {index : BitVec 32} {size : Size}
    (hids : (live.map Prod.fst).Nodup) (h : (index, size) ∈ live) :
    liveBytes live = liveBytes (live.eraseP (·.1 == index)) + size.toNat := by
  induction live with
  | nil => exact absurd h List.not_mem_nil
  | cons e live ih =>
    obtain ⟨hnot, hrest⟩ := List.nodup_cons.mp hids
    rw [List.eraseP_cons]
    rcases List.mem_cons.mp h with rfl | hmem
    · simp [liveBytes_cons, Nat.add_comm]
    · have hne : e.1 ≠ index := fun heq => hnot (heq ▸ List.mem_map.mpr ⟨_, hmem, rfl⟩)
      have hfalse : (e.1 == index) = false := beq_eq_false_iff_ne.mpr hne
      rw [hfalse, Bool.cond_false, liveBytes_cons, liveBytes_cons, ih hrest hmem]
      omega

theorem exists_entry {live : Live} {index : BitVec 32} (h : index ∈ live.map Prod.fst) :
    ∃ size, (index, size) ∈ live := by
  obtain ⟨⟨_, size⟩, he, rfl⟩ := List.mem_map.mp h
  exact ⟨size, he⟩

/-- The blocks take more room than they have bytes. -/
theorem liveBytes_after_le {numIds : Nat} {live : Live} {op : TraceOp}
    (hids : (live.map Prod.fst).Nodup) (hlegit : op.Legit numIds live) :
    liveBytes (op.after live) ≤ liveBytes live + op.extent := by
  cases op with
  | alloc index size =>
    have hext := le_extent size.toNat
    simp only [TraceOp.after, liveBytes_cons, TraceOp.extent]
    omega
  | free index =>
    obtain ⟨n, he⟩ := exists_entry hlegit
    have hsum := liveBytes_erase hids he
    simp only [TraceOp.after, TraceOp.extent]
    omega
  | realloc index size =>
    obtain ⟨n, he⟩ := exists_entry hlegit.1
    have hsum := liveBytes_erase hids he
    have hext := le_extent size.toNat
    simp only [TraceOp.after, liveBytes_cons, TraceOp.extent]
    omega

theorem peak_le {numIds : Nat} {ops : List TraceOp} : ∀ {live : Live}, (live.map Prod.fst).Nodup →
    Proper numIds live ops → peak live ops ≤ liveBytes live + totalExtent ops := by
  induction ops with
  | nil => exact fun _ _ => Nat.le_add_right _ _
  | cons op ops ih =>
    intro live hids hproper
    have hthis := liveBytes_after_le hids hproper.1
    have hrest := ih (hproper.1.nodup hids) hproper.2
    have htotal : totalExtent (op :: ops) = op.extent + totalExtent ops := by simp [totalExtent]
    rw [peak]
    omega

/-! ## Section 2: What eval_mm_util counts -/

/-- The total is the number of allocated bytes, and not above the maximum. -/
structure Counted {σ : Type} (live : Live) (d : Driver σ) (t : Totals) : Prop where
  ids : (live.map Prod.fst).Nodup
  sizes : ∀ e ∈ live, loadAt d.blockSizes e.1 = some e.2
  total : t.total.toNat = liveBytes live
  le_max : liveBytes live ≤ t.max.toNat
  max_lt : t.max.toNat < 2 ^ 31

/-- An update of the statistics. -/
theorem add_max {t : Totals} {n : BitVec 32} (hmax : t.max.toNat < 2 ^ 31)
    (hsum : (t.total + n).toNat < 2 ^ 31) :
    (t.add n).max.toNat = max t.max.toNat (t.total + n).toNat := by
  have hm : t.max.toInt = t.max.toNat := by
    rw [BitVec.toInt_eq_toNat_cond]
    split <;> omega
  have hs : (t.total + n).toInt = (t.total + n).toNat := by
    rw [BitVec.toInt_eq_toNat_cond]
    split <;> omega
  unfold Totals.add
  dsimp only
  split <;> omega

section AnyPackage

variable {σ : Type} {pkg : Package σ} {numIds : Nat} {live : Live} {d d' : Driver σ} {t t' : Totals}

/-- The requests, as far as sizes are concerned. -/
theorem utilOp_alloc {index size : BitVec 32}
    (h : utilOp pkg d t (.alloc index size) = .ok (d', t')) :
    index.toNat < d.blockSizes.length ∧ d'.blockSizes = d.blockSizes.set index.toNat (some size) ∧
      t' = t.add size := by
  simp only [utilOp, bind_eq_ok, defined_eq_ok] at h
  obtain ⟨⟨p, heap, data⟩, _, h⟩ := h
  split at h
  · cases h
  · simp only [bind_eq_ok, defined_eq_ok, storeAt_eq_some_iff] at h
    obtain ⟨_, _, _, ⟨hlt, rfl⟩, h⟩ := h
    cases h
    exact ⟨hlt, rfl, rfl⟩

theorem utilOp_realloc {index size : BitVec 32}
    (h : utilOp pkg d t (.realloc index size) = .ok (d', t')) :
    ∃ oldsize, loadAt d.blockSizes index = some oldsize ∧ index.toNat < d.blockSizes.length ∧
      d'.blockSizes = d.blockSizes.set index.toNat (some size) ∧ t' = t.add (size - oldsize) := by
  simp only [utilOp, bind_eq_ok, defined_eq_ok] at h
  obtain ⟨oldsize, hold, oldp, _, ⟨p, heap, data⟩, _, h⟩ := h
  split at h
  · cases h
  · simp only [bind_eq_ok, defined_eq_ok, storeAt_eq_some_iff] at h
    obtain ⟨_, _, _, ⟨hlt, rfl⟩, h⟩ := h
    cases h
    exact ⟨oldsize, hold, hlt, rfl, rfl⟩

theorem utilOp_free {index : BitVec 32} (h : utilOp pkg d t (.free index) = .ok (d', t')) :
    ∃ size, loadAt d.blockSizes index = some size ∧ d'.blockSizes = d.blockSizes ∧
      t' = { t with total := t.total - size } := by
  simp only [utilOp, bind_eq_ok, defined_eq_ok] at h
  obtain ⟨size, hsize, p, _, ⟨heap, data⟩, _, h⟩ := h
  cases h
  exact ⟨size, hsize, rfl, rfl⟩

/-- A size is assigned. -/
theorem sizes_set {sizes : List (Option Size)} {live : Live} {index size : BitVec 32}
    (hlt : index.toNat < sizes.length) (hnew : index ∉ live.map Prod.fst)
    (hsizes : ∀ e ∈ live, loadAt sizes e.1 = some e.2) :
    ∀ e ∈ (index, size) :: live, loadAt (sizes.set index.toNat (some size)) e.1 = some e.2 := by
  refine List.forall_mem_cons.mpr ⟨loadAt_set_self hlt size, fun e he => ?_⟩
  have hne : e.1 ≠ index := fun heq => hnew (List.mem_map.mpr ⟨e, he, heq⟩)
  exact (loadAt_set_ne _ hne size).trans (hsizes e he)

/-- One request. -/
theorem Counted.utilOp (c : Counted live d t) {op : TraceOp} (hlegit : op.Legit numIds live)
    (hbound : liveBytes (op.after live) < 2 ^ 31) (h : utilOp pkg d t op = .ok (d', t')) :
    Counted (op.after live) d' t' ∧ t'.max.toNat = max t.max.toNat (liveBytes (op.after live)) := by
  have hids := hlegit.nodup c.ids
  have hle := c.le_max
  have hmax := c.max_lt
  have htotal := c.total
  cases op with
  | alloc index size =>
    obtain ⟨hlt, hsizes, rfl⟩ := utilOp_alloc h
    have hbytes : liveBytes ((TraceOp.alloc index size).after live) = size.toNat + liveBytes live :=
      liveBytes_cons _ _
    have hsum : (t.total + size).toNat = liveBytes ((TraceOp.alloc index size).after live) := by
      rw [BitVec.toNat_add]
      omega
    have hadd := add_max hmax (by omega : (t.total + size).toNat < 2 ^ 31)
    rw [hsum] at hadd
    refine ⟨⟨hids, ?_, hsum, hadd ▸ Nat.le_max_right _ _, ?_⟩, hadd⟩
    · rw [hsizes]
      exact sizes_set hlt hlegit.2.1 c.sizes
    · rw [hadd]
      exact Nat.max_lt.mpr ⟨hmax, hbound⟩
  | realloc index size =>
    obtain ⟨oldsize, hold, hlt, hsizes, rfl⟩ := utilOp_realloc h
    obtain ⟨n, he⟩ := exists_entry hlegit.1
    obtain rfl : oldsize = n := Option.some.inj (hold.symm.trans (c.sizes _ he))
    have herase := liveBytes_erase c.ids he
    have hbytes : liveBytes ((TraceOp.realloc index size).after live) =
        size.toNat + liveBytes (live.eraseP (·.1 == index)) := liveBytes_cons _ _
    -- the difference of the sizes may be negative; the sum is right modulo 2 ^ 32
    have hsum : (t.total + (size - oldsize)).toNat =
        liveBytes ((TraceOp.realloc index size).after live) := by
      rw [BitVec.toNat_add, BitVec.toNat_sub]
      omega
    have hadd := add_max hmax (by omega : (t.total + (size - oldsize)).toNat < 2 ^ 31)
    rw [hsum] at hadd
    refine ⟨⟨hids, ?_, hsum, hadd ▸ Nat.le_max_right _ _, ?_⟩, hadd⟩
    · rw [hsizes]
      exact sizes_set hlt (notMem_erase c.ids index) fun e he =>
        c.sizes e (List.mem_of_mem_eraseP he)
    · rw [hadd]
      exact Nat.max_lt.mpr ⟨hmax, hbound⟩
  | free index =>
    obtain ⟨size, hold, hsizes, rfl⟩ := utilOp_free h
    obtain ⟨n, he⟩ := exists_entry hlegit
    obtain rfl : size = n := Option.some.inj (hold.symm.trans (c.sizes _ he))
    have herase := liveBytes_erase c.ids he
    have hbytes : liveBytes ((TraceOp.free index).after live) =
        liveBytes (live.eraseP (·.1 == index)) := rfl
    have hsum : (t.total - size).toNat = liveBytes ((TraceOp.free index).after live) := by
      rw [BitVec.toNat_sub]
      omega
    -- `free` does not look at the maximum
    have hfewer : liveBytes ((TraceOp.free index).after live) ≤ t.max.toNat := by omega
    refine ⟨⟨hids, ?_, hsum, hfewer, hmax⟩, (Nat.max_eq_left hfewer).symm⟩
    rw [hsizes]
    exact fun e he => c.sizes e (List.mem_of_mem_eraseP he)

theorem Counted.utilOps {ops : List TraceOp} :
    ∀ {live : Live} {d : Driver σ} {t : Totals}, Counted live d t →
    Proper numIds live ops → peak live ops < 2 ^ 31 → utilOps pkg d t ops = .ok (d', t') →
      t'.max.toNat = max t.max.toNat (peak live ops) := by
  induction ops with
  | nil =>
    intro live d t c _ _ h
    cases h
    exact (Nat.max_eq_left c.le_max).symm
  | cons op ops ih =>
    intro live d t c hproper hbound h
    simp only [MallocLab.utilOps, bind_eq_ok] at h
    obtain ⟨⟨d₁, t₁⟩, hop, hrest⟩ := h
    rw [peak] at hbound ⊢
    have hnext := liveBytes_le_peak (op.after live) ops
    obtain ⟨c₁, hmax⟩ := c.utilOp hproper.1 (by omega) hop
    have hle := c.le_max
    rw [ih c₁ hproper.2 (by omega) hrest, hmax]
    omega

/-- The maximum that `eval_mm_util` returns, for every package. -/
theorem evalMmUtil_peak {trace : Trace} {u : Util}
    (hproper : Proper trace.numIds.toNat [] trace.ops) (hbound : peak [] trace.ops < 2 ^ 31)
    (h : evalMmUtil pkg trace d = .ok (u, d')) :
    u.maxTotalSize.toNat = peak [] trace.ops := by
  simp only [evalMmUtil, bind_eq_ok, defined_eq_ok] at h
  obtain ⟨⟨r, heap, data⟩, _, h⟩ := h
  split at h
  · cases h
  · simp only [bind_eq_ok] at h
    obtain ⟨⟨d₁, t⟩, hrun, h⟩ := h
    cases h
    have c : Counted [] { d with heap := heap, data := data } ⟨0, 0⟩ :=
      ⟨List.nodup_nil, List.forall_mem_nil _, rfl, Nat.le_refl _, by decide⟩
    exact (c.utilOps hproper hbound hrun).trans (Nat.max_eq_right (Nat.zero_le _))

end AnyPackage

/-! ## Section 3: Repeating an accepted trace -/

section Repeated

variable {area : Area} {numIds : Nat} {live : Live} {s : State} {d : Driver Unit} {left : Nat}

/-- After a request that is not checked. -/
structure Repeated (area : Area) (numIds : Nat) (live : Live) (left : Nat)
    (d d' : Driver Unit) : Prop where
  known : ∃ s, Known area numIds live s d'
  in_sizes : d'.blockSizes.length = numIds
  room : room d'.heap = left
  errors : d'.errors = d.errors
  printed : d'.printed = d.printed

theorem storeAt_of_lt {α : Type*} {a : List (Option α)} {i : BitVec 32} (h : i.toNat < a.length)
    (v : α) :
    storeAt a i v = some (a.set i.toNat (some v)) := storeAt_eq_some_iff.mpr ⟨h, rfl⟩

/-- A new block, and arrays that show it. -/
theorem Known.served (k : Known area numIds live s d) {index size : BitVec 32} {p : Addr}
    {heap : Heap} (f : Fresh area s size p heap) (hnew : index ∉ live.map Prod.fst)
    (hindex : index.toNat < numIds) {sizes : List (Option Size)} (hlen : sizes.length = numIds) :
    Repeated area numIds ((index, size) :: live) (room d.heap - extent size.toNat) d
      { d with
        heap := heap, blocks := d.blocks.set index.toNat (some p), blockSizes := sizes } where
  known := ⟨_, k.push hnew hindex f.inv rfl⟩
  in_sizes := hlen
  room := k.heap ▸ f.room
  errors := rfl
  printed := rfl

/-- A block that is no longer allocated. -/
theorem Known.freed (k : Known area numIds live s d) (hlen : d.blockSizes.length = numIds)
    (index : BitVec 32) :
    Repeated area numIds (live.eraseP (·.1 == index)) (room d.heap) d d where
  known := ⟨s, k.erase index rfl rfl⟩
  in_sizes := hlen
  room := rfl
  errors := rfl
  printed := rfl

/-- `mm_malloc` for a request, and the block in the arrays. -/
theorem Known.allocated (k : Known area numIds live s d) {index size : BitVec 32}
    (hlegit : (TraceOp.alloc index size).Legit numIds live)
    (hroom : extent size.toNat ≤ room d.heap) :
    ∃ p heap, naive.mmMalloc d.heap d.data size = some (p, heap, d.data) ∧ p ≠ NULL ∧
      index.toNat < numIds ∧
      storeAt d.blocks index p = some (d.blocks.set index.toNat (some p)) ∧
      ∀ sizes : List (Option Size), sizes.length = numIds →
        Repeated area numIds ((index, size) :: live) (room d.heap - extent size.toNat) d
          { d with
            heap := heap, blocks := d.blocks.set index.toNat (some p), blockSizes := sizes } := by
  obtain ⟨p, heap, hmalloc, f⟩ := k.mmMalloc hroom
  obtain ⟨hindex, hnew, _⟩ := hlegit
  exact ⟨p, heap, hmalloc, f.ne, hindex, storeAt_of_lt (k.in_blocks ▸ hindex) p, fun _ hlen =>
    k.served f hnew hindex hlen⟩

/-- `mm_realloc` for a request, and the block in the place of the old one. -/
theorem Known.reallocated (k : Known area numIds live s d) {index size : BitVec 32}
    (hlegit : (TraceOp.realloc index size).Legit numIds live)
    (hroom : extent size.toNat ≤ room d.heap) :
    ∃ oldp oldsize newp heap, (index, oldsize) ∈ live ∧ loadAt d.blocks index = some oldp ∧
      naive.mmRealloc d.heap d.data oldp size = some (newp, heap, d.data) ∧ newp ≠ NULL ∧
        index.toNat < numIds ∧
      storeAt d.blocks index newp = some (d.blocks.set index.toNat (some newp)) ∧
      ∀ sizes : List (Option Size), sizes.length = numIds →
        Repeated area numIds ((index, size) :: live.eraseP (·.1 == index))
          (room d.heap - extent size.toNat) d
          { d with
            heap := heap, blocks := d.blocks.set index.toNat (some newp),
            blockSizes := sizes } := by
  obtain ⟨oldp, oldsize, he, hblock, hb⟩ := k.entry hlegit.1
  obtain ⟨newp, heap, hrun, f, _⟩ := k.mmRealloc hb hroom
  have hindex := k.bounds _ he
  have k' : Known area numIds (live.eraseP (·.1 == index)) s d := k.erase index rfl rfl
  exact ⟨oldp, oldsize, newp, heap, he, hblock, hrun, f.ne, hindex,
    storeAt_of_lt (k.in_blocks ▸ hindex) newp,
    fun _ hlen => k'.served f (notMem_erase k.ids index) hindex hlen⟩

theorem Known.utilOp (k : Known area numIds live s d) (hlen : d.blockSizes.length = numIds)
    {t : Totals} (c : Counted live d t) {op : TraceOp} (hlegit : op.Legit numIds live)
    (hroom : op.extent ≤ room d.heap) :
    ∃ d' t', utilOp naive d t op = .ok (d', t') ∧
      Repeated area numIds (op.after live) (room d.heap - op.extent) d d' := by
  cases op with
  | alloc index size =>
    obtain ⟨p, heap, hmalloc, hne, hindex, hblocks, hrep⟩ := k.allocated hlegit hroom
    have hsizes := storeAt_of_lt (hlen ▸ hindex) size
    have hset : (d.blockSizes.set index.toNat (some size)).length = numIds :=
      List.length_set.trans hlen
    refine ⟨_, t.add size, ?_, hrep _ hset⟩
    simp only [MallocLab.utilOp, bind_eq_ok, defined_eq_ok]
    refine ⟨_, hmalloc, ?_⟩
    rw [if_neg hne]
    exact bind_eq_ok.mpr ⟨_, defined_eq_ok.mpr hblocks,
      bind_eq_ok.mpr ⟨_, defined_eq_ok.mpr hsizes, rfl⟩⟩
  | realloc index size =>
    obtain ⟨oldp, oldsize, newp, heap, he, hblock, hrun, hne, hindex, hblocks, hrep⟩ :=
      k.reallocated hlegit hroom
    have hsizes := storeAt_of_lt (hlen ▸ hindex) size
    have hset : (d.blockSizes.set index.toNat (some size)).length = numIds :=
      List.length_set.trans hlen
    refine ⟨_, t.add (size - oldsize), ?_, hrep _ hset⟩
    simp only [MallocLab.utilOp, bind_eq_ok, defined_eq_ok]
    refine ⟨oldsize, c.sizes _ he, oldp, hblock, _, hrun, ?_⟩
    rw [if_neg hne]
    exact bind_eq_ok.mpr ⟨_, defined_eq_ok.mpr hblocks,
      bind_eq_ok.mpr ⟨_, defined_eq_ok.mpr hsizes, rfl⟩⟩
  | free index =>
    obtain ⟨p, size, he, hblock, _⟩ := k.entry hlegit
    refine ⟨d, { t with total := t.total - size }, ?_, k.freed hlen index⟩
    simp only [MallocLab.utilOp, bind_eq_ok, defined_eq_ok]
    exact ⟨size, c.sizes _ he, p, hblock, _, rfl, rfl⟩

theorem Known.speedOp (k : Known area numIds live s d) (hlen : d.blockSizes.length = numIds)
    {op : TraceOp} (hlegit : op.Legit numIds live) (hroom : op.extent ≤ room d.heap) :
    ∃ d', speedOp naive d op = .ok d' ∧
      Repeated area numIds (op.after live) (room d.heap - op.extent) d d' := by
  cases op with
  | alloc index size =>
    obtain ⟨p, heap, hmalloc, hne, _, hblocks, hrep⟩ := k.allocated hlegit hroom
    refine ⟨_, ?_, hrep _ hlen⟩
    simp only [MallocLab.speedOp, bind_eq_ok, defined_eq_ok]
    refine ⟨_, hmalloc, ?_⟩
    rw [if_neg hne]
    exact bind_eq_ok.mpr ⟨_, defined_eq_ok.mpr hblocks, rfl⟩
  | realloc index size =>
    obtain ⟨oldp, _, newp, heap, _, hblock, hrun, hne, _, hblocks, hrep⟩ :=
      k.reallocated hlegit hroom
    refine ⟨_, ?_, hrep _ hlen⟩
    simp only [MallocLab.speedOp, bind_eq_ok, defined_eq_ok]
    refine ⟨oldp, hblock, _, hrun, ?_⟩
    rw [if_neg hne]
    exact bind_eq_ok.mpr ⟨_, defined_eq_ok.mpr hblocks, rfl⟩
  | free index =>
    obtain ⟨p, _, _, hblock, _⟩ := k.entry hlegit
    refine ⟨d, ?_, k.freed hlen index⟩
    simp only [MallocLab.speedOp, bind_eq_ok, defined_eq_ok]
    exact ⟨p, hblock, _, rfl, rfl⟩

theorem totalExtent_cons (op : TraceOp) (ops : List TraceOp) :
    totalExtent (op :: ops) = op.extent + totalExtent ops := by
  simp [totalExtent]

theorem Repeated.trans {live' : Live} {left' : Nat} {d₁ d' : Driver Unit}
    (h : Repeated area numIds live left d d₁) (hrest : Repeated area numIds live' left' d₁ d') :
    Repeated area numIds live' left' d d' where
  known := hrest.known
  in_sizes := hrest.in_sizes
  room := hrest.room
  errors := hrest.errors.trans h.errors
  printed := hrest.printed.trans h.printed

theorem Known.utilOps {ops : List TraceOp} :
    ∀ {live : Live} {s : State} {d : Driver Unit} {t : Totals},
    Known area numIds live s d → d.blockSizes.length = numIds → Counted live d t →
      Proper numIds live ops →
      totalExtent ops ≤ room d.heap → liveBytes live + totalExtent ops < 2 ^ 31 →
      ∃ d' t', utilOps naive d t ops = .ok (d', t') ∧
        Repeated area numIds (liveAfter live ops) (room d.heap - totalExtent ops) d d' := by
  induction ops with
  | nil => exact fun k hlen _ _ _ _ => ⟨_, _, rfl, ⟨_, k⟩, hlen, rfl, rfl, rfl⟩
  | cons op ops ih =>
    intro live s d t k hlen c hproper hroom hsmall
    rw [totalExtent_cons] at hroom hsmall
    have hbytes := liveBytes_after_le k.ids hproper.1
    obtain ⟨d₁, t₁, hop, hrep⟩ := k.utilOp hlen c hproper.1 (by omega)
    obtain ⟨s₁, k₁⟩ := hrep.known
    have hleft := hrep.room
    obtain ⟨c₁, _⟩ := c.utilOp hproper.1 (by omega) hop
    obtain ⟨d', t', hrun, hrest⟩ := ih k₁ hrep.in_sizes c₁ hproper.2 (by omega) (by omega)
    refine ⟨d', t', bind_eq_ok.mpr ⟨(d₁, t₁), hop, hrun⟩, ?_⟩
    have hall := hrep.trans hrest
    rw [hleft, Nat.sub_sub, ← totalExtent_cons] at hall
    exact hall

theorem Known.speedOps {ops : List TraceOp} : ∀ {live : Live} {s : State} {d : Driver Unit},
    Known area numIds live s d → d.blockSizes.length = numIds → Proper numIds live ops →
      totalExtent ops ≤ room d.heap →
      ∃ d', speedOps naive d ops = .ok d' ∧
        Repeated area numIds (liveAfter live ops) (room d.heap - totalExtent ops) d d' := by
  induction ops with
  | nil => exact fun k hlen _ _ => ⟨_, rfl, ⟨_, k⟩, hlen, rfl, rfl, rfl⟩
  | cons op ops ih =>
    intro live s d k hlen hproper hroom
    rw [totalExtent_cons] at hroom
    obtain ⟨d₁, hop, hrep⟩ := k.speedOp hlen hproper.1 (by omega)
    obtain ⟨s₁, k₁⟩ := hrep.known
    have hleft := hrep.room
    obtain ⟨d', hrun, hrest⟩ := ih k₁ hrep.in_sizes hproper.2 (by omega)
    refine ⟨d', bind_eq_ok.mpr ⟨d₁, hop, hrun⟩, ?_⟩
    have hall := hrep.trans hrest
    rw [hleft, Nat.sub_sub, ← totalExtent_cons] at hall
    exact hall

theorem Repeated.ended {d' : Driver Unit} (h : Repeated area numIds live left d d')
    (tracenum : Nat) :
    Ended area numIds tracenum none d d' := by
  obtain ⟨s, k⟩ := h.known
  exact ⟨k.geometry, k.in_blocks, h.in_sizes, h.errors, h.printed.trans (List.append_nil _).symm⟩

/-! ## Section 4: The results for one trace -/

theorem toNat_memHeapsize {heap : Heap} (g : Geometry area heap) :
    (memHeapsize heap).toNat = MAX_HEAP - room heap := by
  have hstart : heap.memStartBrk.toNat = area.start.toNat := congrArg BitVec.toNat g.start
  have hmax := g.max
  have hlo := g.le_brk
  have hhi := g.brk_le
  have hlt : heap.memBrk.toNat < 2 ^ 32 := heap.memBrk.isLt
  unfold room memHeapsize
  rw [BitVec.toNat_sub]
  omega

/-- What `eval_mm_util` finds for a proper trace. -/
def expectedUtil (ops : List TraceOp) : Util :=
  ⟨BitVec.ofNat 32 (peak [] ops), BitVec.ofNat 32 (totalExtent ops)⟩

theorem evalMmUtil_naive {trace : Trace} (g : Geometry area d.heap)
    (hblocks : d.blocks.length = trace.numIds.toNat)
    (hsizes : d.blockSizes.length = trace.numIds.toNat)
    (hproper : Proper trace.numIds.toNat [] trace.ops) (htotal : totalExtent trace.ops ≤ MAX_HEAP)
    (tracenum : Nat) :
    ∃ d', evalMmUtil naive trace d = .ok (expectedUtil trace.ops, d') ∧
      Ended area trace.numIds.toNat tracenum none d d' := by
  have hmax : MAX_HEAP < 2 ^ 31 := by decide
  have hroom := room_reset g
  have hpeak : peak [] trace.ops ≤ 0 + totalExtent trace.ops := peak_le List.nodup_nil hproper
  let d₀ : Driver Unit := { d with heap := memResetBrk d.heap }
  have k : Known area trace.numIds.toNat [] _ d₀ := known_reset g rfl hblocks
  have c : Counted [] d₀ ⟨0, 0⟩ :=
    ⟨List.nodup_nil, List.forall_mem_nil _, rfl, Nat.le_refl _, by decide⟩
  obtain ⟨d', t', hrun, hrep⟩ := k.utilOps hsizes c hproper (hroom ▸ htotal) (by
    show 0 + totalExtent trace.ops < 2 ^ 31
    omega)
  have h := hrep.ended tracenum
  have hended : Ended area trace.numIds.toNat tracenum none d d' :=
    ⟨h.geometry, h.in_blocks, h.in_sizes, h.errors, h.printed⟩
  have hcount : t'.max.toNat = max 0 (peak [] trace.ops) := c.utilOps hproper (by omega) hrun
  have hleft : room d'.heap = MAX_HEAP - totalExtent trace.ops := hroom ▸ hrep.room
  have hsize := toNat_memHeapsize hended.geometry
  have hmaximum : t'.max = BitVec.ofNat 32 (peak [] trace.ops) := by
    apply BitVec.eq_of_toNat_eq
    rw [BitVec.toNat_ofNat]
    omega
  have hheapsize : memHeapsize d'.heap = BitVec.ofNat 32 (totalExtent trace.ops) := by
    apply BitVec.eq_of_toNat_eq
    rw [BitVec.toNat_ofNat]
    omega
  refine ⟨d', ?_, hended⟩
  simp only [evalMmUtil, bind_eq_ok, defined_eq_ok, expectedUtil, ← hmaximum, ← hheapsize]
  exact ⟨(0, memResetBrk d.heap, d.data), rfl, bind_eq_ok.mpr ⟨(d', t'), hrun, rfl⟩⟩

/-- The two blocks of 24 and 5 bytes are the most of the short trace. -/
theorem evalMmUtil_peak_short :
    ∃ u d', evalMmUtil naive shortTrace twoIds = .ok (u, d') ∧ u.maxTotalSize.toNat = 29 := by
  have hrun : ((evalMmUtil naive shortTrace twoIds).toOption.any fun _ => true) = true := by
    decide +kernel
  obtain ⟨⟨u, d'⟩, hok, _⟩ := exists_ok hrun
  exact ⟨u, d', hok, evalMmUtil_peak (by decide) (by decide) hok⟩

theorem evalMmSpeed_naive {trace : Trace} (g : Geometry area d.heap)
    (hblocks : d.blocks.length = trace.numIds.toNat)
    (hsizes : d.blockSizes.length = trace.numIds.toNat)
    (hproper : Proper trace.numIds.toNat [] trace.ops) (htotal : totalExtent trace.ops ≤ MAX_HEAP)
    (tracenum : Nat) :
    ∃ d', evalMmSpeed naive trace d = .ok d' ∧
      Ended area trace.numIds.toNat tracenum none d d' := by
  let d₀ : Driver Unit := { d with heap := memResetBrk d.heap }
  have k : Known area trace.numIds.toNat [] _ d₀ := known_reset g rfl hblocks
  obtain ⟨d', hrun, hrep⟩ := k.speedOps hsizes hproper (room_reset g ▸ htotal)
  have h := hrep.ended tracenum
  refine ⟨d', ?_, h.geometry, h.in_blocks, h.in_sizes, h.errors, h.printed⟩
  simp only [evalMmSpeed, bind_eq_ok, defined_eq_ok]
  exact ⟨(0, memResetBrk d.heap, d.data), rfl, hrun⟩

theorem Ended.trans {tracenum : Nat} {v : Option (Nat × Complaint)} {d₁ d' : Driver Unit}
    (h : Ended area numIds tracenum v d d₁) (hrest : Ended area numIds tracenum none d₁ d') :
    Ended area numIds tracenum v d d' where
  geometry := hrest.geometry
  in_blocks := hrest.in_blocks
  in_sizes := hrest.in_sizes
  errors := hrest.errors.trans h.errors
  printed := (hrest.printed.trans (List.append_nil _)).trans h.printed

theorem fsecs_naive {trace : Trace} (hproper : Proper trace.numIds.toNat [] trace.ops)
    (htotal : totalExtent trace.ops ≤ MAX_HEAP) {tracenum : Nat} {v : Option (Nat × Complaint)}
    {d₁ : Driver Unit} (n : Nat) (h : Ended area trace.numIds.toNat tracenum v d d₁) :
    ∃ d', fsecs naive trace n d₁ = .ok d' ∧ Ended area trace.numIds.toNat tracenum v d d' := by
  induction n generalizing d₁ with
  | zero => exact ⟨d₁, rfl, h⟩
  | succ n ih =>
    obtain ⟨d₂, hspeed, hrest⟩ :=
      evalMmSpeed_naive h.geometry h.in_blocks h.in_sizes hproper htotal tracenum
    obtain ⟨d', hrun, hended⟩ := ih (h.trans hrest)
    exact ⟨d', bind_eq_ok.mpr ⟨d₂, hspeed, hrun⟩, hended⟩

/-- What `main` finds for a proper trace. -/
def expectedStats (trace : Trace) : Stats :=
  if totalExtent trace.ops ≤ MAX_HEAP ∧ ∀ op ∈ trace.ops, ¬ op.Mistaken then
    ⟨trace.ops.length, true, some (expectedUtil trace.ops)⟩
  else ⟨trace.ops.length, false, none⟩

theorem evalTrace_naive {trace : Trace} (g : Geometry area d.heap)
    (hproper : Proper trace.numIds.toNat [] trace.ops)
    (hafford : ∀ op ∈ trace.ops, op.Affordable area) (tracenum : Nat) :
    ∃ d', evalTrace naive tracenum trace d = .ok (expectedStats trace, d') ∧
      Ended area trace.numIds.toNat tracenum (verdict MAX_HEAP 0 trace.ops) d d' := by
  let fresh : Driver Unit := { d with
    blocks := List.replicate trace.numIds.toNat none,
    blockSizes := List.replicate trace.numIds.toNat none }
  obtain ⟨d₁, hvalid, hended⟩ :=
    evalMmValid_naive (d := fresh) g List.length_replicate List.length_replicate hproper hafford
      tracenum
  -- the errors are counted from before the arrays were allocated
  have hreported : Ended area trace.numIds.toNat tracenum (verdict MAX_HEAP 0 trace.ops) d d₁ :=
    ⟨hended.geometry, hended.in_blocks, hended.in_sizes, hended.errors, hended.printed⟩
  simp only [evalTrace, bind_eq_ok]
  by_cases hv : totalExtent trace.ops ≤ MAX_HEAP ∧ ∀ op ∈ trace.ops, ¬ op.Mistaken
  · have hnone : verdict MAX_HEAP 0 trace.ops = none := verdict_eq_none_iff.mpr hv
    rw [hnone] at hvalid
    rw [expectedStats, if_pos hv]
    obtain ⟨d₂, hutil, hended₂⟩ :=
      evalMmUtil_naive hreported.geometry hreported.in_blocks hreported.in_sizes hproper hv.1
        tracenum
    obtain ⟨d', hspeed, hended'⟩ := fsecs_naive hproper hv.1 10 (hreported.trans hended₂)
    refine ⟨d', ⟨(true, d₁), hvalid, ?_⟩, hended'⟩
    exact bind_eq_ok.mpr ⟨(expectedUtil trace.ops, d₂), hutil, bind_eq_ok.mpr ⟨d', hspeed, rfl⟩⟩
  · have hsome : (verdict MAX_HEAP 0 trace.ops).isNone = false := by
      rw [Option.isNone_eq_false_iff, Option.isSome_iff_ne_none]
      exact mt verdict_eq_none_iff.mp hv
    rw [hsome] at hvalid
    rw [expectedStats, if_neg hv]
    exact ⟨d₁, ⟨(false, d₁), hvalid, rfl⟩, hreported⟩

end Repeated

/-! ## Section 5: main -/

/-- The lines that are printed for the traces, from trace `i` on. -/
def complaints : Nat → List Trace → List String
  | _, [] => []
  | i, trace :: traces =>
    ((verdict MAX_HEAP 0 trace.ops).toList.map fun c => errorLine i c.1 c.2) ++
      complaints (i + 1) traces

/-- The evaluation of `mm.c` never ends early: every trace gets the result that
    it would get alone, and each rejected trace is one error and one line. -/
theorem evalTraces_naive {area : Area} {traces : List Trace} :
    ∀ {i : Nat} {d : Driver Unit}, Geometry area d.heap →
    (∀ trace ∈ traces, Clean area trace) →
      ∃ d', evalTraces naive i d traces = .ok (traces.map expectedStats, d') ∧
        d'.errors + numCorrect (traces.map expectedStats) = d.errors + traces.length ∧
        d'.printed = d.printed ++ complaints i traces := by
  induction traces with
  | nil => exact fun _ _ => ⟨_, rfl, rfl, (List.append_nil _).symm⟩
  | cons trace traces ih =>
    intro i d g hclean
    obtain ⟨hthis, hrest⟩ := List.forall_mem_cons.mp hclean
    obtain ⟨d₁, hrun, hended⟩ := evalTrace_naive g hthis.proper hthis.affordable i
    obtain ⟨d', hruns, hcount, hprinted⟩ := ih (i := i + 1) hended.geometry hrest
    refine ⟨d', ?_, ?_, ?_⟩
    · exact bind_eq_ok.mpr ⟨_, hrun, bind_eq_ok.mpr ⟨_, hruns, rfl⟩⟩
    · have herrors := hended.errors
      have hnum : numCorrect ((trace :: traces).map expectedStats) =
          numCorrect (traces.map expectedStats) + if (expectedStats trace).valid then 1 else 0 := by
        simp [numCorrect, List.countP_cons]
      -- a trace is either rejected, with one error, or correct
      have hone : (verdict MAX_HEAP 0 trace.ops).toList.length +
          (if (expectedStats trace).valid then 1 else 0) = 1 := by
        unfold expectedStats
        split
        · next hv => simp [verdict_eq_none_iff.mpr hv]
        · next hv =>
          obtain ⟨c, hc⟩ :=
            Option.ne_none_iff_exists'.mp
              (mt verdict_eq_none_iff.mp (a := verdict MAX_HEAP 0 trace.ops = none) hv)
          simp [hc]
      rw [hnum, List.length_cons]
      omega
    · rw [hprinted, hended.printed, complaints, List.append_assoc]

end MallocLab
