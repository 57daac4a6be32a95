import CsappExperiments.MallocLab.Driver
import Mathlib.Data.List.Nodup

/-! # Malloc Lab: what the driver's check is worth

    `eval_mm_valid` keeps a list of ranges, and takes records out of it by
    their first address. For every package and every proper trace this list is
    at all times the list of the allocated payloads (`Watched`), so that an
    accepted package has had each payload compared with each other one.

    The comparison looks at the two ends of the new payload only. Payloads of
    an accepted package are therefore disjoint, or the later one has the
    earlier one in its interior.
-/

open ByteMemory

namespace MallocLab

/-! ## Section 1: What a trace asks for -/

/-- The allocated blocks, the latest first: their ids, with their sizes. -/
abbrev Live : Type := List (BitVec 32 × Size)

/-- What a request makes of them. -/
def TraceOp.after (live : Live) : TraceOp → Live
  | .alloc index size => (index, size) :: live
  | .free index => live.eraseP (·.1 == index)
  | .realloc index size => (index, size) :: live.eraseP (·.1 == index)

/-- Ids are within the arrays, blocks are allocated before they are used and
    not twice, and no request is empty. -/
def TraceOp.Legit (numIds : Nat) (live : Live) : TraceOp → Prop
  | .alloc index size => index.toNat < numIds ∧ index ∉ live.map Prod.fst ∧ 0 < size.toInt
  | .free index => index ∈ live.map Prod.fst
  | .realloc index size => index ∈ live.map Prod.fst ∧ 0 < size.toInt

instance (numIds : Nat) (live : Live) (op : TraceOp) : Decidable (op.Legit numIds live) :=
  match op with
  | .alloc _ _ => inferInstanceAs (Decidable (_ ∧ _ ∧ _))
  | .free index => inferInstanceAs (Decidable (index ∈ live.map Prod.fst))
  | .realloc _ _ => inferInstanceAs (Decidable (_ ∧ _))

/-- The requests of a trace, from these blocks on. -/
def Proper (numIds : Nat) : Live → List TraceOp → Prop
  | _, [] => True
  | live, op :: ops => op.Legit numIds live ∧ Proper numIds (op.after live) ops

instance decidableProper (numIds : Nat) :
    (live : Live) → (ops : List TraceOp) → Decidable (Proper numIds live ops)
  | _, [] => isTrue trivial
  | live, op :: ops =>
    have := decidableProper numIds (op.after live) ops
    inferInstanceAs (Decidable (op.Legit numIds live ∧ _))

/-- The blocks that are allocated after these requests. -/
def liveAfter (live : Live) (ops : List TraceOp) : Live :=
  ops.foldl (fun live op => op.after live) live

theorem eraseP_congr {α : Type*} {p q : α → Bool} {l : List α} (h : ∀ a ∈ l, p a = q a) :
    l.eraseP p = l.eraseP q := by
  induction l with
  | nil => rfl
  | cons a l ih =>
    have hrest := ih fun b hb => h b (List.mem_cons_of_mem a hb)
    rw [List.eraseP_cons, List.eraseP_cons, h a List.mem_cons_self, hrest]

/-- An id that has been taken out is gone. -/
theorem notMem_erase {live : Live} (hids : (live.map Prod.fst).Nodup) (index : BitVec 32) :
    index ∉ (live.eraseP (·.1 == index)).map Prod.fst := by
  have herase : (live.map Prod.fst).erase index = (live.eraseP (·.1 == index)).map Prod.fst := by
    rw [List.erase_eq_eraseP', List.eraseP_map]
    rfl
  rw [← herase]
  exact hids.not_mem_erase

theorem nodup_erase {live : Live} (hids : (live.map Prod.fst).Nodup) (index : BitVec 32) :
    ((live.eraseP (·.1 == index)).map Prod.fst).Nodup :=
  hids.sublist (List.eraseP_sublist.map _)

/-- The ids stay distinct. -/
theorem TraceOp.Legit.nodup {numIds : Nat} {live : Live} {op : TraceOp} (h : op.Legit numIds live)
    (hids : (live.map Prod.fst).Nodup) : ((op.after live).map Prod.fst).Nodup := by
  cases op with
  | alloc index size => exact List.nodup_cons.mpr ⟨h.2.1, hids⟩
  | free index => exact nodup_erase hids index
  | realloc index size =>
    exact List.nodup_cons.mpr ⟨notMem_erase hids index, nodup_erase hids index⟩

/-! ## Section 2: What the steps of the driver do -/

theorem bind_eq_ok {ε α β : Type} {x : Except ε α} {f : α → Except ε β} {b : β} :
    x >>= f = .ok b ↔ ∃ a, x = .ok a ∧ f a = .ok b := by
  cases x with
  | error e => simp [bind, Except.bind]
  | ok a => simp [bind, Except.bind]

theorem defined_eq_ok {α : Type*} {o : Option α} {a : α} : defined o = .ok a ↔ o = some a := by
  cases o with
  | none => simp [defined]
  | some b => simp [defined]

/-- A result that passes a test. -/
theorem exists_ok {ε α : Type*} {x : Except ε α} {p : α → Bool} (h : x.toOption.any p = true) :
    ∃ a, x = .ok a ∧ p a = true := by
  cases x with
  | error e => cases h
  | ok a => exact ⟨a, rfl, h⟩

/-- The payload of `size` bytes from `lo` on. -/
def payloadRange (lo : Addr) (size : Size) : Range := ⟨lo, lo + size - 1⟩

/-- What `add_range` asks of a new payload. -/
structure Accepted (ranges : List Range) (heap : Heap) (lo : Addr) (size : BitVec 32) : Prop where
  positive : 0 < size.toInt
  aligned : isAligned lo = true
  inside : memHeapLo heap ≤ lo ∧ lo ≤ memHeapHi heap ∧ memHeapLo heap ≤ lo + size - 1 ∧
    lo + size - 1 ≤ memHeapHi heap
  unseen : ∀ r ∈ ranges, r.hits lo (lo + size - 1) = false

theorem addRange_eq_ok_iff {ranges ranges' : List Range} {heap : Heap} {lo : Addr}
    {size : BitVec 32} :
    addRange ranges heap lo size = .ok (.ok ranges') ↔
      Accepted ranges heap lo size ∧ ranges' = payloadRange lo size :: ranges := by
  have hin : ¬ (lo < memHeapLo heap ∨ lo > memHeapHi heap ∨ lo + size - 1 < memHeapLo heap ∨
      lo + size - 1 > memHeapHi heap) ↔
      memHeapLo heap ≤ lo ∧ lo ≤ memHeapHi heap ∧ memHeapLo heap ≤ lo + size - 1 ∧
          lo + size - 1 ≤ memHeapHi heap := by
    simp only [not_or, gt_iff_lt, BitVec.not_lt]
  unfold addRange
  dsimp only
  constructor
  · -- the tests in the order of the code: size, alignment, extent, overlap
    intro h
    split at h
    · cases h
    split at h
    · cases h
    split at h
    · cases h
    next hpos haligned hinside =>
    split at h
    · cases h
    · next hfind =>
      cases h
      refine ⟨⟨by omega, by simpa using haligned, hin.mp hinside, ?_⟩, rfl⟩
      intro r hr
      simpa using List.find?_eq_none.mp hfind r hr
  · rintro ⟨haccepted, rfl⟩
    have hpos := haccepted.positive
    have hfind : ranges.find? (·.hits lo (lo + size - 1)) = none :=
      List.find?_eq_none.mpr fun r hr => ne_true_of_eq_false (haccepted.unseen r hr)
    rw [if_neg (by omega), if_neg (by simp [haccepted.aligned]),
      if_neg (hin.mpr haccepted.inside), hfind]
    rfl

theorem loadAt_set_self {α : Type*} {a : List (Option α)} {i : BitVec 32} (h : i.toNat < a.length)
    (v : α) :
    loadAt (a.set i.toNat (some v)) i = some v := by
  simp [loadAt, h]

theorem loadAt_set_ne {α : Type*} (a : List (Option α)) {i j : BitVec 32} (h : j ≠ i) (v : α) :
    loadAt (a.set i.toNat (some v)) j = loadAt a j := by
  have hne : i.toNat ≠ j.toNat := fun heq => h (BitVec.eq_of_toNat_eq heq.symm)
  simp [loadAt, List.getElem?_set_ne hne]

variable {σ : Type}

/-- What remembering a block changes. -/
structure Remembered (d : Driver σ) (index : BitVec 32) (p : Addr) (size : BitVec 32)
    (d' : Driver σ) : Prop where
  in_blocks : index.toNat < d.blocks.length
  in_sizes : index.toNat < d.blockSizes.length
  filled : memset d.heap p index size = some d'.heap
  eq : d' = { d with
    heap := d'.heap, blocks := d.blocks.set index.toNat (some p),
    blockSizes := d.blockSizes.set index.toNat (some size) }

theorem storeAt_eq_some_iff {α : Type*} {a a' : List (Option α)} {i : BitVec 32} {v : α} :
    storeAt a i v = some a' ↔ i.toNat < a.length ∧ a' = a.set i.toNat (some v) := by
  unfold storeAt
  split
  · next h => simp [h, eq_comm]
  · next h => simp [h]

theorem remember_eq_ok_iff {d d' : Driver σ} {index size : BitVec 32} {p : Addr} :
    d.remember index p size = .ok d' ↔ Remembered d index p size d' := by
  simp only [Driver.remember, bind_eq_ok, defined_eq_ok, storeAt_eq_some_iff]
  constructor
  · rintro ⟨heap, hfill, _, ⟨hblocks, rfl⟩, _, ⟨hsizes, rfl⟩, h⟩
    cases h
    exact ⟨hblocks, hsizes, hfill, rfl⟩
  · rintro ⟨hblocks, hsizes, hfill, heq⟩
    refine ⟨d'.heap, hfill, _, ⟨hblocks, rfl⟩, _, ⟨hsizes, rfl⟩, ?_⟩
    rw [heq]
    rfl

/-- An accepted `mm_malloc`. -/
theorem evalOp_alloc_iff {pkg : Package σ} {tracenum i : Nat} {d d' : Driver σ}
    {index size : BitVec 32} :
    evalOp pkg tracenum i d (.alloc index size) = .ok (true, d') ↔
      ∃ p heap data, pkg.mmMalloc d.heap d.data size = some (p, heap, data) ∧ p ≠ NULL ∧
        Accepted d.ranges heap p size ∧
        Remembered { d with heap := heap, data := data, ranges := payloadRange p size :: d.ranges }
          index p size d' := by
  constructor
  · intro h
    simp only [evalOp, bind_eq_ok, defined_eq_ok] at h
    obtain ⟨⟨p, heap, data⟩, hmalloc, h⟩ := h
    split at h
    · cases h
    next hne =>
    simp only [bind_eq_ok] at h
    obtain ⟨r, hr, h⟩ := h
    split at h
    · cases h
    · simp only [bind_eq_ok] at h
      obtain ⟨d₁, hd₁, h⟩ := h
      cases h
      obtain ⟨haccepted, rfl⟩ := addRange_eq_ok_iff.mp hr
      exact ⟨p, heap, data, hmalloc, hne, haccepted, remember_eq_ok_iff.mp hd₁⟩
  · rintro ⟨p, heap, data, hmalloc, hne, haccepted, hr⟩
    simp only [evalOp, bind_eq_ok, defined_eq_ok]
    refine ⟨(p, heap, data), hmalloc, ?_⟩
    rw [if_neg hne]
    exact bind_eq_ok.mpr ⟨_, addRange_eq_ok_iff.mpr ⟨haccepted, rfl⟩,
      bind_eq_ok.mpr ⟨d', remember_eq_ok_iff.mpr hr, rfl⟩⟩

/-- An accepted `mm_realloc`. -/
theorem evalOp_realloc_iff {pkg : Package σ} {tracenum i : Nat} {d d' : Driver σ}
    {index size : BitVec 32} :
    evalOp pkg tracenum i d (.realloc index size) = .ok (true, d') ↔
      ∃ oldp newp heap data oldsize, loadAt d.blocks index = some oldp ∧
        pkg.mmRealloc d.heap d.data oldp size = some (newp, heap, data) ∧ newp ≠ NULL ∧
        Accepted (removeRange d.ranges oldp) heap newp size ∧
        loadAt d.blockSizes index = some oldsize ∧
        changed heap newp index 0 (keptSize oldsize size).toInt.toNat = some false ∧
        Remembered { d with
          heap := heap
          data := data
          ranges := payloadRange newp size :: removeRange d.ranges oldp }
          index newp size d' := by
  constructor
  · intro h
    simp only [evalOp, bind_eq_ok, defined_eq_ok] at h
    obtain ⟨oldp, hold, ⟨newp, heap, data⟩, hrealloc, h⟩ := h
    split at h
    · cases h
    next hne =>
    simp only [bind_eq_ok] at h
    obtain ⟨r, hr, h⟩ := h
    split at h
    · cases h
    simp only [bind_eq_ok, defined_eq_ok] at h
    obtain ⟨oldsize, hsize, differs, hdiffers, h⟩ := h
    split at h
    · cases h
    next hsame =>
    simp only [bind_eq_ok] at h
    obtain ⟨d₁, hd₁, h⟩ := h
    cases h
    obtain ⟨haccepted, rfl⟩ := addRange_eq_ok_iff.mp hr
    rw [Bool.eq_false_iff.mpr hsame] at hdiffers
    exact ⟨oldp, newp, heap, data, oldsize, hold, hrealloc, hne, haccepted, hsize, hdiffers,
      remember_eq_ok_iff.mp hd₁⟩
  · rintro ⟨oldp, newp, heap, data, oldsize, hold, hrealloc, hne, haccepted, hsize, hsame, hr⟩
    simp only [evalOp, bind_eq_ok, defined_eq_ok]
    refine ⟨oldp, hold, (newp, heap, data), hrealloc, ?_⟩
    rw [if_neg hne]
    exact bind_eq_ok.mpr ⟨_, addRange_eq_ok_iff.mpr ⟨haccepted, rfl⟩,
      bind_eq_ok.mpr ⟨oldsize, defined_eq_ok.mpr hsize,
        bind_eq_ok.mpr ⟨false, defined_eq_ok.mpr hsame,
          bind_eq_ok.mpr ⟨d', remember_eq_ok_iff.mpr hr, rfl⟩⟩⟩⟩

theorem evalOp_free_iff {pkg : Package σ} {tracenum i : Nat} {d d' : Driver σ} {index : BitVec 32} :
    evalOp pkg tracenum i d (.free index) = .ok (true, d') ↔
      ∃ p heap data, loadAt d.blocks index = some p ∧
        pkg.mmFree d.heap d.data p = some (heap, data) ∧
        d' = { d with heap := heap, data := data, ranges := removeRange d.ranges p } := by
  simp only [evalOp, bind_eq_ok, defined_eq_ok]
  constructor
  · rintro ⟨p, hp, ⟨heap, data⟩, hfree, h⟩
    cases h
    exact ⟨p, heap, data, hp, hfree, rfl⟩
  · rintro ⟨p, heap, data, hp, hfree, rfl⟩
    exact ⟨p, hp, (heap, data), hfree, rfl⟩

/-! ## Section 3: Payloads -/

/-- The bytes of a payload. -/
def Range.bytes (r : Range) : Set Nat := Set.Icc r.lo.toNat r.hi.toNat

/-- The bytes between the first and the last. -/
def Range.interior (r : Range) : Set Nat := Set.Ioo r.lo.toNat r.hi.toNat

/-- An aligned and nonempty payload inside the area. -/
structure Range.Legal (area : Area) (r : Range) : Prop where
  aligned : 8 ∣ r.lo.toNat
  lo_le_hi : r.lo.toNat ≤ r.hi.toNat
  inside : area.start.toNat ≤ r.lo.toNat ∧ r.hi.toNat < area.start.toNat + MAX_HEAP

/-- The heap lies in the area, which does not start at NULL. -/
structure Within (area : Area) (heap : Heap) : Prop where
  start : heap.memStartBrk = area.start
  start_pos : 0 < area.start.toNat
  max : heap.memMaxAddr.toNat = area.start.toNat + MAX_HEAP
  le_brk : area.start.toNat ≤ heap.memBrk.toNat
  brk_le : heap.memBrk.toNat ≤ area.start.toNat + MAX_HEAP

theorem toNat_pos_of_toInt {size : BitVec 32} (h : 0 < size.toInt) :
    0 < size.toNat ∧ size.toNat < 2 ^ 31 := by
  have hlt : size.toNat < 2 ^ 32 := size.isLt
  rw [BitVec.toInt_eq_toNat_cond] at h
  split at h <;> omega

/-- The last byte of a payload. -/
theorem toNat_hi {lo : Addr} {size : Size} (h : lo.toNat + size.toNat ≤ 2 ^ 32)
    (hpos : 0 < size.toNat) :
    (payloadRange lo size).hi.toNat = lo.toNat + size.toNat - 1 := by
  have hone : (1 : BitVec 32).toNat = 1 := rfl
  show (lo + size - 1).toNat = _
  rw [BitVec.toNat_sub, BitVec.toNat_add, hone]
  omega

theorem isAligned_iff (p : Addr) : isAligned p = true ↔ 8 ∣ p.toNat := by
  have height : ALIGNMENT.toNat = 8 := rfl
  rw [isAligned, beq_iff_eq, ← BitVec.toNat_inj, BitVec.toNat_umod, height]
  exact (Nat.dvd_iff_mod_eq_zero).symm

theorem toNat_memHeapHi {heap : Heap} (h : 0 < heap.memBrk.toNat) :
    (memHeapHi heap).toNat = heap.memBrk.toNat - 1 := by
  have hone : (1 : BitVec 32).toNat = 1 := rfl
  have hlt : heap.memBrk.toNat < 2 ^ 32 := heap.memBrk.isLt
  rw [memHeapHi, BitVec.toNat_sub, hone]
  omega

/-- Both ends of a payload are in the heap exactly when no byte of it is
    outside. -/
theorem ends_inside_iff {area : Area} {heap : Heap} (hheap : Within area heap) {lo : Addr}
    {size : BitVec 32} (hpos : 0 < size.toInt) :
    (memHeapLo heap ≤ lo ∧ lo ≤ memHeapHi heap ∧ memHeapLo heap ≤ lo + size - 1 ∧
      lo + size - 1 ≤ memHeapHi heap) ↔
      area.start.toNat ≤ lo.toNat ∧ lo.toNat + size.toNat ≤ heap.memBrk.toNat := by
  obtain ⟨hstart, hstart_pos, _, hle, hbrk⟩ := hheap
  obtain ⟨hsize, hlt⟩ := toNat_pos_of_toInt hpos
  have hfits := area.fits
  have hbrk_lt : heap.memBrk.toNat < 2 ^ 32 := heap.memBrk.isLt
  have hend : (lo + size - 1).toNat = (lo.toNat + size.toNat + (2 ^ 32 - 1)) % 2 ^ 32 := by
    have hone : (1 : BitVec 32).toNat = 1 := rfl
    rw [BitVec.toNat_sub, BitVec.toNat_add, hone]
    omega
  rw [memHeapLo, hstart, BitVec.le_def, BitVec.le_def, BitVec.le_def, BitVec.le_def,
    toNat_memHeapHi (by omega), hend]
  unfold MAX_HEAP at hbrk hfits
  omega

/-- What the comparison with an allocated payload finds out. -/
theorem hits_eq_false_iff {lo : Addr} {size : Size} (h : lo.toNat + size.toNat ≤ 2 ^ 32)
    (hpos : 0 < size.toNat) (r : Range) :
    r.hits lo (lo + size - 1) = false ↔
      Disjoint (payloadRange lo size).bytes r.bytes ∨
        r.bytes ⊆ (payloadRange lo size).interior := by
  have hhi := toNat_hi h hpos
  refine Iff.trans ?_
    (ends_notMem_iff (by rw [hhi]; show lo.toNat ≤ _; omega) r.lo.toNat r.hi.toNat)
  simp only [Range.hits, payloadRange, decide_eq_false_iff_not, not_or, ge_iff_le, BitVec.le_def,
    Set.mem_Icc]

/-- The check, in terms of bytes. -/
theorem accepted_iff {area : Area} {ranges : List Range} {heap : Heap} (hheap : Within area heap)
    {lo : Addr} {size : BitVec 32} (hpos : 0 < size.toInt) :
    Accepted ranges heap lo size ↔ 8 ∣ lo.toNat ∧
      (area.start.toNat ≤ lo.toNat ∧ lo.toNat + size.toNat ≤ heap.memBrk.toNat) ∧
      ∀ r ∈ ranges,
        Disjoint (payloadRange lo size).bytes r.bytes ∨
          r.bytes ⊆ (payloadRange lo size).interior := by
  obtain ⟨hsize, _⟩ := toNat_pos_of_toInt hpos
  have hbrk_lt : heap.memBrk.toNat < 2 ^ 32 := heap.memBrk.isLt
  constructor
  · rintro ⟨_, haligned, hinside, hunseen⟩
    have hin := (ends_inside_iff hheap hpos).mp hinside
    exact ⟨(isAligned_iff lo).mp haligned, hin,
      fun r hr => (hits_eq_false_iff (by omega) hsize r).mp (hunseen r hr)⟩
  · rintro ⟨haligned, hin, happart⟩
    exact ⟨hpos, (isAligned_iff lo).mpr haligned, (ends_inside_iff hheap hpos).mpr hin,
      fun r hr => (hits_eq_false_iff (by omega) hsize r).mpr (happart r hr)⟩

/-- An accepted payload. -/
theorem Accepted.legal {area : Area} {ranges : List Range} {heap : Heap} {lo : Addr}
    {size : BitVec 32} (hheap : Within area heap) (h : Accepted ranges heap lo size) :
    (payloadRange lo size).Legal area := by
  obtain ⟨haligned, ⟨hlo, hhi⟩, _⟩ := (accepted_iff hheap h.positive).mp h
  obtain ⟨hsize, _⟩ := toNat_pos_of_toInt h.positive
  have hbrk_lt : heap.memBrk.toNat < 2 ^ 32 := heap.memBrk.isLt
  have hbrk := hheap.brk_le
  have hend : (payloadRange lo size).hi.toNat = lo.toNat + size.toNat - 1 :=
    toNat_hi (by omega) hsize
  refine ⟨haligned, ?_, hlo, ?_⟩
  · rw [hend]
    show lo.toNat ≤ _
    omega
  · rw [hend]
    omega

/-! ## Section 4: The invariant -/

/-- The payload of an allocated block, according to the arrays. -/
def Driver.payload (d : Driver σ) (e : BitVec 32 × Size) : Range :=
  payloadRange ((loadAt d.blocks e.1).getD NULL) e.2

/-- No function of the package leaves the area. -/
structure Package.StaysWithin (pkg : Package σ) (area : Area) : Prop where
  mmInit : ∀ {heap data r heap' data'},
    Within area heap → pkg.mmInit heap data = some (r, heap', data') →
    Within area heap'
  mmMalloc : ∀ {heap data size p heap' data'},
    Within area heap → pkg.mmMalloc heap data size = some (p, heap', data') →
    Within area heap'
  mmFree : ∀ {heap data p heap' data'},
    Within area heap → pkg.mmFree heap data p = some (heap', data') →
    Within area heap'
  mmRealloc : ∀ {heap data p size p' heap' data'}, Within area heap →
    pkg.mmRealloc heap data p size = some (p', heap', data') → Within area heap'

/-- The range list is the list of the allocated payloads. -/
structure Watched (area : Area) (live : Live) (d : Driver σ) : Prop where
  within : Within area d.heap
  ids : (live.map Prod.fst).Nodup
  blocks : ∀ e ∈ live, loadAt d.blocks e.1 = some (d.payload e).lo
  sizes : ∀ e ∈ live, loadAt d.blockSizes e.1 = some e.2
  ranges : d.ranges = live.map d.payload
  legal : ∀ r ∈ d.ranges, r.Legal area
  apart : d.ranges.Pairwise fun later earlier =>
    Disjoint later.bytes earlier.bytes ∨ earlier.bytes ⊆ later.interior

/-- No two payloads start at the same address. -/
theorem Watched.lo_inj {area : Area} {live : Live} {d : Driver σ} (w : Watched area live d)
    {e e' : BitVec 32 × Size} (he : e ∈ live) (he' : e' ∈ live)
    (heq : (d.payload e).lo = (d.payload e').lo) : e = e' := by
  have hdistinct : (live.map fun e => (d.payload e).lo).Nodup := by
    have hlos : (d.ranges.map Range.lo).Nodup := by
      refine List.pairwise_map.mpr (w.apart.imp_of_mem ?_)
      intro later earlier hlater hearlier happart hlo
      have hfirst : earlier.lo.toNat ∈ earlier.bytes :=
        ⟨Nat.le_refl _, (w.legal earlier hearlier).lo_le_hi⟩
      rcases happart with hdisjoint | hinside
      · rw [Set.disjoint_left] at hdisjoint
        exact hdisjoint ⟨(congrArg BitVec.toNat hlo).le,
          hlo ▸ (w.legal later hlater).lo_le_hi⟩ hfirst
      · exact absurd (hinside hfirst).1 (hlo ▸ lt_irrefl _)
    rwa [w.ranges, List.map_map] at hlos
  exact List.inj_on_of_nodup_map hdistinct he he' heq

/-- Taking out the record that starts at the payload of a block takes out the
    record of this block. -/
theorem Watched.removeRange {area : Area} {live : Live} {d : Driver σ} (w : Watched area live d)
    {index : BitVec 32} {p : Addr} (hindex : index ∈ live.map Prod.fst)
    (hp : loadAt d.blocks index = some p) :
    removeRange d.ranges p = (live.eraseP (·.1 == index)).map d.payload := by
  obtain ⟨⟨i, n⟩, he, hi⟩ := List.mem_map.mp hindex
  obtain rfl : i = index := hi
  have hlo : (d.payload (i, n)).lo = p := Option.some.inj ((w.blocks _ he).symm.trans hp)
  rw [MallocLab.removeRange, w.ranges, List.eraseP_map]
  refine congrArg _ (eraseP_congr fun e he' => ?_)
  rw [Bool.eq_iff_iff]
  simp only [Function.comp_apply, beq_iff_eq]
  constructor
  · intro heq
    exact congrArg Prod.fst (w.lo_inj he' he (heq.trans hlo.symm))
  · intro heq
    have hsame := w.blocks e he'
    rw [heq, hp] at hsame
    exact (Option.some.inj hsame).symm

/-- A block is taken out of the list. -/
theorem Watched.remove {area : Area} {live : Live} {d : Driver σ} (w : Watched area live d)
    {index : BitVec 32} {p : Addr} (hindex : index ∈ live.map Prod.fst)
    (hp : loadAt d.blocks index = some p) {heap : Heap} (data : σ) (hheap : Within area heap) :
    Watched area (live.eraseP (·.1 == index))
      { d with heap := heap, data := data, ranges := MallocLab.removeRange d.ranges p } where
  within := hheap
  ids := nodup_erase w.ids index
  blocks e he := w.blocks e (List.mem_of_mem_eraseP he)
  sizes e he := w.sizes e (List.mem_of_mem_eraseP he)
  ranges := w.removeRange hindex hp
  legal r hr := w.legal r (List.mem_of_mem_eraseP hr)
  apart := w.apart.sublist List.eraseP_sublist

theorem memset_eq {heap heap' : Heap} {p : Addr} {index size : BitVec 32}
    (h : memset heap p index size = some heap') :
    heap' =
      { heap with mem := write heap.mem p.toNat (List.replicate size.toNat (fillByte index)) } := by
  unfold memset at h
  split at h
  · exact (Option.some.inj h).symm
  · cases h

/-- A block is put on the list. -/
theorem Watched.add {area : Area} {live : Live} {d d' : Driver σ} (w : Watched area live d)
    {index size : BitVec 32} {p : Addr} (hindex : index ∉ live.map Prod.fst)
    (ha : Accepted d.ranges d.heap p size)
    (hr : Remembered { d with ranges := payloadRange p size :: d.ranges } index p size d') :
    Watched area ((index, size) :: live) d' := by
  obtain ⟨hblocks, hsizes, hfill, heq⟩ := hr
  have hmem := memset_eq hfill
  have hlegal := ha.legal w.within
  have hnew : d'.payload (index, size) = payloadRange p size := by
    rw [heq]
    simp only [Driver.payload, loadAt_set_self hblocks, Option.getD_some]
  have hne : ∀ e ∈ live, e.1 ≠ index := fun e he h => hindex (List.mem_map.mpr ⟨e, he, h⟩)
  -- the other blocks are recorded at other ids
  have hload : ∀ e ∈ live, loadAt d'.blocks e.1 = loadAt d.blocks e.1 := by
    intro e he
    rw [heq]
    exact loadAt_set_ne d.blocks (hne e he) p
  have hold : ∀ e ∈ live, d'.payload e = d.payload e := by
    intro e he
    rw [Driver.payload, Driver.payload, hload e he]
  have hranges : d'.ranges = payloadRange p size :: d.ranges := by rw [heq]
  refine ⟨?_, List.nodup_cons.mpr ⟨hindex, w.ids⟩, ?_, ?_, ?_, ?_, ?_⟩
  · rw [hmem]
    exact ⟨w.within.start, w.within.start_pos, w.within.max, w.within.le_brk, w.within.brk_le⟩
  · refine List.forall_mem_cons.mpr ⟨?_, ?_⟩
    · rw [hnew, heq]
      exact loadAt_set_self hblocks p
    · intro e he
      rw [hload e he, hold e he]
      exact w.blocks e he
  · refine List.forall_mem_cons.mpr ⟨?_, ?_⟩
    · rw [heq]
      exact loadAt_set_self hsizes size
    · intro e he
      rw [heq]
      exact (loadAt_set_ne d.blockSizes (hne e he) size).trans (w.sizes e he)
  · rw [hranges, List.map_cons, hnew, w.ranges]
    exact congrArg _ (List.map_congr_left fun e he => (hold e he).symm)
  · rw [hranges]
    exact List.forall_mem_cons.mpr ⟨hlegal, w.legal⟩
  · rw [hranges]
    exact List.pairwise_cons.mpr ⟨((accepted_iff w.within ha.positive).mp ha).2.2, w.apart⟩

/-- One accepted request. -/
theorem Watched.evalOp {pkg : Package σ} {area : Area} (hpkg : pkg.StaysWithin area)
    {numIds : Nat} {live : Live} {d d' : Driver σ} (w : Watched area live d) {op : TraceOp}
    (hlegit : op.Legit numIds live) {tracenum i : Nat}
    (h : evalOp pkg tracenum i d op = .ok (true, d')) : Watched area (op.after live) d' := by
  cases op with
  | alloc index size =>
    obtain ⟨p, heap, data, hmalloc, _, ha, hr⟩ := evalOp_alloc_iff.mp h
    have hheap := hpkg.mmMalloc w.within hmalloc
    have w' : Watched area live { d with heap := heap, data := data } :=
      ⟨hheap, w.ids, w.blocks, w.sizes, w.ranges, w.legal, w.apart⟩
    exact w'.add hlegit.2.1 ha hr
  | free index =>
    obtain ⟨p, heap, data, hp, hfree, rfl⟩ := evalOp_free_iff.mp h
    exact w.remove hlegit hp data (hpkg.mmFree w.within hfree)
  | realloc index size =>
    obtain ⟨oldp, newp, heap, data, _, hold, hrealloc, _, ha, _, _, hr⟩ := evalOp_realloc_iff.mp h
    have w' := w.remove hlegit.1 hold data (hpkg.mmRealloc w.within hrealloc)
    exact w'.add (notMem_erase w.ids index) ha hr

theorem Watched.evalOps {pkg : Package σ} {area : Area} (hpkg : pkg.StaysWithin area)
    {numIds : Nat} {tracenum : Nat} {ops : List TraceOp} :
    ∀ {i : Nat} {live : Live} {d d' : Driver σ}, Watched area live d → Proper numIds live ops →
      evalOps pkg tracenum i d ops = .ok (true, d') → Watched area (liveAfter live ops) d' := by
  induction ops with
  | nil =>
    intro i live d d' w _ h
    cases h
    exact w
  | cons op ops ih =>
    intro i live d d' w hproper h
    simp only [MallocLab.evalOps, bind_eq_ok] at h
    obtain ⟨⟨valid, d₁⟩, hop, h⟩ := h
    cases valid with
    | false => cases h
    | true => exact ih (w.evalOp hpkg hproper.1 hop) hproper.2 h

/-! ## Section 5: Accepted packages -/

/-- What an accepted package has done: the range list shows the allocated
    payloads, each is aligned and inside the area, and each is apart from
    those that were there when it came, or has them in its interior. -/
structure Payloads (area : Area) (live : Live) (d : Driver σ) : Prop where
  ranges : d.ranges = live.map d.payload
  legal : ∀ r ∈ d.ranges, r.Legal area
  apart : d.ranges.Pairwise fun later earlier =>
    Disjoint later.bytes earlier.bytes ∨ earlier.bytes ⊆ later.interior

theorem Watched.payloads {area : Area} {live : Live} {d : Driver σ} (w : Watched area live d) :
    Payloads area live d where
  ranges := w.ranges
  legal := w.legal
  apart := w.apart

/-- The state in which `eval_mm_valid` starts to replay. -/
theorem evalMmValid_eq_ok {pkg : Package σ} {tracenum : Nat} {trace : Trace} {d d' : Driver σ}
    (h : evalMmValid pkg tracenum trace d = .ok (true, d')) :
    ∃ r heap data, pkg.mmInit (memResetBrk d.heap) d.data = some (r, heap, data) ∧ 0 ≤ r.toInt ∧
      evalOps pkg tracenum 0 { d with heap := heap, data := data, ranges := [] } trace.ops =
        .ok (true, d') := by
  simp only [evalMmValid, bind_eq_ok, defined_eq_ok] at h
  obtain ⟨⟨r, heap, data⟩, hinit, h⟩ := h
  split at h
  · cases h
  · next hnonneg => exact ⟨r, heap, data, hinit, not_lt.mp hnonneg, h⟩

theorem Within.reset {area : Area} {heap : Heap} (h : Within area heap) :
    Within area (memResetBrk heap) where
  start := h.start
  start_pos := h.start_pos
  max := h.max
  le_brk := (congrArg BitVec.toNat h.start).ge
  brk_le := (congrArg BitVec.toNat h.start).le.trans (Nat.le_add_right _ _)

theorem evalOps_append {pkg : Package σ} {tracenum : Nat} {done rest : List TraceOp} :
    ∀ {i : Nat} {d d' : Driver σ}, evalOps pkg tracenum i d (done ++ rest) = .ok (true, d') →
      ∃ d₁, evalOps pkg tracenum i d done = .ok (true, d₁) := by
  induction done with
  | nil => exact fun _ => ⟨_, rfl⟩
  | cons op done ih =>
    intro i d d' h
    simp only [List.cons_append, evalOps, bind_eq_ok] at h ⊢
    obtain ⟨⟨valid, d₁⟩, hop, h⟩ := h
    cases valid with
    | false => cases h
    | true =>
      obtain ⟨d₂, hrest⟩ := ih h
      exact ⟨d₂, (true, d₁), hop, hrest⟩

theorem Proper.of_append {numIds : Nat} {done rest : List TraceOp} :
    ∀ {live : Live}, Proper numIds live (done ++ rest) → Proper numIds live done := by
  induction done with
  | nil => exact fun _ => trivial
  | cons op done ih => exact fun h => ⟨h.1, ih h.2⟩

/-- An area from which no sum of an address and an `int` leads beyond
    2 ^ 32. -/
def Low (area : Area) : Prop := 0 < area.start.toNat ∧ area.start.toNat + MAX_HEAP + 2 ^ 31 ≤ 2 ^ 32

theorem Within.memSbrk {area : Area} (hlow : Low area) {heap : Heap} (h : Within area heap)
    (incr : BitVec 32) :
    Within area (memSbrk heap incr).2 := by
  obtain ⟨hstart, hpos, hmax, hle, hbrk⟩ := h
  unfold MallocLab.memSbrk
  split
  · exact ⟨hstart, hpos, hmax, hle, hbrk⟩
  · next hok =>
    obtain ⟨hsign, hroom⟩ := not_or.mp hok
    rw [toInt_neg_iff] at hsign
    obtain ⟨_, htop⟩ := hlow
    have hsum : (heap.memBrk + incr).toNat = heap.memBrk.toNat + incr.toNat :=
      BitVec.toNat_add_of_lt (by omega)
    have hroom' : (heap.memBrk + incr).toNat ≤ heap.memMaxAddr.toNat := BitVec.not_lt.mp hroom
    refine ⟨hstart, hpos, hmax, ?_, hmax ▸ hroom'⟩
    show area.start.toNat ≤ (heap.memBrk + incr).toNat
    omega

theorem Within.withMem {area : Area} {heap : Heap} (h : Within area heap) (mem : Memory) :
    Within area { heap with mem := mem } := ⟨h.start, h.start_pos, h.max, h.le_brk, h.brk_le⟩

theorem Within.mmMalloc {area : Area} (hlow : Low area) {heap heap' : Heap} (h : Within area heap)
    {size : Size} {p : Addr} (hrun : mmMalloc heap size = some (p, heap')) : Within area heap' := by
  have hsbrk := h.memSbrk hlow (align (size + SIZE_T_SIZE))
  unfold MallocLab.mmMalloc at hrun
  dsimp only at hrun
  split at hrun
  · cases hrun
    exact hsbrk
  · obtain ⟨heap₁, hstore, heq⟩ := Option.map_eq_some_iff.mp hrun
    cases heq
    unfold storeSize at hstore
    split at hstore
    · cases hstore
      exact hsbrk.withMem _
    · cases hstore

/-- `mm.c` does not leave such an area. -/
theorem naive_staysWithin {area : Area} (hlow : Low area) : naive.StaysWithin area where
  mmInit h hrun := by
    cases hrun
    exact h
  mmMalloc h hrun := by
    obtain ⟨⟨p, heap⟩, hmalloc, heq⟩ := Option.map_eq_some_iff.mp hrun
    cases heq
    exact h.mmMalloc hlow hmalloc
  mmFree h hrun := by
    cases hrun
    exact h
  mmRealloc h hrun := by
    obtain ⟨⟨p, heap⟩, hrealloc, heq⟩ := Option.map_eq_some_iff.mp hrun
    cases heq
    rcases mmRealloc_cases hrealloc with ⟨_, hmalloc⟩ | ⟨heap₁, copySize, _, hmalloc, _, hcopy⟩
    · exact h.mmMalloc hlow hmalloc
    · rw [memcpy_eq hcopy]
      exact (h.mmMalloc hlow hmalloc).withMem _

/-- The variables of `main` after `mem_init`. -/
def Driver.start (area : Area) (mem : Memory) (data : σ) : Driver σ where
  heap := memInit area mem
  data := data
  ranges := []
  blocks := []
  blockSizes := []
  errors := 0
  printed := []

/-- The arrays have been allocated. -/
def Driver.withArrays (d : Driver σ) (numIds : Nat) : Driver σ :=
  { d with blocks := List.replicate numIds none, blockSizes := List.replicate numIds none }

theorem within_memInit {area : Area} (hpos : 0 < area.start.toNat) (mem : Memory) :
    Within area (memInit area mem) where
  start := rfl
  start_pos := hpos
  max := toNat_maxAddr area mem
  le_brk := Nat.le_refl _
  brk_le := Nat.le_add_right _ _

theorem lowArea_low : Low lowArea := by
  unfold Low
  decide

/-- Two blocks, of which the first is freed and the second is resized. -/
def shortTrace : Trace := ⟨none, 2, none, [.alloc 0 24, .alloc 1 5, .free 0, .realloc 1 9]⟩

/-- `main` with the arrays for two ids. -/
def twoIds : Driver Unit := (Driver.start lowArea (fun _ => 0) ()).withArrays 2

/-- The arrays keep their sizes. -/
theorem evalOp_lengths {pkg : Package σ} {tracenum i : Nat} {d d' : Driver σ} {op : TraceOp}
    (h : evalOp pkg tracenum i d op = .ok (true, d')) :
    d'.blocks.length = d.blocks.length ∧ d'.blockSizes.length = d.blockSizes.length := by
  cases op with
  | alloc index size =>
    obtain ⟨p, heap, data, _, _, _, hr⟩ := evalOp_alloc_iff.mp h
    rw [hr.eq]
    exact ⟨List.length_set, List.length_set⟩
  | free index =>
    obtain ⟨p, heap, data, _, _, rfl⟩ := evalOp_free_iff.mp h
    exact ⟨rfl, rfl⟩
  | realloc index size =>
    obtain ⟨oldp, newp, heap, data, _, _, _, _, _, _, _, hr⟩ := evalOp_realloc_iff.mp h
    rw [hr.eq]
    exact ⟨List.length_set, List.length_set⟩

theorem evalOps_lengths {pkg : Package σ} {tracenum : Nat} {ops : List TraceOp} :
    ∀ {i : Nat} {d d' : Driver σ},
    evalOps pkg tracenum i d ops = .ok (true, d') →
      d'.blocks.length = d.blocks.length ∧ d'.blockSizes.length = d.blockSizes.length := by
  induction ops with
  | nil =>
    intro i d d' h
    cases h
    exact ⟨rfl, rfl⟩
  | cons op ops ih =>
    intro i d d' h
    simp only [evalOps, bind_eq_ok] at h
    obtain ⟨⟨valid, d₁⟩, hop, h⟩ := h
    cases valid with
    | false => cases h
    | true =>
      have hthis := evalOp_lengths hop
      have hrest := ih h
      exact ⟨hrest.1.trans hthis.1, hrest.2.trans hthis.2⟩

theorem Proper.last {numIds : Nat} {done : List TraceOp} {op : TraceOp} :
    ∀ {live : Live}, Proper numIds live (done ++ [op]) → op.Legit numIds (liveAfter live done) := by
  induction done with
  | nil => exact fun h => h.1
  | cons _ _ ih => exact fun h => ih h.2

/-- In every state of every accepted run, the block that `mm_malloc` returns
    next is accepted exactly when it is aligned and inside the heap, and each
    allocated payload is disjoint from it or in its interior. -/
theorem alloc_accepted_iff {pkg : Package σ} {area : Area} (hpkg : pkg.StaysWithin area)
    {tracenum : Nat} {numIds : Nat} {d d₁ : Driver σ} (hheap : Within area d.heap)
    (hranges : d.ranges = []) (hblocks : d.blocks.length = numIds)
    (hsizes : d.blockSizes.length = numIds) {done : List TraceOp} {index size : BitVec 32}
    (hproper : Proper numIds [] (done ++ [.alloc index size]))
    (hdone : evalOps pkg tracenum 0 d done = .ok (true, d₁)) {p : Addr} {heap : Heap} {data : σ}
    (hmalloc : pkg.mmMalloc d₁.heap d₁.data size = some (p, heap, data)) :
    (∃ d', evalOp pkg tracenum done.length d₁ (.alloc index size) = .ok (true, d')) ↔
      8 ∣ p.toNat ∧ (area.start.toNat ≤ p.toNat ∧ p.toNat + size.toNat ≤ heap.memBrk.toNat) ∧
        ∀ e ∈ liveAfter [] done, Disjoint (payloadRange p size).bytes (d₁.payload e).bytes ∨
          (d₁.payload e).bytes ⊆ (payloadRange p size).interior := by
  have w₀ : Watched area [] d :=
    { within := hheap
      ids := List.nodup_nil
      blocks := List.forall_mem_nil _
      sizes := List.forall_mem_nil _
      ranges := hranges
      legal := hranges ▸ List.forall_mem_nil _
      apart := hranges ▸ List.Pairwise.nil }
  -- the checker has kept its invariant up to this request
  have w := w₀.evalOps hpkg hproper.of_append hdone
  obtain ⟨hindex, _, hpos⟩ := hproper.last
  have hnext := hpkg.mmMalloc w.within hmalloc
  have hranges' : ∀ P : Range → Prop, (∀ r ∈ d₁.ranges, P r) ↔
      ∀ e ∈ liveAfter [] done, P (d₁.payload e) := by
    intro P
    rw [w.ranges]
    exact List.forall_mem_map
  rw [← hranges' fun r => Disjoint (payloadRange p size).bytes r.bytes ∨
    r.bytes ⊆ (payloadRange p size).interior,
    ← accepted_iff hnext hpos]
  constructor
  · rintro ⟨d', h⟩
    obtain ⟨p', heap', data', hrun, _, ha, _⟩ := evalOp_alloc_iff.mp h
    cases hmalloc.symm.trans hrun
    exact ha
  · intro ha
    have hlo := ((accepted_iff hnext hpos).mp ha).2.1
    have hne : p ≠ NULL := by
      rintro rfl
      exact absurd hlo.1 (not_le.mpr hnext.start_pos)
    have hcontains : heap.Contains p size.toNat := by
      have hstart := hnext.start
      have hmax := hnext.max
      have hbrk := hnext.brk_le
      exact ⟨hstart ▸ hlo.1, by omega⟩
    -- once the block is accepted, filling it and recording it cannot fail
    obtain ⟨hb, hs⟩ := evalOps_lengths hdone
    have hin_blocks : index.toNat < d₁.blocks.length := by omega
    have hin_sizes : index.toNat < d₁.blockSizes.length := by omega
    have hfill : memset heap p index size = some
        { heap with
          mem := write heap.mem p.toNat (List.replicate size.toNat (fillByte index)) } :=
      if_pos hcontains
    obtain ⟨d', hd'⟩ : ∃ d', Remembered
        { d₁ with heap := heap, data := data, ranges := payloadRange p size :: d₁.ranges }
        index p size d' := ⟨{ d₁ with
          heap := { heap with
            mem := write heap.mem p.toNat (List.replicate size.toNat (fillByte index)) }
          data := data
          ranges := payloadRange p size :: d₁.ranges
          blocks := d₁.blocks.set index.toNat (some p)
          blockSizes := d₁.blockSizes.set index.toNat (some size) },
        hin_blocks, hin_sizes, hfill, rfl⟩
    exact ⟨d', evalOp_alloc_iff.mpr ⟨p, heap, data, hmalloc, hne, ha, hd'⟩⟩

/-- A package that has 64 bytes, and hands out the whole of them to large
    requests and a part to small ones. -/
def nesting : Package Unit where
  mmInit heap data := some (0, (memSbrk heap 64).2, data)
  mmMalloc heap data size := some (heap.memStartBrk + if size.toNat ≤ 8 then 16 else 0, heap, data)
  mmFree heap data _ := some (heap, data)
  mmRealloc heap data ptr _ := some (ptr, heap, data)

theorem nesting_staysWithin {area : Area} (hlow : Low area) : nesting.StaysWithin area where
  mmInit h hrun := by
    cases hrun
    exact h.memSbrk hlow 64
  mmMalloc h hrun := by
    cases hrun
    exact h
  mmFree h hrun := by
    cases hrun
    exact h
  mmRealloc h hrun := by
    cases hrun
    exact h

/-- A block is accepted that encloses an allocated one. -/
theorem alloc_accepted_nesting : ∃ d₁ d' : Driver Unit,
    evalOp nesting 0 1 d₁ (.alloc 1 40) = .ok (true, d') ∧
      ¬ Disjoint (payloadRange 0x08000000 40).bytes (d₁.payload (0, 8)).bytes := by
  let d : Driver Unit := { twoIds with heap := (memSbrk twoIds.heap 64).2 }
  have hwithin : Within lowArea d.heap :=
    (within_memInit (by decide) fun _ => 0).memSbrk lowArea_low 64
  have hrun : ((evalOps nesting 0 0 d [.alloc 0 8]).toOption.any fun r =>
      decide (r.1 = true ∧ r.2.heap.memStartBrk = 0x08000000 ∧ r.2.heap.memBrk = 0x08000040 ∧
        r.2.payload (0, 8) = ⟨0x08000010, 0x08000017⟩)) = true := by decide +kernel
  obtain ⟨⟨valid, d₁⟩, hdone, htest⟩ := exists_ok hrun
  obtain ⟨hvalid, hstart, hbrk, hpayload⟩ := of_decide_eq_true htest
  obtain rfl : valid = true := hvalid
  have hmalloc : nesting.mmMalloc d₁.heap d₁.data 40 = some (0x08000000, d₁.heap, d₁.data) := by
    show some (d₁.heap.memStartBrk + 0, d₁.heap, d₁.data) = _
    rw [hstart]
    rfl
  have hinside : (d₁.payload (0, 8)).bytes ⊆ (payloadRange 0x08000000 40).interior := by
    show (d₁.payload (0, 8)).bytes ⊆ _
    rw [hpayload]
    exact Set.Icc_subset_Ioo (by decide) (by decide)
  have hproper : Proper 2 [] ([.alloc 0 8] ++ [.alloc 1 40]) := by decide
  obtain ⟨d', hd'⟩ :=
    (alloc_accepted_iff (nesting_staysWithin lowArea_low) hwithin rfl rfl rfl hproper hdone
      hmalloc).mpr
    ⟨by decide, by rw [hbrk]; decide, List.forall_mem_singleton.mpr (.inr hinside)⟩
  refine ⟨d₁, d', hd', ?_⟩
  rw [hpayload, Set.not_disjoint_iff]
  exact ⟨0x08000010, ⟨by decide, by decide⟩, ⟨by decide, by decide⟩⟩

end MallocLab
