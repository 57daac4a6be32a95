import CsappExperiments.CacheLab.Lru
import Mathlib.Data.List.Forall2
import Mathlib.Data.List.Count
import Mathlib.Tactic.Tauto

/-! # Cache Lab: larger caches

    Two fresh caches that are given the same trace, compared position by
    position.

    * With more lines in each set, nothing that was a hit becomes a miss, and
      only an eviction can be an eviction (`outcomes_mono_lines`).
    * With twice as many sets, hits remain hits (`hits_mono_sets`), as long as
      addresses are told apart by what `splitAddr` makes of them. Addresses
      below `2 ^ 32` are.
-/

namespace CacheLab

/-! ## Section 1: Counting results -/

/-- What a trace adds to the counter `hit`. -/
def hits (outcomes : List Outcome) : Nat := outcomes.count .HIT

/-- What it adds to `miss`: an eviction is a miss as well. -/
def misses (outcomes : List Outcome) : Nat := outcomes.countP fun o => o ≠ .HIT

/-- What it adds to `eviction`. -/
def evictions (outcomes : List Outcome) : Nat := outcomes.count .EVICTION

theorem hits_add_misses (outcomes : List Outcome) :
    hits outcomes + misses outcomes = outcomes.length := by
  rw [List.length_eq_countP_add_countP fun o => o = Outcome.HIT]
  unfold hits misses List.count
  congr 1
  apply List.countP_congr
  intro o _
  simp

section Pointwise

variable {α β : Type*} {p : α → Bool} {q : β → Bool} {l₁ : List α} {l₂ : List β}

theorem countP_le_of_forall₂ (h : List.Forall₂ (fun x y => p x = true → q y = true) l₁ l₂) :
    l₁.countP p ≤ l₂.countP q := by
  induction h with
  | nil => exact Nat.le_refl _
  | @cons x y xs ys hxy _ ih =>
    rw [List.countP_cons, List.countP_cons]
    by_cases hx : p x = true
    · rw [if_pos hx, if_pos (hxy hx)]
      omega
    · rw [if_neg hx]
      omega

theorem getElem?_of_forall₂ {x : α} {y : β}
    (h : List.Forall₂ (fun x' y' => x' = x → y' = y) l₁ l₂) (i : Nat) (hi : l₁[i]? = some x) :
    l₂[i]? = some y := by
  induction h generalizing i with
  | nil => simp at hi
  | cons hxy _ ih =>
    cases i with
    | zero => simpa using hxy (by simpa using hi)
    | succ i => simpa using ih i (by simpa using hi)

end Pointwise

theorem hits_le_of_forall₂ {os₁ os₂ : List Outcome}
    (h : List.Forall₂ (fun o₁ o₂ => o₁ = Outcome.HIT → o₂ = Outcome.HIT) os₁ os₂) :
    hits os₁ ≤ hits os₂ := by
  apply countP_le_of_forall₂
  exact h.imp fun _ _ himp ho => by simpa using himp (by simpa using ho)

theorem misses_le_of_forall₂ {os₁ os₂ : List Outcome}
    (h : List.Forall₂ (fun o₁ o₂ => o₁ = Outcome.HIT → o₂ = Outcome.HIT) os₁ os₂) :
    misses os₂ ≤ misses os₁ := by
  have hle := hits_le_of_forall₂ h
  have hlen := h.length_eq
  have h₁ := hits_add_misses os₁
  have h₂ := hits_add_misses os₂
  omega

theorem evictions_le_of_forall₂ {os₁ os₂ : List Outcome}
    (h : List.Forall₂ (fun o₁ o₂ => o₂ = Outcome.EVICTION → o₁ = Outcome.EVICTION) os₁ os₂) :
    evictions os₂ ≤ evictions os₁ := by
  apply countP_le_of_forall₂
  exact h.flip.imp fun _ _ himp ho => by simpa using himp (by simpa using ho)

/-- Two fresh caches and one trace: a relation between the results of each
    access is a relation between the two lists of results. -/
theorem compare_runs {s₁ s₂ E₁ E₂ b : Nat} (hs₁ : s₁ ≤ 30) (hs₂ : s₂ ≤ 30) (hE₁ : 1 ≤ E₁)
    (hE₂ : 1 ≤ E₂)
    {R : Outcome → Outcome → Prop} (addrs : List Addr)
    (hR : ∀ i addr, addrs[i]? = some addr →
      R (outcomeAfter E₁ ((addrs.take i).map (splitAddr b s₁)) (splitAddr b s₁ addr))
        (outcomeAfter E₂ ((addrs.take i).map (splitAddr b s₂)) (splitAddr b s₂ addr))) :
    ∃ os₁ cache₁ os₂ cache₂, accessAll (createCache s₁ E₁ b) addrs = some (os₁, cache₁) ∧
      accessAll (createCache s₂ E₂ b) addrs = some (os₂, cache₂) ∧ os₁.length = addrs.length ∧
      os₂.length = addrs.length ∧ List.Forall₂ R os₁ os₂ := by
  obtain ⟨os₁, cache₁, hrun₁, _, hlen₁, hout₁⟩ :=
    accessAll_tracks hs₁ hE₁ addrs (tracks_createCache hs₁ b E₁)
  obtain ⟨os₂, cache₂, hrun₂, _, hlen₂, hout₂⟩ :=
    accessAll_tracks hs₂ hE₂ addrs (tracks_createCache hs₂ b E₂)
  refine ⟨os₁, cache₁, os₂, cache₂, hrun₁, hrun₂, hlen₁, hlen₂, ?_⟩
  apply List.forall₂_of_length_eq_of_get (hlen₁.trans hlen₂.symm)
  intro i hi₁ hi₂
  have hi : i < addrs.length := by omega
  have haddr : addrs[i]? = some addrs[i] := List.getElem?_eq_getElem hi
  have ho₁ := hout₁ i addrs[i] haddr
  have ho₂ := hout₂ i addrs[i] haddr
  rw [List.nil_append, List.getElem?_eq_getElem hi₁, Option.some_inj] at ho₁
  rw [List.nil_append, List.getElem?_eq_getElem hi₂, Option.some_inj] at ho₂
  show R os₁[i] os₂[i]
  rw [ho₁, ho₂]
  exact hR i addrs[i] haddr

/-! ## Section 2: More lines -/

theorem RecentlyUsed.mono {E₁ E₂ : Nat} {past : List Key} {k : Key} (h : RecentlyUsed E₁ past k)
    (hE : E₁ ≤ E₂) :
    RecentlyUsed E₂ past k := by
  obtain ⟨old, recent, heq, hnot, hlt⟩ := h
  exact ⟨old, recent, heq, hnot, Nat.lt_of_lt_of_le hlt hE⟩

theorem SetWasFull.anti {E₁ E₂ : Nat} {past : List Key} {k : Key} (h : SetWasFull E₂ past k)
    (hE : E₁ ≤ E₂) :
    SetWasFull E₁ past k := by
  unfold SetWasFull at *
  omega

/-- An access after the same history. -/
theorem outcomeAfter_mono {E₁ E₂ : Nat} (hE : E₁ ≤ E₂) (past : List Key) (k : Key) :
    (outcomeAfter E₁ past k = .HIT → outcomeAfter E₂ past k = .HIT) ∧
    (outcomeAfter E₂ past k = .EVICTION → outcomeAfter E₁ past k = .EVICTION) := by
  obtain ⟨hhit₁, hevict₁, _⟩ := outcomeAfter_spec E₁ past k
  obtain ⟨hhit₂, hevict₂, _⟩ := outcomeAfter_spec E₂ past k
  constructor
  · intro h
    exact hhit₂.mpr ((hhit₁.mp h).mono hE)
  · intro h
    obtain ⟨hnot, hfull⟩ := hevict₂.mp h
    exact hevict₁.mpr ⟨fun hrecent => hnot (hrecent.mono hE), hfull.anti hE⟩

/-- On any trace, a cache with more lines in each set has a hit wherever the
    smaller one has, and no more misses and evictions. There is one result for
    each access. -/
theorem outcomes_mono_lines {s E₁ E₂ : Nat} (hs : s ≤ 30) (hE₁ : 1 ≤ E₁) (hE : E₁ ≤ E₂) (b : Nat)
    (addrs : List Addr) :
    ∃ os₁ cache₁ os₂ cache₂, accessAll (createCache s E₁ b) addrs = some (os₁, cache₁) ∧
      accessAll (createCache s E₂ b) addrs = some (os₂, cache₂) ∧
      os₁.length = addrs.length ∧ os₂.length = addrs.length ∧
      (∀ i : Nat, os₁[i]? = some .HIT → os₂[i]? = some .HIT) ∧
      hits os₁ ≤ hits os₂ ∧ misses os₂ ≤ misses os₁ ∧ evictions os₂ ≤ evictions os₁ := by
  obtain ⟨os₁, cache₁, os₂, cache₂, hrun₁, hrun₂, hlen₁, hlen₂, hR⟩ :=
    compare_runs (b := b) hs hs hE₁ (hE₁.trans hE)
      (R := fun o₁ o₂ => (o₁ = .HIT → o₂ = .HIT) ∧ (o₂ = .EVICTION → o₁ = .EVICTION))
        addrs fun i addr _ =>
      outcomeAfter_mono hE ((addrs.take i).map (splitAddr b s)) (splitAddr b s addr)
  have hhit := hR.imp fun _ _ h => h.1
  have hevict := hR.imp fun _ _ h => h.2
  exact ⟨os₁, cache₁, os₂, cache₂, hrun₁, hrun₂, hlen₁, hlen₂, getElem?_of_forall₂ hhit,
    hits_le_of_forall₂ hhit,
    misses_le_of_forall₂ hhit, evictions_le_of_forall₂ hevict⟩

/-- One line and two lines: the second access is a hit in both, the last one
    with two lines only. -/
theorem outcomes_mono_lines_run :
    ∃ os₁ cache₁ os₂ cache₂, accessAll (createCache 0 1 4) [0x20#64, 0x2f#64, 0x47#64, 0x20#64] =
      some (os₁, cache₁) ∧
      accessAll (createCache 0 2 4) [0x20#64, 0x2f#64, 0x47#64, 0x20#64] = some (os₂, cache₂) ∧
      os₁ = [.MISS, .HIT, .EVICTION, .EVICTION] ∧ os₂.length = 4 ∧ os₂[1]? = some .HIT ∧
      hits os₁ ≤ hits os₂ ∧ misses os₂ ≤ misses os₁ ∧ evictions os₂ ≤ evictions os₁ := by
  obtain ⟨os₁, cache₁, os₂, cache₂, hrun₁, hrun₂, _, hlen₂, hhit, hcounts⟩ :=
    outcomes_mono_lines (by decide : 0 ≤ 30) (by decide : 1 ≤ 1) (by decide : 1 ≤ 2) 4
      [0x20#64, 0x2f#64, 0x47#64, 0x20#64]
  have hresults : (accessAll (createCache 0 1 4) [0x20#64, 0x2f#64, 0x47#64, 0x20#64]).map Prod.fst
      = some [.MISS, .HIT, .EVICTION, .EVICTION] := by
    decide +kernel
  rw [hrun₁] at hresults
  obtain rfl := Option.some.inj hresults
  exact ⟨_, cache₁, os₂, cache₂, hrun₁, hrun₂, rfl, hlen₂, hhit 1 rfl, hcounts⟩

/-! ## Section 3: More sets -/

/-- The number of the memory block of an address, for addresses that are not negative. -/
def block (b : Nat) (addr : Addr) : Nat := addr.toNat / 2 ^ b

/-- What `splitAddr` makes of the addresses in a block. -/
def blockKey (s n : Nat) : Key := (BitVec.ofNat 32 (n % 2 ^ s), BitVec.ofNat 32 (n / 2 ^ s))

theorem block_lt {b : Nat} {addr : Addr} (haddr : addr.toNat < 2 ^ 32) : block b addr < 2 ^ 32 :=
  Nat.lt_of_le_of_lt (Nat.div_le_self _ _) haddr

theorem splitAddr_eq_blockKey {s b : Nat} (hs : s ≤ 30) {addr : Addr}
    (haddr : addr.toNat < 2 ^ 32) :
    splitAddr b s addr = blockKey s (block b addr) := by
  have hmsb : addr.msb = false := BitVec.msb_eq_false_iff_two_mul_lt.mpr (by omega)
  have hshift : (addr.sshiftRight b).toNat = block b addr := by
    rw [BitVec.toNat_sshiftRight_of_msb_false hmsb, Nat.shiftRight_eq_div_pow, block]
  have hmsb' : (addr.sshiftRight b).msb = false := by
    rw [BitVec.msb_sshiftRight, hmsb]
  apply Prod.ext
  · apply BitVec.eq_of_toNat_eq
    show ((addr.sshiftRight b &&& genMask s).setWidth 32).toNat = _
    rw [BitVec.toNat_setWidth, BitVec.toNat_and, genMask_toNat (by omega),
      Nat.and_two_pow_sub_one_eq_mod, hshift]
    simp [blockKey]
  · apply BitVec.eq_of_toNat_eq
    show (((addr.sshiftRight b).sshiftRight s).setWidth 32).toNat = _
    rw [BitVec.toNat_setWidth, BitVec.toNat_sshiftRight_of_msb_false hmsb', hshift,
      Nat.shiftRight_eq_div_pow]
    simp [blockKey]

/-- Small blocks are told apart by set and tag. -/
theorem blockKey_inj {s n m : Nat} (hs : s ≤ 30) (hn : n < 2 ^ 32) (hm : m < 2 ^ 32)
    (h : blockKey s n = blockKey s m) : n = m := by
  have hpow : 2 ^ s ≤ 2 ^ 30 := Nat.pow_le_pow_right (by decide) hs
  have hpos : 0 < 2 ^ s := Nat.two_pow_pos s
  have hset : n % 2 ^ s = m % 2 ^ s := by
    have hcongr := congrArg (fun k : Key => k.1.toNat) h
    have hn' := Nat.mod_lt n hpos
    have hm' := Nat.mod_lt m hpos
    simp only [blockKey, BitVec.toNat_ofNat] at hcongr
    omega
  have htag : n / 2 ^ s = m / 2 ^ s := by
    have hcongr := congrArg (fun k : Key => k.2.toNat) h
    have hn' : n / 2 ^ s < 2 ^ 32 := Nat.lt_of_le_of_lt (Nat.div_le_self _ _) hn
    have hm' : m / 2 ^ s < 2 ^ 32 := Nat.lt_of_le_of_lt (Nat.div_le_self _ _) hm
    simpa only [blockKey, BitVec.toNat_ofNat, Nat.mod_eq_of_lt hn',
      Nat.mod_eq_of_lt hm'] using hcongr
  rw [← Nat.div_add_mod n (2 ^ s), hset, htag, Nat.div_add_mod]

/-- Every set of the larger cache belongs to one set of the smaller one. -/
theorem blockKey_set_of_succ {s n m : Nat} (hs : s ≤ 29)
    (h : (blockKey (s + 1) n).1 = (blockKey (s + 1) m).1) :
    (blockKey s n).1 = (blockKey s m).1 := by
  have hpow : 2 ^ (s + 1) ≤ 2 ^ 30 := Nat.pow_le_pow_right (by decide) (by omega)
  have hpos : 0 < 2 ^ (s + 1) := Nat.two_pow_pos (s + 1)
  have hset : n % 2 ^ (s + 1) = m % 2 ^ (s + 1) := by
    have hcongr := congrArg BitVec.toNat h
    have hn := Nat.mod_lt n hpos
    have hm := Nat.mod_lt m hpos
    simp only [blockKey, BitVec.toNat_ofNat] at hcongr
    omega
  have hdvd : 2 ^ s ∣ 2 ^ (s + 1) := Nat.pow_dvd_pow 2 (Nat.le_succ s)
  have hset' : n % 2 ^ s = m % 2 ^ s := by
    rw [← Nat.mod_mod_of_dvd n hdvd, hset, Nat.mod_mod_of_dvd m hdvd]
  unfold blockKey
  rw [hset']

section Renaming

variable {α : Type*} [DecidableEq α] {f g : α → Key} {E : Nat} {past : List α} {a : α}

/-- The distinct keys in one set, and the elements that have them. -/
theorem toFinset_filter_map (f : α → Key) (l : List α) (i : BitVec 32) :
    ((l.map f).filter fun k => k.1 = i).toFinset =
      ((l.filter fun x => (f x).1 = i).toFinset).image f := by
  ext k
  simp only [List.mem_toFinset, List.mem_filter, List.mem_map, Finset.mem_image, decide_eq_true_eq]
  grind

/-- The same history under two ways to assign keys, both of which tell the
    accessed elements apart. When `g` shares the sets of `f` out further, what
    was recently used still is: fewer others of its set have been accessed. -/
theorem RecentlyUsed.of_finer (hf : Set.InjOn f {x | x ∈ a :: past})
    (hg : Set.InjOn g {x | x ∈ a :: past}) (hset : ∀ x, (g x).1 = (g a).1 → (f x).1 = (f a).1)
    (h : RecentlyUsed E (past.map f) (f a)) :
    RecentlyUsed E (past.map g) (g a) := by
  have ha : a ∈ a :: past := List.mem_cons_self
  obtain ⟨old', recent', heq, hnot, hlt⟩ := h
  obtain ⟨old, rest, hpast, rfl, hrest⟩ := List.map_eq_append_iff.mp heq
  obtain ⟨a', recent, rfl, hfa, rfl⟩ := List.map_eq_cons_iff.mp hrest
  have hrecent : ∀ x ∈ recent, x ∈ a :: past := by
    intro x hx
    rw [hpast]
    simp [hx]
  obtain rfl : a' = a := hf (by rw [hpast]; simp) ha hfa
  refine ⟨old.map g, recent.map g, by rw [hpast, List.map_append, List.map_cons], ?_, ?_⟩
  · intro hmem
    obtain ⟨x, hx, hgx⟩ := List.mem_map.mp hmem
    obtain rfl : x = a' := hg (hrecent x hx) ha hgx
    exact hnot (List.mem_map_of_mem hx)
  · -- the distinct others in the set of `a`, before and after
    let F := (recent.filter fun x => (f x).1 = (f a').1).toFinset
    let G := (recent.filter fun x => (g x).1 = (g a').1).toFinset
    have hGF : G ⊆ F := by
      intro x hx
      simp only [G, List.mem_toFinset, List.mem_filter, decide_eq_true_eq] at hx
      simp only [F, List.mem_toFinset, List.mem_filter, decide_eq_true_eq]
      exact ⟨hx.1, hset x hx.2⟩
    have hinj : Set.InjOn f F := by
      intro x hx y hy
      simp only [F, List.coe_toFinset, List.mem_filter] at hx hy
      exact hf (hrecent x hx.1) (hrecent y hy.1)
    rw [toFinset_filter_map, Finset.card_image_of_injOn hinj] at hlt
    rw [toFinset_filter_map]
    calc (G.image g).card ≤ G.card := Finset.card_image_le
      _ ≤ F.card := Finset.card_le_card hGF
      _ < E := hlt

end Renaming

/-- On a trace of 32-bit addresses, a cache with twice as many sets has a hit
    wherever the smaller one has. -/
theorem hits_mono_sets {s E : Nat} (hs : s ≤ 29) (hE : 1 ≤ E) (b : Nat) (addrs : List Addr)
    (haddrs : ∀ addr ∈ addrs, addr.toNat < 2 ^ 32) :
    ∃ os₁ cache₁ os₂ cache₂, accessAll (createCache s E b) addrs = some (os₁, cache₁) ∧
      accessAll (createCache (s + 1) E b) addrs = some (os₂, cache₂) ∧
      os₁.length = addrs.length ∧ os₂.length = addrs.length ∧
      (∀ i : Nat, os₁[i]? = some .HIT → os₂[i]? = some .HIT) ∧ hits os₁ ≤ hits os₂ := by
  have hs₁ : s ≤ 30 := by omega
  have hs₂ : s + 1 ≤ 30 := by omega
  -- set and tag are those of the block number, as no address has a bit above 31
  have hkeys : ∀ s' ≤ 30, ∀ i, (addrs.take i).map (splitAddr b s') =
      ((addrs.take i).map (block b)).map (blockKey s') := by
    intro s' hs' i
    rw [List.map_map]
    apply List.map_congr_left
    intro addr haddr
    exact splitAddr_eq_blockKey hs' (haddrs addr (List.mem_of_mem_take haddr))
  have hR : ∀ i addr, addrs[i]? = some addr →
      outcomeAfter E ((addrs.take i).map (splitAddr b s)) (splitAddr b s addr) = .HIT →
        outcomeAfter E ((addrs.take i).map (splitAddr b (s + 1)))
          (splitAddr b (s + 1) addr) = .HIT := by
    intro i addr hi hhit
    have haddr : addr.toNat < 2 ^ 32 := haddrs addr (List.mem_of_getElem? hi)
    have hsmall : ∀ n ∈ block b addr :: (addrs.take i).map (block b), n < 2 ^ 32 := by
      intro n hn
      rcases List.mem_cons.mp hn with rfl | hn
      · exact block_lt haddr
      · obtain ⟨addr', haddr', rfl⟩ := List.mem_map.mp hn
        exact block_lt (haddrs addr' (List.mem_of_mem_take haddr'))
    have hinj : ∀ s' ≤ 30,
        Set.InjOn (blockKey s') {n | n ∈ block b addr :: (addrs.take i).map (block b)} :=
      fun s' hs' n hn m hm => blockKey_inj hs' (hsmall n hn) (hsmall m hm)
    rw [hkeys s hs₁, splitAddr_eq_blockKey hs₁ haddr] at hhit
    rw [hkeys (s + 1) hs₂, splitAddr_eq_blockKey hs₂ haddr]
    apply (outcomeAfter_spec E _ _).1.mpr
    exact ((outcomeAfter_spec E _ _).1.mp hhit).of_finer (hinj s hs₁) (hinj (s + 1) hs₂)
      fun n => blockKey_set_of_succ hs
  obtain ⟨os₁, cache₁, os₂, cache₂, hrun₁, hrun₂, hlen₁, hlen₂, hhit⟩ :=
    compare_runs hs₁ hs₂ hE hE (R := fun o₁ o₂ => o₁ = .HIT → o₂ = .HIT) addrs hR
  exact ⟨os₁, cache₁, os₂, cache₂, hrun₁, hrun₂, hlen₁, hlen₂, getElem?_of_forall₂ hhit,
    hits_le_of_forall₂ hhit⟩

/-- One set and two sets: the second access is a hit in both. -/
theorem hits_mono_sets_run :
    ∃ os₁ cache₁ os₂ cache₂, accessAll (createCache 0 1 4) [0x20#64, 0x2f#64, 0x37#64, 0x20#64] =
      some (os₁, cache₁) ∧
      accessAll (createCache 1 1 4) [0x20#64, 0x2f#64, 0x37#64, 0x20#64] = some (os₂, cache₂) ∧
      os₁ = [.MISS, .HIT, .EVICTION, .EVICTION] ∧ os₂.length = 4 ∧ os₂[1]? = some .HIT ∧
        hits os₁ ≤ hits os₂ := by
  obtain ⟨os₁, cache₁, os₂, cache₂, hrun₁, hrun₂, _, hlen₂, hhit, hcount⟩ :=
    hits_mono_sets (by decide : 0 ≤ 29) (by decide : 1 ≤ 1) 4
      [0x20#64, 0x2f#64, 0x37#64, 0x20#64] (by simp)
  have hresults : (accessAll (createCache 0 1 4) [0x20#64, 0x2f#64, 0x37#64, 0x20#64]).map Prod.fst
      = some [.MISS, .HIT, .EVICTION, .EVICTION] := by
    decide +kernel
  rw [hrun₁] at hresults
  obtain rfl := Option.some.inj hresults
  exact ⟨_, cache₁, os₂, cache₂, hrun₁, hrun₂, rfl, hlen₂, hhit 1 rfl, hcount⟩

end CacheLab
