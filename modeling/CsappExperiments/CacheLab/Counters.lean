import CsappExperiments.CacheLab.SetIndependence
import CsappExperiments.CacheLab.TraceLine

/-! # Cache Lab: the counters of a trace

    `analyseOneLine` updates the three counters, `addCacheLine` the sizes of
    the sets, and `accessMem` decides between them before either does. They
    agree in every branch, so over a whole trace

    * `hit + miss` is the number of data lines and of `M` lines together;
    * `miss - eviction` is the number of resident lines

    (`Balanced`). What stands against it is the buffer `str` of 80 bytes: a
    line can be longer than the message buffer allows (`Fits`).
-/

open CLib

namespace CacheLab

/-! ## Section 1: Resident lines -/

/-- The number of resident lines. -/
def occupied (cache : Cache) : Nat := (cache.cacheSets.map CacheSet.size).sum

theorem hitCacheLine_size {set set' : CacheSet} {t : Tag} (h : hitCacheLine set t = some set') :
    set'.size = set.size := by
  obtain ⟨lines, _, rfl⟩ := Option.map_eq_some_iff.mp h
  rfl

theorem addCacheLine_size {set set' : CacheSet} {t : Tag} (h : addCacheLine set t = some set') :
    set'.size = if set.size < set.capacity then set.size + 1 else set.size := by
  obtain ⟨lines, _, rfl⟩ := Option.map_eq_some_iff.mp h
  rfl

theorem accessSet_size {set set' : CacheSet} {t : Tag} {res : Outcome}
    (h : accessSet set t = some (res, set')) :
    set'.size = set.size + if res = .MISS then 1 else 0 := by
  obtain ⟨_, rfl, hhit⟩ | ⟨_, rfl, hadd⟩ := accessSet_cases h
  · exact hitCacheLine_size hhit
  · rw [addCacheLine_size hadd]
    by_cases hfull : set.size < set.capacity <;> simp [hfull]

theorem sum_map_set {α : Type*} (f : α → Nat) {l : List α} {i : Nat} {a : α} (h : l[i]? = some a)
    (a' : α) :
    ((l.set i a').map f).sum + f a = (l.map f).sum + f a' := by
  induction l generalizing i with
  | nil => simp at h
  | cons x l ih =>
    cases i with
    | zero =>
      obtain rfl : x = a := by simpa using h
      simp only [List.set_cons_zero, List.map_cons, List.sum_cons]
      omega
    | succ i =>
      have hrest := ih (by simpa using h : l[i]? = some a)
      simp only [List.set_cons_succ, List.map_cons, List.sum_cons]
      omega

/-- Only a miss that evicts nothing adds a line. -/
theorem occupied_accessMem {cache cache' : Cache} {addr : Addr} {res : Outcome}
    (h : accessMem cache addr = some (res, cache')) :
    occupied cache' = occupied cache + if res = .MISS then 1 else 0 := by
  obtain ⟨setIndex, tagIndex, set, set', _, hset, haccess, rfl⟩ := accessMem_cases h
  have hsum := sum_map_set CacheSet.size hset set'
  have hsize := accessSet_size haccess
  show ((cache.cacheSets.set setIndex.toNat set').map CacheSet.size).sum = _
  unfold occupied
  omega

theorem occupied_createCache (s E b : Nat) : occupied (createCache s E b) = 0 := by
  simp [occupied, createCache, initCacheSet]

/-! ## Section 2: One line -/

/-- What `accessMem` is going to return, by the tags and the size of the set. -/
def predicted (cache : Cache) (addr : Addr) : Outcome :=
  let (setIndex, tagIndex) := splitAddr cache.offsetBits cache.setBits addr
  match cache.cacheSets[setIndex.toNat]? with
  | none => .MISS
  | some set =>
    if matchLoop set.capacity tagIndex set.lines = some true then .HIT
    else if set.size < set.capacity then .MISS else .EVICTION

theorem predicted_eq {cache cache' : Cache} {addr : Addr} {res : Outcome}
    (h : accessMem cache addr = some (res, cache')) : predicted cache addr = res := by
  obtain ⟨setIndex, tagIndex, set, set', hsplit, hset, haccess, _⟩ := accessMem_cases h
  unfold predicted
  simp only [hsplit, hset]
  obtain ⟨hmatch, rfl, _⟩ | ⟨hmatch, rfl, _⟩ := accessSet_cases haccess
  · rw [if_pos hmatch]
  · rw [if_neg (by simp [hmatch])]

/-- The number of characters that the message adds to the line. -/
def messageLength (op : Char) (res : Outcome) : Nat :=
  (message res).length + if op = 'M' then 4 else 0

/-- The message for the line fits into its buffer. -/
def Fits (sim : Simulation) (line after : CStr) : Prop :=
  ∀ op addr, splitOneInst line after = some (op, addr) → op ≠ 'I' →
    line.length + messageLength op (predicted sim.cache addr) < STR_SIZE

theorem fits_iff {sim : Simulation} {line after : CStr} {op : Char} {addr : Addr} {res : Outcome}
    {cache : Cache} (hsplit : splitOneInst line after = some (op, addr)) (hop : op ≠ 'I')
    (haccess : accessMem sim.cache addr = some (res, cache)) :
    Fits sim line after ↔ line.length + messageLength op res < STR_SIZE := by
  rw [← predicted_eq haccess]
  constructor
  · intro hfits
    exact hfits op addr hsplit hop
  · intro hlt op' addr' hsplit' _
    obtain ⟨rfl, rfl⟩ := Prod.mk.inj (Option.some.inj (hsplit.symm.trans hsplit'))
    exact hlt

/-- The simulation after a data line. -/
def counted (sim : Simulation) (op : Char) (res : Outcome) (cache : Cache) : Simulation where
  cache := cache
  hit := sim.hit + (if res = .HIT then 1 else 0) + if op = 'M' then 1 else 0
  miss := sim.miss + if res = .HIT then 0 else 1
  eviction := sim.eviction + if res = .EVICTION then 1 else 0

theorem strcat_bind {α : Type*} (size : Nat) (str suffix : CStr) (f : CStr → Option α) :
    (strcat size str suffix).bind f =
      if str.length + suffix.length < size then f (str ++ suffix) else none := by
  unfold strcat
  rw [List.length_append]
  split <;> rfl

/-- A data line. -/
theorem analyseOneLine_data {sim : Simulation} {line after : CStr} {op : Char} {addr : Addr}
    {res : Outcome} {cache : Cache} (hsplit : splitOneInst line after = some (op, addr))
    (hop : op ≠ 'I') (haccess : accessMem sim.cache addr = some (res, cache)) :
    analyseOneLine sim line after =
      if line.length + messageLength op res < STR_SIZE then some (counted sim op res cache)
      else none := by
  have hhit : (" hit".toList).length = 4 := rfl
  unfold analyseOneLine messageLength
  simp only [hsplit, if_neg hop, haccess, Option.bind_eq_bind, strcat_bind, List.nil_append,
    List.length_nil,
    List.length_append, hhit]
  by_cases hM : op = 'M'
  · simp only [if_pos hM]
    by_cases hfits : line.length + ((message res).length + 4) < STR_SIZE
    · rw [if_pos (by omega), if_pos (by omega), if_pos (by omega), if_pos hfits]
      cases res <;> simp [counted, hM]
    · rw [if_neg hfits]
      split_ifs <;> first | rfl | omega
  · simp only [if_neg hM, Nat.add_zero]
    by_cases hfits : line.length + (message res).length < STR_SIZE
    · simp only [if_pos hfits]
      rw [if_pos (by omega)]
      cases res <;> simp [counted, hM]
    · simp only [if_neg hfits]
      split <;> rfl

/-- An instruction line changes nothing. -/
theorem analyseOneLine_instruction (sim : Simulation) (rest after : CStr) :
    analyseOneLine sim ('I' :: rest) after = some sim := rfl

/-! ## Section 3: The balance -/

/-- The counters after `n` accesses, where the second one of an `M` line counts as well. -/
structure Balanced (s E b n : Nat) (sim : Simulation) : Prop where
  geometry : Geometry s E b sim.cache
  accesses : sim.hit + sim.miss = BitVec.ofNat 32 n
  resident : sim.miss - sim.eviction = BitVec.ofNat 32 (occupied sim.cache)

/-- The number of data lines. -/
def dataLines (trace : List (CStr × CStr)) : Nat := trace.countP fun l => l.1[0]? ≠ some 'I'

/-- The number of `M` lines. -/
def modifyLines (trace : List (CStr × CStr)) : Nat :=
  trace.countP fun l => l.1[0]? ≠ some 'I' ∧ l.1[1]? = some 'M'

theorem balanced_start {s : Nat} (hs : s ≤ 30) (E b : Nat) :
    Balanced s E b 0 (startSimulation s E b) where
  geometry := geometry_createCache hs E b
  accesses := rfl
  resident := by
    show 0#32 - 0#32 = BitVec.ofNat 32 (occupied (createCache s E b))
    rw [occupied_createCache]
    rfl

/-- A data line keeps the balance, whatever the result of its access is. -/
theorem balanced_counted {s E b n : Nat} {sim : Simulation} (h : Balanced s E b n sim) {op : Char}
    {addr : Addr} {res : Outcome} {cache : Cache}
    (haccess : accessMem sim.cache addr = some (res, cache)) (hcache : Geometry s E b cache) :
    Balanced s E b (n + 1 + if op = 'M' then 1 else 0) (counted sim op res cache) where
  geometry := hcache
  accesses := by
    have haccesses := h.accesses
    unfold counted
    cases res <;> by_cases hM : op = 'M' <;> simp [hM] <;> bv_omega
  resident := by
    have hresident := h.resident
    have hoccupied := occupied_accessMem haccess
    show (counted sim op res cache).miss - (counted sim op res cache).eviction =
        BitVec.ofNat 32 (occupied cache)
    rw [hoccupied]
    unfold counted
    cases res <;> simp <;> bv_omega

/-- The lines that count, in one line of a trace. -/
def accessesOf (l : CStr) : Nat :=
  (if l[0]? ≠ some 'I' then 1 else 0) + if l[0]? ≠ some 'I' ∧ l[1]? = some 'M' then 1 else 0

/-- One line of a trace: it is processed when its message fits, and keeps the balance. -/
theorem balanced_line {s E b n : Nat} (hs : s ≤ 30) {sim : Simulation} (h : Balanced s E b n sim)
    {line : CStr} (hline : TraceLine line) (after : CStr) :
    (Fits sim line after →
      ∃ sim', analyseOneLine sim line after = some sim' ∧
        Balanced s E b (n + accessesOf line) sim') ∧
    (¬ Fits sim line after → analyseOneLine sim line after = none) := by
  cases hline with
  | instruction rest =>
    constructor
    · intro _
      exact ⟨sim, rfl, h⟩
    · intro hnot
      refine absurd ?_ hnot
      intro op addr hsplit hop
      have hI : op = 'I' := by
        obtain ⟨rfl, _⟩ := Prod.mk.inj (Option.some.inj hsplit)
        rfl
      exact absurd hI hop
  | data op lead hex size hop hlead hhex hsize =>
    have hcomma : ',' ∉ lead ++ hex := by
      intro hmem
      rcases List.mem_append.mp hmem with hmem | hmem
      · rcases hlead with rfl | rfl <;> simp at hmem
      · exact absurd (hhex.2 ',' hmem) (by decide)
    have hopI : op ≠ 'I' := by
      rcases hop with rfl | rfl | rfl <;> decide
    have hsplit := splitOneInst_data hcomma op size after
    have hcount : accessesOf (' ' :: op :: ' ' :: (lead ++ hex) ++ ',' :: size) =
        1 + if op = 'M' then 1 else 0 := by
      simp [accessesOf]
    -- from here on only the operation and the address matter
    generalize (' ' :: op :: ' ' :: (lead ++ hex) ++ ',' :: size) = line at hsplit hcount
    generalize BitVec.ofInt 64 (strtol16 ((lead ++ hex) ++ after)) = addr at hsplit
    obtain ⟨res, cache, haccess, hcache⟩ := h.geometry.accessMem hs addr
    have hdata := analyseOneLine_data hsplit hopI haccess
    have hfits := fits_iff hsplit hopI haccess
    constructor
    · intro hfit
      refine ⟨counted sim op res cache, by rw [hdata, if_pos (hfits.mp hfit)], ?_⟩
      rw [hcount, ← Nat.add_assoc]
      exact balanced_counted h haccess hcache
    · intro hnot
      rw [hdata, if_neg fun hlt => hnot (hfits.mpr hlt)]

/-- Every line of the trace fits, in the state that the lines before it have led to. -/
def AllFit (sim : Simulation) : List (CStr × CStr) → Prop
  | [] => True
  | (line, after) :: lines =>
    Fits sim line after ∧ ∀ sim', analyseOneLine sim line after = some sim' → AllFit sim' lines

/-- A whole trace, from any balanced state on. -/
theorem balanced_run {s E b : Nat} (hs : s ≤ 30) {trace : List (CStr × CStr)}
    (htrace : ∀ l ∈ trace, TraceLine l.1) {n : Nat} {sim : Simulation} (h : Balanced s E b n sim)
    (hfit : AllFit sim trace) :
    ∃ sim', analyseAll sim trace = some sim' ∧
      Balanced s E b (n + (dataLines trace + modifyLines trace)) sim' := by
  induction trace generalizing n sim with
  | nil => exact ⟨sim, rfl, h⟩
  | cons l lines ih =>
    obtain ⟨line, after⟩ := l
    obtain ⟨hfits, hrest⟩ := hfit
    have hline : TraceLine line := htrace (line, after) List.mem_cons_self
    obtain ⟨sim₁, hsim₁, h₁⟩ := (balanced_line hs h hline after).1 hfits
    obtain ⟨sim', hsim', h'⟩ :=
      ih (fun l hl => htrace l (List.mem_cons_of_mem _ hl)) h₁ (hrest sim₁ hsim₁)
    refine ⟨sim', by rw [analyseAll, hsim₁]; exact hsim', ?_⟩
    have hcount : n + (dataLines ((line, after) :: lines) + modifyLines ((line, after) :: lines)) =
        n + accessesOf line + (dataLines lines + modifyLines lines) := by
      simp only [dataLines, modifyLines, accessesOf, List.countP_cons, decide_eq_true_eq]
      omega
    rwa [hcount]

/-- A trace that is processed to its end fits. -/
theorem allFit_of_run {s E b : Nat} (hs : s ≤ 30) {trace : List (CStr × CStr)}
    (htrace : ∀ l ∈ trace, TraceLine l.1) {n : Nat} {sim sim' : Simulation}
    (h : Balanced s E b n sim) (hrun : analyseAll sim trace = some sim') : AllFit sim trace := by
  induction trace generalizing n sim with
  | nil => trivial
  | cons l lines ih =>
    obtain ⟨line, after⟩ := l
    have hline : TraceLine line := htrace (line, after) List.mem_cons_self
    obtain ⟨hyes, hno⟩ := balanced_line hs h hline after
    obtain ⟨sim₁, hsim₁, hrest⟩ := Option.bind_eq_some_iff.mp hrun
    have hfits : Fits sim line after := by
      by_contra hnot
      rw [hno hnot] at hsim₁
      cases hsim₁
    refine ⟨hfits, ?_⟩
    intro sim₂ hsim₂
    obtain ⟨sim₃, hsim₃, h₃⟩ := hyes hfits
    rw [hsim₂, Option.some_inj] at hsim₁ hsim₃
    rw [← hsim₃] at h₃
    rw [← hsim₁] at hrest
    exact ih (fun l hl => htrace l (List.mem_cons_of_mem _ hl)) h₃ hrest

/-- The balance of the counters. On a fresh cache, a trace of well formed
    lines is processed to its end with `hit + miss` the number of data lines
    and `M` lines, and `miss - eviction` the number of resident lines, exactly
    when every message fits into its buffer. Instruction lines change nothing. -/
theorem counters_balance_iff {s : Nat} (hs : s ≤ 30) (E b : Nat) {trace : List (CStr × CStr)}
    (htrace : ∀ l ∈ trace, TraceLine l.1) :
    ((∃ sim, analyseAll (startSimulation s E b) trace = some sim ∧
        sim.hit + sim.miss = BitVec.ofNat 32 (dataLines trace + modifyLines trace) ∧
        sim.miss - sim.eviction = BitVec.ofNat 32 (occupied sim.cache)) ↔
      AllFit (startSimulation s E b) trace) ∧
    ∀ sim rest after, analyseOneLine sim ('I' :: rest) after = some sim := by
  refine ⟨⟨?_, ?_⟩, analyseOneLine_instruction⟩
  · intro ⟨sim, hrun, _⟩
    exact allFit_of_run hs htrace (balanced_start hs E b) hrun
  · intro hfit
    obtain ⟨sim, hrun, hbalanced⟩ := balanced_run hs htrace (balanced_start hs E b) hfit
    rw [Nat.zero_add] at hbalanced
    exact ⟨sim, hrun, hbalanced.accesses, hbalanced.resident⟩

/-- Three lines of a trace. A digit follows the address of the second one in memory. -/
def sampleTrace : List (CStr × CStr) :=
  [([' ', 'L', ' ', '1', '0', ',', '1'], []), ([' ', 'M', ' ', '2', '0', ',', '1'], ['7']),
    (['I', ' ', ' ', '4', ',', '5'], [])]

/-- The messages for them fit. -/
theorem counters_balance_run : AllFit (startSimulation 1 1 4) sampleTrace := by
  have htrace : ∀ l ∈ sampleTrace, TraceLine l.1 := by
    simp only [sampleTrace, List.forall_mem_cons]
    refine ⟨?_, ?_, .instruction _, fun _ h => absurd h List.not_mem_nil⟩
    · show TraceLine (' ' :: 'L' :: ' ' :: ['1', '0'] ++ ',' :: ['1'])
      exact .of_digits (.inl rfl) (by decide) rfl (by decide) rfl
    · show TraceLine (' ' :: 'M' :: ' ' :: ['2', '0'] ++ ',' :: ['1'])
      exact .of_digits (.inr (.inr rfl)) (by decide) rfl (by decide) rfl
  have hrun : (analyseAll (startSimulation 1 1 4) sampleTrace).any (fun sim =>
      sim.hit + sim.miss = BitVec.ofNat 32 (dataLines sampleTrace + modifyLines sampleTrace) ∧
        sim.miss - sim.eviction = BitVec.ofNat 32 (occupied sim.cache)) = true := by
    decide +kernel
  obtain ⟨sim, hsim, hcounts⟩ := (Option.any_eq_true _ _).mp hrun
  exact (counters_balance_iff (by decide) 1 4 htrace).1.mp ⟨sim, hsim, of_decide_eq_true hcounts⟩

/-- An address padded with zeros, on a line of 80 characters. -/
def paddedLine : CStr := ' ' :: 'L' :: ' ' :: List.replicate 75 '0' ++ ',' :: ['1']

/-- The line does not fit into the buffer for its message. -/
theorem message_overflows :
    TraceLine paddedLine ∧
      ¬ ∃ sim, analyseAll (startSimulation 0 1 0) [(paddedLine, [])] = some sim ∧
        sim.hit + sim.miss =
          BitVec.ofNat 32 (dataLines [(paddedLine, [])] + modifyLines [(paddedLine, [])]) ∧
        sim.miss - sim.eviction = BitVec.ofNat 32 (occupied sim.cache) := by
  constructor
  · exact .of_digits (.inl rfl) (by decide) rfl (by decide) rfl
  · intro ⟨sim, hrun, _⟩
    have hnone : analyseAll (startSimulation 0 1 0) [(paddedLine, [])] = none := by decide +kernel
    rw [hnone] at hrun
    cases hrun

end CacheLab
