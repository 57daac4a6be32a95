import CsappExperiments.DataLab.Btest
import CsappExperiments.DataLab.NumVal

/-! # Data Lab: the options of btest

    A failure is printed with its arguments, and the options `-1`, `-2` and `-3`
    give arguments to try. So a failure can be looked at again on its own:
    with the arguments as they were printed, `btest` finds that failure and no
    other (`failure_reproduced`).

    `none` is an exit. The options `-h` and `-T` are left out.
-/

open CLib

namespace DataLab

/-! ## Section 1: Model -/

/-- An option with its argument. `arg 0`, `arg 1` and `arg 2` are `-1`, `-2` and `-3`. -/
inductive Opt
  | g
  | f (name : CStr)
  | r (n : CStr)
  | arg (i : Nat) (optarg : CStr)

/-- The globals before the options are parsed. -/
def Config.initial : Config := ⟨false, none, fun _ => false, fun _ => 0, 0⟩

/-- The values for the argument `i` are only `v`. -/
def Config.setArg (cfg : Config) (i : Nat) (v : Word) : Config :=
  { cfg with hasArg := Function.update cfg.hasArg i true, argval := Function.update cfg.argval i v }

variable (strtof : CStr → Word × CStr)

/-- One round of the loop in `main`. -/
def Config.option (cfg : Config) : Opt → Option Config
  | .g => some { cfg with grade := true }
  | .f name => some { cfg with testFname := some name }
  | .r n => if atoi n < 0 then none else some { cfg with globalRating := atoi n }
  | .arg i optarg => (btestNumVal strtof optarg (cfg.argval i)).map (cfg.setArg i)

def parseOptions (opts : List Opt) (cfg : Config) : Option Config :=
  opts.foldlM (Config.option strtof) cfg

/-- How an argument is printed: `%d[0x%x]`. Either can be given to an option. -/
def Printed (text : CStr) (v : Word) : Prop :=
  text = intText v.toInt ∨ text = '0' :: 'x' :: hexText v.toNat

/-- The options that give the arguments from number `i` on. -/
def argOptions (i : Nat) : List CStr → List Opt
  | [] => []
  | text :: texts => .arg i text :: argOptions (i + 1) texts

/-! ## Section 2: The options that are given -/

@[simp] theorem Config.setArg_hasArg (cfg : Config) (i : Nat) (v : Word) :
    (cfg.setArg i v).hasArg i = true := by
  simp [Config.setArg]

@[simp] theorem Config.setArg_argval (cfg : Config) (i : Nat) (v : Word) :
    (cfg.setArg i v).argval i = v := by
  simp [Config.setArg]

/-- The other arguments are as before. -/
theorem Config.setArg_of_ne (cfg : Config) {i k : Nat} (h : k ≠ i) (v : Word) :
    (cfg.setArg i v).hasArg k = cfg.hasArg k ∧ (cfg.setArg i v).argval k = cfg.argval k := by
  simp [Config.setArg, Function.update_of_ne h]

variable {strtof}

theorem btestNumVal_printed {text : CStr} {v : Word} (h : Printed text v) :
    btestNumVal strtof text 0 = some v := by
  obtain rfl | rfl := h
  · exact numVal_intText rfl v
  · obtain ⟨hdigits, hvalue⟩ := hexText_digits v.toNat
    exact numVal_hex rfl v Nat.toDigits_ne_nil hdigits hvalue

/-- Only these arguments will be tried. -/
def Config.Fixes (cfg : Config) (i : Nat) (args : List Word) : Prop :=
  ∀ k, ∀ h : k < args.length, cfg.hasArg (i + k) = true ∧ cfg.argval (i + k) = args[k]

theorem Config.Fixes.cons {cfg : Config} {i : Nat} {v : Word} {args : List Word}
    (hopt : cfg.hasArg i = true) (hval : cfg.argval i = v) (h : cfg.Fixes (i + 1) args) :
    cfg.Fixes i (v :: args) := by
  intro k hk
  cases k with
  | zero => exact ⟨hopt, hval⟩
  | succ k =>
    have hnext : i + (k + 1) = i + 1 + k := by omega
    rw [hnext]
    exact h k (Nat.lt_of_succ_lt_succ hk)

/-- The options are accepted as long as nothing has been stored in their place. -/
theorem parseOptions_args {texts : List CStr} {args : List Word}
    (h : List.Forall₂ Printed texts args) {i : Nat} {cfg : Config}
    (hzero : ∀ k, i ≤ k → cfg.argval k = 0) :
    ∃ cfg', parseOptions strtof (argOptions i texts) cfg = some cfg' ∧ cfg'.grade = cfg.grade ∧
      cfg'.Fixes i args ∧
      ∀ k < i, cfg'.hasArg k = cfg.hasArg k ∧ cfg'.argval k = cfg.argval k := by
  induction h generalizing i cfg with
  | nil => exact ⟨cfg, rfl, rfl, fun k hk => absurd hk (Nat.not_lt_zero k), fun k _ => ⟨rfl, rfl⟩⟩
  | @cons text v texts args htext _ ih =>
    have hstored : ∀ k, i + 1 ≤ k → (cfg.setArg i v).argval k = 0 := by
      intro k hk
      have hne : k ≠ i := by omega
      exact (cfg.setArg_of_ne hne v).2.trans (hzero k (by omega))
    obtain ⟨cfg', hrun, hgrade, hfixes, hbelow⟩ := ih hstored
    obtain ⟨hopt, hval⟩ := hbelow i (Nat.lt_succ_self i)
    -- `get_num_val` reads into a variable that is still 0
    have hround : Config.option strtof cfg (.arg i text) = some (cfg.setArg i v) := by
      show (btestNumVal strtof text (cfg.argval i)).map (cfg.setArg i) = _
      rw [hzero i le_rfl, btestNumVal_printed htext]
      rfl
    refine ⟨cfg', ?_, hgrade,
      hfixes.cons (hopt.trans (cfg.setArg_hasArg i v)) (hval.trans (cfg.setArg_argval i v)), ?_⟩
    · rw [parseOptions, argOptions, List.foldlM_cons, hround]
      exact hrun
    · intro k hk
      have hne : k ≠ i := by omega
      obtain ⟨hopt, hval⟩ := hbelow k (by omega)
      obtain ⟨hopt', hval'⟩ := cfg.setArg_of_ne hne v
      exact ⟨hopt.trans hopt', hval.trans hval'⟩

/-! ## Section 3: The failure again -/

/-- What is reported is the result for one of the values. -/
theorem firstError_report {α : Type} {body : α → Option (Nat × List Failure)} {as : List α}
    {errors : Nat} {report : List Failure} (h : firstError body as = some (errors, report))
    (hne : report ≠ []) :
    ∃ a ∈ as, body a = some (errors, report) := by
  induction as with
  | nil =>
    obtain ⟨-, rfl⟩ := Prod.mk.inj (Option.some.inj h)
    exact absurd rfl hne
  | cons a as ih =>
    rw [firstError_cons] at h
    obtain ⟨⟨errors', report'⟩, ha, hnext⟩ := Option.bind_eq_some_iff.mp h
    dsimp only at hnext
    split at hnext
    · obtain ⟨rfl, rfl⟩ := Prod.mk.inj (Option.some.inj hnext)
      exact ⟨a, List.mem_cons_self, ha⟩
    · obtain ⟨b, hb, hbody⟩ := ih hnext
      exact ⟨b, List.mem_cons_of_mem a hb, hbody⟩

theorem testArgs_report {cfg : Config} {t : TestRec} {args : List Word} {errors : Nat}
    {f : Failure} (h : testArgs cfg t args = some (errors, [f])) :
    errors = 1 ∧ f.args = args ∧ cfg.grade = false ∧ t.solution args = some f.r ∧
      t.test args = some f.rt ∧ f.r ≠ f.rt := by
  unfold testArgs at h
  obtain ⟨r, hr, h⟩ := Option.bind_eq_some_iff.mp h
  obtain ⟨rt, hrt, h⟩ := Option.bind_eq_some_iff.mp h
  have h := Option.some.inj h
  by_cases hne : r ≠ rt
  · rw [if_pos hne] at h
    obtain ⟨rfl, hreport⟩ := Prod.mk.inj h
    cases hgrade : cfg.grade with
    | true =>
      rw [hgrade] at hreport
      exact absurd hreport (List.cons_ne_nil _ _).symm
    | false =>
      rw [hgrade] at hreport
      obtain rfl := (List.cons.inj hreport).1
      exact ⟨rfl, rfl, rfl, hr, hrt, hne⟩
  · rw [if_neg hne] at h
    exact absurd (Prod.mk.inj h).2 (List.cons_ne_nil _ _).symm

theorem combinations_singletons (args : List Word) :
    combinations (args.map fun v => [v]) = [args] := by
  induction args with
  | nil => rfl
  | cons v args ih => simp [combinations, ih]

/-- With an option for every argument, the loops have one round. -/
theorem testFunction_fixed {cfg : Config} {args : List Word} (hfixes : cfg.Fixes 0 args)
    (random : Nat → Nat → Word) {t : TestRec}
    (hlength : (t.argRanges.take t.args).length = args.length) :
    testFunction cfg random t = firstError (testArgs cfg t) [args] := by
  have hvals : argVals cfg random t = some (args.map fun v => [v]) := by
    refine mapM_eq_some_iff.mpr ?_
    rw [List.forall₂_iff_get]
    refine ⟨by simp [hlength], ?_⟩
    intro k hk hk'
    have hlt : k < args.length := by simpa using hk'
    obtain ⟨hopt, hval⟩ := hfixes k hlt
    rw [Nat.zero_add] at hopt hval
    simp only [List.get_eq_getElem, List.getElem_zipIdx, List.getElem_map, Nat.zero_add]
    unfold genVals
    dsimp only
    rw [if_pos hopt, hval]
  rw [testFunction_eq hvals, combinations_singletons]

/-- A failure that is reported is found again, with any random values, when its
    arguments are given by the options as they were printed; nothing else is reported. -/
theorem failure_reproduced {cfg : Config} {random : Nat → Nat → Word} {t : TestRec} {errors : Nat}
    {f : Failure} (hrun : testFunction cfg random t = some (errors, [f])) {texts : List CStr}
    (htexts : List.Forall₂ Printed texts f.args) :
    ∃ cfg', parseOptions strtof (argOptions 0 texts) Config.initial = some cfg' ∧
      ∀ random', testFunction cfg' random' t = some (1, [f]) := by
  obtain ⟨vals, hvals, hloop⟩ := Option.bind_eq_some_iff.mp hrun
  have hloop : firstError (testArgs cfg t) (combinations vals) = some (errors, [f]) := by
    rw [← testFunction_eq hvals]
    exact hrun
  obtain ⟨args, hmem, hargs⟩ := firstError_report hloop (List.cons_ne_nil _ _)
  obtain ⟨-, rfl, -, hr, hrt, hne⟩ := testArgs_report hargs
  have hlength : (t.argRanges.take t.args).length = f.args.length := by
    have hlists := (mapM_eq_some_iff.mp hvals).length_eq
    rw [List.length_zipIdx] at hlists
    rw [hlists, (mem_combinations.mp hmem).length_eq]
  have hempty : ∀ k, 0 ≤ k → Config.initial.argval k = 0 := fun _ _ => rfl
  obtain ⟨cfg', hparse, hgrade, hfixes, -⟩ := @parseOptions_args strtof _ _ htexts 0 _ hempty
  refine ⟨cfg', hparse, fun random' => ?_⟩
  rw [testFunction_fixed hfixes random' hlength, firstError_cons,
    testArgs_differ cfg' hr hrt hne, hgrade]
  rfl

/-- The largest `int`, as it is printed. -/
theorem failure_reproduced_power : ∃ cfg',
    parseOptions (fun s => (0, s)) [.arg 0 ['2', '1', '4', '7', '4', '8', '3', '6', '4', '7']]
      Config.initial = some cfg' ∧
      ∀ random', testFunction cfg' random'
        ⟨"floatPower2".toList, call1 floatPower2, call1 (some <| testFloatPower2 ·), 1, 4, floats⟩ =
        some (1, [⟨[0x7fffffff], 0, 0x7f800000⟩]) := by
  have htest : some (testFloatPower2 0x7fffffff) = some 0x7f800000 := by
    rw [testFloatPower2_eq, power2_infinity (by decide)]
  have hfixes : (Config.initial.setArg 0 0x7fffffff).Fixes 0 [0x7fffffff] :=
    .cons rfl rfl fun k hk => absurd hk (Nat.not_lt_zero k)
  have hrun : testFunction (Config.initial.setArg 0 0x7fffffff) (fun _ _ => 0)
      ⟨"floatPower2".toList, call1 floatPower2, call1 (some <| testFloatPower2 ·), 1, 4, floats⟩ =
      some (1, [⟨[0x7fffffff], 0, 0x7f800000⟩]) := by
    rw [testFunction_fixed hfixes _ rfl, firstError_cons,
      testArgs_differ _ (r := 0) rfl htest (by decide)]
    rfl
  exact failure_reproduced hrun (.cons (.inl rfl) .nil)

end DataLab
