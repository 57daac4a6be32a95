import CsappExperiments.ShellLab.Arguments

/-! # Shell Lab: `parseline` in its buffer

    `parseline` as it works in memory: it copies the line into a static
    array, moves a pointer through it, overwrites every delimiter with NUL,
    and stores pointers into `argv`, an array of the caller. Each access is
    checked against the size of its array.

    Read as strings from the final array, the pointers are the arguments that
    `parseline` of `CommandLine` returns (`parselineInPlace_eq`). Nothing
    checks how many there are.
-/

open CLib

namespace Shell

/-! ## Section 1: Model -/

/-- The array that an access is outside of. -/
inductive OutOf where
  | array
  | argv
  deriving DecidableEq, Repr

/-- `strcpy`. -/
def strcpy (array : List Char) (s : CStr) : Except OutOf (List Char) :=
  if s.length < array.length then .ok (s ++ '\x00' :: array.drop (s.length + 1)) else .error .array

/-- `strchr` at a pointer: the distance to the first `c` before the NUL. -/
def scanChr (c : Char) : List Char → Except OutOf (Option Nat)
  | [] => .error .array
  | x :: xs =>
    if x = c then .ok (some 0)
    else if x = '\x00' then .ok none
    else (scanChr c xs).map (Option.map (· + 1))

/-- `while (*buf && (*buf == ' ')) buf++`: how far the pointer moves. -/
def scanSpaces : List Char → Except OutOf Nat
  | [] => .error .array
  | x :: xs => if x = ' ' then (scanSpaces xs).map (· + 1) else .ok 0

/-- The argument at `buf`: where it starts, behind its quote if it has one,
    and where its delimiter is. -/
def findDelim (array : List Char) (buf : Nat) : Except OutOf (Nat × Option Nat) :=
  match array[buf]? with
  | none => .error .array
  | some '\'' => (scanChr '\'' (array.drop (buf + 1))).map fun d => (buf + 1, d.map (buf + 1 + ·))
  | some _ => (scanChr ' ' (array.drop buf)).map fun d => (buf, d.map (buf + ·))

/-- The loop that builds the argv list, and the store of NULL behind it. The
    pointers stored so far are `argv`. Every round moves `buf`, so the length
    of the array is enough fuel. -/
def argvLoop : Nat → List Char → Nat → List Nat → Except OutOf (List Char × List Nat)
  | 0, _, _, _ => .error .array
  | fuel + 1, array, buf, argv => do
    let (buf, delim) ← findDelim array buf
    if MAXARGS ≤ argv.length then throw .argv
    match delim with
    | none => return (array, argv)
    | some d =>
      let array := array.set d '\x00'
      let k ← scanSpaces (array.drop (d + 1))
      argvLoop fuel array (d + 1 + k) (argv ++ [buf])

/-- What `parseline` leaves behind. -/
structure Parsed where
  bg : Bool
  argv : List Nat
  array : List Char
  deriving DecidableEq, Repr

/-- `parseline`, with what its static array holds at the call. -/
def parselineInPlace (array : List Char) (cmdline : CStr) : Except OutOf Parsed := do
  let array ← strcpy array cmdline
  if cmdline = [] then throw .array  -- buf[strlen(buf) - 1]
  let array := array.set (cmdline.length - 1) ' '
  let buf ← scanSpaces array
  let (array, argv) ← argvLoop array.length array buf []
  match argv.getLast? with
  | none => return ⟨true, [], array⟩
  | some p =>
    if array[p]? = some '&' then return ⟨true, argv.dropLast, array⟩
    else return ⟨false, argv, array⟩

/-- The string at a pointer. -/
def strAt (array : List Char) (p : Nat) : CStr := (array.drop p).takeWhile (· ≠ '\x00')

/-! ## Section 2: Scans -/

theorem scanChr_eq {c : Char} (hc : c ≠ '\x00') {s : CStr} (hs : '\x00' ∉ s) (stale : List Char) :
    scanChr c (s ++ '\x00' :: stale) = .ok ((strchr c s).map fun cut => cut.1.length) := by
  induction s with
  | nil => simp [scanChr, strchr, Ne.symm hc]
  | cons x s ih =>
    have hx : x ≠ '\x00' := fun heq => hs (heq ▸ List.mem_cons_self)
    rw [List.cons_append, scanChr, strchr]
    by_cases hxc : x = c
    · rw [if_pos hxc, if_pos hxc]
      rfl
    · rw [if_neg hxc, if_neg hxc, if_neg hx, ih fun hmem => hs (List.mem_cons_of_mem x hmem)]
      cases strchr c s <;> rfl

theorem strchr_some {c : Char} {s pre post : CStr} (h : strchr c s = some (pre, post)) :
    s = pre ++ c :: post := by
  induction s generalizing pre with
  | nil => cases h
  | cons x s ih =>
    rw [strchr] at h
    split at h
    · next hx =>
      obtain ⟨rfl, rfl⟩ := Prod.mk.inj (Option.some.inj h)
      rw [hx]
      rfl
    · obtain ⟨⟨pre', post'⟩, hrest, heq⟩ := Option.map_eq_some_iff.mp h
      obtain ⟨rfl, rfl⟩ := Prod.mk.inj heq
      rw [ih hrest]
      rfl

theorem scanSpaces_eq (s : CStr) (stale : List Char) :
    ∃ k, s = spaces k ++ skipSpaces s ∧ scanSpaces (s ++ '\x00' :: stale) = .ok k := by
  induction s with
  | nil => exact ⟨0, rfl, rfl⟩
  | cons x s ih =>
    by_cases hx : x = ' '
    · subst hx
      obtain ⟨k, hk, hscan⟩ := ih
      have hskip : skipSpaces (' ' :: s) = skipSpaces s := skipSpaces_append 1 s
      refine ⟨k + 1, ?_, ?_⟩
      · rw [hskip]
        conv_lhs => rw [hk]
        rfl
      · rw [List.cons_append, scanSpaces, if_pos rfl, hscan]
        rfl
    · exact ⟨0, (skipSpaces_cons hx s).symm, by rw [List.cons_append, scanSpaces, if_neg hx]⟩

/-- `findDelim` finds what `delim` finds. The quote that it skips is `quote`. -/
theorem findDelim_eq {s : CStr} (hs : '\x00' ∉ s) (done stale : List Char) :
    ∃ quote : CStr,
      findDelim (done ++ (s ++ '\x00' :: stale)) done.length =
        .ok (done.length + quote.length,
          (delim s).map fun cut => done.length + quote.length + cut.1.length) ∧
      ∀ arg post, delim s = some (arg, post) → ∃ c, s = quote ++ arg ++ c :: post := by
  unfold findDelim
  match s with
  | [] => exact ⟨[], by simp [scanChr, delim, strchr, Except.map], by rintro arg post ⟨⟩⟩
  | c :: s =>
    by_cases hc : c = '\''
    · subst hc
      have hdrop : (done ++ ('\'' :: s ++ '\x00' :: stale)).drop (done.length + 1) =
          s ++ '\x00' :: stale := by simp
      refine ⟨['\''], ?_, ?_⟩
      · rw [hdrop, scanChr_eq (by decide) fun hmem => hs (List.mem_cons_of_mem _ hmem)]
        simp [delim, Except.map, Function.comp_def]
      · intro arg post h
        exact ⟨'\'', congrArg _ (strchr_some h)⟩
    · have hdrop : (done ++ (c :: s ++ '\x00' :: stale)).drop done.length =
          c :: s ++ '\x00' :: stale := by simp
      refine ⟨[], ?_, ?_⟩
      · rw [hdrop, scanChr_eq (by decide) hs, delim_bare hc]
        simp [Except.map, Function.comp_def]
      · intro arg post h
        rw [delim_bare hc] at h
        exact ⟨' ', strchr_some h⟩

/-! ## Section 3: The pointers in `argv` -/

theorem strAt_append (done : List Char) {text : CStr} (h : '\x00' ∉ text) (after : List Char) :
    strAt (done ++ (text ++ '\x00' :: after)) done.length = text := by
  unfold strAt
  rw [List.drop_left,
    List.takeWhile_append_of_pos (by rintro c hc; simpa using ne_of_mem_of_not_mem hc h)]
  simp

theorem head?_strAt {c : Char} (hc : c ≠ '\x00') (array : List Char) (p : Nat) :
    (strAt array p).head? = some c ↔ array[p]? = some c := by
  unfold strAt
  rw [← List.head?_drop]
  cases array.drop p with
  | nil => simp
  | cons x xs =>
    by_cases hx : x = '\x00'
    · simp [hx, hc.symm]
    · simp [hx]

theorem buildArgv_nil (fuel : Nat) : buildArgv fuel [] = [] := by
  cases fuel <;> rfl

theorem length_delim {s arg post : CStr} (h : delim s = some (arg, post)) :
    post.length < s.length := by
  unfold delim at h
  split at h
  all_goals
    rw [strchr_some h]
    simp
    try omega

theorem length_skipSpaces_le (s : CStr) : (skipSpaces s).length ≤ s.length :=
  (List.dropWhile_sublist _).length_le

theorem nul_notMem_skipSpaces {s : CStr} (h : '\x00' ∉ s) : '\x00' ∉ skipSpaces s :=
  fun hmem => h ((List.dropWhile_sublist _).mem hmem)

/-- More fuel than characters makes no difference. -/
theorem buildArgv_fuel {s : CStr} {n m : Nat} (hn : s.length ≤ n) (hm : s.length ≤ m) :
    buildArgv n s = buildArgv m s := by
  induction n generalizing s m with
  | zero =>
    rw [List.length_eq_zero_iff.mp (Nat.le_zero.mp hn), buildArgv_nil, buildArgv_nil]
  | succ n ih =>
    cases m with
    | zero => rw [List.length_eq_zero_iff.mp (Nat.le_zero.mp hm), buildArgv_nil, buildArgv_nil]
    | succ m =>
      rw [buildArgv, buildArgv]
      split
      · rfl
      · next arg post hdelim =>
        have hlen := length_delim hdelim
        have hskip := length_skipSpaces_le post
        rw [ih (m := m) (by omega) (by omega)]

theorem set_length_append (pre : List Char) (c x : Char) (post : List Char) :
    (pre ++ c :: post).set pre.length x = pre ++ x :: post := by
  rw [List.set_append_right _ _ (le_refl _), Nat.sub_self, List.set_cons_zero]

/-- One round of the loop. It leaves the argument behind as a string of its
    own, and the pointer at the next one. -/
theorem argvLoop_succ (fuel : Nat) (done quote arg : CStr) (c : Char) (post stale : List Char)
    {argv : List Nat}
    (hroom : argv.length < MAXARGS)
    (hfind : findDelim (done ++ (quote ++ arg ++ c :: post ++ '\x00' :: stale)) done.length =
      .ok (done.length + quote.length, some (done.length + quote.length + arg.length))) :
    ∃ k, argvLoop (fuel + 1) (done ++ (quote ++ arg ++ c :: post ++ '\x00' :: stale))
      done.length argv =
      argvLoop fuel (done ++ quote ++ arg ++ '\x00' :: spaces k ++
        (skipSpaces post ++ '\x00' :: stale))
        (done ++ quote ++ arg ++ '\x00' :: spaces k).length
          (argv ++ [done.length + quote.length]) := by
  obtain ⟨k, hk, hscan⟩ := scanSpaces_eq post stale
  refine ⟨k, ?_⟩
  -- the delimiter becomes the NUL of the argument
  have hset : (done ++ (quote ++ arg ++ c :: post ++ '\x00' :: stale)).set
      (done.length + quote.length + arg.length) '\x00' =
      done ++ quote ++ arg ++ '\x00' :: (post ++ '\x00' :: stale) := by
    have h := set_length_append (done ++ quote ++ arg) c '\x00' (post ++ '\x00' :: stale)
    simp only [List.length_append, List.append_assoc, List.cons_append] at h ⊢
    rw [Nat.add_assoc, h]
  have hdrop : (done ++ quote ++ arg ++ '\x00' :: (post ++ '\x00' :: stale)).drop
      (done.length + quote.length + arg.length + 1) =
      post ++ '\x00' :: stale := by
    rw [List.append_cons]
    exact List.drop_left' (by simp [Nat.add_assoc])
  rw [argvLoop, hfind]
  simp only [bind, Except.bind, if_neg (Nat.not_le_of_lt hroom), hset, hdrop, hscan]
  have harray : done ++ quote ++ arg ++ '\x00' :: (post ++ '\x00' :: stale) =
      done ++ quote ++ arg ++ '\x00' :: spaces k ++ (skipSpaces post ++ '\x00' :: stale) := by
    conv_lhs => rw [hk]
    simp
  have hbuf : done.length + quote.length + arg.length + 1 + k =
      (done ++ quote ++ arg ++ '\x00' :: spaces k).length := by
    simp [spaces]
    omega
  rw [harray, hbuf]

/-- The loop stores a pointer for every argument, and stops at the first one
    for which there is no room left. `done` is what the pointer has passed. -/
theorem argvLoop_eq {fuel : Nat} {rest : CStr} (hrest : '\x00' ∉ rest)
    (hfuel : rest.length < fuel) (done stale : List Char) (argv : List Nat) :
    if argv.length + (buildArgv fuel rest).length < MAXARGS then
      ∃ after new, argvLoop fuel (done ++ (rest ++ '\x00' :: stale)) done.length argv =
        .ok (done ++ after, argv ++ new) ∧
        new.map (strAt (done ++ after)) = buildArgv fuel rest
    else argvLoop fuel (done ++ (rest ++ '\x00' :: stale)) done.length argv = .error .argv := by
  -- each round moves one argument, and the NUL behind it, to the part that is `done`
  induction fuel generalizing rest done argv with
  | zero => exact absurd hfuel (Nat.not_lt_zero _)
  | succ fuel ih =>
    obtain ⟨quote, hfind, hcut⟩ := findDelim_eq hrest done stale
    by_cases hfull : MAXARGS ≤ argv.length
    · -- no room, not even for the NULL
      rw [argvLoop, hfind, if_neg (by omega)]
      simp [bind, Except.bind, hfull, throw, throwThe, MonadExceptOf.throw]
    · cases hdelim : delim rest with
      | none =>
        rw [argvLoop, buildArgv, hfind, hdelim, if_pos (by simpa using hfull)]
        refine ⟨rest ++ '\x00' :: stale, [], ?_, rfl⟩
        simp [bind, Except.bind, hfull, pure, Except.pure]
      | some cut =>
        obtain ⟨arg, post⟩ := cut
        obtain ⟨c, rfl⟩ := hcut arg post hdelim
        rw [hdelim] at hfind
        obtain ⟨k, hround⟩ :=
          argvLoop_succ fuel done quote arg c post stale (Nat.lt_of_not_le hfull) hfind
        have hnul : '\x00' ∉ skipSpaces post :=
          nul_notMem_skipSpaces fun hmem =>
            hrest (List.mem_append_right _ (List.mem_cons_of_mem _ hmem))
        have hlen : (skipSpaces post).length < fuel := by
          have hdelim' := length_delim hdelim
          have hskip := length_skipSpaces_le post
          omega
        have hih := ih hnul hlen (done ++ quote ++ arg ++ '\x00' :: spaces k)
            (argv ++ [done.length + quote.length])
        have hargs : buildArgv (fuel + 1) (quote ++ arg ++ c :: post) =
            arg :: buildArgv fuel (skipSpaces post) := by
          rw [buildArgv, hdelim]
        rw [hround, hargs, List.length_cons]
        rw [List.length_append, List.length_singleton, Nat.add_assoc, Nat.add_comm 1] at hih
        by_cases hroom : argv.length + ((buildArgv fuel (skipSpaces post)).length + 1) < MAXARGS
        · rw [if_pos hroom] at hih ⊢
          obtain ⟨after, new, hloop, hnew⟩ := hih
          have harray : done ++ quote ++ arg ++ '\x00' :: spaces k ++ after =
              done ++ (quote ++ arg ++ '\x00' :: spaces k ++ after) := by
            simp
          -- the rounds that follow only write behind the NUL of this argument
          have harg : strAt (done ++ (quote ++ arg ++ '\x00' :: spaces k ++ after))
              (done.length + quote.length) = arg := by
            have harg : '\x00' ∉ arg :=
              fun hmem => hrest (List.mem_append_left _ (List.mem_append_right _ hmem))
            have h := strAt_append (done ++ quote) harg (spaces k ++ after)
            simpa using h
          rw [harray] at hloop hnew
          refine ⟨quote ++ arg ++ '\x00' :: spaces k ++ after,
            (done.length + quote.length) :: new, ?_, ?_⟩
          · rw [hloop, List.append_assoc argv]
            rfl
          · rw [List.map_cons, harg, hnew]
        · rw [if_neg hroom] at hih ⊢
          exact hih

/-- The end of `parseline`, on pointers. -/
theorem outcome_pointers (array : List Char) {argv : List Nat} (hroom : argv.length < MAXARGS) :
    outcome (argv.map (strAt array)) =
      match argv.getLast? with
      | none => some (true, [])
      | some p =>
        if array[p]? = some '&' then some (true, argv.dropLast.map (strAt array))
        else some (false, argv.map (strAt array)) := by
  unfold outcome
  rw [List.length_map, if_neg (Nat.not_le_of_lt hroom), List.getLast?_map]
  cases argv.getLast? with
  | none => rfl
  | some p =>
    have hamp := head?_strAt (c := '&') (by decide) array p
    simp only [Option.map_some, hamp, List.map_dropLast]

/-- The strings behind the pointers are what `parseline` returns, and it is
    `argv` that overflows where it returns nothing. -/
theorem parselineInPlace_eq {array : List Char} (harray : array.length = MAXLINE) {cmdline : CStr}
    (hne : cmdline ≠ []) (hlen : cmdline.length < MAXLINE) (hnul : '\x00' ∉ cmdline) :
    (parselineInPlace array cmdline).map (fun p => (p.bg, p.argv.map (strAt p.array))) =
      (parseline cmdline).elim (.error .argv) .ok := by
  obtain ⟨line, c, rfl⟩ : ∃ line c, cmdline = line ++ [c] :=
    ⟨_, _, (List.dropLast_concat_getLast hne).symm⟩
  have hcopy : strcpy array (line ++ [c]) =
      .ok (line ++ c :: '\x00' :: array.drop (line.length + 2)) := by
    unfold strcpy
    rw [harray, if_pos hlen]
    simp
  have hset : (line ++ c :: '\x00' :: array.drop (line.length + 2)).set
      ((line ++ [c]).length - 1) ' ' =
      line ++ [' '] ++ '\x00' :: array.drop (line.length + 2) := by
    simp
  -- the part of the array behind the copy stays what it was
  generalize array.drop (line.length + 2) = stale at *
  obtain ⟨k, hk, hscan⟩ := scanSpaces_eq (line ++ [' ']) stale
  have hspaces : line ++ [' '] ++ '\x00' :: stale =
      spaces k ++ (skipSpaces (line ++ [' ']) ++ '\x00' :: stale) := by
    conv_lhs => rw [hk]
    rw [List.append_assoc]
  have hrest : '\x00' ∉ skipSpaces (line ++ [' ']) := by
    apply nul_notMem_skipSpaces
    intro hmem
    cases List.mem_append.mp hmem with
    | inl h => exact hnul (List.mem_append_left _ h)
    | inr h => exact absurd (List.mem_singleton.mp h) (by decide)
  have hfuel : (skipSpaces (line ++ [' '])).length < (line ++ [' '] ++ '\x00' :: stale).length := by
    have h := length_skipSpaces_le (line ++ [' '])
    simp at h ⊢
    omega
  have hloop := argvLoop_eq hrest hfuel (spaces k) stale []
  rw [List.length_nil, Nat.zero_add,
    show (spaces k).length = k from List.length_replicate, ← hspaces] at hloop
  unfold parselineInPlace
  rw [hcopy, parseline_eq hne hlen, List.dropLast_concat,
    buildArgv_fuel (length_skipSpaces_le _) (Nat.le_of_lt hfuel)]
  simp only [bind, Except.bind, if_neg hne, hset, hscan]
  generalize buildArgv _ _ = texts at hloop ⊢
  by_cases hroom : texts.length < MAXARGS
  · rw [if_pos hroom] at hloop
    obtain ⟨after, argv, hresult, rfl⟩ := hloop
    rw [List.length_map] at hroom
    rw [hresult, outcome_pointers _ hroom]
    simp only [List.nil_append]
    cases argv.getLast? with
    | none => rfl
    | some p =>
      simp only
      split <;> rfl
  · rw [if_neg hroom] at hloop
    rw [hloop, (outcome_eq_none_iff texts).mpr (Nat.le_of_not_lt hroom)]
    rfl

theorem parselineInPlace_argv_iff {array : List Char} (harray : array.length = MAXLINE)
    {cmdline : CStr} (hne : cmdline ≠ []) (hlen : cmdline.length < MAXLINE)
    (hnul : '\x00' ∉ cmdline) :
    parselineInPlace array cmdline = .error .argv ↔ parseline cmdline = none := by
  have h := parselineInPlace_eq harray hne hlen hnul
  cases hparse : parseline cmdline with
  | none =>
    rw [hparse] at h
    cases hplace : parselineInPlace array cmdline with
    | error e =>
      rw [hplace] at h
      obtain rfl : e = .argv := Except.error.inj h
      exact iff_of_true rfl rfl
    | ok p =>
      rw [hplace] at h
      cases h
  | some res =>
    rw [hparse] at h
    refine iff_of_false ?_ (by simp)
    intro hplace
    rw [hplace] at h
    cases h

/-! ## Section 4: Room in `argv` -/

/-- A line overflows `argv` exactly when it has `MAXARGS` arguments. -/
theorem parselineInPlace_overflow_iff {array : List Char} (harray : array.length = MAXLINE)
    {line : CStr} (hlen : line.length + 1 < MAXLINE) (hnul : '\x00' ∉ line) {args : List Arg}
    {opened : Option CStr} (h : Written line args opened) :
    parselineInPlace array (line ++ ['\n']) = .error .argv ↔ MAXARGS ≤ args.length := by
  have hnul' : '\x00' ∉ line ++ ['\n'] := by simp [hnul]
  rw [parselineInPlace_argv_iff harray (by simp) (by simpa using hlen) hnul',
    parseline_written h hlen,
    outcome_eq_none_iff, List.length_map]

/-- Every store of `parseline` into `argv`, the final NULL included, is
    inside of it exactly when fewer than `MAXARGS` arguments are written on
    the line. -/
theorem argv_in_bounds_iff {array : List Char} (harray : array.length = MAXLINE) {line : CStr}
    (hlen : line.length + 1 < MAXLINE) (hnul : '\x00' ∉ line) (r : Reading line) :
    parselineInPlace array (line ++ ['\n']) ≠ .error .argv ↔ r.args.length < MAXARGS := by
  rw [Ne, parselineInPlace_overflow_iff harray hlen hnul r.written, Nat.not_le]

/-! ### Lines of one-letter arguments -/

theorem amps_gaps (n : Nat) :
    ∀ e ∈ (List.replicate n ((.amp, 1) : Arg × Nat)).dropLast, 1 ≤ e.2 := by
  intro e he
  rw [List.eq_of_mem_replicate ((List.dropLast_sublist _).mem he)]

theorem length_amps (n : Nat) : (render 0 (List.replicate n (.amp, 1))).length = n * 2 := by
  simp [render, Arg.written, Arg.amp, spaces]

theorem nul_notMem_amps (n : Nat) : '\x00' ∉ render 0 (List.replicate n (.amp, 1)) := by
  simp [render, Arg.written, Arg.amp, spaces]

/-- 127 times `&`: the NULL is stored in the last entry of `argv`. -/
theorem argv_in_bounds_amp :
    parselineInPlace (List.replicate MAXLINE 'x')
      (render 0 (List.replicate 127 (.amp, 1)) ++ ['\n']) ≠ .error .argv := by
  have hlen : (render 0 (List.replicate 127 (.amp, 1))).length + 1 < MAXLINE := by
    rw [length_amps]
    decide
  refine (argv_in_bounds_iff List.length_replicate hlen (nul_notMem_amps 127)
    ⟨_, none, written_render 0 (amps_gaps 127)⟩).mpr ?_
  show (List.map Prod.fst (List.replicate 127 ((.amp, 1) : Arg × Nat))).length < MAXARGS
  rw [List.length_map, List.length_replicate]
  decide

/-- 128 times `&`: the NULL is stored behind the end of `argv`. -/
theorem argv_leaves_bounds :
    parselineInPlace (List.replicate MAXLINE 'x')
      (render 0 (List.replicate 128 (.amp, 1)) ++ ['\n']) = .error .argv := by
  have hlen : (render 0 (List.replicate 128 (.amp, 1))).length + 1 < MAXLINE := by
    rw [length_amps]
    decide
  refine (parselineInPlace_overflow_iff List.length_replicate hlen (nul_notMem_amps 128)
    (written_render 0 (amps_gaps 128))).mpr ?_
  rw [List.length_map, List.length_replicate]
  rfl

end Shell
