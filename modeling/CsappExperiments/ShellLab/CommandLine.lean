import CsappExperiments.ShellLab.Jobs

/-! # Shell Lab: command lines

    How `tsh.c` reads a command line: `parseline` cuts it into arguments,
    `builtin_cmd` recognises the built-in commands, and `do_bgfg` decodes
    the argument of `bg` and `fg` and looks the job up.

    `parseline` works in place in a static buffer: it overwrites the last
    character with a space, and each delimiter it finds with NUL. Only the
    part of the buffer after the current position is read again, so the
    model passes that part along and an argument is the text up to its
    delimiter.
-/

open CLib

namespace Shell

/-! ## Section 1: `parseline` -/

/-- Max line size. -/
def MAXLINE : Nat := 1024

/-- Max args on a command line. -/
def MAXARGS : Nat := 128

/-- `strchr`: the text before the first `c` and the text after it. -/
def strchr (c : Char) : CStr → Option (CStr × CStr)
  | [] => none
  | x :: xs =>
    if x = c then some ([], xs) else (strchr c xs).map fun (pre, post) => (x :: pre, post)

/-- Find the delimiter of the argument at `buf`: a quote if it starts with
    a quote, else a space. -/
def delim (buf : CStr) : Option (CStr × CStr) :=
  match buf with
  | '\'' :: buf => strchr '\'' buf
  | buf => strchr ' ' buf

/-- Ignore leading spaces. -/
def skipSpaces (buf : CStr) : CStr := buf.dropWhile (· = ' ')

/-- Build the argv list. Every round consumes a delimiter, so the length of
    the buffer is enough fuel. -/
def buildArgv : Nat → CStr → List CStr
  | 0, _ => []
  | fuel + 1, buf =>
    match delim buf with
    | none => []
    | some (arg, rest) => arg :: buildArgv fuel (skipSpaces rest)

/-- Parse the command line: whether a background job is requested, and the
    arguments (without the final `NULL`). `none` where the C code writes
    outside its buffer or outside `argv`. -/
def parseline (cmdline : CStr) : Option (Bool × List CStr) :=
  if cmdline = [] ∨ MAXLINE ≤ cmdline.length then none
  else
    let buf := cmdline.dropLast ++ [' ']  -- replace trailing '\n' with space
    let argv := buildArgv buf.length (skipSpaces buf)
    if MAXARGS ≤ argv.length then none
    else
      match argv.getLast? with
      | none => some (true, [])  -- ignore blank line
      | some last =>
        if last.head? = some '&' then some (true, argv.dropLast) else some (false, argv)

/-! ## Section 2: built-in commands -/

inductive Builtin where
  | quit
  | jobs
  | amp
  | bgfg
  deriving DecidableEq, Repr

/-- Which built-in command `argv[0]` names, if any. -/
def builtinCmd (argv0 : CStr) : Option Builtin :=
  if argv0 = ['q', 'u', 'i', 't'] then some .quit
  else if argv0 = ['j', 'o', 'b', 's'] then some .jobs
  else if argv0 = ['&'] then some .amp
  else if argv0 = ['b', 'g'] ∨ argv0 = ['f', 'g'] then some .bgfg
  else none

/-- The first part of `do_bgfg`: decode the argument and find the job, or
    stop with the message that is printed. -/
def bgfgJob (t : JobTable) (argv0 : CStr) (argv1 : Option CStr) : Except CStr Slot :=
  match argv1 with
  | none => .error (argv0 ++ " command requires PID or %jobid argument\n".toList)
  | some arg =>
    let c := arg.headD '\x00'
    if (c < '0' ∨ c > '9') ∧ c ≠ '%' then
      .error (argv0 ++ ": argument must be a PID or %jobid\n".toList)
    else if c = '%' then
      match getjobjid t (atoi arg.tail) with
      | none => .error (arg ++ ": No such job\n".toList)
      | some jobPtr => .ok jobPtr
    else
      match getjobpid t (atoi arg) with
      | none => .error ('(' :: arg ++ "): No such process\n".toList)
      | some jobPtr => .ok jobPtr

example : parseline "/bin/ls -l &\n".toList =
    some (true, ["/bin/ls".toList, "-l".toList]) := by decide

end Shell
