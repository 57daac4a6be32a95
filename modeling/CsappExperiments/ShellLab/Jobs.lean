import Mathlib.Data.Fin.Tuple.Basic
import Mathlib.Data.Fintype.Basic
import Mathlib.Logic.Function.Basic
import CsappExperiments.CLib

/-! # Shell Lab: the job list

    The table `jobs[MAXJOBS]` of `tsh.c`, the counter `nextjid`, and the
    helper routines that manipulate them. Every one of these routines is a
    loop over the array that stops at the first entry passing a test; the
    loop is `Fin.find?`, which returns the index of that entry.

    A pointer `struct job_t *` into the array is a `Slot`; `NULL` is `none`.
-/

open CLib

namespace Shell

/-! ## Section 1: Model -/

/-- `pid_t`. -/
abbrev Pid : Type := Int

/-- Max jobs at any point in time. -/
abbrev MAXJOBS : Nat := 16

/-- Job states. -/
inductive JobState where
  | UNDEF
  | FG
  | BG
  | ST
  deriving DecidableEq, Repr

/-- `struct job_t`. -/
structure Job where
  pid : Pid
  jid : Int
  state : JobState
  cmdline : CStr
  deriving DecidableEq, Repr

/-- An index into `jobs[]`. -/
abbrev Slot : Type := Fin MAXJOBS

/-- The globals `jobs` and `nextjid`. -/
structure JobTable where
  jobs : Slot → Job
  nextjid : Int
  deriving DecidableEq

/-- The entry that `clearjob` leaves behind. -/
def clearjob : Job where
  pid := 0
  jid := 0
  state := .UNDEF
  cmdline := []

/-- The table after `initjobs`, with the initial value of `nextjid`. -/
def initjobs : JobTable where
  jobs := fun _ => clearjob
  nextjid := 1

/-- Largest allocated job ID. -/
def maxjid (jobs : Slot → Job) : Int :=
  (List.finRange MAXJOBS).foldl (fun max i => if (jobs i).jid > max then (jobs i).jid else max) 0

/-- The counter update of `addjob`: increment, and wrap past `MAXJOBS`. -/
def succjid (nextjid : Int) : Int :=
  if wrap32 (nextjid + 1) > MAXJOBS then 1 else wrap32 (nextjid + 1)

/-- Write the entry `j` at slot `i`. -/
def JobTable.setJob (t : JobTable) (i : Slot) (j : Job) : JobTable :=
  { t with jobs := Function.update t.jobs i j }

/-- The store `job_ptr->state = st`. -/
def JobTable.setState (t : JobTable) (i : Slot) (st : JobState) : JobTable :=
  t.setJob i { t.jobs i with state := st }

/-- The test of `addjob`'s loop: the first entry that is not in use. -/
def freeSlot (t : JobTable) : Option Slot :=
  Fin.find? fun i => (t.jobs i).pid = 0

/-- Add a job to the job list. Returns whether the job was added. -/
def addjob (t : JobTable) (pid : Pid) (state : JobState) (cmdline : CStr) : Bool × JobTable :=
  if pid < 1 then (false, t)
  else
    match freeSlot t with
    | none => (false, t)  -- "Tried to create too many jobs"
    | some i =>
      (true, { t.setJob i ⟨pid, t.nextjid, state, cmdline⟩ with nextjid := succjid t.nextjid })

/-- Delete a job whose PID is `pid`. Returns whether there was one. -/
def deletejob (t : JobTable) (pid : Pid) : Bool × JobTable :=
  if pid < 1 then (false, t)
  else
    match Fin.find? fun i => (t.jobs i).pid = pid with
    | none => (false, t)
    | some i =>
      let t' := t.setJob i clearjob
      (true, { t' with nextjid := wrap32 (maxjid t'.jobs + 1) })

/-- The first entry in state FG. -/
def fgSlot (t : JobTable) : Option Slot :=
  Fin.find? fun i => (t.jobs i).state = .FG

/-- PID of the current foreground job, 0 if there is no such job. -/
def fgpid (t : JobTable) : Pid :=
  match fgSlot t with
  | none => 0
  | some i => (t.jobs i).pid

/-- Find a job (by PID) on the job list. -/
def getjobpid (t : JobTable) (pid : Pid) : Option Slot :=
  if pid < 1 then none else Fin.find? fun i => (t.jobs i).pid = pid

/-- Find a job (by JID) on the job list. -/
def getjobjid (t : JobTable) (jid : Int) : Option Slot :=
  if jid < 1 then none else Fin.find? fun i => (t.jobs i).jid = jid

/-- Map process ID to job ID. -/
def pid2jid (t : JobTable) (pid : Pid) : Int :=
  if pid < 1 then 0
  else
    match Fin.find? fun i => (t.jobs i).pid = pid with
    | none => 0
    | some i => (t.jobs i).jid

/-! ## Section 2: Updates of one slot -/

@[simp] theorem setJob_self (t : JobTable) (i : Slot) (j : Job) : (t.setJob i j).jobs i = j := by
  simp [JobTable.setJob]

@[simp] theorem setJob_ne (t : JobTable) {i k : Slot} (j : Job) (h : k ≠ i) :
    (t.setJob i j).jobs k = t.jobs k := by
  simp [JobTable.setJob, h]

@[simp] theorem setState_pid (t : JobTable) (i k : Slot) (st : JobState) :
    ((t.setState i st).jobs k).pid = (t.jobs k).pid := by
  by_cases h : k = i
  · subst h; simp [JobTable.setState]
  · simp [JobTable.setState, h]

@[simp] theorem setState_jid (t : JobTable) (i k : Slot) (st : JobState) :
    ((t.setState i st).jobs k).jid = (t.jobs k).jid := by
  by_cases h : k = i
  · subst h; simp [JobTable.setState]
  · simp [JobTable.setState, h]

@[simp] theorem setState_state_self (t : JobTable) (i : Slot) (st : JobState) :
    ((t.setState i st).jobs i).state = st := by
  simp [JobTable.setState]

@[simp] theorem setState_ne (t : JobTable) {i k : Slot} (st : JobState) (h : k ≠ i) :
    (t.setState i st).jobs k = t.jobs k := by
  simp [JobTable.setState, h]

/-! ## Section 3: What the helper routines do -/

/-- `addjob` fills one free slot, or leaves the table alone if there is none. -/
theorem addjob_cases {t : JobTable} {pid : Pid} (hpid : 1 ≤ pid) (st : JobState) (cmdline : CStr) :
    (freeSlot t = none ∧ addjob t pid st cmdline = (false, t)) ∨
      ∃ i, freeSlot t = some i ∧ (t.jobs i).pid = 0 ∧
        addjob t pid st cmdline =
          (true,
            { t.setJob i ⟨pid, t.nextjid, st, cmdline⟩ with nextjid := succjid t.nextjid }) := by
  have hlt : ¬ pid < 1 := not_lt.mpr hpid
  cases hfree : freeSlot t with
  | none => exact .inl ⟨rfl, by simp [addjob, hlt, hfree]⟩
  | some i =>
    have hzero : (t.jobs i).pid = 0 := by
      simpa using Fin.eq_true_of_find?_eq_some hfree
    exact .inr ⟨i, rfl, hzero, by simp [addjob, hlt, hfree]⟩

/-- `deletejob` clears one slot that holds `pid`, if there is one. -/
theorem deletejob_cases {t : JobTable} {pid : Pid} (hpid : 1 ≤ pid) :
    ((∀ i, (t.jobs i).pid ≠ pid) ∧ deletejob t pid = (false, t)) ∨
      ∃ i, (t.jobs i).pid = pid ∧
        deletejob t pid =
          (true, { t.setJob i clearjob with
            nextjid := wrap32 (maxjid (t.setJob i clearjob).jobs + 1) }) := by
  have hlt : ¬ pid < 1 := not_lt.mpr hpid
  cases hfind : Fin.find? fun i => decide ((t.jobs i).pid = pid) with
  | none =>
    refine .inl ⟨?_, by simp [deletejob, hlt, hfind]⟩
    intro i
    simpa using Fin.find?_eq_none_iff.mp hfind i
  | some i =>
    have hi : (t.jobs i).pid = pid := by
      simpa using Fin.eq_true_of_find?_eq_some hfind
    exact .inr ⟨i, hi, by simp [deletejob, hlt, hfind]⟩

/-- `deletejob` clears entries of `pid` only. -/
theorem deletejob_jobs (t : JobTable) (pid : Pid) (i : Slot) :
    (deletejob t pid).2.jobs i = t.jobs i ∨
      ((t.jobs i).pid = pid ∧ (deletejob t pid).2.jobs i = clearjob) := by
  by_cases hpid : pid < 1
  · rw [deletejob, if_pos hpid]
    exact .inl rfl
  · rcases deletejob_cases (t := t) (not_lt.mp hpid) with ⟨_, heq⟩ | ⟨k, hk, heq⟩
    · rw [heq]
      exact .inl rfl
    · rw [heq]
      by_cases hik : i = k
      · subst hik
        exact .inr ⟨hk, setJob_self t i clearjob⟩
      · exact .inl (setJob_ne t clearjob hik)

theorem deletejob_ne {t : JobTable} {pid : Pid} {i : Slot} (h : (t.jobs i).pid ≠ pid) :
    (deletejob t pid).2.jobs i = t.jobs i :=
  (deletejob_jobs t pid i).resolve_right fun hcleared => h hcleared.1

/-- `deletejob` clears the only entry of `pid`. -/
theorem deletejob_self {t : JobTable} {pid : Pid} {i : Slot} (hpid : 1 ≤ pid)
    (hi : (t.jobs i).pid = pid) (huniq : ∀ k, (t.jobs k).pid = pid → k = i) :
    (deletejob t pid).2.jobs i = clearjob := by
  rcases deletejob_cases (t := t) hpid with ⟨hnone, _⟩ | ⟨k, hk, heq⟩
  · exact absurd hi (hnone i)
  · obtain rfl := huniq k hk
    rw [heq]
    exact setJob_self t k clearjob

/-- An entry that is in use after `deletejob` was there before. -/
theorem deletejob_live {t : JobTable} {pid : Pid} {i : Slot}
    (h : ((deletejob t pid).2.jobs i).pid ≠ 0) : (deletejob t pid).2.jobs i = t.jobs i := by
  rcases deletejob_jobs t pid i with hsame | ⟨_, hcleared⟩
  · exact hsame
  · rw [hcleared] at h
    exact absurd rfl h

/-- What every entry and the cleared entry satisfy, every entry satisfies after `deletejob`. -/
theorem deletejob_forall {P : Job → Prop} {t : JobTable} (hclear : P clearjob)
    (h : ∀ i, P (t.jobs i)) (pid : Pid) (i : Slot) : P ((deletejob t pid).2.jobs i) := by
  rcases deletejob_jobs t pid i with hsame | ⟨_, hcleared⟩
  · rw [hsame]
    exact h i
  · rw [hcleared]
    exact hclear

theorem deletejob_distinct {t : JobTable}
    (h : ∀ i k, (t.jobs i).pid ≠ 0 → (t.jobs i).pid = (t.jobs k).pid → i = k) (pid : Pid)
    {i k : Slot} (hi : ((deletejob t pid).2.jobs i).pid ≠ 0)
    (hik : ((deletejob t pid).2.jobs i).pid = ((deletejob t pid).2.jobs k).pid) : i = k := by
  have hk : ((deletejob t pid).2.jobs k).pid ≠ 0 := fun hzero => hi (hik.trans hzero)
  have hi' := deletejob_live hi
  rw [hi'] at hi
  rw [hi', deletejob_live hk] at hik
  exact h i k hi hik

theorem getjobpid_some {t : JobTable} {pid : Pid} {i : Slot} (h : getjobpid t pid = some i) :
    1 ≤ pid ∧ (t.jobs i).pid = pid := by
  unfold getjobpid at h
  split at h
  · cases h
  · next hlt => exact ⟨not_lt.mp hlt, by simpa using Fin.eq_true_of_find?_eq_some h⟩

theorem getjobpid_ne_none {t : JobTable} {pid : Pid} (hpid : 1 ≤ pid) {i : Slot}
    (hi : (t.jobs i).pid = pid) : getjobpid t pid ≠ none := by
  have hlt : ¬ pid < 1 := not_lt.mpr hpid
  rw [getjobpid, if_neg hlt]
  intro hnone
  simpa [hi] using Fin.find?_eq_none_iff.mp hnone i

theorem getjobjid_some {t : JobTable} {jid : Int} {i : Slot} (h : getjobjid t jid = some i) :
    1 ≤ jid ∧ (t.jobs i).jid = jid := by
  unfold getjobjid at h
  split at h
  · cases h
  · next hlt => exact ⟨not_lt.mp hlt, by simpa using Fin.eq_true_of_find?_eq_some h⟩

theorem getjobjid_ne_none {t : JobTable} {jid : Int} (hjid : 1 ≤ jid) {i : Slot}
    (hi : (t.jobs i).jid = jid) : getjobjid t jid ≠ none := by
  have hlt : ¬ jid < 1 := not_lt.mpr hjid
  rw [getjobjid, if_neg hlt]
  intro hnone
  simpa [hi] using Fin.find?_eq_none_iff.mp hnone i

/-- `fgpid` names an entry in state FG, if there is one. -/
theorem fgpid_spec {t : JobTable} {i : Slot} (hi : (t.jobs i).state = .FG) :
    ∃ k, (t.jobs k).state = .FG ∧ fgpid t = (t.jobs k).pid := by
  unfold fgpid
  cases hfind : fgSlot t with
  | none => exact absurd hi (by simpa using Fin.find?_eq_none_iff.mp hfind i)
  | some k => exact ⟨k, by simpa using Fin.eq_true_of_find?_eq_some hfind, rfl⟩

/-- A non-zero `fgpid` is the pid of an entry in state FG. -/
theorem fgpid_ne_zero {t : JobTable} (h : fgpid t ≠ 0) :
    ∃ k, (t.jobs k).state = .FG ∧ (t.jobs k).pid = fgpid t := by
  unfold fgpid at h ⊢
  cases hfind : fgSlot t with
  | none => exact absurd (by rw [hfind]) h
  | some k => exact ⟨k, by simpa using Fin.eq_true_of_find?_eq_some hfind, rfl⟩

end Shell
