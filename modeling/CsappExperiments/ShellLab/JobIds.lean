import CsappExperiments.Framework.System
import CsappExperiments.ShellLab.Jobs

/-! # Shell Lab: job IDs

    `nextjid` is maintained by two rules: `addjob` increments it and wraps it
    to 1 past `MAXJOBS`, and `deletejob` sets it to the largest ID plus one.
    After a wrap the ID 1 may be in use, and after a deletion the next ID may
    be 17, so the IDs need not be distinct or in range (`job_ids_collide`).

    They are, in exactly the histories in which every `addjob` that finds a
    slot finds `nextjid` in range and unused (`job_ids_unique_iff`).
-/

open CLib

namespace Shell

/-! ## Section 1: Histories -/

/-- The operations on the job list. -/
inductive TableOp where
  | addjob (pid : Pid) (state : JobState) (cmdline : CStr)
  | deletejob (pid : Pid)

/-- `addjob` is called with the pid of a process that is not in the list. -/
def TableOp.step (t : JobTable) : TableOp → Option JobTable
  | .addjob pid state cmdline =>
    if 1 ≤ pid ∧ ∀ i, (t.jobs i).pid ≠ pid then some (Shell.addjob t pid state cmdline).2 else none
  | .deletejob pid => some (Shell.deletejob t pid).2

def jobList : LTS.System JobTable TableOp where
  init := initjobs
  step := TableOp.step

/-- The IDs of the live entries are distinct and in range, and `getjobjid`
    and `pid2jid` are inverse to each other on them. -/
structure JobIdsUnique (t : JobTable) : Prop where
  range : ∀ i, (t.jobs i).pid ≠ 0 → 1 ≤ (t.jobs i).jid ∧ (t.jobs i).jid ≤ MAXJOBS
  unique : ∀ i k, (t.jobs i).pid ≠ 0 → (t.jobs k).pid ≠ 0 → (t.jobs i).jid = (t.jobs k).jid → i = k
  inverse : ∀ i, (t.jobs i).pid ≠ 0 →
    pid2jid t (t.jobs i).pid = (t.jobs i).jid ∧ getjobjid t (t.jobs i).jid = some i

/-- The condition: `addjob` finds no free slot, or a `nextjid` that is in
    range and that no job has. -/
def FreshId (t : JobTable) : TableOp → Prop
  | .addjob _ _ _ => freeSlot t ≠ none → t.nextjid ≤ MAXJOBS ∧ getjobjid t t.nextjid = none
  | .deletejob _ => True

/-! ## Section 2: The searches -/

/-- A search finds the only entry that passes the test. -/
theorem find_unique {p : Slot → Bool} {i : Slot} (hi : p i = true)
    (huniq : ∀ k, p k = true → k = i) : Fin.find? p = some i := by
  cases hfind : Fin.find? p with
  | none => exact absurd hi (by simpa using Fin.find?_eq_none_iff.mp hfind i)
  | some k => rw [huniq k (Fin.eq_true_of_find?_eq_some hfind)]

theorem getjobjid_eq_none {t : JobTable} {jid : Int} (hjid : 1 ≤ jid) :
    getjobjid t jid = none ↔ ∀ i, (t.jobs i).jid ≠ jid := by
  have hlt : ¬ jid < 1 := not_lt.mpr hjid
  rw [getjobjid, if_neg hlt]
  simp

/-- `maxjid` lies between 0 and any bound of the IDs. -/
theorem maxjid_range {jobs : Slot → Job} {B : Int} (hB : 0 ≤ B) (hjobs : ∀ i, (jobs i).jid ≤ B) :
    0 ≤ maxjid jobs ∧ maxjid jobs ≤ B := by
  unfold maxjid
  generalize List.finRange MAXJOBS = l
  -- the running maximum stays between 0 and `B`
  suffices h : ∀ acc : Int, 0 ≤ acc → acc ≤ B →
      0 ≤ l.foldl (fun max i => if (jobs i).jid > max then (jobs i).jid else max) acc ∧
      l.foldl (fun max i => if (jobs i).jid > max then (jobs i).jid else max) acc ≤ B from
    h 0 le_rfl hB
  induction l with
  | nil => exact fun acc hlo hhi => ⟨hlo, hhi⟩
  | cons i l ih =>
    intro acc hlo hhi
    rw [List.foldl_cons]
    refine ih _ ?_ ?_
    · split
      · next hgt => omega
      · exact hlo
    · split
      · exact hjobs i
      · exact hhi

/-- The counter that `addjob` leaves behind. -/
theorem succjid_range {n : Int} (hlo : 1 ≤ n) (hhi : n ≤ MAXJOBS) :
    1 ≤ succjid n ∧ succjid n ≤ MAXJOBS + 1 := by
  have hmax : ((MAXJOBS : Nat) : Int) = 16 := rfl
  -- the counter is far from overflowing
  have hwrap : wrap32 (n + 1) = n + 1 := by
    apply wrap32_of_range <;> omega
  unfold succjid
  rw [hwrap]
  split <;> omega

/-- The counter that `deletejob` leaves behind, while the IDs are in range. -/
theorem maxjid_succ_range {jobs : Slot → Job} (hjobs : ∀ i, (jobs i).jid ≤ MAXJOBS) :
    1 ≤ wrap32 (maxjid jobs + 1) ∧ wrap32 (maxjid jobs + 1) ≤ MAXJOBS + 1 := by
  have hmax : ((MAXJOBS : Nat) : Int) = 16 := rfl
  obtain ⟨hlo, hhi⟩ := maxjid_range (by decide) hjobs
  have hwrap : wrap32 (maxjid jobs + 1) = maxjid jobs + 1 := by
    apply wrap32_of_range <;> omega
  rw [hwrap]
  omega

/-! ## Section 3: The invariant -/

/-- The job list while the IDs are unique. -/
structure JobListInv (t : JobTable) : Prop where
  pids : ∀ i, (t.jobs i).pid = 0 ∨ 1 ≤ (t.jobs i).pid
  distinct : ∀ i k, (t.jobs i).pid ≠ 0 → (t.jobs i).pid = (t.jobs k).pid → i = k
  cleared : ∀ i, (t.jobs i).pid = 0 → (t.jobs i).jid = 0
  range : ∀ i, (t.jobs i).pid ≠ 0 → 1 ≤ (t.jobs i).jid ∧ (t.jobs i).jid ≤ MAXJOBS
  unique : ∀ i k, (t.jobs i).pid ≠ 0 → (t.jobs k).pid ≠ 0 → (t.jobs i).jid = (t.jobs k).jid → i = k
  next : 1 ≤ t.nextjid ∧ t.nextjid ≤ MAXJOBS + 1

theorem jobListInv_initial : JobListInv initjobs where
  pids := fun _ => .inl rfl
  distinct := fun _ _ h => absurd rfl h
  cleared := fun _ _ => rfl
  range := fun _ h => absurd rfl h
  unique := fun _ _ h => absurd rfl h
  next := by decide

namespace JobListInv

variable {t : JobTable}

theorem jid_le (h : JobListInv t) (i : Slot) : (t.jobs i).jid ≤ MAXJOBS := by
  by_cases hi : (t.jobs i).pid = 0
  · rw [h.cleared i hi]
    decide
  · exact (h.range i hi).2

theorem jobIdsUnique (h : JobListInv t) : JobIdsUnique t where
  range := h.range
  unique := h.unique
  inverse := by
    intro i hi
    have hpid : ¬ (t.jobs i).pid < 1 := not_lt.mpr ((h.pids i).resolve_left hi)
    have hjid : ¬ (t.jobs i).jid < 1 := not_lt.mpr (h.range i hi).1
    -- each of the two searches has one answer
    have hfindPid : (Fin.find? fun k => decide ((t.jobs k).pid = (t.jobs i).pid)) = some i := by
      refine find_unique (by simp) ?_
      intro k hk
      exact (h.distinct i k hi (of_decide_eq_true hk).symm).symm
    have hfindJid : (Fin.find? fun k => decide ((t.jobs k).jid = (t.jobs i).jid)) = some i := by
      refine find_unique (by simp) ?_
      intro k hk
      have heq : (t.jobs k).jid = (t.jobs i).jid := of_decide_eq_true hk
      have hklive : (t.jobs k).pid ≠ 0 := by
        intro hzero
        have hpos := (h.range i hi).1
        rw [← heq, h.cleared k hzero] at hpos
        exact absurd hpos (by decide)
      exact h.unique k i hklive hi heq
    constructor
    · rw [pid2jid, if_neg hpid, hfindPid]
    · rw [getjobjid, if_neg hjid, hfindJid]

/-- The entry of a new job, in a table whose other entries are kept. -/
theorem insert (h : JobListInv t) {i : Slot} {pid : Pid} {st : JobState} {cmdline : CStr}
    (hpid : 1 ≤ pid) (hnew : ∀ k, (t.jobs k).pid ≠ pid) (hle : t.nextjid ≤ MAXJOBS)
    (hfresh : ∀ k, (t.jobs k).jid ≠ t.nextjid) :
    JobListInv { t.setJob i ⟨pid, t.nextjid, st, cmdline⟩ with nextjid := succjid t.nextjid } where
  pids := by
    intro k
    by_cases hk : k = i
    · subst hk
      simp [hpid]
    · simpa [hk] using h.pids k
  distinct := by
    intro k l hk hkl
    by_cases hki : k = i <;> by_cases hli : l = i
    · exact hki.trans hli.symm
    · subst hki
      exact absurd (by simpa [hli] using hkl.symm) (hnew l)
    · subst hli
      exact absurd (by simpa [hki] using hkl) (hnew k)
    · exact h.distinct k l (by simpa [hki] using hk) (by simpa [hki, hli] using hkl)
  cleared := by
    intro k hzero
    by_cases hki : k = i
    · subst hki
      have hpid0 : pid = 0 := by simpa using hzero
      rw [hpid0] at hpid
      exact absurd hpid (by decide)
    · simpa [hki] using h.cleared k (by simpa [hki] using hzero)
  range := by
    intro k hk
    by_cases hki : k = i
    · subst hki
      simpa using ⟨h.next.1, hle⟩
    · simpa [hki] using h.range k (by simpa [hki] using hk)
  unique := by
    intro k l hk hl hkl
    by_cases hki : k = i <;> by_cases hli : l = i
    · exact hki.trans hli.symm
    · subst hki
      exact absurd (by simpa [hli] using hkl.symm) (hfresh l)
    · subst hli
      exact absurd (by simpa [hki] using hkl) (hfresh k)
    · exact h.unique k l (by simpa [hki] using hk) (by simpa [hli] using hl)
        (by simpa [hki, hli] using hkl)
  next := succjid_range h.next.1 hle

theorem delete (h : JobListInv t) (pid : Pid) : JobListInv (Shell.deletejob t pid).2 where
  pids := deletejob_forall (P := fun j => j.pid = 0 ∨ 1 ≤ j.pid) (.inl rfl) h.pids pid
  distinct := fun _ _ hi hik => deletejob_distinct h.distinct pid hi hik
  cleared := deletejob_forall (P := fun j => j.pid = 0 → j.jid = 0) (fun _ => rfl) h.cleared pid
  range := by
    intro i hi
    have hi' := deletejob_live hi
    rw [hi'] at hi ⊢
    exact h.range i hi
  unique := by
    intro i k hi hk hik
    have hi' := deletejob_live hi
    have hk' := deletejob_live hk
    rw [hi'] at hi hik
    rw [hk'] at hk hik
    exact h.unique i k hi hk hik
  next := by
    by_cases hpid : pid < 1
    · rw [deletejob, if_pos hpid]
      exact h.next
    rcases deletejob_cases (t := t) (not_lt.mp hpid) with ⟨_, heq⟩ | ⟨i, _, heq⟩
    · rw [heq]
      exact h.next
    · rw [heq]
      refine maxjid_succ_range ?_
      intro k
      by_cases hk : k = i
      · subst hk
        rw [setJob_self]
        decide
      · rw [setJob_ne t clearjob hk]
        exact h.jid_le k

end JobListInv

/-! ## Section 4: Unique IDs -/

/-- What an operation of a history does: it deletes, it adds to a full list,
    or it fills a slot. -/
theorem TableOp.step_cases {t t' : JobTable} {op : TableOp} (h : op.step t = some t') :
    (∃ pid, op = .deletejob pid ∧ t' = (Shell.deletejob t pid).2) ∨
    (∃ pid st cmdline, op = .addjob pid st cmdline ∧ freeSlot t = none ∧ t' = t) ∨
    ∃ pid st cmdline i, op = .addjob pid st cmdline ∧ 1 ≤ pid ∧ (∀ k, (t.jobs k).pid ≠ pid) ∧
      freeSlot t = some i ∧ (t.jobs i).pid = 0 ∧
      t' = { t.setJob i ⟨pid, t.nextjid, st, cmdline⟩ with nextjid := succjid t.nextjid } := by
  cases op with
  | deletejob pid => exact .inl ⟨pid, rfl, (Option.some.inj h).symm⟩
  | addjob pid st cmdline =>
    simp only [TableOp.step] at h
    split at h
    · next hvalid =>
      obtain ⟨hpid, hnew⟩ := hvalid
      obtain rfl := Option.some.inj h
      rcases addjob_cases hpid st cmdline with ⟨hfree, heq⟩ | ⟨i, hfree, hzero, heq⟩
      · exact .inr (.inl ⟨pid, st, cmdline, rfl, hfree, by rw [heq]⟩)
      · exact .inr (.inr ⟨pid, st, cmdline, i, rfl, hpid, hnew, hfree, hzero, by rw [heq]⟩)
    · cases h

theorem jobListInv_step {t t' : JobTable} {op : TableOp} (h : JobListInv t)
    (hstep : op.step t = some t') (hok : FreshId t op) : JobListInv t' := by
  rcases TableOp.step_cases hstep with ⟨pid, rfl, rfl⟩ | ⟨pid, st, cmdline, rfl, _, rfl⟩ |
    ⟨pid, st, cmdline, i, rfl, hpid, hnew, hfree, _, rfl⟩
  · exact h.delete pid
  · exact h
  · obtain ⟨hle, hnone⟩ := hok (by simp [hfree])
    exact h.insert hpid hnew hle ((getjobjid_eq_none h.next.1).mp hnone)

/-- An `addjob` that does not meet the condition breaks the numbering. -/
theorem not_unique_of_not_fresh {t t' : JobTable} {op : TableOp} (h : JobListInv t)
    (hstep : op.step t = some t') (hnot : ¬ FreshId t op) : ¬ JobIdsUnique t' := by
  rcases TableOp.step_cases hstep with ⟨pid, rfl, _⟩ | ⟨pid, st, cmdline, rfl, hfree, _⟩ |
    ⟨pid, st, cmdline, i, rfl, hpid, _, _, hzero, rfl⟩
  · exact absurd trivial hnot
  · exact absurd (fun hne => absurd hfree hne) hnot
  · intro huniq
    have hne : pid ≠ 0 := by
      rintro rfl
      exact absurd hpid (by decide)
    have hlo := h.next.1
    refine hnot fun _ => ⟨?_, ?_⟩
    · simpa using (huniq.range i (by simpa using hne)).2
    · rw [getjobjid_eq_none hlo]
      intro k hk
      -- an entry with the ID of the new job is another live one
      have hklive : (t.jobs k).pid ≠ 0 := by
        intro hk0
        rw [← hk, h.cleared k hk0] at hlo
        exact absurd hlo (by decide)
      have hki : k ≠ i := by
        rintro rfl
        exact hklive hzero
      exact hki (huniq.unique k i (by simpa [hki] using hklive) (by simpa using hne)
        (by simpa [hki] using hk))

/-- The job IDs stay unique throughout a history of `addjob` and `deletejob`
    exactly when each `addjob` that finds a slot finds a fresh `nextjid`. -/
theorem job_ids_unique_iff (ops : List TableOp) :
    jobList.Throughout JobIdsUnique initjobs ops ↔ jobList.EveryStep FreshId initjobs ops :=
  LTS.System.throughout_iff_everyStep (fun _ h => h.jobIdsUnique)
    (fun _ _ _ h hstep hok => jobListInv_step h hstep hok)
    (fun _ _ _ h hstep hnot => not_unique_of_not_fresh h hstep hnot) ops initjobs jobListInv_initial

/-- Fifteen jobs, of which 1, 2 and 15 remain, and two more. -/
def wrappedHistory : List TableOp :=
  ((List.range 15).map fun k => .addjob (k + 1) .BG []) ++
    ((List.range 12).map fun k => .deletejob (k + 3)) ++ [.addjob 16 .BG [], .addjob 17 .BG []]

/-- The last one gets the ID 1, which is in use. -/
theorem job_ids_collide :
    ∃ t, jobList.run initjobs wrappedHistory = some t ∧ ¬ JobIdsUnique t ∧
      (t.jobs 0).pid = 1 ∧ (t.jobs 3).pid = 17 ∧ (t.jobs 0).jid = 1 ∧ (t.jobs 3).jid = 1 := by
  have hrun : (jobList.run initjobs wrappedHistory).any (fun t => decide ((t.jobs 0).pid = 1 ∧
      (t.jobs 3).pid = 17 ∧ (t.jobs 0).jid = 1 ∧ (t.jobs 3).jid = 1)) = true := by
    decide +kernel
  obtain ⟨t, ht, hp⟩ := (Option.any_eq_true _ _).mp hrun
  obtain ⟨hpid, hpid', hjid, hjid'⟩ := of_decide_eq_true hp
  refine ⟨t, ht, ?_, hpid, hpid', hjid, hjid'⟩
  intro huniq
  have heq := huniq.unique 0 3 (by rw [hpid]; decide) (by rw [hpid']; decide)
      (hjid.trans hjid'.symm)
  exact absurd heq (by decide)

end Shell
