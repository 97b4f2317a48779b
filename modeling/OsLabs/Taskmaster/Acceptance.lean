import Mathlib.Data.List.DropRight
import OsLabs.Taskmaster.System

/-! What `do_task` accepts, and what follows for the identifiers in the table. -/

set_option autoImplicit false

namespace OsLabs.Taskmaster

open OsLabs.Lib

/-- `do_task` returns `v` over table `t` and leaves `t'`: it accepts exactly what it
can store and what is no duplicate. -/
structure Accepted (t t' : Table) (issue : Issue) (v : Word) : Prop where
  accepts : 0 ≤ v.toInt ↔ (∃ i, (t i).status = .free) ∧ ¬t.AlreadyUsed issue.taskId
  stores : 0 ≤ v.toInt → ∃ i, (t i).status = .free ∧ (∀ j < i, (t j).status ≠ .free) ∧
    (t' i).status = .pending ∧ (t' i).toIssue = issue ∧ ∀ j, j ≠ i → t' j = t j
  refuses : v.toInt < 0 → v = -1 ∧ t' = t

def Fits (t : Table) (issue : Issue) : Prop := (∃ i, (t i).status = .free) ↔ ¬t.AlreadyUsed issue.taskId

/-- `do_task` tests `already_used && !found`: a duplicate passes while a slot is free,
and any identifier passes when none is. -/
theorem Effect.accepted_iff {t t' : Table} {outcome : Outcome} {issue : Issue} (effect : Effect t outcome t')
    (request : outcome.request = some (.doTask issue)) :
    ∃ v, outcome.ret = some v ∧ (Accepted t t' issue v ↔ Fits t issue) := by
  have one : 0 ≤ (1 : Word).toInt := by decide
  have refusal : (-1 : Word).toInt < 0 := by decide
  cases effect with
  | stored found =>
    cases request
    have slot := Table.firstFree_eq_some.mp found
    refine ⟨1, rfl, fun accepted => ?_, fun fits => ⟨?_, fun _ => ?_, fun negative => ?_⟩⟩
    · exact iff_of_true ⟨_, slot.1⟩ (accepted.accepts.mp one).2
    · exact iff_of_true one ⟨⟨_, slot.1⟩, fits.mp ⟨_, slot.1⟩⟩
    · refine ⟨_, slot.1, slot.2, ?_, ?_, fun j other => ?_⟩
      · rw [Table.fill_apply, if_pos rfl]
      · rw [Table.fill_apply, if_pos rfl]
      · rw [Table.fill_apply, if_neg other]
    · exact absurd one (by omega)
  | dropped full unused =>
    cases request
    have none_free := Table.firstFree_eq_none.mp full
    refine ⟨1, rfl, fun accepted => ?_, fun fits => ?_⟩
    · obtain ⟨⟨i, free⟩, -⟩ := accepted.accepts.mp one
      exact absurd free (none_free i)
    · obtain ⟨i, free⟩ := fits.mpr unused
      exact absurd free (none_free i)
  | refused full used =>
    cases request
    have none_free := Table.firstFree_eq_none.mp full
    refine ⟨-1, rfl, fun _ => ?_, fun _ => ⟨?_, fun positive => ?_, fun _ => ⟨rfl, rfl⟩⟩⟩
    · exact iff_of_false (fun ⟨i, free⟩ => none_free i free) (not_not.mpr used)
    · exact iff_of_false (by omega) fun both => both.2 used
    · exact absurd positive (by omega)
  | _ => cases request

/-! ## Runs -/

/-- Below a slot in use no slot carries its identifier, whatever that slot's status. -/
def Distinct (t : Table) : Prop := ∀ k, t.used k → ∀ j < k, (t j).taskId ≠ (t k).taskId

theorem Distinct.unique {t : Table} (distinct : Distinct t) {i j : Slot} (first : t.used i) (second : t.used j)
    (same : (t i).taskId = (t j).taskId) : i = j := by
  rcases lt_trichotomy i j with below | equal | above
  · exact absurd same (distinct j second i below)
  · exact equal
  · exact absurd same.symm (distinct i first j above)

theorem Effect.distinct {t t' : Table} {outcome : Outcome} (effect : Effect t outcome t')
    (fits : ∀ issue, outcome.request = some (.doTask issue) → Fits t issue) (distinct : Distinct t) :
    Distinct t' := by
  intro k used j below
  rw [Table.used_iff] at used
  cases effect with
  | initialised => exact absurd rfl used
  | @stored i issue found =>
    obtain ⟨free, lowest⟩ := Table.firstFree_eq_some.mp found
    have unused := (fits issue rfl).mp ⟨i, free⟩
    rw [Table.fill_apply] at used
    rw [Table.fill_apply, Table.fill_apply]
    split_ifs with first second
    · exact absurd (first.trans second.symm) (ne_of_lt below)
    · -- the new slot lies below one in use
      rw [if_neg second] at used
      exact fun same => unused ⟨k, Table.used_iff.mpr used, same.symm⟩
    next second =>
      exact fun same => unused ⟨j, Table.used_iff.mpr (lowest j (second ▸ below)), same⟩
    next second =>
      rw [if_neg second] at used
      exact distinct k (Table.used_iff.mpr used) j below
  | @handed i found =>
    have pending := (Table.firstPending_eq_some.mp found).1
    have before : t.used k := by
      rw [Table.used_iff]
      by_cases same : k = i
      · rw [same, pending]
        exact TaskStatus.noConfusion
      · rwa [Table.setStatus_apply, if_neg same] at used
    rw [Table.toIssue_setStatus, Table.toIssue_setStatus]
    exact distinct k before j below
  | @completed i taskId result found =>
    obtain ⟨named, lowest⟩ := Table.firstWith_eq_some.mp found
    rw [Table.toIssue_complete, Table.toIssue_complete]
    by_cases same : k = i
    · rw [same, named]
      exact lowest j (same ▸ below)
    · rw [Table.complete_apply, if_neg same] at used
      exact distinct k (Table.used_iff.mpr used) j below
  | _ => exact distinct k (Table.used_iff.mpr used) j below

section Runs

variable {Pid : Type*} [DecidableEq Pid]

def sinceInit (log : List (Entry Pid)) : List (Entry Pid) :=
  log.rtakeWhile fun e => e.outcome.request ≠ some .initTaskmaster

structure Intact (s : System Pid) (log : List (Entry Pid)) : Prop where
  distinct : Distinct s.tasks
  held : ∀ e ∈ sinceInit log, ∀ i issue, e.outcome = .stored i issue →
    s.tasks.used i ∧ (s.tasks i).toIssue = issue
  accepted : ∀ e ∈ log, ∀ issue, e.outcome ≠ .dropped issue

def Fitting (s : System Pid × List (Entry Pid)) : Label Pid → Prop
  | .syscall _ _ (.doTask issue) => Fits s.1.tasks issue
  | _ => True

omit [DecidableEq Pid] in
theorem intact_boot (tf : Pid → TrapFrame) (memory : Pid → Memory) : Intact (System.boot tf memory) [] where
  distinct k used := absurd rfl (Table.used_iff.mp used)
  held e member := by cases member
  accepted e member := by cases member

theorem Intact.step {s s' : System Pid} {log : List (Entry Pid)} {l : Label Pid} {e : Entry Pid}
    (intact : Intact s log) (fitting : Fitting (s, log) l) (call : s.exec l = some (s', e)) :
    Intact s' (log ++ [e]) := by
  have effect := System.exec_effect call
  have fits : ∀ issue, e.outcome.request = some (.doTask issue) → Fits s.tasks issue := by
    intro issue request
    obtain ⟨tf, rfl⟩ := System.exec_origin call request
    exact fitting
  refine ⟨effect.distinct fits intact.distinct, ?_, ?_⟩
  · intro entry member i issue stored
    rw [sinceInit, List.rtakeWhile_concat] at member
    split at member
    next other =>
      rw [decide_eq_true_eq] at other
      rcases List.mem_append.mp member with old | new
      · obtain ⟨used, same⟩ := intact.held entry old i issue stored
        have kept := effect.keeps (fun init => other (by rw [init]; rfl)) used
        exact ⟨kept.1, kept.2.trans same⟩
      · rw [List.mem_singleton.mp new] at stored
        rw [stored] at effect
        rw [effect.of_stored.2, Table.used_iff, Table.fill_apply, if_pos rfl]
        exact ⟨TaskStatus.noConfusion, rfl⟩
    next => cases member
  · intro entry member issue dropped
    rcases List.mem_append.mp member with old | new
    · exact intact.accepted entry old issue dropped
    · rw [List.mem_singleton.mp new] at dropped
      have fit := fits issue (by rw [dropped]; rfl)
      rw [dropped] at effect
      obtain ⟨full, unused⟩ := effect.of_dropped
      obtain ⟨i, free⟩ := fit.mpr unused
      exact Table.firstFree_eq_none.mp full i free

/-- `do_task` meets its contract exactly on the calls that fit; in a run of such calls
no identifier is ever doubled and every accepted task stays in its slot. -/
theorem doTask_accepted_iff :
    (∀ (s s' : System Pid) (p : Pid) (tf : TrapFrame) (issue : Issue) (e : Entry Pid),
      s.exec (.syscall p tf (.doTask issue)) = some (s', e) →
      ∃ v, e.outcome.ret = some v ∧ (Accepted s.tasks s'.tasks issue v ↔ Fits s.tasks issue)) ∧
    (∀ (tf : Pid → TrapFrame) (memory : Pid → Memory) (ls : List (Label Pid)) (s : System Pid) (log : List (Entry Pid)),
      Machine.EveryStep System.step Fitting (System.boot tf memory, []) ls →
      Machine.run System.step (System.boot tf memory, []) ls = some (s, log) →
      (∀ i j, s.tasks.used i → s.tasks.used j → (s.tasks i).taskId = (s.tasks j).taskId → i = j) ∧
      (∀ e ∈ log, ∀ issue, e.outcome ≠ .dropped issue) ∧
      (∀ e ∈ sinceInit log, ∀ i issue, e.outcome = .stored i issue →
        s.tasks.used i ∧ (s.tasks i).toIssue = issue)) := by
  constructor
  · intro s s' p tf issue e call
    exact (System.exec_effect call).accepted_iff (System.exec_doTask call)
  · intro tf memory ls s log fitting reached
    have intact : Intact s log := Machine.invariant_of_everyStep (I := fun s => Intact s.1 s.2)
      (fun s l t intact fitting step => by
        obtain ⟨e, call, same⟩ := Machine.record_eq_some.mp step
        rw [same]
        exact intact.step fitting call)
      (intact_boot tf memory) fitting reached
    exact ⟨fun i j first second same => intact.distinct.unique first second same, intact.accepted, intact.held⟩

def served : List (Label Bool) :=
  [.syscall false .start .initTaskmaster, .syscall false .start (.doTask ⟨64, 5, 1, 2⟩),
    .syscall true .start .waitForTask, .syscall true .start (.taskRet 5 7),
    .syscall false .start (.waitForTaskToComplete 5 4096), .syscall false .start (.doTask ⟨64, 6, 3, 4⟩),
    .syscall true .start .waitForTask]

def checkFitting (s : System Bool × List (Entry Bool)) : Label Bool → Bool
  | .syscall _ _ (.doTask issue) => s.1.tasks.firstFree.isSome && !decide (s.1.tasks.AlreadyUsed issue.taskId)
  | _ => true

theorem fits_of_check {t : Table} {issue : Issue}
    (checked : (t.firstFree.isSome && !decide (t.AlreadyUsed issue.taskId)) = true) : Fits t issue := by
  simp only [Bool.and_eq_true, Bool.not_eq_true', decide_eq_false_iff_not] at checked
  obtain ⟨i, found⟩ := Option.isSome_iff_exists.mp checked.1
  exact iff_of_true ⟨i, (Table.firstFree_eq_some.mp found).1⟩ checked.2

theorem fitting_of_check {s : System Bool × List (Entry Bool)} {l : Label Bool} (checked : checkFitting s l = true) :
    Fitting s l := by
  cases l with
  | syscall p tf request =>
    cases request with
    | doTask issue => exact fits_of_check checked
    | _ => trivial
  | resume p => trivial

theorem doTask_accepted_served :
    ∃ (s s' : System Bool) (log : List (Entry Bool)) (e : Entry Bool) (v : Word),
      Machine.run System.step (System.idle Bool, []) served = some (s, log) ∧
      (s.exec (.syscall false .start (.doTask ⟨64, 7, 5, 6⟩)) = some (s', e) ∧ e.outcome.ret = some v ∧
        Accepted s.tasks s'.tasks ⟨64, 7, 5, 6⟩ v) ∧
      (∀ i j, s.tasks.used i → s.tasks.used j → (s.tasks i).taskId = (s.tasks j).taskId → i = j) ∧
      ∀ e ∈ sinceInit log, ∀ i issue, e.outcome = .stored i issue → s.tasks.used i ∧ (s.tasks i).toIssue = issue := by
  have facts : (Machine.run System.step (System.idle Bool, []) served).any (fun x =>
      checkFitting x (.syscall false .start (.doTask ⟨64, 7, 5, 6⟩)) &&
        (x.1.exec (.syscall false .start (.doTask ⟨64, 7, 5, 6⟩))).isSome) = true := by decide +kernel
  obtain ⟨⟨s, log⟩, reached, facts⟩ := (Option.any_eq_true _ _).mp facts
  obtain ⟨fits, called⟩ := Bool.and_eq_true_iff.mp facts
  obtain ⟨⟨s', e⟩, call⟩ := Option.isSome_iff_exists.mp called
  obtain ⟨v, returned, accepted⟩ := doTask_accepted_iff.1 s s' false .start ⟨64, 7, 5, 6⟩ e call
  have checked : Machine.checkRun System.step checkFitting (System.idle Bool, []) served = true := by decide +kernel
  have fitting := Machine.everyStep_of_checkRun (fun _ _ => fitting_of_check) checked
  obtain ⟨distinct, -, kept⟩ := doTask_accepted_iff.2 (fun _ => .start) (fun _ _ => 0) served s log fitting reached
  exact ⟨s, s', log, e, v, reached, ⟨call, returned, accepted.mpr (fits_of_check fits)⟩, distinct, kept⟩

/-- A second `do_task` with identifier 5 is accepted while the first is pending. -/
theorem doTask_accepts_duplicate :
    ∃ (s s' : System Unit) (log : List (Entry Unit)) (e : Entry Unit) (v : Word),
      Machine.run System.step (System.idle Unit, [])
        [.syscall () .start .initTaskmaster, .syscall () .start (.doTask ⟨64, 5, 1, 2⟩)] = some (s, log) ∧
      s.exec (.syscall () .start (.doTask ⟨64, 5, 3, 4⟩)) = some (s', e) ∧ e.outcome.ret = some v ∧
      ¬Accepted s.tasks s'.tasks ⟨64, 5, 3, 4⟩ v := by
  have facts : (Machine.run System.step (System.idle Unit, [])
      [.syscall () .start .initTaskmaster, .syscall () .start (.doTask ⟨64, 5, 1, 2⟩)]).any (fun x =>
        (x.1.exec (.syscall () .start (.doTask ⟨64, 5, 3, 4⟩))).any fun r =>
          decide (r.2.outcome.ret = some 1 ∧ x.1.tasks.AlreadyUsed 5)) = true := by decide +kernel
  obtain ⟨⟨s, log⟩, reached, second⟩ := (Option.any_eq_true _ _).mp facts
  obtain ⟨⟨s', e⟩, call, ended⟩ := (Option.any_eq_true _ _).mp second
  obtain ⟨returned, duplicate⟩ := of_decide_eq_true ended
  refine ⟨s, s', log, e, 1, reached, call, returned, fun accepted => ?_⟩
  exact (accepted.accepts.mp (by decide)).2 duplicate

end Runs

end OsLabs.Taskmaster
