import OsLabs.Taskmaster.System

/-! Runs in which masters issue fresh identifiers and only the worker a task was
handed to returns it: what the table and the record of the calls say of each other. -/

set_option autoImplicit false

namespace OsLabs.Taskmaster

open OsLabs.Lib

variable {Pid : Type*}

/-- What a process may ask for after `log`: no second `init_taskmaster`, a new
identifier for each task, and `task_ret` once for each task it was handed, with a
result that `Q` admits. -/
def Allowed (Q : Issue → Word → Prop) (log : List (Entry Pid)) (p : Pid) : Request → Prop
  | .initTaskmaster => False
  | .doTask issue => ∀ e ∈ log, ∀ earlier, e.outcome.request = some (.doTask earlier) → earlier.taskId ≠ issue.taskId
  | .taskRet taskId result =>
    (∃ i task, ⟨p, .handed i task⟩ ∈ log ∧ task.taskId = taskId ∧ Q task result) ∧
    ∀ i v, ⟨p, .completed i taskId v⟩ ∉ log
  | _ => True

def Disciplined (Q : Issue → Word → Prop) (s : System Pid × List (Entry Pid)) (l : Label Pid) : Prop :=
  ∀ p tf r, l = .syscall p tf r → Allowed Q s.2 p r

def HandedOnce (log : List (Entry Pid)) : Prop :=
  log.Pairwise fun e f => ∀ i task task', e.outcome = .handed i task → f.outcome ≠ .handed i task'

structure Tracked (Q : Issue → Word → Prop) (t : Table) (log : List (Entry Pid)) : Prop where
  filled : ∀ i j, i < j → t.used j → t.used i
  distinct : ∀ i j, t.used i → t.used j → (t i).taskId = (t j).taskId → i = j
  stored : ∀ i, t.used i → ∃ q, ⟨q, .stored i (t i).toIssue⟩ ∈ log
  kept : ∀ q i issue, ⟨q, .stored i issue⟩ ∈ log → t.used i ∧ (t i).toIssue = issue
  handed : ∀ q i task, ⟨q, .handed i task⟩ ∈ log →
    t.used i ∧ (t i).status ≠ .pending ∧ (t i).toIssue = task
  once : HandedOnce log
  result : ∀ i, (t i).status = .completed → Q (t i).toIssue (t i).result
  consumed : ∀ q i taskId v, ⟨q, .consumed i taskId v⟩ ∈ log →
    ∃ r issue, ⟨r, .stored i issue⟩ ∈ log ∧ issue.taskId = taskId ∧ Q issue v

section Step

variable {Q : Issue → Word → Prop} {t t' : Table} {log : List (Entry Pid)} {p : Pid}

theorem mem_snoc {q : Pid} {o o' : Outcome} :
    (⟨q, o⟩ : Entry Pid) ∈ log ++ [⟨p, o'⟩] ↔ ⟨q, o⟩ ∈ log ∨ q = p ∧ o = o' := by
  simp

theorem HandedOnce.snoc {o : Outcome} (once : HandedOnce log)
    (fresh : ∀ i task, o = .handed i task → ∀ q task', ⟨q, .handed i task'⟩ ∉ log) :
    HandedOnce (log ++ [⟨p, o⟩]) := by
  refine List.pairwise_append.mpr ⟨once, List.pairwise_singleton _ _, ?_⟩
  intro e member f last i task task' before after
  rw [List.mem_singleton.mp last] at after
  apply fresh i task' after e.pid task
  rwa [← before]

namespace Tracked

theorem silent (tr : Tracked Q t log) {o : Outcome} (not_stored : ∀ i issue, o ≠ .stored i issue)
    (not_handed : ∀ i task, o ≠ .handed i task)
    (consumed : ∀ i taskId v, o = .consumed i taskId v →
      (t i).taskId = taskId ∧ (t i).status = .completed ∧ (t i).result = v) :
    Tracked Q t (log ++ [⟨p, o⟩]) where
  filled := tr.filled
  distinct := tr.distinct
  stored i used := by
    obtain ⟨q, member⟩ := tr.stored i used
    exact ⟨q, mem_snoc.mpr (Or.inl member)⟩
  kept q i issue member := by
    rcases mem_snoc.mp member with old | ⟨-, new⟩
    · exact tr.kept q i issue old
    · exact absurd new.symm (not_stored i issue)
  handed q i task member := by
    rcases mem_snoc.mp member with old | ⟨-, new⟩
    · exact tr.handed q i task old
    · exact absurd new.symm (not_handed i task)
  once := tr.once.snoc fun i task new => absurd new (not_handed i task)
  result := tr.result
  consumed q i taskId v member := by
    rcases mem_snoc.mp member with old | ⟨-, new⟩
    · obtain ⟨r, issue, issued, named, value⟩ := tr.consumed q i taskId v old
      exact ⟨r, issue, mem_snoc.mpr (Or.inl issued), named, value⟩
    · obtain ⟨named, done, value⟩ := consumed i taskId v new.symm
      have used : t.used i := Table.used_iff.mpr (by rw [done]; exact TaskStatus.noConfusion)
      obtain ⟨r, issued⟩ := tr.stored i used
      exact ⟨r, _, mem_snoc.mpr (Or.inl issued), named, value ▸ tr.result i done⟩

theorem store (tr : Tracked Q t log) {i : Slot} {issue : Issue} (found : t.firstFree = some i)
    (fresh : ∀ e ∈ log, ∀ earlier, e.outcome.request = some (.doTask earlier) → earlier.taskId ≠ issue.taskId) :
    Tracked Q (t.fill i issue) (log ++ [⟨p, .stored i issue⟩]) := by
  obtain ⟨free, lowest⟩ := Table.firstFree_eq_some.mp found
  have used_fill := fun j => t.used_fill i j issue
  have other : ∀ j, t.used j → j ≠ i := fun j used same => Table.used_iff.mp used (same ▸ free)
  -- a slot in use carries the identifier of an earlier request
  have new_id : ∀ j, t.used j → (t j).taskId ≠ issue.taskId := by
    intro j used
    obtain ⟨q, member⟩ := tr.stored j used
    exact fresh _ member _ rfl
  refine
    { filled := fun j k below used => ?_
      distinct := fun j k first second same => ?_
      stored := fun j used => ?_
      kept := fun q j x member => ?_
      handed := fun q j task member => ?_
      once := tr.once.snoc fun j task new => by cases new
      result := fun j done => ?_
      consumed := fun q j taskId v member => ?_ }
  · rw [used_fill] at used ⊢
    rcases used with rfl | used
    · exact Or.inr (Table.used_iff.mpr (lowest j below))
    · exact Or.inr (tr.filled j k below used)
  · rw [used_fill] at first second
    rw [Table.fill_apply, Table.fill_apply] at same
    rcases first with rfl | first <;> rcases second with rfl | second
    · rfl
    · rw [if_pos rfl, if_neg (other k second)] at same
      exact absurd same.symm (new_id k second)
    · rw [if_pos rfl, if_neg (other j first)] at same
      exact absurd same (new_id j first)
    · rw [if_neg (other j first), if_neg (other k second)] at same
      exact tr.distinct j k first second same
  · rw [used_fill] at used
    rcases used with rfl | used
    · refine ⟨p, mem_snoc.mpr (Or.inr ⟨rfl, ?_⟩)⟩
      rw [Table.fill_apply, if_pos rfl]
    · obtain ⟨q, member⟩ := tr.stored j used
      refine ⟨q, mem_snoc.mpr (Or.inl ?_)⟩
      rwa [Table.fill_apply, if_neg (other j used)]
  · rw [used_fill, Table.fill_apply]
    rcases mem_snoc.mp member with old | ⟨-, new⟩
    · obtain ⟨used, same⟩ := tr.kept q j x old
      rw [if_neg (other j used)]
      exact ⟨Or.inr used, same⟩
    · cases new
      rw [if_pos rfl]
      exact ⟨Or.inl rfl, rfl⟩
  · rcases mem_snoc.mp member with old | ⟨-, new⟩
    · obtain ⟨used, rest⟩ := tr.handed q j task old
      rw [used_fill, Table.fill_apply, if_neg (other j used)]
      exact ⟨Or.inr used, rest⟩
    · cases new
  · rw [Table.fill_apply] at done ⊢
    split at done
    · cases done
    next apart =>
      rw [if_neg apart]
      exact tr.result j done
  · rcases mem_snoc.mp member with old | ⟨-, new⟩
    · obtain ⟨r, x, issued, rest⟩ := tr.consumed q j taskId v old
      exact ⟨r, x, mem_snoc.mpr (Or.inl issued), rest⟩
    · cases new

theorem move (tr : Tracked Q t log) {i : Slot} {o : Outcome} (used : t.used i)
    (used_iff : ∀ j, t'.used j ↔ t.used j) (issues : ∀ j, (t' j).toIssue = (t j).toIssue)
    (others : ∀ j, j ≠ i → t' j = t j) (moved : (t' i).status ≠ .pending)
    (admitted : (t' i).status = .completed → Q (t' i).toIssue (t' i).result)
    (not_stored : ∀ j issue, o ≠ .stored j issue) (not_consumed : ∀ j taskId v, o ≠ .consumed j taskId v)
    (handed : ∀ j task, o = .handed j task → j = i ∧ (t i).toIssue = task ∧ (t i).status = .pending) :
    Tracked Q t' (log ++ [⟨p, o⟩]) where
  filled j k below := by
    rw [used_iff, used_iff]
    exact tr.filled j k below
  distinct j k first second same := by
    rw [used_iff] at first second
    rw [issues, issues] at same
    exact tr.distinct j k first second same
  stored j used := by
    rw [used_iff] at used
    obtain ⟨q, member⟩ := tr.stored j used
    rw [issues]
    exact ⟨q, mem_snoc.mpr (Or.inl member)⟩
  kept q j issue member := by
    rw [used_iff, issues]
    rcases mem_snoc.mp member with old | ⟨-, new⟩
    · exact tr.kept q j issue old
    · exact absurd new.symm (not_stored j issue)
  handed q j task member := by
    rw [used_iff, issues]
    rcases mem_snoc.mp member with old | ⟨-, new⟩
    · obtain ⟨before, status, same⟩ := tr.handed q j task old
      refine ⟨before, ?_, same⟩
      by_cases here : j = i
      · rw [here]
        exact moved
      · rwa [others j here]
    · obtain ⟨rfl, same, -⟩ := handed j task new.symm
      exact ⟨used, moved, same⟩
  -- a slot handed out before is not pending, the one of this step is
  once := tr.once.snoc fun j task new q task' old => by
    obtain ⟨rfl, -, pending⟩ := handed j task new
    exact (tr.handed q j task' old).2.1 pending
  result j done := by
    by_cases here : j = i
    · rw [here] at done ⊢
      exact admitted done
    · rw [others j here] at done ⊢
      exact tr.result j done
  consumed q j taskId v member := by
    rcases mem_snoc.mp member with old | ⟨-, new⟩
    · obtain ⟨r, issue, issued, rest⟩ := tr.consumed q j taskId v old
      exact ⟨r, issue, mem_snoc.mpr (Or.inl issued), rest⟩
    · exact absurd new.symm (not_consumed j taskId v)

/-- The first slot with the identifier of a task that was handed out is that task's. -/
theorem firstWith_handed (tr : Tracked Q t log) {q : Pid} {i j : Slot} {task : Issue}
    (member : ⟨q, .handed i task⟩ ∈ log) (found : t.firstWith task.taskId = some j) : j = i := by
  obtain ⟨used, -, same⟩ := tr.handed q i task member
  obtain ⟨named, lowest⟩ := Table.firstWith_eq_some.mp found
  have same_id : (t i).taskId = task.taskId := by rw [same]
  -- the scan stops no later than at i, and a slot below i in use has another identifier
  rcases lt_trichotomy i j with above | equal | below
  · exact absurd same_id (lowest i above)
  · exact equal.symm
  · exact tr.distinct j i (tr.filled j i below used) used (named.trans same_id.symm)

theorem used_iff (tr : Tracked Q t log) {o : Outcome} (effect : Effect t o t')
    (allowed : ∀ r, o.request = some r → Allowed Q log p r) (not_stored : ∀ i issue, o ≠ .stored i issue) (j : Slot) :
    t'.used j ↔ t.used j := by
  cases effect with
  | initialised => exact absurd (allowed _ rfl) id
  | stored found => exact absurd rfl (not_stored _ _)
  | handed found => exact Table.used_setStatus j (Table.used_of_firstPending found) TaskStatus.noConfusion
  | completed found =>
    obtain ⟨⟨i, task, member, rfl, -⟩, -⟩ := allowed _ rfl
    rw [tr.firstWith_handed member found]
    exact Table.used_complete j (tr.handed p i task member).1
  | _ => rfl

theorem step (tr : Tracked Q t log) {o : Outcome} (effect : Effect t o t')
    (allowed : ∀ r, o.request = some r → Allowed Q log p r) : Tracked Q t' (log ++ [⟨p, o⟩]) := by
  cases effect with
  | initialised => exact absurd (allowed _ rfl) id
  | stored found => exact tr.store found (allowed _ rfl)
  | @handed i found =>
    have pending := (Table.firstPending_eq_some.mp found).1
    have used := Table.used_of_firstPending found
    have status : (t.setStatus i .allocated i).status = .allocated := by rw [Table.setStatus_apply, if_pos rfl]
    refine tr.move used (fun j => Table.used_setStatus j used TaskStatus.noConfusion)
      (fun j => t.toIssue_setStatus i j _) (fun j other => ?_) ?_ ?_ ?_ ?_ ?_
    · rw [Table.setStatus_apply, if_neg other]
    · rw [status]
      exact TaskStatus.noConfusion
    · intro done
      rw [status] at done
      cases done
    · exact fun j issue new => by cases new
    · exact fun j taskId v new => by cases new
    · intro j task new
      cases new
      exact ⟨rfl, rfl, pending⟩
  | @completed j taskId result found =>
    obtain ⟨⟨i, task, member, named, admitted⟩, -⟩ := allowed _ rfl
    rw [← named] at found
    have same := tr.firstWith_handed member found
    subst same
    obtain ⟨used, -, task_eq⟩ := tr.handed p j task member
    have here : t.complete j result j = { t j with status := .completed, result } := by
      rw [Table.complete_apply, if_pos rfl]
    refine tr.move used (fun k => Table.used_complete k used) (fun k => t.toIssue_complete j k _)
      (fun k other => ?_) ?_ ?_ ?_ ?_ ?_
    · rw [Table.complete_apply, if_neg other]
    · rw [here]
      exact TaskStatus.noConfusion
    · intro _
      rw [here]
      exact task_eq ▸ admitted
    · exact fun k issue new => by cases new
    · exact fun k id v new => by cases new
    · exact fun k task new => by cases new
  | consumed named done =>
    refine tr.silent (fun _ _ new => by cases new) (fun _ _ new => by cases new) ?_
    intro i taskId v new
    cases new
    exact ⟨named, done, rfl⟩
  | _ =>
    exact tr.silent (fun _ _ new => by cases new) (fun _ _ new => by cases new) fun _ _ _ new => by cases new

theorem initTaskmaster (t : Table) : Tracked Q t.initTaskmaster ([] : List (Entry Pid)) where
  filled i j below used := absurd rfl (Table.used_iff.mp used)
  distinct i j used := absurd rfl (Table.used_iff.mp used)
  stored i used := absurd rfl (Table.used_iff.mp used)
  kept q i issue member := by cases member
  handed q i task member := by cases member
  once := List.Pairwise.nil
  result i done := by cases done
  consumed q i taskId v member := by cases member

end Tracked

end Step

section Run

variable [DecidableEq Pid] {Q : Issue → Word → Prop} {s₀ s₁ s : System Pid} {m : Pid} {tf : TrapFrame}
  {e₀ : Entry Pid} {ls : List (Label Pid)} {log : List (Entry Pid)}

theorem tracked_step {x y : System Pid × List (Entry Pid)} {l : Label Pid} (tr : Tracked Q x.1.tasks x.2)
    (disciplined : Disciplined Q x l) (step : System.step x l = some y) : Tracked Q y.1.tasks y.2 := by
  obtain ⟨⟨p, o⟩, call, same⟩ := Machine.record_eq_some.mp step
  rw [same]
  -- a process resumed makes no new request, its discipline was met when it entered
  apply tr.step (System.exec_effect call)
  intro r request
  obtain ⟨tf, from_⟩ := System.exec_origin call request
  exact disciplined p tf r from_

theorem tracked_run (init : s₀.exec (.syscall m tf .initTaskmaster) = some (s₁, e₀))
    (disciplined : Machine.EveryStep System.step (Disciplined Q) (s₁, []) ls)
    (reached : Machine.run System.step (s₁, []) ls = some (s, log)) : Tracked Q s.tasks log := by
  have start : Tracked Q s₁.tasks ([] : List (Entry Pid)) := by
    rw [System.exec_initTaskmaster init]
    exact Tracked.initTaskmaster _
  exact Machine.invariant_of_everyStep (I := fun x => Tracked Q x.1.tasks x.2)
    (fun _ _ _ => tracked_step) start disciplined reached

/-- Each slot is handed out once, to a worker that sees the very task issued into it,
and every result given back is that of the task issued under its identifier. -/
theorem results_routed (F : Word → Word → Word → Word → Word)
    (init : s₀.exec (.syscall m tf .initTaskmaster) = some (s₁, e₀))
    (disciplined : Machine.EveryStep System.step
      (Disciplined fun task v => v = F task.fptr task.taskId task.arg1 task.arg2) (s₁, []) ls)
    (reached : Machine.run System.step (s₁, []) ls = some (s, log)) :
    HandedOnce log ∧
    (∀ p i task, ⟨p, .handed i task⟩ ∈ log → ∃ q, ⟨q, .stored i task⟩ ∈ log) ∧
    (∀ p i taskId v, ⟨p, .consumed i taskId v⟩ ∈ log →
      ∃ q fptr arg1 arg2, ⟨q, .stored i ⟨fptr, taskId, arg1, arg2⟩⟩ ∈ log ∧ v = F fptr taskId arg1 arg2) := by
  have tr := tracked_run init disciplined reached
  refine ⟨tr.once, ?_, ?_⟩
  · intro p i task member
    obtain ⟨used, -, same⟩ := tr.handed p i task member
    rw [← same]
    exact tr.stored i used
  · intro p i taskId v member
    obtain ⟨q, issue, issued, rfl, value⟩ := tr.consumed p i taskId v member
    exact ⟨q, issue.fptr, issue.arg1, issue.arg2, issued, value⟩

end Run

section OneTask

def oneTask : List (Label Bool) :=
  [.syscall false .start (.doTask ⟨64, 5, 3, 4⟩), .syscall true .start .waitForTask,
    .syscall true .start (.taskRet 5 7), .syscall false .start (.waitForTaskToComplete 5 4096)]

theorem oneTask_run {Q : Issue → Word → Prop} (admits : Q ⟨64, 5, 3, 4⟩ 7) :
    ∃ (s₁ s : System Bool) (e₀ : Entry Bool),
      (System.idle Bool).exec (.syscall false .start .initTaskmaster) = some (s₁, e₀) ∧
      Machine.EveryStep System.step (Disciplined Q) (s₁, []) oneTask ∧
      Machine.run System.step (s₁, []) oneTask = some (s, [⟨false, .stored 0 ⟨64, 5, 3, 4⟩⟩,
        ⟨true, .handed 0 ⟨64, 5, 3, 4⟩⟩, ⟨true, .completed 0 5 7⟩, ⟨false, .consumed 0 5 7⟩]) := by
  have facts : ((System.idle Bool).exec (.syscall false .start .initTaskmaster)).any (fun w =>
      (System.step (w.1, []) (.syscall false .start (.doTask ⟨64, 5, 3, 4⟩))).any fun x =>
      (System.step x (.syscall true .start .waitForTask)).any fun y =>
      (System.step y (.syscall true .start (.taskRet 5 7))).any fun z =>
      (System.step z (.syscall false .start (.waitForTaskToComplete 5 4096))).any fun u =>
        decide (y.2 = [⟨false, .stored 0 ⟨64, 5, 3, 4⟩⟩, ⟨true, .handed 0 ⟨64, 5, 3, 4⟩⟩] ∧
          u.2 = [⟨false, .stored 0 ⟨64, 5, 3, 4⟩⟩, ⟨true, .handed 0 ⟨64, 5, 3, 4⟩⟩,
            ⟨true, .completed 0 5 7⟩, ⟨false, .consumed 0 5 7⟩])) = true := by decide +kernel
  obtain ⟨⟨s₁, e₀⟩, init, facts⟩ := (Option.any_eq_true _ _).mp facts
  obtain ⟨x, issue, facts⟩ := (Option.any_eq_true _ _).mp facts
  obtain ⟨y, dispatch, facts⟩ := (Option.any_eq_true _ _).mp facts
  obtain ⟨z, return_, facts⟩ := (Option.any_eq_true _ _).mp facts
  obtain ⟨⟨s, log⟩, consume, facts⟩ := (Option.any_eq_true _ _).mp facts
  obtain ⟨handed, rfl⟩ := of_decide_eq_true facts
  refine ⟨s₁, s, e₀, init, ?_, ?_⟩
  · rw [oneTask, Machine.everyStep_cons issue, Machine.everyStep_cons dispatch, Machine.everyStep_cons return_,
      Machine.everyStep_cons consume]
    refine ⟨?_, ?_, ?_, ?_, trivial⟩
    all_goals
      intro p tf r same
      cases same
    · intro e member
      cases member
    · trivial
    · rw [handed]
      exact ⟨⟨0, ⟨64, 5, 3, 4⟩, by simp, rfl, admits⟩, by simp⟩
    · trivial
  · simp only [oneTask, Machine.run_cons, Machine.run_nil, issue, dispatch, return_, consume, Option.bind_some]

theorem results_routed_one :
    ∃ (s₁ s : System Bool) (e₀ : Entry Bool) (log : List (Entry Bool)),
      (System.idle Bool).exec (.syscall false .start .initTaskmaster) = some (s₁, e₀) ∧
      Machine.run System.step (s₁, []) oneTask = some (s, log) ∧ ⟨false, .consumed 0 5 7⟩ ∈ log ∧
      ∃ q fptr arg1 arg2, ⟨q, .stored 0 ⟨fptr, 5, arg1, arg2⟩⟩ ∈ log ∧ 7 = arg1 + arg2 := by
  obtain ⟨s₁, s, e₀, init, disciplined, reached⟩ :=
    oneTask_run (Q := fun task v => v = task.arg1 + task.arg2) (by decide)
  have routed := (results_routed (fun _ _ arg1 arg2 => arg1 + arg2) init disciplined reached).2.2 false 0 5 7 (by simp)
  exact ⟨s₁, s, e₀, _, init, reached, by simp, routed⟩

end OneTask

end OsLabs.Taskmaster
