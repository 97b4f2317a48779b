import OsLabs.Taskmaster.System

/-! The order in which tasks are handed out: no slot is ever given back, so that the slots
of the tasks stored rise with their order, and every scan begins at the lowest slot. -/

set_option autoImplicit false

namespace OsLabs.Taskmaster

open OsLabs.Lib

variable {Pid : Type*}

/-- What the tasks stored so far, in their order, say of the table. -/
structure Queued (t : Table) (log : List (Entry Pid)) : Prop where
  filled : ∀ p i issue, ⟨p, .stored i issue⟩ ∈ log → ∀ j ≤ i, t.used j
  kept : ∀ p i issue, ⟨p, .stored i issue⟩ ∈ log → (t i).toIssue = issue
  rising : log.Pairwise fun e f => ∀ i j x y, e.outcome = .stored i x → f.outcome = .stored j y → i < j

section Step

variable {t t' : Table} {log : List (Entry Pid)} {p : Pid}

theorem Queued.start (t : Table) : Queued t ([] : List (Entry Pid)) where
  filled p i issue member := by cases member
  kept p i issue member := by cases member
  rising := List.Pairwise.nil

namespace Queued

theorem silent (queued : Queued t log) {o : Outcome} (effect : Effect t o t') (again : o ≠ .initialised)
    (silent : ∀ i issue, o ≠ .stored i issue) : Queued t' (log ++ [⟨p, o⟩]) where
  filled q i issue member j below := by
    rcases List.mem_append.mp member with old | new
    · exact (effect.keeps again (queued.filled q i issue old j below)).1
    · cases List.mem_singleton.mp new
      exact absurd rfl (silent i issue)
  kept q i issue member := by
    rcases List.mem_append.mp member with old | new
    · rw [(effect.keeps again (queued.filled q i issue old i le_rfl)).2]
      exact queued.kept q i issue old
    · cases List.mem_singleton.mp new
      exact absurd rfl (silent i issue)
  rising := by
    refine List.pairwise_append.mpr ⟨queued.rising, List.pairwise_singleton _ _, ?_⟩
    intro e _ f last i j x y _ stored
    rw [List.mem_singleton.mp last] at stored
    exact absurd stored (silent j y)

/-- The lowest free slot lies above all that have been filled. -/
theorem store (queued : Queued t log) {i : Slot} {issue : Issue} (found : t.firstFree = some i) :
    Queued (t.fill i issue) (log ++ [⟨p, .stored i issue⟩]) := by
  obtain ⟨free, lowest⟩ := Table.firstFree_eq_some.mp found
  -- a task stored earlier at or above i would have left slot i in use
  have above : ∀ q j x, ⟨q, .stored j x⟩ ∈ log → j < i := by
    intro q j x old
    by_contra reached
    exact Table.used_iff.mp (queued.filled q j x old i (not_lt.mp reached)) free
  refine { filled := fun q j x member k below => ?_, kept := fun q j x member => ?_, rising := ?_ }
  · rw [t.used_fill]
    rcases List.mem_append.mp member with old | new
    · exact Or.inr (queued.filled q j x old k below)
    · cases List.mem_singleton.mp new
      rcases below.lt_or_eq with less | same
      · exact Or.inr (Table.used_iff.mpr (lowest k less))
      · exact Or.inl same
  · rw [t.fill_apply]
    rcases List.mem_append.mp member with old | new
    · rw [if_neg (above q j x old).ne]
      exact queued.kept q j x old
    · cases List.mem_singleton.mp new
      rw [if_pos rfl]
  · refine List.pairwise_append.mpr ⟨queued.rising, List.pairwise_singleton _ _, ?_⟩
    intro e old f last j k x y earlier stored
    rw [List.mem_singleton.mp last] at stored
    cases stored
    apply above e.pid j x
    rwa [← earlier]

theorem step (queued : Queued t log) {o : Outcome} (effect : Effect t o t') (again : o ≠ .initialised) :
    Queued t' (log ++ [⟨p, o⟩]) := by
  by_cases stores : ∃ i issue, o = .stored i issue
  · obtain ⟨i, issue, rfl⟩ := stores
    obtain ⟨found, rfl⟩ := effect.of_stored
    exact queued.store found
  · exact queued.silent effect again fun i issue same => stores ⟨i, issue, same⟩

theorem below (queued : Queued t log) {q : Pid} {i j : Slot} {x y : Issue}
    (order : [⟨p, .stored i x⟩, ⟨q, .stored j y⟩].Sublist log) : i < j :=
  List.rel_of_pairwise_cons (queued.rising.sublist order) (List.mem_singleton_self _) i j x y rfl rfl

end Queued

end Step

variable [DecidableEq Pid] {start s s' : System Pid} {p q r : Pid} {ls : List (Label Pid)} {log : List (Entry Pid)}

theorem queued_run (once : ∀ p tf, .syscall p tf .initTaskmaster ∉ ls)
    (reached : Machine.run System.step (start, []) ls = some (s, log)) : Queued s.tasks log := by
  -- init_taskmaster would free every slot, the ones in use too
  have allowed : Machine.EveryStep System.step (fun _ l => ∀ p tf, l ≠ .syscall p tf .initTaskmaster) (start, []) ls :=
    Machine.everyStep_of_forall fun l member p tf same => once p tf (same ▸ member)
  refine Machine.invariant_of_everyStep (I := fun x : System Pid × List (Entry Pid) => Queued x.1.tasks x.2) ?_
    (Queued.start start.tasks) allowed reached
  intro x l y queued other step
  obtain ⟨⟨p, o⟩, call, same⟩ := Machine.record_eq_some.mp step
  rw [same]
  apply queued.step (System.exec_effect call)
  rintro rfl
  obtain ⟨tf, from_⟩ := System.exec_origin call rfl
  exact other p tf from_

/-- When `wait_for_task` hands out a task, each one stored before it is still in its slot
and no longer pending. What the table held before the first call does not matter. -/
theorem tasks_start_in_order {i j : Slot} {x y task : Issue} {l : Label Pid}
    (once : ∀ p tf, .syscall p tf .initTaskmaster ∉ ls)
    (reached : Machine.run System.step (start, []) ls = some (s, log))
    (order : [⟨p, .stored i x⟩, ⟨q, .stored j y⟩].Sublist log) (handed : s.exec l = some (s', ⟨r, .handed j task⟩)) :
    task = y ∧ (s.tasks i).toIssue = x ∧ (s.tasks i).status ≠ .pending ∧ (s'.tasks i).status ≠ .pending := by
  have queued := queued_run once reached
  have less := queued.below order
  obtain ⟨first, second⟩ : ⟨p, .stored i x⟩ ∈ log ∧ ⟨q, .stored j y⟩ ∈ log := by
    simpa using order.subset
  obtain ⟨found, same, after⟩ := (System.exec_effect handed).of_handed
  -- j is the first pending slot and i lies below it
  have started := (Table.firstPending_eq_some.mp found).2 i less
  refine ⟨same.trans (queued.kept q j y second), queued.kept p i x first, started, ?_⟩
  rw [after, Table.setStatus_apply, if_neg less.ne]
  exact started

def twoTasks : List (Label Bool) :=
  [.syscall false .start (.doTask ⟨64, 5, 3, 4⟩), .syscall false .start (.doTask ⟨64, 6, 3, 4⟩),
    .syscall true .start .waitForTask]

theorem tasks_start_in_order_two : ∃ (s s' : System Bool) (log : List (Entry Bool)),
    Machine.run System.step (System.idle Bool, []) twoTasks = some (s, log) ∧
    s.exec (.syscall true .start .waitForTask) = some (s', ⟨true, .handed 1 ⟨64, 6, 3, 4⟩⟩) ∧
    (s.tasks 0).status ≠ .pending := by
  have facts : (Machine.run System.step (System.idle Bool, []) twoTasks).any (fun x =>
      (x.1.exec (.syscall true .start .waitForTask)).any fun y =>
        decide (x.2 = [⟨false, .stored 0 ⟨64, 5, 3, 4⟩⟩, ⟨false, .stored 1 ⟨64, 6, 3, 4⟩⟩,
          ⟨true, .handed 0 ⟨64, 5, 3, 4⟩⟩] ∧ y.2 = ⟨true, .handed 1 ⟨64, 6, 3, 4⟩⟩)) = true := by decide +kernel
  obtain ⟨⟨s, log⟩, reached, facts⟩ := (Option.any_eq_true _ _).mp facts
  obtain ⟨⟨s', e⟩, handed, facts⟩ := (Option.any_eq_true _ _).mp facts
  obtain ⟨rfl, rfl⟩ := of_decide_eq_true facts
  have order : [(⟨false, .stored 0 ⟨64, 5, 3, 4⟩⟩ : Entry Bool), ⟨false, .stored 1 ⟨64, 6, 3, 4⟩⟩].Sublist
      [⟨false, .stored 0 ⟨64, 5, 3, 4⟩⟩, ⟨false, .stored 1 ⟨64, 6, 3, 4⟩⟩, ⟨true, .handed 0 ⟨64, 5, 3, 4⟩⟩] := by decide
  exact ⟨s, s', _, reached, handed, (tasks_start_in_order (by simp [twoTasks]) reached order handed).2.2.1⟩

end OsLabs.Taskmaster
