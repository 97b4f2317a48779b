import OsLabs.Lib.Threads
import OsLabs.Taskmaster.System

/-! The task queue at the grain of single accesses: one step reads or writes one
field of one slot, takes or releases a lock, runs a wakeup or puts the process to
sleep. A preempted process is one that takes no step for a while. -/

set_option autoImplicit false

namespace OsLabs.Taskmaster

open OsLabs.Lib

inductive Sleeper where
  | waiting
  | completing (taskId result : Word) (i : Slot)
  deriving DecidableEq

inductive Waker where
  | doTask (stored : Option Slot)
  | taskRet (taskId : Word) (i : Slot)
  deriving DecidableEq

inductive Point where
  | user (ret : Word) (task : Option Issue)
  -- do_task: the three loops, the five stores
  | findFree (issue : Issue) (i : Slot)
  | usedStatus (issue : Issue) (found : Bool) (i : Slot)
  | usedId (issue : Issue) (found : Bool) (i : Slot)
  | storeStatus (issue : Issue) (i : Slot)
  | putStatus (issue : Issue) (i : Slot)
  | putTaskId (issue : Issue) (i : Slot)
  | putArg1 (issue : Issue) (i : Slot)
  | putArg2 (issue : Issue) (i : Slot)
  | putFptr (issue : Issue) (i : Slot)
  -- wakeup
  | wakeLock (w : Waker)
  | wakeScan (w : Waker)
  | wakeUnlock (w : Waker)
  -- wait_for_task
  | waitStatus (i : Slot)
  | claim (i : Slot) (issue : Nat)
  | takeArg2 (i : Slot)
  | takeArg1 (i : Slot) (arg2 : Word)
  | takeTaskId (i : Slot) (arg1 arg2 : Word)
  | takeFptr (i : Slot) (taskId arg1 arg2 : Word)
  -- wait_for_task_to_complete
  | existsId (taskId result : Word) (i : Slot)
  | completeId (taskId result : Word) (i : Slot)
  | completeStatus (taskId result : Word) (i : Slot)
  | completeResult (taskId result : Word) (i : Slot)
  -- task_ret
  | retId (taskId result : Word) (i : Slot)
  | retStatus (taskId result : Word) (i : Slot)
  | retResult (taskId result : Word) (i : Slot)
  -- acquire(&taskmaster.lock); sleep; release(&taskmaster.lock)
  | lock (s : Sleeper)
  | sleepLock (s : Sleeper)
  | sleepUnlock (s : Sleeper)
  | doze (s : Sleeper)
  | resting (s : Sleeper)
  | asleep (s : Sleeper)
  | woken (s : Sleeper)
  | sleepRelease (s : Sleeper)
  | relock (s : Sleeper)
  | unlock (s : Sleeper)
  deriving DecidableEq

/-- The locks and the table, and a history: how often each slot was set pending, the
claims made with the issue each saw, and the slots of the `do_task` calls that
returned 1. -/
structure Shared where
  tasks : Table
  lock : Bool
  ptable : Bool
  issues : Slot → Nat
  claims : List (Slot × Nat)
  accepted : List Slot

inductive Choice where
  | call (request : Request)
  | go

def Slot.next (i : Slot) : Option Slot := if h : i.val + 1 < 100 then some ⟨i.val + 1, h⟩ else none

/-- The next round of a loop over the slots, or what follows the last. -/
def Slot.loop (i : Slot) (round : Slot → Point) (past : Point) : Point :=
  match i.next with
  | some j => round j
  | none => past

theorem Slot.loop_cases (i : Slot) (round : Slot → Point) (past : Point) :
    (∃ j : Slot, j.val = i.val + 1 ∧ i.loop round past = round j) ∨ (i.val = 99 ∧ i.loop round past = past) := by
  unfold Slot.loop Slot.next
  by_cases more : i.val + 1 < 100
  · exact Or.inl ⟨⟨i.val + 1, more⟩, rfl, by rw [dif_pos more]⟩
  · exact Or.inr ⟨by omega, by rw [dif_neg more]⟩

theorem Slot.loop_view {β : Type} (view : Point → β) (i : Slot) {round : Slot → Point} {past : Point} {b : β}
    (rounds : ∀ j, view (round j) = b) (last : view past = b) : view (i.loop round past) = b := by
  rcases i.loop_cases round past with ⟨j, -, same⟩ | ⟨-, same⟩
  · rw [same, rounds]
  · rw [same, last]

/-- `wakeup1(0)`: both calls sleep on channel 0. -/
def Point.wake : Point → Point
  | .asleep s => .woken s
  | x => x

/-- Where the loop around `sleep` goes on. -/
def Sleeper.resume : Sleeper → Point
  | .waiting => .waitStatus 0
  | .completing taskId result i => .completeId taskId result (i.next.getD 0)

def Request.enter : Request → Option Point
  | .initTaskmaster => none
  | .doTask issue => some (.findFree issue 0)
  | .waitForTask => some (.waitStatus 0)
  | .waitForTaskToComplete taskId result => some (.existsId taskId result 0)
  | .taskRet taskId result => some (.retId taskId result 0)

namespace Shared

def go (s : Shared) (x : Point) : Option (Move Shared Point) := some { shared := s, point := x, others := id }

def write (s : Shared) (i : Slot) (f : Task → Task) : Shared :=
  { s with tasks := Function.update s.tasks i (f (s.tasks i)) }

section Write

variable (s : Shared) (i : Slot)

theorem write_tasks (f : Task → Task) (j : Slot) : (s.write i f).tasks j = if j = i then f (s.tasks i) else s.tasks j :=
  Function.update_apply s.tasks i (f (s.tasks i)) j

theorem write_view {β : Type*} (view : Task → β) {f : Task → Task} (kept : ∀ t, view (f t) = view t) (j : Slot) :
    view ((s.write i f).tasks j) = view (s.tasks j) := by
  rw [write_tasks]
  split
  next same => rw [kept, same]
  next => rfl

end Write

def access (s : Shared) : Point → Option (Move Shared Point)
  | .user _ _ => none
  | .findFree issue i =>
    if (s.tasks i).status = .free then s.go (.usedStatus issue true 0)
    else s.go (i.loop (.findFree issue) (.usedStatus issue false 0))
  | .usedStatus issue found i =>
    if (s.tasks i).status ≠ .free then s.go (.usedId issue found i)
    else s.go (i.loop (.usedStatus issue found) (.storeStatus issue 0))
  | .usedId issue found i =>
    if (s.tasks i).taskId = issue.taskId then
      if found then s.go (.storeStatus issue 0) else s.go (.user (-1) none)
    else s.go (i.loop (.usedStatus issue found) (.storeStatus issue 0))
  | .storeStatus issue i =>
    if (s.tasks i).status = .free then s.go (.putStatus issue i)
    else s.go (i.loop (.storeStatus issue) (.wakeLock (.doTask none)))
  | .putStatus issue i =>
    { s.write i ({ · with status := .pending }) with
      issues := Function.update s.issues i (s.issues i + 1) }.go (.putTaskId issue i)
  | .putTaskId issue i => (s.write i ({ · with taskId := issue.taskId })).go (.putArg1 issue i)
  | .putArg1 issue i => (s.write i ({ · with arg1 := issue.arg1 })).go (.putArg2 issue i)
  | .putArg2 issue i => (s.write i ({ · with arg2 := issue.arg2 })).go (.putFptr issue i)
  | .putFptr issue i => (s.write i ({ · with fptr := issue.fptr })).go (.wakeLock (.doTask (some i)))
  | .wakeLock w => if s.ptable then none else { s with ptable := true }.go (.wakeScan w)
  | .wakeScan w => some { shared := s, point := .wakeUnlock w, others := Point.wake }
  | .wakeUnlock (.doTask stored) =>
    { s with ptable := false, accepted := stored.toList ++ s.accepted }.go (.user 1 none)
  | .wakeUnlock (.taskRet taskId _) => { s with ptable := false }.go (.user taskId none)
  | .waitStatus i =>
    if (s.tasks i).status = .pending then s.go (.claim i (s.issues i))
    else s.go (i.loop .waitStatus (.lock .waiting))
  | .claim i issue =>
    { s.write i ({ · with status := .allocated }) with claims := (i, issue) :: s.claims }.go (.takeArg2 i)
  | .takeArg2 i => s.go (.takeArg1 i (s.tasks i).arg2)
  | .takeArg1 i arg2 => s.go (.takeTaskId i (s.tasks i).arg1 arg2)
  | .takeTaskId i arg1 arg2 => s.go (.takeFptr i (s.tasks i).taskId arg1 arg2)
  | .takeFptr i taskId arg1 arg2 => s.go (.user 1 (some ⟨(s.tasks i).fptr, taskId, arg1, arg2⟩))
  | .existsId taskId result i =>
    if (s.tasks i).taskId = taskId then s.go (.completeId taskId result 0)
    else s.go (i.loop (.existsId taskId result) (.user (-1) none))
  | .completeId taskId result i =>
    if (s.tasks i).taskId = taskId then s.go (.completeStatus taskId result i)
    else s.go (.completeId taskId result (i.next.getD 0))
  | .completeStatus taskId result i =>
    if (s.tasks i).status = .completed then s.go (.completeResult taskId result i)
    else s.go (.lock (.completing taskId result i))
  | .completeResult _ _ i => s.go (.user (s.tasks i).result none)
  | .retId taskId result i =>
    if (s.tasks i).taskId = taskId then s.go (.retStatus taskId result i)
    else s.go (i.loop (.retId taskId result) (.user (-1) none))
  | .retStatus taskId result i =>
    (s.write i ({ · with status := .completed })).go (.retResult taskId result i)
  | .retResult taskId result i => (s.write i ({ · with result })).go (.wakeLock (.taskRet taskId i))
  | .lock z => if s.lock then none else { s with lock := true }.go (.sleepLock z)
  | .sleepLock z => if s.ptable then none else { s with ptable := true }.go (.sleepUnlock z)
  | .sleepUnlock z => { s with lock := false }.go (.doze z)
  | .doze z => s.go (.resting z)
  -- the scheduler on this CPU lets go of ptable.lock, and takes it again to run the process
  | .resting z => { s with ptable := false }.go (.asleep z)
  | .asleep _ => none
  | .woken z => if s.ptable then none else { s with ptable := true }.go (.sleepRelease z)
  | .sleepRelease z => { s with ptable := false }.go (.relock z)
  | .relock z => if s.lock then none else { s with lock := true }.go (.unlock z)
  | .unlock z => { s with lock := false }.go z.resume

def act : Choice → Shared → Point → Option (Move Shared Point)
  | .call request, s, .user _ _ => request.enter.bind s.go
  | .call _, _, _ => none
  | .go, s, x => s.access x

/-- No access but the scan of a wakeup moves another process. -/
theorem access_others {s : Shared} {x : Point} {m : Move Shared Point} (call : s.access x = some m) :
    m.others = id ∨ m.others = Point.wake := by
  cases x <;> simp only [access, go] at call
  case wakeUnlock w =>
    cases w <;>
    · cases call
      exact Or.inl rfl
  all_goals
    repeat' split at call
    all_goals
      cases call <;> first | exact Or.inl rfl | exact Or.inr rfl

theorem act_others {c : Choice} {s : Shared} {x : Point} {m : Move Shared Point} (call : act c s x = some m) :
    m.others = id ∨ m.others = Point.wake := by
  cases c with
  | call request =>
    cases x with
    | user ret task =>
      cases request <;> cases call <;> exact Or.inl rfl
    | _ => cases call
  | go => exact access_others call

end Shared

/-- After `init_taskmaster`, whatever the slots held before. -/
def initialised (Pid : Type*) (tasks : Table) : Threads Pid Shared Point where
  shared :=
    { tasks := tasks.initTaskmaster, lock := false, ptable := false, issues := fun _ => 0, claims := [], accepted := [] }
  points _ := .user 0 none

end OsLabs.Taskmaster
