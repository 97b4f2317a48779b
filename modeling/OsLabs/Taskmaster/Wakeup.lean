import OsLabs.Taskmaster.Dispatch

/-! Wakeups of the task queue. The calls look at the table without `taskmaster.lock`
and take it only around `sleep`, so a wakeup that runs between the look and the sleep
is lost; runs in which none falls there leave nobody asleep beside work. -/

set_option autoImplicit false

namespace OsLabs.Taskmaster

open OsLabs.Lib OsLabs.Lib.Threads

/-- The sleep a process has decided on, until a wakeup moves it. -/
def Point.sleeps : Point → Option Sleeper
  | .lock z | .sleepLock z | .sleepUnlock z | .doze z | .resting z | .asleep z => some z
  | _ => none

def Point.Sleeping : Point → Prop
  | .resting _ | .asleep _ => True
  | _ => False

def Point.Waiting : Point → Prop
  | .waitStatus _ | .claim _ _ | .takeArg2 _ | .takeArg1 _ _ | .takeTaskId _ _ _ | .takeFptr _ _ _ _ => True
  | .lock .waiting | .sleepLock .waiting | .sleepUnlock .waiting | .doze .waiting | .resting .waiting
  | .asleep .waiting | .woken .waiting | .sleepRelease .waiting | .relock .waiting | .unlock .waiting => True
  | _ => False

def Point.PastSlot (i : Slot) : Point → Prop
  | .waitStatus j => i < j
  | x => x.sleeps = some .waiting

/-- The slot a `do_task` call has set pending, until its wakeup. -/
def Point.stores : Point → Option Slot
  | .putTaskId _ i | .putArg1 _ i | .putArg2 _ i | .putFptr _ i => some i
  | .wakeLock (.doTask stored) | .wakeScan (.doTask stored) => stored
  | _ => none

def Point.completes : Point → Option Slot
  | .retResult _ _ i | .wakeLock (.taskRet _ i) | .wakeScan (.taskRet _ i) => some i
  | _ => none

def Point.HoldsPtable : Point → Prop
  | .wakeScan _ | .wakeUnlock _ | .sleepUnlock _ | .doze _ | .resting _ | .sleepRelease _ => True
  | _ => False

@[simp] theorem stores_wake (x : Point) : x.wake.stores = x.stores := by cases x <;> rfl
@[simp] theorem completes_wake (x : Point) : x.wake.completes = x.completes := by cases x <;> rfl

theorem holdsPtable_wake {x : Point} (holds : x.wake.HoldsPtable) : x.HoldsPtable := by
  cases x <;> exact holds

theorem sleeps_wake {x : Point} {z : Sleeper} (sleeps : x.wake.sleeps = some z) : x.sleeps = some z := by
  cases x <;> first | exact sleeps | cases sleeps

theorem pastSlot_wake {x : Point} {i : Slot} (past : x.wake.PastSlot i) : x.PastSlot i := by
  cases x <;> first | exact past | cases past

theorem Slot.loop_lock (i : Slot) {round : Slot → Point} {past : Point} {before now : Bool} {held : Prop}
    (same : now = before) (rounds : ∀ j, ¬(round j).HoldsPtable) (last : ¬past.HoldsPtable) :
    LockStep before now held (i.loop round past).HoldsPtable := by
  apply LockStep.keep same
  rcases i.loop_cases round past with ⟨j, -, same⟩ | ⟨-, same⟩
  · rw [same]
    exact fun holds => absurd holds (rounds j)
  · rw [same]
    exact fun holds => absurd holds last

theorem access_ptable {s : Shared} {x : Point} {m : Move Shared Point} (call : s.access x = some m) :
    LockStep s.ptable m.shared.ptable x.HoldsPtable m.point.HoldsPtable := by
  cases x <;> simp only [Shared.access, Shared.go] at call
  case wakeLock | sleepLock | woken =>
    split at call <;> cases call
    next busy => exact .acquire (Bool.eq_false_of_not_eq_true busy) rfl
  case wakeUnlock w => cases w <;> cases call <;> exact .release trivial id
  case resting | sleepRelease => cases call; exact .release trivial id
  case wakeScan | sleepUnlock | doze => cases call; exact .keep rfl id
  case unlock z => cases call; cases z <;> exact .keep rfl id
  case lock | relock =>
    split at call <;> cases call
    exact .keep rfl id
  case findFree | usedStatus | existsId | retId | storeStatus | waitStatus =>
    split at call <;> cases call
    · exact .keep rfl id
    · exact Slot.loop_lock _ rfl (fun _ => id) id
  case usedId =>
    split at call
    · split at call <;> cases call <;> exact .keep rfl id
    · cases call
      exact Slot.loop_lock _ rfl (fun _ => id) id
  case completeId | completeStatus => split at call <;> cases call <;> exact .keep rfl id
  case user | asleep => cases call
  all_goals
    cases call
    exact .keep rfl id

theorem act_ptable {c : Choice} {s : Shared} {x : Point} {m : Move Shared Point} (call : Shared.act c s x = some m) :
    LockStep s.ptable m.shared.ptable x.HoldsPtable m.point.HoldsPtable := by
  cases c with
  | call request =>
    cases x with
    | user ret task => cases request <;> cases call <;> exact .keep rfl id
    | _ => cases call
  | go => exact access_ptable call

inductive Waking (s : Shared) : Point → Move Shared Point → Prop where
  | quiet {x : Point} {m : Move Shared Point} :
      (∀ i, (m.shared.tasks i).status = .pending → (s.tasks i).status = .pending) →
      (∀ i, (m.shared.tasks i).status = .completed → (s.tasks i).status = .completed) →
      (∀ i, (m.shared.tasks i).taskId = (s.tasks i).taskId) → (∀ i, m.point.PastSlot i → x.PastSlot i) →
      (∀ z, m.point.sleeps = some z → x.sleeps = some z) → m.point.stores = x.stores →
      m.point.completes = x.completes → Waking s x m
  | pass {i : Slot} : (s.tasks i).status ≠ .pending →
      Waking s (.waitStatus i) ⟨s, i.loop .waitStatus (.lock .waiting), id⟩
  | decide {taskId result : Word} {i : Slot} : (s.tasks i).status ≠ .completed →
      Waking s (.completeStatus taskId result i) ⟨s, .lock (.completing taskId result i), id⟩
  | fill {issue : Issue} {i : Slot} : Waking s (.putStatus issue i)
      ⟨{ s.write i ({ · with status := .pending }) with issues := Function.update s.issues i (s.issues i + 1) },
        .putTaskId issue i, id⟩
  | name {issue : Issue} {i : Slot} : Waking s (.putTaskId issue i)
      ⟨s.write i ({ · with taskId := issue.taskId }), .putArg1 issue i, id⟩
  | complete {taskId result : Word} {i : Slot} : Waking s (.retStatus taskId result i)
      ⟨s.write i ({ · with status := .completed }), .retResult taskId result i, id⟩
  | wake {w : Waker} : Waking s (.wakeScan w) ⟨s, .wakeUnlock w, Point.wake⟩

theorem taskId_write {s : Shared} {i : Slot} {f : Task → Task} (kept : ∀ t : Task, (f t).taskId = t.taskId) (j : Slot) :
    ((s.write i f).tasks j).taskId = (s.tasks j).taskId :=
  s.write_view i (fun t => t.taskId) kept j

theorem Waking.of_tasks {s : Shared} {x : Point} {m : Move Shared Point} (tasks : m.shared.tasks = s.tasks)
    (past : ∀ i, m.point.PastSlot i → x.PastSlot i) (sleeps : ∀ z, m.point.sleeps = some z → x.sleeps = some z)
    (stores : m.point.stores = x.stores) (completes : m.point.completes = x.completes) : Waking s x m := by
  refine .quiet (fun i => ?_) (fun i => ?_) (fun i => ?_) past sleeps stores completes <;> rw [tasks]
  · exact id
  · exact id

theorem Waking.of_awake {s : Shared} {x : Point} {m : Move Shared Point} (tasks : m.shared.tasks = s.tasks)
    (idle : ∀ i, ¬m.point.PastSlot i) (awake : m.point.sleeps = none) (stores : m.point.stores = x.stores)
    (completes : m.point.completes = x.completes) : Waking s x m := by
  refine .of_tasks tasks (fun i past => absurd past (idle i)) (fun z asleep => ?_) stores completes
  rw [awake] at asleep
  cases asleep

theorem Waking.of_loop {s : Shared} {x past : Point} {i : Slot} {round : Slot → Point}
    (idle : ∀ j, (∀ k, ¬(round j).PastSlot k) ∧ (round j).sleeps = none)
    (idle_past : (∀ k, ¬past.PastSlot k) ∧ past.sleeps = none)
    (stores : ∀ j, (round j).stores = x.stores) (completes : ∀ j, (round j).completes = x.completes)
    (stores_past : past.stores = x.stores) (completes_past : past.completes = x.completes) :
    Waking s x ⟨s, i.loop round past, id⟩ := by
  have idle_loop : (∀ k, ¬(i.loop round past).PastSlot k) ∧ (i.loop round past).sleeps = none := by
    rcases i.loop_cases round past with ⟨j, -, same⟩ | ⟨-, same⟩
    · rw [same]
      exact idle j
    · rw [same]
      exact idle_past
  exact .of_awake rfl idle_loop.1 idle_loop.2 (i.loop_view _ stores stores_past) (i.loop_view _ completes completes_past)

theorem access_waking {s : Shared} {x : Point} {m : Move Shared Point} (call : s.access x = some m) :
    Waking s x m := by
  cases x <;> simp only [Shared.access, Shared.go] at call
  case putStatus => cases call; exact .fill
  case putTaskId => cases call; exact .name
  case retStatus => cases call; exact .complete
  case wakeScan => cases call; exact .wake
  case waitStatus i =>
    split at call <;> cases call
    · exact .of_awake rfl (fun _ past => by cases past) rfl rfl rfl
    next idle => exact .pass idle
  case completeStatus taskId result i =>
    split at call <;> cases call
    · exact .of_awake rfl (fun _ past => by cases past) rfl rfl rfl
    next running => exact .decide running
  case claim i n =>
    cases call
    refine .quiet (fun j pending => ?_) (fun j completed => ?_) (fun j => ?_) (fun _ past => by cases past)
      (fun _ asleep => by cases asleep) rfl rfl
    · rw [write_status s i ({ · with status := .allocated }) j] at pending
      split at pending
      · cases pending
      · exact pending
    · rw [write_status s i ({ · with status := .allocated }) j] at completed
      split at completed
      · cases completed
      · exact completed
    · apply taskId_write (f := ({ · with status := .allocated }))
      exact fun _ => rfl
  case putArg1 | putArg2 | putFptr | retResult =>
    cases call
    refine .quiet (fun j pending => ?_) (fun j completed => ?_) (fun j => ?_) (fun _ past => by cases past)
      (fun _ asleep => by cases asleep) rfl rfl
    · rwa [status_write] at pending
      exact fun _ => rfl
    · rwa [status_write] at completed
      exact fun _ => rfl
    · dsimp only
      apply taskId_write
      exact fun _ => rfl
  case wakeUnlock w => cases w <;> cases call <;> exact .of_awake rfl (fun _ past => by cases past) rfl rfl rfl
  case unlock z =>
    cases call
    cases z
    · exact .of_awake rfl (fun _ => Nat.not_lt_zero _) rfl rfl rfl
    · exact .of_awake rfl (fun _ past => by cases past) rfl rfl rfl
  case findFree | usedStatus | existsId | retId | storeStatus =>
    split at call <;> cases call
    · exact .of_awake rfl (fun _ past => by cases past) rfl rfl rfl
    · exact .of_loop (fun _ => ⟨fun _ past => (by cases past), rfl⟩) ⟨fun _ past => (by cases past), rfl⟩ (fun _ => rfl)
        (fun _ => rfl) rfl rfl
  case usedId =>
    split at call
    · split at call <;> cases call <;> exact .of_awake rfl (fun _ past => by cases past) rfl rfl rfl
    · cases call
      exact .of_loop (fun _ => ⟨fun _ past => (by cases past), rfl⟩) ⟨fun _ past => (by cases past), rfl⟩ (fun _ => rfl)
        (fun _ => rfl) rfl rfl
  case wakeLock w =>
    split at call <;> cases call
    cases w <;> exact .of_awake rfl (fun _ past => by cases past) rfl rfl rfl
  case lock | sleepLock | woken | relock =>
    split at call <;> cases call
    exact .of_tasks rfl (fun _ => id) (fun _ => id) rfl rfl
  case completeId => split at call <;> cases call <;> exact .of_awake rfl (fun _ past => by cases past) rfl rfl rfl
  case user | asleep => cases call
  all_goals
    cases call
    exact .of_tasks rfl (fun _ => id) (fun _ => id) rfl rfl

theorem act_waking {c : Choice} {s : Shared} {x : Point} {m : Move Shared Point}
    (call : Shared.act c s x = some m) : Waking s x m := by
  cases c with
  | call request =>
    cases x with
    | user ret task =>
      cases request
      case waitForTask =>
        cases call
        exact .of_awake rfl (fun _ => Nat.not_lt_zero _) rfl rfl rfl
      all_goals cases call <;> exact .of_awake rfl (fun _ past => by cases past) rfl rfl rfl
    | _ => cases call
  | go => exact access_waking call

/-! ## The invariant -/

section Invariant

variable {Pid : Type*} [DecidableEq Pid] {s : Threads Pid Shared Point} {p : Pid} {m : Move Shared Point}

/-- A pending slot has its wakeup still to come or has not been passed over, and so for
a completed slot and those who wait for its task. -/
structure Attended (s : Threads Pid Shared Point) : Prop where
  ptable : Exclusive Shared.ptable Point.HoldsPtable s
  pending : ∀ i, (s.shared.tasks i).status = .pending →
    (∃ q, (s.points q).stores = some i) ∨ ∀ q, ¬(s.points q).PastSlot i
  completed : ∀ i result j, (s.shared.tasks i).status = .completed →
    (∃ q, (s.points q).completes = some i) ∨
    ∀ q, (s.points q).sleeps ≠ some (.completing (s.shared.tasks i).taskId result j)

/-- The step opens no window for a lost wakeup. The first two are about wakeups that
come between a look at the slot and the sleep, the last two about a process that
decides on its sleep, or a slot that gets its identifier, after the wakeup. -/
structure Timely (s : Threads Pid Shared Point) (l : Pid × Choice) : Prop where
  stored : ∀ i, s.points l.1 = .wakeScan (.doTask (some i)) → (s.shared.tasks i).status = .pending →
    ∀ q, (s.points q).PastSlot i → (s.points q).Sleeping
  completed : ∀ taskId i, s.points l.1 = .wakeScan (.taskRet taskId i) → (s.shared.tasks i).status = .completed →
    ∀ q result j, (s.points q).sleeps = some (.completing (s.shared.tasks i).taskId result j) → (s.points q).Sleeping
  decided : ∀ taskId result j, s.points l.1 = .completeStatus taskId result j →
    (s.shared.tasks j).status ≠ .completed →
    ∀ i, (s.shared.tasks i).taskId = taskId → (s.shared.tasks i).status = .completed →
      ∃ q, (s.points q).completes = some i
  named : ∀ issue i, s.points l.1 = .putTaskId issue i → (s.shared.tasks i).status = .completed →
    (∃ q, (s.points q).completes = some i) ∨
    ∀ q result j, (s.points q).sleeps ≠ some (.completing issue.taskId result j)

section Others

variable (others : m.others = id ∨ m.others = Point.wake) {x : Point}
include others

theorem stores_others : (m.others x).stores = x.stores := by rcases others with same | same <;> simp [same]
theorem completes_others : (m.others x).completes = x.completes := by rcases others with same | same <;> simp [same]

theorem holdsPtable_others (holds : (m.others x).HoldsPtable) : x.HoldsPtable := by
  rcases others with same | same <;> rw [same] at holds
  · exact holds
  · exact holdsPtable_wake holds

theorem sleeps_others {z : Sleeper} (sleeps : (m.others x).sleeps = some z) : x.sleeps = some z := by
  rcases others with same | same <;> rw [same] at sleeps
  · exact sleeps
  · exact sleeps_wake sleeps

theorem pastSlot_others {i : Slot} (past : (m.others x).PastSlot i) : x.PastSlot i := by
  rcases others with same | same <;> rw [same] at past
  · exact past
  · exact pastSlot_wake past

end Others

theorem asleep_of_sleeping {x : Point} (sleeping : x.Sleeping) (free : ¬x.HoldsPtable) : ∃ z, x = .asleep z := by
  cases x with
  | asleep z => exact ⟨z, rfl⟩
  | resting z => exact absurd trivial free
  | _ => exact False.elim sleeping

namespace Attended

section Keep

variable (others : m.others = id ∨ m.others = Point.wake) {x : Point} (here : s.points p = x) {i : Slot}
include others here

theorem keep_completes (completes : x.completes = some i → m.point.completes = some i)
    (completing : ∃ q, (s.points q).completes = some i) : ∃ q, ((s.after p m).points q).completes = some i := by
  obtain ⟨q, completing⟩ := completing
  refine ⟨q, ?_⟩
  by_cases same : q = p
  · rw [same, here] at completing
    rw [same, after_self]
    exact completes completing
  · rw [after_of_ne s p m same, completes_others others, completing]

variable (inv : Attended s)
include inv

theorem keep_pending (pending : (s.shared.tasks i).status = .pending) (past : m.point.PastSlot i → x.PastSlot i)
    (stores : x.stores = some i → m.point.stores = some i) :
    (∃ q, ((s.after p m).points q).stores = some i) ∨ ∀ q, ¬((s.after p m).points q).PastSlot i := by
  rcases inv.pending i pending with ⟨q, storing⟩ | seen
  · refine Or.inl ⟨q, ?_⟩
    by_cases same : q = p
    · rw [same, here] at storing
      rw [same, after_self]
      exact stores storing
    · rw [after_of_ne s p m same, stores_others others, storing]
  · refine Or.inr (s.forall_after p m (P := fun x => ¬x.PastSlot i) (fun now => seen p ?_)
      fun q _ there => seen q (pastSlot_others others there))
    rw [here]
    exact past now

theorem keep_completed {result : Word} {j : Slot} (completed : (s.shared.tasks i).status = .completed)
    (sleeps : m.point.sleeps = some (.completing (s.shared.tasks i).taskId result j) →
      x.sleeps = some (.completing (s.shared.tasks i).taskId result j))
    (completes : x.completes = some i → m.point.completes = some i) :
    (∃ q, ((s.after p m).points q).completes = some i) ∨
    ∀ q, ((s.after p m).points q).sleeps ≠ some (.completing (s.shared.tasks i).taskId result j) := by
  rcases inv.completed i result j completed with completing | awake
  · exact Or.inl (keep_completes others here completes completing)
  · refine Or.inr (s.forall_after p m
      (P := fun x => x.sleeps ≠ some (.completing (s.shared.tasks i).taskId result j)) (fun now => awake p ?_)
      fun q _ there => awake q (sleeps_others others there))
    rw [here]
    exact sleeps now

end Keep

omit [DecidableEq Pid] in
theorem woken_of_sleeping (inv : Attended s) {w : Waker} (here : s.points p = .wakeScan w) {q : Pid} (other : q ≠ p)
    (sleeping : (s.points q).Sleeping) : ∃ z, (s.points q).wake = .woken z := by
  have free : ¬(s.points q).HoldsPtable := fun holds =>
    other (inv.ptable.one q p holds (by rw [here]; trivial))
  obtain ⟨z, there⟩ := asleep_of_sleeping sleeping free
  exact ⟨z, by rw [there]; rfl⟩

theorem pending_step (inv : Attended s) {c : Choice} (timely : Timely s (p, c))
    (call : Shared.act c s.shared (s.points p) = some m) (i : Slot)
    (pending : ((s.after p m).shared.tasks i).status = .pending) :
    (∃ q, ((s.after p m).points q).stores = some i) ∨ ∀ q, ¬((s.after p m).points q).PastSlot i := by
  have others := Shared.act_others call
  have move := act_waking call
  generalize here : s.points p = x at move
  rw [after_shared] at pending
  cases move with
  | quiet pendings completeds taskIds past sleeps stores completes =>
    exact keep_pending others here inv (pendings i pending) (past i) fun storing => stores.trans storing
  | @pass k idle =>
    refine keep_pending others here inv pending (fun past => ?_) nofun
    have apart : i ≠ k := fun same => idle (same ▸ pending)
    rw [ne_eq, Fin.ext_iff] at apart
    show i.val < k.val
    rcases k.loop_cases .waitStatus (.lock .waiting) with ⟨j, following, same⟩ | ⟨last, same⟩
    · rw [same] at past
      have below : i.val < j.val := past
      omega
    · omega
  | decide running => exact keep_pending others here inv pending nofun nofun
  | @fill issue k =>
    have status := write_status s.shared k ({ · with status := .pending }) i
    split at status
    next same =>
      refine Or.inl ⟨p, ?_⟩
      rw [after_self, same]
      rfl
    next => exact keep_pending others here inv (status.symm.trans pending) nofun nofun
  | @name issue k =>
    have status := status_write (s := s.shared) (i := k) (f := ({ · with taskId := issue.taskId })) (fun _ => rfl) i
    exact keep_pending others here inv (status.symm.trans pending) nofun id
  | @complete taskId result k =>
    have status := write_status s.shared k ({ · with status := .completed }) i
    split at status
    · cases status.symm.trans pending
    · exact keep_pending others here inv (status.symm.trans pending) nofun nofun
  | @wake w =>
    by_cases own : w = .doTask (some i)
    · refine Or.inr (s.forall_after p _ (P := fun x => ¬x.PastSlot i) nofun fun q other past => ?_)
      have sleeping := timely.stored i (own ▸ here) pending q (pastSlot_wake past)
      obtain ⟨z, woken⟩ := inv.woken_of_sleeping here other sleeping
      dsimp only at past
      rw [woken] at past
      cases past
    · refine keep_pending others here inv pending nofun fun storing => ?_
      cases w with
      | doTask stored => exact absurd (congrArg Waker.doTask storing) own
      | taskRet taskId k => cases storing

theorem completed_step (inv : Attended s) {c : Choice} (timely : Timely s (p, c))
    (call : Shared.act c s.shared (s.points p) = some m) (i : Slot) (result : Word) (j : Slot)
    (completed : ((s.after p m).shared.tasks i).status = .completed) :
    (∃ q, ((s.after p m).points q).completes = some i) ∨
    ∀ q, ((s.after p m).points q).sleeps ≠
      some (.completing ((s.after p m).shared.tasks i).taskId result j) := by
  have others := Shared.act_others call
  have move := act_waking call
  generalize here : s.points p = x at move
  rw [after_shared] at completed ⊢
  cases move with
  | quiet pendings completeds taskIds past sleeps stores completes =>
    rw [taskIds]
    exact keep_completed others here inv (completeds i completed) (sleeps _) fun completing =>
      completes.trans completing
  | @pass k idle =>
    refine keep_completed others here inv completed (fun asleep => ?_) nofun
    rcases k.loop_cases .waitStatus (.lock .waiting) with ⟨j, -, same⟩ | ⟨-, same⟩ <;>
    · rw [same] at asleep
      cases asleep
  | @decide taskId r k running =>
    by_cases same : (s.shared.tasks i).taskId = taskId
    · exact Or.inl (keep_completes others here nofun (timely.decided taskId r k here running i same completed))
    · refine keep_completed others here inv completed (fun asleep => ?_) nofun
      cases asleep
      exact absurd rfl same
  | @fill issue k =>
    have status := write_status s.shared k ({ · with status := .pending }) i
    have taskId := taskId_write (s := s.shared) (i := k) (f := ({ · with status := .pending })) (fun _ => rfl) i
    split at status
    · cases status.symm.trans completed
    · exact taskId ▸ keep_completed others here inv (status.symm.trans completed) nofun nofun
  | @name issue k =>
    have status := status_write (s := s.shared) (i := k) (f := ({ · with taskId := issue.taskId })) (fun _ => rfl) i
    by_cases same : i = k
    · subst same
      have named : ((s.shared.write i ({ · with taskId := issue.taskId })).tasks i).taskId = issue.taskId := by
        simp [Shared.write]
      dsimp only
      rw [named]
      rcases timely.named issue i here (status.symm.trans completed) with completing | awake
      · exact Or.inl (keep_completes others here nofun completing)
      · exact Or.inr (s.forall_after p _ (P := fun x => x.sleeps ≠ some (.completing issue.taskId result j))
          nofun fun q _ => awake q result j)
    · have kept : (s.shared.write k ({ · with taskId := issue.taskId })).tasks i = s.shared.tasks i := by
        simp [Shared.write, same]
      dsimp only
      rw [kept]
      exact keep_completed others here inv (status.symm.trans completed) nofun nofun
  | @complete taskId r k =>
    have status := write_status s.shared k ({ · with status := .completed }) i
    have taskId := taskId_write (s := s.shared) (i := k) (f := ({ · with status := .completed })) (fun _ => rfl) i
    split at status
    next same =>
      refine Or.inl ⟨p, ?_⟩
      rw [after_self, same]
      rfl
    next => exact taskId ▸ keep_completed others here inv (status.symm.trans completed) nofun nofun
  | @wake w =>
    by_cases own : ∃ taskId, w = .taskRet taskId i
    · obtain ⟨taskId, own⟩ := own
      refine Or.inr (s.forall_after p _
        (P := fun x => x.sleeps ≠ some (.completing (s.shared.tasks i).taskId result j)) nofun fun q other asleep => ?_)
      have sleeping := timely.completed taskId i (own ▸ here) completed q result j (sleeps_wake asleep)
      obtain ⟨z, woken⟩ := inv.woken_of_sleeping here other sleeping
      dsimp only at asleep
      rw [woken] at asleep
      cases asleep
    · refine keep_completed others here inv completed nofun fun completing => ?_
      cases w with
      | doTask stored => cases completing
      | taskRet taskId k =>
        cases completing
        exact absurd ⟨taskId, rfl⟩ own

theorem step (inv : Attended s) {c : Choice} (timely : Timely s (p, c))
    (call : Shared.act c s.shared (s.points p) = some m) : Attended (s.after p m) where
  ptable := inv.ptable.after (fun _ => holdsPtable_others (Shared.act_others call)) (act_ptable call)
  pending := inv.pending_step timely call
  completed := inv.completed_step timely call

end Attended

omit [DecidableEq Pid] in
theorem attended_initialised (tasks : Table) : Attended (initialised Pid tasks) where
  ptable := ⟨fun p q held => (by cases held), fun p held => (by cases held)⟩
  pending i pending := by cases pending
  completed i result j completed := by cases completed

/-- No worker sleeps through a pending task while every worker inside `wait_for_task`
sleeps and no `do_task` is about to wake them, and no master sleeps on a task that is
completed while no `task_ret` is about to wake it. -/
structure NoLostWakeup (s : Threads Pid Shared Point) : Prop where
  pending : ¬((∃ i, (s.shared.tasks i).status = .pending) ∧ (∃ p, (s.points p).Waiting) ∧
    (∀ p, (s.points p).Waiting → (s.points p).Sleeping) ∧ ∀ p, (s.points p).stores = none)
  completed : ¬∃ p taskId result j i, (s.points p).sleeps = some (.completing taskId result j) ∧
    (s.points p).Sleeping ∧ (s.shared.tasks i).taskId = taskId ∧ (s.shared.tasks i).status = .completed ∧
    ∀ q, (s.points q).completes = none

omit [DecidableEq Pid] in
theorem pastSlot_of_sleeping {x : Point} (waiting : x.Waiting) (sleeping : x.Sleeping) (i : Slot) : x.PastSlot i := by
  cases x with
  | resting z | asleep z =>
    cases z
    · exact rfl
    · exact False.elim waiting
  | _ => exact False.elim sleeping

omit [DecidableEq Pid] in
theorem Attended.noLostWakeup (inv : Attended s) : NoLostWakeup s where
  pending := by
    rintro ⟨⟨i, pending⟩, ⟨p, waiting⟩, sleeping, stored⟩
    rcases inv.pending i pending with ⟨q, storing⟩ | seen
    · cases (stored q).symm.trans storing
    · exact seen p (pastSlot_of_sleeping waiting (sleeping p waiting) i)
  completed := by
    rintro ⟨p, taskId, result, j, i, asleep, -, rfl, completed, quiet⟩
    rcases inv.completed i result j completed with ⟨q, completing⟩ | awake
    · cases (quiet q).symm.trans completing
    · exact awake p asleep

/-- Along every run whose steps open no window no wakeup is lost. -/
theorem noLostWakeup_of_timely {tasks : Table} {ls : List (Pid × Choice)} {s : Threads Pid Shared Point}
    (timely : Machine.EveryStep (Threads.step Shared.act) Timely (initialised Pid tasks) ls)
    (reached : Machine.run (Threads.step Shared.act) (initialised Pid tasks) ls = some s) : NoLostWakeup s := by
  have inv : Attended s := Threads.invariant_of_everyStep (I := Attended)
    (fun _ _ _ _ inv timely call => inv.step timely call)
    (attended_initialised tasks) timely reached
  exact inv.noLostWakeup

end Invariant

/-! ## Runs -/

def handover : List (Bool × Choice) :=
  (true, .call .waitForTask) :: accesses true 105 ++ (false, .call (.doTask ⟨64, 5, 3, 4⟩)) :: accesses false 110 ++
    accesses true 10 ++ (false, .call (.waitForTaskToComplete 5 0)) :: accesses false 8 ++
    (true, .call (.taskRet 5 7)) :: accesses true 6 ++ accesses false 106

def Point.settled : Point → Bool
  | .user _ _ | .asleep _ => true
  | _ => false

def orderly (s : Threads Bool Shared Point) (l : Bool × Choice) : Bool :=
  match s.points l.1 with
  | .wakeScan _ => decide (∀ q, q = l.1 ∨ (s.points q).settled)
  | .completeStatus _ _ j => decide ((s.shared.tasks j).status = .completed ∨ ∀ i, (s.shared.tasks i).status ≠ .completed)
  | .putTaskId _ i => decide ((s.shared.tasks i).status ≠ .completed)
  | _ => true

theorem sleeping_of_settled {x : Point} (settled : x.settled) :
    (∀ i, x.PastSlot i → x.Sleeping) ∧ ∀ z, x.sleeps = some z → x.Sleeping := by
  cases x with
  | user ret task => exact ⟨fun _ => nofun, fun _ => nofun⟩
  | asleep z => exact ⟨fun _ _ => trivial, fun _ _ => trivial⟩
  | _ => cases settled

theorem timely_of_orderly (s : Threads Bool Shared Point) (l : Bool × Choice) (checked : orderly s l = true) :
    Timely s l := by
  unfold orderly at checked
  constructor
  · intro i here _ q past
    rw [here] at checked
    rcases of_decide_eq_true checked q with same | settled
    · rw [same, here] at past
      cases past
    · exact (sleeping_of_settled settled).1 i past
  · intro taskId i here _ q result j asleep
    rw [here] at checked
    rcases of_decide_eq_true checked q with same | settled
    · rw [same, here] at asleep
      cases asleep
    · exact (sleeping_of_settled settled).2 _ asleep
  · intro taskId result j here running i _ completed
    rw [here] at checked
    rcases of_decide_eq_true checked with done | none
    · exact absurd done running
    · exact absurd completed (none i)
  · intro issue i here completed
    rw [here] at checked
    exact absurd completed (of_decide_eq_true checked)

theorem noLostWakeup_handover :
    ∃ s, Machine.run (Threads.step Shared.act) (initialised Bool fun _ => .zero) handover = some s ∧
      s.points false = .user 7 none ∧ s.points true = .user 5 none ∧ NoLostWakeup s := by
  have facts : (Machine.run (Threads.step Shared.act) (initialised Bool fun _ => .zero) handover).any
      (fun s => decide (s.points false = .user 7 none ∧ s.points true = .user 5 none)) = true := by decide +kernel
  have checked : Machine.checkRun (Threads.step Shared.act) orderly (initialised Bool fun _ => .zero) handover = true := by
    decide +kernel
  obtain ⟨s, reached, final⟩ := (Option.any_eq_true _ _).mp facts
  obtain ⟨master, worker⟩ := of_decide_eq_true final
  exact ⟨s, reached, master, worker,
    noLostWakeup_of_timely (Machine.everyStep_of_checkRun timely_of_orderly checked) reached⟩

/-- A task is stored, and its wakeup run, between a worker's scan and its sleep. -/
def lateWorker : List (Bool × Choice) :=
  (true, .call .waitForTask) :: accesses true 100 ++ (false, .call (.doTask ⟨64, 5, 3, 4⟩)) :: accesses false 110 ++
    accesses true 5

/-- A task is completed, and the wakeup run, between its master's look and its sleep. -/
def lateMaster : List (Bool × Choice) :=
  (false, .call (.doTask ⟨64, 5, 3, 4⟩)) :: accesses false 110 ++ (true, .call .waitForTask) :: accesses true 6 ++
    (false, .call (.waitForTaskToComplete 5 0)) :: accesses false 3 ++ (true, .call (.taskRet 5 7)) :: accesses true 6 ++
    accesses false 5

theorem lostWakeup_late :
    (∃ s, Machine.run (Threads.step Shared.act) (initialised Bool fun _ => .zero) lateWorker = some s ∧ ¬NoLostWakeup s) ∧
    ∃ s, Machine.run (Threads.step Shared.act) (initialised Bool fun _ => .zero) lateMaster = some s ∧ ¬NoLostWakeup s := by
  have worker : (Machine.run (Threads.step Shared.act) (initialised Bool fun _ => .zero) lateWorker).any
      (fun s => decide ((s.shared.tasks 0).status = .pending ∧ s.points false = .user 1 none ∧
        s.points true = .asleep .waiting)) = true := by decide +kernel
  have master : (Machine.run (Threads.step Shared.act) (initialised Bool fun _ => .zero) lateMaster).any
      (fun s => decide ((s.shared.tasks 0).status = .completed ∧ (s.shared.tasks 0).taskId = 5 ∧
        s.points false = .asleep (.completing 5 0 0) ∧ s.points true = .user 5 none)) = true := by decide +kernel
  constructor
  · obtain ⟨s, reached, final⟩ := (Option.any_eq_true _ _).mp worker
    obtain ⟨pending, user, asleep⟩ := of_decide_eq_true final
    refine ⟨s, reached, fun sound => sound.pending ⟨⟨0, pending⟩, ⟨true, ?_⟩, fun p _ => ?_, fun p => ?_⟩⟩
    · rw [asleep]
      trivial
    · cases p with
      | true => rw [asleep]; trivial
      | false =>
        next waiting =>
          rw [user] at waiting
          cases waiting
    · cases p with
      | true => rw [asleep]; rfl
      | false => rw [user]; rfl
  · obtain ⟨s, reached, final⟩ := (Option.any_eq_true _ _).mp master
    obtain ⟨completed, taskId, asleep, user⟩ := of_decide_eq_true final
    refine ⟨s, reached, fun sound => sound.completed ⟨false, 5, 0, 0, 0, ?_, ?_, taskId, completed, fun q => ?_⟩⟩
    · rw [asleep]
      rfl
    · rw [asleep]
      trivial
    · cases q with
      | true => rw [user]; rfl
      | false => rw [asleep]; rfl

end OsLabs.Taskmaster
