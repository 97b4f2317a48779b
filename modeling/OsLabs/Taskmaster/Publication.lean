import OsLabs.Taskmaster.Dispatch

/-! What a waiter reads of a task that is being completed. `task_ret` stores the status
before the result, and `wait_for_task_to_complete` loads the one before the other, none of
them under a lock. -/

set_option autoImplicit false

namespace OsLabs.Taskmaster

open OsLabs.Lib

/-! ## The calls that take part -/

/-- The calls on one task: the `task_ret` that completes it and those that wait for it. -/
def Request.Attends (taskId result : Word) : Request → Prop
  | .waitForTaskToComplete t _ => t = taskId
  | .taskRet t r => t = taskId ∧ r = result
  | _ => False

def Choice.Attends (taskId result : Word) : Choice → Prop
  | .call request => request.Attends taskId result
  | .go => True

def Waker.OfTaskRet : Waker → Prop
  | .taskRet _ _ => True
  | .doTask _ => False

def Sleeper.Attends (taskId : Word) : Sleeper → Prop
  | .completing t _ _ => t = taskId
  | .waiting => False

def Point.Attends (taskId result : Word) : Point → Prop
  | .user _ _ => True
  | .existsId t _ _ | .completeId t _ _ | .completeStatus t _ _ | .completeResult t _ _ => t = taskId
  | .retId t r _ | .retStatus t r _ | .retResult t r _ => t = taskId ∧ r = result
  | .wakeLock w | .wakeScan w | .wakeUnlock w => w.OfTaskRet
  | .lock z | .sleepLock z | .sleepUnlock z | .doze z | .resting z | .asleep z | .woken z | .sleepRelease z
  | .relock z | .unlock z => z.Attends taskId
  | _ => False

def Point.inUser : Point → Bool
  | .user _ _ => true
  | _ => false

def Point.found : Point → Option Slot
  | .completeStatus _ _ i | .completeResult _ _ i | .retStatus _ _ i | .retResult _ _ i => some i
  | _ => none

/-- The slot that the call has seen, or made, completed, its result not yet read or written. -/
def Point.past : Point → Option Slot
  | .completeResult _ _ i | .retResult _ _ i => some i
  | _ => none

/-- The slot whose result `task_ret` is about to store. -/
def Point.owes : Point → Option Slot
  | .retResult _ _ i => some i
  | _ => none

section Views

variable {taskId result : Word}

@[simp] theorem attends_wake (x : Point) : x.wake.Attends taskId result ↔ x.Attends taskId result := by cases x <;> rfl
@[simp] theorem found_wake (x : Point) : x.wake.found = x.found := by cases x <;> rfl
@[simp] theorem past_wake (x : Point) : x.wake.past = x.past := by cases x <;> rfl
@[simp] theorem owes_wake (x : Point) : x.wake.owes = x.owes := by cases x <;> rfl

theorem Slot.loop_attends {i : Slot} {round : Slot → Point} {last : Point}
    (rounds : ∀ j, (round j).Attends taskId result) (ends : last.Attends taskId result) :
    (i.loop round last).Attends taskId result := by
  rcases i.loop_cases round last with ⟨j, -, same⟩ | ⟨-, same⟩
  · rw [same]
    exact rounds j
  · rw [same]
    exact ends

theorem found_of_past {x : Point} {i : Slot} (past : x.past = some i) : x.found = some i := by
  cases x with
  | completeResult t r j => exact past
  | retResult t r j => exact past
  | _ => cases past

theorem past_of_owes {x : Point} {i : Slot} (owes : x.owes = some i) : x.past = some i := by
  cases x with
  | retResult t r j => exact owes
  | _ => cases owes

theorem attends_of_inUser {x : Point} (idle : x.inUser) : x.Attends taskId result := by
  cases x with
  | user ret task => trivial
  | _ => cases idle

theorem found_of_inUser {x : Point} (idle : x.inUser) : x.found = none := by
  cases x with
  | user ret task => rfl
  | _ => cases idle

theorem eq_of_owes {x : Point} {i : Slot} (attends : x.Attends taskId result) (owes : x.owes = some i) :
    x = .retResult taskId result i := by
  cases x with
  | retResult t r j =>
    obtain ⟨rfl, rfl⟩ := attends
    cases owes
    rfl
  | _ => cases owes

end Views

inductive Attending (taskId result : Word) (s : Shared) : Point → Move Shared Point → Prop where
  | look {x : Point} {m : Move Shared Point} : m.shared.tasks = s.tasks → m.point.Attends taskId result → x.owes = none →
      m.point.owes = none → (∀ i, m.point.found = some i → x.found = some i ∨ (s.tasks i).taskId = taskId) →
      (∀ i, m.point.past = some i → (s.tasks i).status = .completed) → Attending taskId result s x m
  | mark {i : Slot} : Attending taskId result s (.retStatus taskId result i)
      ⟨s.write i ({ · with status := .completed }), .retResult taskId result i, id⟩
  | store {i : Slot} : Attending taskId result s (.retResult taskId result i)
      ⟨s.write i ({ · with result }), .wakeLock (.taskRet taskId i), id⟩

namespace Attending

variable {taskId result : Word} {s : Shared} {x : Point} {m : Move Shared Point}

theorem of_quiet (tasks : m.shared.tasks = s.tasks) (attends : m.point.Attends taskId result) (owes : x.owes = none)
    (found : m.point.found = none) : Attending taskId result s x m := by
  refine .look tasks attends owes ?_ ?_ ?_
  · cases owed : m.point.owes with
    | none => rfl
    | some i => rw [found_of_past (past_of_owes owed)] at found; cases found
  · intro i now
    rw [found] at now
    cases now
  · intro i now
    rw [found_of_past now] at found
    cases found

theorem of_access (attends : x.Attends taskId result) (call : s.access x = some m) : Attending taskId result s x m := by
  cases x <;> simp only [Shared.access, Shared.go] at call
  case retStatus t r i =>
    obtain ⟨rfl, rfl⟩ := attends
    cases call
    exact .mark
  case retResult t r i =>
    obtain ⟨rfl, rfl⟩ := attends
    cases call
    exact .store
  case existsId t r i =>
    split at call <;> cases call
    · exact .of_quiet rfl attends rfl rfl
    · exact .of_quiet rfl (Slot.loop_attends (fun _ => attends) trivial) rfl (i.loop_view _ (fun _ => rfl) rfl)
  case retId t r i =>
    split at call <;> cases call
    next named =>
      exact .look rfl attends rfl rfl (fun j now => by cases now; exact Or.inr (named.trans attends.1))
        fun j now => by cases now
    next => exact .of_quiet rfl (Slot.loop_attends (fun _ => attends) trivial) rfl (i.loop_view _ (fun _ => rfl) rfl)
  case completeId t r i =>
    split at call <;> cases call
    next named =>
      exact .look rfl attends rfl rfl (fun j now => by cases now; exact Or.inr (named.trans attends))
        fun j now => by cases now
    next => exact .of_quiet rfl attends rfl rfl
  case completeStatus t r i =>
    split at call <;> cases call
    next completed => exact .look rfl attends rfl rfl (fun j now => Or.inl now) fun j now => by cases now; exact completed
    next => exact .of_quiet rfl attends rfl rfl
  case completeResult t r i => cases call; exact .of_quiet rfl trivial rfl rfl
  case wakeLock w => split at call <;> cases call; exact .of_quiet rfl attends rfl rfl
  case wakeScan w => cases call; exact .of_quiet rfl attends rfl rfl
  case wakeUnlock w =>
    cases w with
    | doTask stored => cases attends
    | taskRet t i => cases call; exact .of_quiet rfl trivial rfl rfl
  case unlock z =>
    cases z with
    | waiting => cases attends
    | completing t r i => cases call; exact .of_quiet rfl attends rfl rfl
  case lock | sleepLock | woken | relock =>
    split at call <;> cases call
    exact .of_quiet rfl attends rfl rfl
  case sleepUnlock | doze | resting | sleepRelease => cases call; exact .of_quiet rfl attends rfl rfl
  case user | asleep => cases call
  all_goals cases attends

theorem of_act {c : Choice} (chosen : c.Attends taskId result) (attends : x.Attends taskId result)
    (call : Shared.act c s x = some m) : Attending taskId result s x m := by
  cases c with
  | go => exact of_access attends call
  | call request =>
    cases x with
    | user ret task =>
      cases request with
      | waitForTaskToComplete t r => cases call; exact .of_quiet rfl chosen rfl rfl
      | taskRet t r => cases call; exact .of_quiet rfl chosen rfl rfl
      | _ => cases chosen
    | _ => cases call

end Attending
/-! ## The invariant -/

section Invariant

variable {Pid : Type*} [DecidableEq Pid] {taskId result : Word} {s : Threads Pid Shared Point} {p : Pid}
  {m : Move Shared Point}

/-- The task is allocated, no other slot in use has its identifier, and no call is under way. -/
structure Ready (taskId : Word) (i : Slot) (s : Threads Pid Shared Point) : Prop where
  idle : ∀ p, (s.points p).inUser
  allocated : (s.shared.tasks i).status = .allocated
  named : (s.shared.tasks i).taskId = taskId
  distinct : ∀ j, (s.shared.tasks j).status ≠ .free → (s.shared.tasks j).taskId = taskId → j = i

structure Publishing (taskId result : Word) (s : Threads Pid Shared Point) : Prop where
  attends : ∀ p, (s.points p).Attends taskId result
  named : ∀ i p, (s.points p).found = some i → (s.shared.tasks i).taskId = taskId
  completed : ∀ i p, (s.points p).past = some i → (s.shared.tasks i).status = .completed
  -- a completed slot has its result, or some `task_ret` is between its two stores
  stored : ∀ i, (s.shared.tasks i).taskId = taskId → (s.shared.tasks i).status = .completed →
    (s.shared.tasks i).result = result ∨ ∃ p, (s.points p).owes = some i

section Others

variable (others : m.others = id ∨ m.others = Point.wake) (x : Point)
include others

theorem attends_others : (m.others x).Attends taskId result ↔ x.Attends taskId result := by
  rcases others with same | same <;> simp [same]

theorem found_others : (m.others x).found = x.found := by rcases others with same | same <;> simp [same]
theorem past_others : (m.others x).past = x.past := by rcases others with same | same <;> simp [same]
theorem owes_others : (m.others x).owes = x.owes := by rcases others with same | same <;> simp [same]

end Others

namespace Publishing

omit [DecidableEq Pid] in
theorem of_ready {i : Slot} (ready : Ready taskId i s) : Publishing taskId result s where
  attends p := attends_of_inUser (ready.idle p)
  named j p found := by
    rw [found_of_inUser (ready.idle p)] at found
    cases found
  completed j p past := by
    have found := found_of_past past
    rw [found_of_inUser (ready.idle p)] at found
    cases found
  stored j named completed := by
    have same := ready.distinct j (by rw [completed]; exact nofun) named
    rw [same, ready.allocated] at completed
    cases completed

theorem look (inv : Publishing taskId result s) (others : m.others = id ∨ m.others = Point.wake)
    (tasks : m.shared.tasks = s.shared.tasks) (attends : m.point.Attends taskId result)
    (owed : (s.points p).owes = none)
    (found : ∀ i, m.point.found = some i → (s.points p).found = some i ∨ (s.shared.tasks i).taskId = taskId)
    (past : ∀ i, m.point.past = some i → (s.shared.tasks i).status = .completed) :
    Publishing taskId result (s.after p m) where
  attends := s.forall_after p m attends fun q _ => (attends_others others _).mpr (inv.attends q)
  named i := by
    rw [Threads.after_shared, tasks]
    refine s.forall_after p m (P := fun x => x.found = some i → _) (fun here => ?_) fun q _ there => ?_
    · rcases found i here with before | named
      · exact inv.named i p before
      · exact named
    · exact inv.named i q ((found_others others _).symm.trans there)
  completed i := by
    rw [Threads.after_shared, tasks]
    exact s.forall_after p m (P := fun x => x.past = some i → _) (past i) fun q _ there =>
      inv.completed i q ((past_others others _).symm.trans there)
  stored i named completed := by
    rw [Threads.after_shared, tasks] at named completed ⊢
    rcases inv.stored i named completed with written | ⟨q, owes⟩
    · exact Or.inl written
    · have other : q ≠ p := by
        rintro rfl
        rw [owed] at owes
        cases owes
      refine Or.inr ⟨q, ?_⟩
      rw [Threads.after_of_ne s p m other, owes_others others]
      exact owes

theorem mark (inv : Publishing taskId result s) {i : Slot} (here : s.points p = .retStatus taskId result i) :
    Publishing taskId result
      (s.after p ⟨s.shared.write i ({ · with status := .completed }), .retResult taskId result i, id⟩) := by
  have ids := s.shared.write_view i (fun t => t.taskId) (f := ({ · with status := .completed })) fun _ => rfl
  have results := s.shared.write_view i (fun t => t.result) (f := ({ · with status := .completed })) fun _ => rfl
  have own : (s.shared.tasks i).taskId = taskId := inv.named i p (by rw [here]; rfl)
  have grown : ∀ j, (s.shared.tasks j).status = .completed →
      ((s.shared.write i ({ · with status := .completed })).tasks j).status = .completed := by
    intro j completed
    rw [Shared.write_tasks]
    split
    · rfl
    · exact completed
  refine { attends := ?_, named := fun j => ?_, completed := fun j => ?_, stored := fun j named completed => ?_ }
  · exact s.forall_after p _ ⟨rfl, rfl⟩ fun q _ => inv.attends q
  · rw [Threads.after_shared, ids]
    refine s.forall_after p _ (P := fun x => x.found = some j → _) (fun found => ?_) fun q _ => inv.named j q
    cases found
    exact own
  · rw [Threads.after_shared]
    refine s.forall_after p _ (P := fun x => x.past = some j → _) (fun past => ?_) fun q _ there =>
      grown j (inv.completed j q there)
    cases past
    rw [Shared.write_tasks, if_pos rfl]
  · rw [Threads.after_shared] at named completed ⊢
    by_cases same : j = i
    · refine Or.inr ⟨p, ?_⟩
      rw [Threads.after_self, same]
      rfl
    · rw [ids] at named
      rw [Shared.write_tasks, if_neg same] at completed
      rw [results]
      refine (inv.stored j named completed).imp_right fun ⟨q, owes⟩ => ⟨q, ?_⟩
      have other : q ≠ p := by
        rintro rfl
        rw [here] at owes
        cases owes
      rw [Threads.after_of_ne s p _ other]
      exact owes

theorem store (inv : Publishing taskId result s) {i : Slot} (here : s.points p = .retResult taskId result i) :
    Publishing taskId result
      (s.after p ⟨s.shared.write i ({ · with result }), .wakeLock (.taskRet taskId i), id⟩) := by
  have ids := s.shared.write_view i (fun t => t.taskId) (f := ({ · with result })) fun _ => rfl
  have statuses := s.shared.write_view i (fun t => t.status) (f := ({ · with result })) fun _ => rfl
  refine { attends := ?_, named := fun j => ?_, completed := fun j => ?_, stored := fun j named completed => ?_ }
  · exact s.forall_after p _ trivial fun q _ => inv.attends q
  · rw [Threads.after_shared, ids]
    exact s.forall_after p _ (P := fun x => x.found = some j → _) nofun fun q _ => inv.named j q
  · rw [Threads.after_shared, statuses]
    exact s.forall_after p _ (P := fun x => x.past = some j → _) nofun fun q _ => inv.completed j q
  · rw [Threads.after_shared] at named completed ⊢
    rw [ids] at named
    rw [statuses] at completed
    rw [Shared.write_tasks]
    split
    · exact Or.inl rfl
    next apart =>
      refine (inv.stored j named completed).imp_right fun ⟨q, owes⟩ => ⟨q, ?_⟩
      have other : q ≠ p := by
        rintro rfl
        rw [here] at owes
        cases owes
        exact apart rfl
      rw [Threads.after_of_ne s p _ other]
      exact owes

theorem step (inv : Publishing taskId result s) {c : Choice} (chosen : c.Attends taskId result)
    (call : Shared.act c s.shared (s.points p) = some m) : Publishing taskId result (s.after p m) := by
  have others := Shared.act_others call
  have access := Attending.of_act chosen (inv.attends p) call
  generalize here : s.points p = x at access
  cases access with
  | look tasks attends owed _ found past =>
    subst here
    exact inv.look others tasks attends owed found past
  | mark => exact inv.mark here
  | store => exact inv.store here

end Publishing

/-! ## Results as waiters read them -/

/-- A `task_ret` is between its two stores to the slot, and the slot does not hold its result yet. -/
def Owed (s : Threads Pid Shared Point) (i : Slot) : Prop :=
  ∃ p t r, s.points p = .retResult t r i ∧ (s.shared.tasks i).result ≠ r

def Returns (result : Word) (s : Threads Pid Shared Point) (l : Pid × Choice) : Prop :=
  ∀ t r i m, s.points l.1 = .completeResult t r i → s.shared.access (s.points l.1) = some m → m.point = .user result none

def Sees (result : Word) (s : Threads Pid Shared Point) (l : Pid × Choice) : Prop :=
  ∀ t r i, s.points l.1 = .completeStatus t r i → (s.shared.tasks i).status = .completed →
    (s.shared.tasks i).result = result

def ReadsSettled (s : Threads Pid Shared Point) (l : Pid × Choice) : Prop :=
  ∀ t r i, s.points l.1 = .completeResult t r i → ¬Owed s i

/-- No waiter loads the status of a slot whose result is still owed. -/
def ChecksSettled (s : Threads Pid Shared Point) (l : Pid × Choice) : Prop :=
  ∀ t r i, s.points l.1 = .completeStatus t r i → ¬Owed s i

omit [DecidableEq Pid] in
theorem settled_of_alone {l : Pid × Choice} (alone : ∀ p, p ≠ l.1 → (s.points p).owes = none) :
    ReadsSettled s l ∧ ChecksSettled s l := by
  have owed : ∀ i, Owed s i → ∃ t r, s.points l.1 = .retResult t r i := by
    rintro i ⟨p, t, r, there, -⟩
    by_cases same : p = l.1
    · exact ⟨t, r, same ▸ there⟩
    · have none := alone p same
      rw [there] at none
      cases none
  constructor <;>
  · intro t r i here later
    obtain ⟨t', r', there⟩ := owed i later
    cases here.symm.trans there

namespace Publishing

omit [DecidableEq Pid]

variable (inv : Publishing taskId result s) {i : Slot}
include inv

theorem owed_iff : Owed s i ↔ (∃ p, (s.points p).owes = some i) ∧ (s.shared.tasks i).result ≠ result := by
  constructor
  · rintro ⟨p, t, r, here, differs⟩
    have attends := inv.attends p
    rw [here] at attends
    rw [attends.2] at differs
    exact ⟨⟨p, by rw [here]; rfl⟩, differs⟩
  · rintro ⟨⟨p, owes⟩, differs⟩
    exact ⟨p, taskId, result, eq_of_owes (inv.attends p) owes, differs⟩

/-- A completed slot holds its result exactly when nobody owes it one. -/
theorem result_iff (named : (s.shared.tasks i).taskId = taskId) (completed : (s.shared.tasks i).status = .completed) :
    (s.shared.tasks i).result = result ↔ ¬Owed s i := by
  rw [inv.owed_iff, not_and, not_not]
  constructor
  · exact fun written _ => written
  · intro settled
    rcases inv.stored i named completed with written | owed
    · exact written
    · exact settled owed

theorem returns_iff (l : Pid × Choice) : Returns result s l ↔ ReadsSettled s l := by
  have read : ∀ t r i, s.points l.1 = .completeResult t r i → ((s.shared.tasks i).result = result ↔ ¬Owed s i) := by
    intro t r i here
    exact inv.result_iff (inv.named i l.1 (by rw [here]; rfl)) (inv.completed i l.1 (by rw [here]; rfl))
  constructor
  · intro returns t r i here
    have last := returns t r i _ here (by rw [here]; rfl)
    injection last with same
    exact (read t r i here).mp same
  · intro settled t r i m here call
    rw [here] at call
    cases call
    rw [(read t r i here).mpr (settled t r i here)]

theorem sees_iff (l : Pid × Choice) : Sees result s l ↔ ChecksSettled s l := by
  have named : ∀ t r i, s.points l.1 = .completeStatus t r i → (s.shared.tasks i).taskId = taskId := fun t r i here =>
    inv.named i l.1 (by rw [here]; rfl)
  constructor
  · intro sees t r i here owed
    obtain ⟨⟨p, owes⟩, -⟩ := inv.owed_iff.mp owed
    have completed := inv.completed i p (past_of_owes owes)
    exact (inv.result_iff (named t r i here) completed).mp (sees t r i here completed) owed
  · intro settled t r i here completed
    exact (inv.result_iff (named t r i here) completed).mpr (settled t r i here)

end Publishing

/-- Along every interleaving of a completion with waiters, all of these return its result
exactly when none loads the result between its two stores, and all of them find it behind
the status exactly when none loads the status there. -/
theorem result_published_iff {i : Slot} {ls : List (Pid × Choice)} (ready : Ready taskId i s)
    (calls : ∀ l ∈ ls, l.2.Attends taskId result) :
    (Machine.EveryStep (Threads.step Shared.act) (Returns result) s ls ↔
      Machine.EveryStep (Threads.step Shared.act) ReadsSettled s ls) ∧
    (Machine.EveryStep (Threads.step Shared.act) (Sees result) s ls ↔
      Machine.EveryStep (Threads.step Shared.act) ChecksSettled s ls) := by
  have start : Publishing taskId result s := .of_ready ready
  have domain : Machine.EveryStep (Threads.step Shared.act)
      (fun _ l => l.2.Attends taskId result) s ls := Machine.everyStep_of_forall calls
  have kept : ∀ s (l : Pid × Choice) t, Publishing taskId result s → l.2.Attends taskId result →
      Threads.step Shared.act s l = some t → Publishing taskId result t := by
    rintro s ⟨p, c⟩ t inv chosen next
    obtain ⟨m, call, rfl⟩ := Threads.step_eq_some.mp next
    exact inv.step chosen call
  constructor
  · exact Machine.everyStep_iff_of_invariant (fun s l inv _ => inv.returns_iff l)
      (fun s l t inv chosen _ => kept s l t inv chosen) start domain
  · exact Machine.everyStep_iff_of_invariant (fun s l inv _ => inv.sees_iff l)
      (fun s l t inv chosen _ => kept s l t inv chosen) start domain

end Invariant

/-! ## Runs -/

instance {Pid : Type*} [Fintype Pid] (taskId : Word) (i : Slot) (s : Threads Pid Shared Point) :
    Decidable (Ready taskId i s) :=
  decidable_of_iff ((∀ p, (s.points p).inUser) ∧ (s.shared.tasks i).status = .allocated ∧
      (s.shared.tasks i).taskId = taskId ∧
      ∀ j, (s.shared.tasks j).status ≠ .free → (s.shared.tasks j).taskId = taskId → j = i)
    ⟨fun ⟨idle, allocated, named, distinct⟩ => ⟨idle, allocated, named, distinct⟩,
      fun ready => ⟨ready.idle, ready.allocated, ready.named, ready.distinct⟩⟩

def takenUp : List (Bool × Choice) :=
  (false, .call (.doTask ⟨64, 5, 3, 4⟩)) :: accesses false 110 ++ (false, .call .waitForTask) :: accesses false 6

def completedFirst : List (Bool × Choice) :=
  (false, .call (.taskRet 5 49)) :: accesses false 6 ++ (true, .call (.waitForTaskToComplete 5 0)) :: accesses true 4

theorem result_published_completedFirst : ∃ s t : Threads Bool Shared Point,
    Machine.run (Threads.step Shared.act) (initialised Bool fun _ => .zero) takenUp = some s ∧ Ready 5 0 s ∧
    Machine.run (Threads.step Shared.act) s completedFirst = some t ∧ t.points true = .user 49 none ∧
    Machine.EveryStep (Threads.step Shared.act) (Returns 49) s completedFirst ∧
    Machine.EveryStep (Threads.step Shared.act) (Sees 49) s completedFirst := by
  have facts : (Machine.run (Threads.step Shared.act) (initialised Bool fun _ => .zero) takenUp).any (fun s =>
      decide (Ready 5 0 s) &&
        ((Machine.run (Threads.step Shared.act) s completedFirst).any fun t => t.points true = .user 49 none) &&
        Machine.checkRun (Threads.step Shared.act) (fun s l => decide (∀ p, p ≠ l.1 → (s.points p).owes = none)) s
          completedFirst) = true := by decide +kernel
  obtain ⟨s, served, facts⟩ := (Option.any_eq_true _ _).mp facts
  simp only [Bool.and_eq_true, decide_eq_true_eq] at facts
  obtain ⟨⟨ready, last⟩, alone⟩ := facts
  obtain ⟨t, reached, returned⟩ := (Option.any_eq_true _ _).mp last
  have settled : Machine.EveryStep (Threads.step Shared.act) (fun s l => ReadsSettled s l ∧ ChecksSettled s l) s
      completedFirst := by
    refine Machine.everyStep_of_checkRun (fun s l checked => ?_) alone
    exact settled_of_alone (of_decide_eq_true checked)
  obtain ⟨reads, checks⟩ := Machine.everyStep_and.mp settled
  have calls : ∀ l ∈ completedFirst, l.2.Attends 5 49 := by
    simp [completedFirst, accesses, Choice.Attends, Request.Attends]
  have published := result_published_iff ready calls
  exact ⟨s, t, served, ready, reached, of_decide_eq_true returned, published.1.mpr reads, published.2.mpr checks⟩

/-- The waiter loads status and result between the two stores of the completion. -/
def readBetween : List (Bool × Choice) :=
  (true, .call (.waitForTaskToComplete 5 0)) :: (false, .call (.taskRet 5 49)) :: accesses false 2 ++ accesses true 3

theorem not_published_readBetween : ∃ s t : Threads Bool Shared Point,
    Machine.run (Threads.step Shared.act) (initialised Bool fun _ => .zero) takenUp = some s ∧ Ready 5 0 s ∧
    (∀ l ∈ readBetween, l.2.Attends 5 49) ∧
    Machine.run (Threads.step Shared.act) s (readBetween ++ [(true, .go)]) = some t ∧ t.points true = .user 0 none ∧
    ¬Machine.EveryStep (Threads.step Shared.act) (Returns 49) s (readBetween ++ [(true, .go)]) := by
  have facts : (Machine.run (Threads.step Shared.act) (initialised Bool fun _ => .zero) takenUp).any (fun s =>
      decide (Ready 5 0 s) && (Machine.run (Threads.step Shared.act) s readBetween).any fun t =>
        decide (t.points true = .completeResult 5 0 0 ∧ (t.shared.tasks 0).result = 0)) = true := by decide +kernel
  obtain ⟨s, served, facts⟩ := (Option.any_eq_true _ _).mp facts
  simp only [Bool.and_eq_true, decide_eq_true_eq] at facts
  obtain ⟨ready, last⟩ := facts
  obtain ⟨t, reached, facts⟩ := (Option.any_eq_true _ _).mp last
  obtain ⟨here, stale⟩ := of_decide_eq_true facts
  have call : t.shared.access (.completeResult 5 0 0) = some ⟨t.shared, .user 0 none, id⟩ := by
    rw [← stale]
    rfl
  have read : Threads.step Shared.act t (true, .go) = some (t.after true ⟨t.shared, .user 0 none, id⟩) :=
    Threads.step_eq_some.mpr ⟨_, by rw [here]; exact call, rfl⟩
  refine ⟨s, _, served, ready, ?_, Machine.run_snoc_eq_some.mpr ⟨t, reached, read⟩, t.after_self true _, fun all => ?_⟩
  · simp [readBetween, accesses, Choice.Attends, Request.Attends]
  · have returns := Machine.everyStep_iff.mp all readBetween (true, .go) [] t rfl reached
    have wrong := returns 5 0 0 _ here (by rw [here]; exact call)
    injection wrong with same
    exact absurd same (by decide)

end OsLabs.Taskmaster
