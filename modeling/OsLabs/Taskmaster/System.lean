import OsLabs.Lib.Machine
import OsLabs.Taskmaster.Table

/-! The five system calls of the task queue, each atomic up to the point where it
sleeps, over the table and the processes' trap frames and memories. -/

set_option autoImplicit false

namespace OsLabs.Taskmaster

open OsLabs.Lib

abbrev Memory := Word → BitVec 8

namespace Memory

def loadWord (m : Memory) (a : Word) : Word := m (a + 3) ++ m (a + 2) ++ m (a + 1) ++ m a

def storeWord (m : Memory) (a w : Word) : Memory := fun x =>
  if (x - a).toNat < 4 then w.extractLsb' (8 * (x - a).toNat) 8 else m x

theorem loadWord_storeWord (m : Memory) (a w : Word) : (m.storeWord a w).loadWord a = w := by
  have zero : (a - a).toNat = 0 := by bv_omega
  have one : (a + 1 - a).toNat = 1 := by bv_omega
  have two : (a + 2 - a).toNat = 2 := by bv_omega
  have three : (a + 3 - a).toNat = 3 := by bv_omega
  simp only [loadWord, storeWord, zero, one, two, three]
  apply BitVec.eq_of_getLsbD_eq
  intro k bound
  have bit : ∀ o j, j < 8 → o + j = k → (decide (j < 8) && w.getLsbD (o + j)) = w.getLsbD k := by
    intro o j inside same
    rw [same, decide_eq_true inside, Bool.true_and]
  simp only [Nat.reduceLT, Nat.reduceMul, if_true, BitVec.getLsbD_append, BitVec.getLsbD_extractLsb']
  split_ifs <;> exact bit _ _ (by omega) (by omega)

theorem loadWord_storeWord_apart (m : Memory) {a b : Word} (w : Word) (above : 4 ≤ (b - a).toNat)
    (below : (b - a).toNat ≤ 4294967292) : (m.storeWord a w).loadWord b = m.loadWord b := by
  have zero : ¬(b - a).toNat < 4 := by omega
  have one : ¬(b + 1 - a).toNat < 4 := by bv_omega
  have two : ¬(b + 2 - a).toNat < 4 := by bv_omega
  have three : ¬(b + 3 - a).toNat < 4 := by bv_omega
  simp only [loadWord, storeWord, if_neg zero, if_neg one, if_neg two, if_neg three]

end Memory

/-- `struct trapframe`: the registers the task calls touch, and the others. -/
structure TrapFrame where
  eip : Word
  esp : Word
  eax : Word
  others : List Word
  deriving DecidableEq

def TrapFrame.start : TrapFrame := { eip := 0, esp := 8192, eax := 0, others := [] }

/-- Where a process stands: in user code, in `wait_for_task`, or in
`wait_for_task_to_complete` with the rest of its scan ahead; in a call it sleeps
until it is `awake`. -/
inductive Place where
  | user
  | waiting (awake : Bool)
  | completing (taskId result : Word) (next : Nat) (awake : Bool)

/-- `tf` and `oldtf` point to frames of the process's own. -/
structure Proc where
  tf : TrapFrame
  oldtf : TrapFrame
  memory : Memory
  place : Place

namespace Proc

/-- The trap frame and the stack on which a handed task starts: `arg2`, `arg1`,
`task_id` and room for a return address are pushed. -/
def enter (p : Proc) (task : Issue) : Proc :=
  let esp := p.tf.esp
  let memory := p.memory.storeWord (esp - 4) task.arg2
  let memory := memory.storeWord (esp - 8) task.arg1
  let memory := memory.storeWord (esp - 12) task.taskId
  { p with oldtf := p.tf, tf := { p.tf with esp := esp - 16, eip := task.fptr }, memory }

/-- The call that user code sees itself in: the function at `eip` with the arguments
above its return address. -/
def entered (p : Proc) : Issue where
  fptr := p.tf.eip
  taskId := p.memory.loadWord (p.tf.esp + 4)
  arg1 := p.memory.loadWord (p.tf.esp + 8)
  arg2 := p.memory.loadWord (p.tf.esp + 12)

theorem entered_enter (p : Proc) (task : Issue) : (p.enter task).entered = task := by
  have id : p.tf.esp - 16 + 4 = p.tf.esp - 12 := by bv_omega
  have first : p.tf.esp - 16 + 8 = p.tf.esp - 8 := by bv_omega
  have second : p.tf.esp - 16 + 12 = p.tf.esp - 4 := by bv_omega
  simp only [entered, enter, id, first, second]
  rw [Memory.loadWord_storeWord, Memory.loadWord_storeWord_apart _ _ (by bv_omega) (by bv_omega),
    Memory.loadWord_storeWord, Memory.loadWord_storeWord_apart _ _ (by bv_omega) (by bv_omega),
    Memory.loadWord_storeWord_apart _ _ (by bv_omega) (by bv_omega), Memory.loadWord_storeWord]

/-- What `wakeup` does to a process: `cv1` and `cv2` are one channel, 0. -/
def wake (p : Proc) : Proc :=
  { p with place := match p.place with
    | .user => .user
    | .waiting _ => .waiting true
    | .completing taskId result next _ => .completing taskId result next true }

end Proc

/-! ## Calls -/

inductive Request where
  | initTaskmaster
  | doTask (issue : Issue)
  | waitForTask
  | waitForTaskToComplete (taskId result : Word)
  | taskRet (taskId result : Word)
  deriving DecidableEq

/-- How a call ends or goes to sleep, with the slot it worked on, which its caller
does not see. -/
inductive Outcome where
  | initialised
  | stored (i : Slot) (issue : Issue)
  | dropped (issue : Issue)
  | refused (issue : Issue)
  | handed (i : Slot) (task : Issue)
  | asleep
  | spinning
  | consumed (i : Slot) (taskId value : Word)
  | unknown (taskId : Word)
  | completed (i : Slot) (taskId result : Word)
  | notFound (taskId : Word)
  deriving DecidableEq

namespace Outcome

def ret : Outcome → Option Word
  | initialised | stored .. | dropped _ | handed .. => some 1
  | refused _ | unknown _ | notFound _ => some (-1)
  | consumed _ _ value => some value
  | completed _ taskId _ => some taskId
  | asleep | spinning => none

def request : Outcome → Option Request
  | initialised => some .initTaskmaster
  | stored _ issue | dropped issue | refused issue => some (.doTask issue)
  | completed _ taskId result => some (.taskRet taskId result)
  | _ => none

end Outcome

section Calls

variable {Pid : Type*} [DecidableEq Pid]

structure System (Pid : Type*) where
  tasks : Table
  procs : Pid → Proc

structure Entry (Pid : Type*) where
  pid : Pid
  outcome : Outcome
  deriving DecidableEq

/-- A system call from user code with these registers, or a woken process going on
with the call it sleeps in. -/
inductive Label (Pid : Type*) where
  | syscall (p : Pid) (tf : TrapFrame) (request : Request)
  | resume (p : Pid)

namespace System

/-- `curproc->tf->eax = syscalls[num]()`, when the call returns. -/
def settle (s : System Pid) (p : Pid) (proc : Proc) (outcome : Outcome) : System Pid × Entry Pid :=
  let proc := match outcome.ret with
    | some v => { proc with tf := { proc.tf with eax := v }, place := .user }
    | none => proc
  ({ s with procs := Function.update s.procs p proc }, { pid := p, outcome })

def wakeup (s : System Pid) : System Pid := { s with procs := fun q => (s.procs q).wake }

def doTask (s : System Pid) (p : Pid) (proc : Proc) (issue : Issue) : System Pid × Entry Pid :=
  -- the test of the source: -1 only when the identifier is in use and the table is full
  if s.tasks.AlreadyUsed issue.taskId ∧ s.tasks.firstFree = none then s.settle p proc (.refused issue)
  else
    match s.tasks.firstFree with
    | some i => { s with tasks := s.tasks.fill i issue }.wakeup.settle p proc (.stored i issue)
    -- the loop finds no slot, yet the call wakes the sleepers and returns 1
    | none => s.wakeup.settle p proc (.dropped issue)

def waitForTask (s : System Pid) (p : Pid) (proc : Proc) : System Pid × Entry Pid :=
  match s.tasks.firstPending with
  | some i =>
    let proc := proc.enter (s.tasks i).toIssue
    { s with tasks := s.tasks.setStatus i .allocated }.settle p proc (.handed i proc.entered)
  | none => s.settle p { proc with place := .waiting false } .asleep

def complete (s : System Pid) (p : Pid) (proc : Proc) (taskId result : Word) (next : Nat) : System Pid × Entry Pid :=
  match s.tasks.scan taskId next with
  -- the inner loop ran out: the endless one begins its scan again, without sleeping
  | none => s.settle p { proc with place := .completing taskId result 0 true } .spinning
  | some i =>
    if (s.tasks i).status = .completed then
      let value := (s.tasks i).result
      s.settle p { proc with memory := proc.memory.storeWord result value } (.consumed i taskId value)
    -- sleep returns into the inner loop, so the scan goes on behind i
    else s.settle p { proc with place := .completing taskId result (i.val + 1) false } .asleep

def taskRet (s : System Pid) (p : Pid) (proc : Proc) (taskId result : Word) : System Pid × Entry Pid :=
  match s.tasks.firstWith taskId with
  | some i =>
    { s with tasks := s.tasks.complete i result }.wakeup.settle p { proc with tf := proc.oldtf }
      (.completed i taskId result)
  | none => s.settle p proc (.notFound taskId)

def call (s : System Pid) (p : Pid) (proc : Proc) : Request → System Pid × Entry Pid
  | .initTaskmaster => { s with tasks := s.tasks.initTaskmaster }.settle p proc .initialised
  | .doTask issue => s.doTask p proc issue
  | .waitForTask => s.waitForTask p proc
  | .waitForTaskToComplete taskId result =>
    match s.tasks.firstWith taskId with
    | none => s.settle p proc (.unknown taskId)
    | some _ => s.complete p proc taskId result 0
  | .taskRet taskId result => s.taskRet p proc taskId result

def exec (s : System Pid) : Label Pid → Option (System Pid × Entry Pid)
  | .syscall p tf request =>
    match (s.procs p).place with
    | .user => some (s.call p { s.procs p with tf } request)
    | _ => none
  | .resume p =>
    match (s.procs p).place with
    | .waiting true => some (s.waitForTask p (s.procs p))
    | .completing taskId result next true => some (s.complete p (s.procs p) taskId result next)
    | _ => none

def boot (tf : Pid → TrapFrame) (memory : Pid → Memory) : System Pid where
  tasks _ := { fptr := 0, taskId := 0, arg1 := 0, arg2 := 0, status := .free, result := 0 }
  procs p := { tf := tf p, oldtf := tf p, memory := memory p, place := .user }

def idle (Pid : Type*) : System Pid := boot (fun _ => .start) fun _ _ => 0

def step : Machine (System Pid × List (Entry Pid)) (Label Pid) := Machine.record exec

end System

end Calls

/-! ## What a call does to the table -/

inductive Effect (t : Table) : Outcome → Table → Prop where
  | initialised : Effect t .initialised t.initTaskmaster
  | stored {i : Slot} {issue : Issue} : t.firstFree = some i → Effect t (.stored i issue) (t.fill i issue)
  | dropped {issue : Issue} : t.firstFree = none → ¬t.AlreadyUsed issue.taskId → Effect t (.dropped issue) t
  | refused {issue : Issue} : t.firstFree = none → t.AlreadyUsed issue.taskId → Effect t (.refused issue) t
  | handed {i : Slot} : t.firstPending = some i → Effect t (.handed i (t i).toIssue) (t.setStatus i .allocated)
  | asleep : Effect t .asleep t
  | spinning : Effect t .spinning t
  | consumed {i : Slot} {taskId : Word} : (t i).taskId = taskId → (t i).status = .completed →
      Effect t (.consumed i taskId (t i).result) t
  | unknown {taskId : Word} : Effect t (.unknown taskId) t
  | completed {i : Slot} {taskId result : Word} : t.firstWith taskId = some i →
      Effect t (.completed i taskId result) (t.complete i result)
  | notFound {taskId : Word} : t.firstWith taskId = none → Effect t (.notFound taskId) t

theorem Effect.of_stored {t t' : Table} {i : Slot} {issue : Issue} (effect : Effect t (.stored i issue) t') :
    t.firstFree = some i ∧ t' = t.fill i issue := by
  cases effect with
  | stored found => exact ⟨found, rfl⟩

theorem Effect.of_dropped {t t' : Table} {issue : Issue} (effect : Effect t (.dropped issue) t') :
    t.firstFree = none ∧ ¬t.AlreadyUsed issue.taskId := by
  cases effect with
  | dropped full unused => exact ⟨full, unused⟩

theorem Effect.of_handed {t t' : Table} {i : Slot} {task : Issue} (effect : Effect t (.handed i task) t') :
    t.firstPending = some i ∧ task = (t i).toIssue ∧ t' = t.setStatus i .allocated := by
  cases effect with
  | handed found => exact ⟨found, rfl, rfl⟩

/-- A slot in use stays in use and keeps its issue, except through `init_taskmaster`. -/
theorem Effect.keeps {t t' : Table} {outcome : Outcome} (effect : Effect t outcome t')
    (other : outcome ≠ .initialised) {i : Slot} (used : t.used i) :
    t'.used i ∧ (t' i).toIssue = (t i).toIssue := by
  rw [Table.used_iff] at used ⊢
  cases effect with
  | initialised => exact absurd rfl other
  | @stored j issue found =>
    have free := (Table.firstFree_eq_some.mp found).1
    have apart : i ≠ j := fun same => used (same ▸ free)
    rw [Table.fill_apply, if_neg apart]
    exact ⟨used, rfl⟩
  | @handed j found =>
    refine ⟨?_, t.toIssue_setStatus j i _⟩
    rw [Table.setStatus_apply]
    split
    next => exact TaskStatus.noConfusion
    next => exact used
  | @completed j taskId result found =>
    refine ⟨?_, t.toIssue_complete j i _⟩
    rw [Table.complete_apply]
    split
    next => exact TaskStatus.noConfusion
    next => exact used
  | _ => exact ⟨used, rfl⟩

namespace System

variable {Pid : Type*} [DecidableEq Pid] {s s' : System Pid} {p : Pid} {proc : Proc} {e : Entry Pid}

structure Ended (s s' : System Pid) (p : Pid) (request : Option Request) (e : Entry Pid) : Prop where
  effect : Effect s.tasks e.outcome s'.tasks
  pid : e.pid = p
  origin : ∀ r, e.outcome.request = some r → request = some r

theorem waitForTask_ended (request : Option Request) (call : s.waitForTask p proc = (s', e)) :
    Ended s s' p request e := by
  unfold waitForTask at call
  split at call
  next i found =>
    cases call
    refine ⟨?_, rfl, fun r origin => by cases origin⟩
    have effect := Effect.handed found
    rwa [← Proc.entered_enter proc (s.tasks i).toIssue] at effect
  next =>
    cases call
    exact ⟨.asleep, rfl, fun r origin => by cases origin⟩

theorem complete_ended (request : Option Request) {taskId result : Word} {next : Nat}
    (call : s.complete p proc taskId result next = (s', e)) : Ended s s' p request e := by
  unfold complete at call
  split at call
  next =>
    cases call
    exact ⟨.spinning, rfl, fun r origin => by cases origin⟩
  next i stopped =>
    split at call
    next done =>
      cases call
      exact ⟨.consumed (Table.taskId_of_scan stopped) done, rfl, fun r origin => by cases origin⟩
    next =>
      cases call
      exact ⟨.asleep, rfl, fun r origin => by cases origin⟩

theorem doTask_ended {issue : Issue} (call : s.doTask p proc issue = (s', e)) :
    Ended s s' p (some (.doTask issue)) e := by
  unfold doTask at call
  split at call
  next both =>
    cases call
    exact ⟨.refused both.2 both.1, rfl, fun r origin => origin⟩
  next accepted =>
    split at call
    next i found =>
      cases call
      exact ⟨.stored found, rfl, fun r origin => origin⟩
    next full =>
      cases call
      exact ⟨.dropped full fun used => accepted ⟨used, full⟩, rfl, fun r origin => origin⟩

theorem taskRet_ended {taskId result : Word} (call : s.taskRet p proc taskId result = (s', e)) :
    Ended s s' p (some (.taskRet taskId result)) e := by
  unfold taskRet at call
  split at call
  next i found =>
    cases call
    exact ⟨.completed found, rfl, fun r origin => origin⟩
  next absent =>
    cases call
    exact ⟨.notFound absent, rfl, fun r origin => by cases origin⟩

theorem call_ended {request : Request} (call : s.call p proc request = (s', e)) :
    Ended s s' p (some request) e := by
  cases request with
  | initTaskmaster =>
    cases call
    exact ⟨.initialised, rfl, fun r origin => origin⟩
  | doTask issue =>
    unfold System.call at call
    exact doTask_ended call
  | waitForTask =>
    unfold System.call at call
    exact waitForTask_ended _ call
  | waitForTaskToComplete taskId result =>
    unfold System.call at call
    dsimp only at call
    split at call
    next =>
      cases call
      exact ⟨.unknown, rfl, fun r origin => by cases origin⟩
    next => exact complete_ended _ call
  | taskRet taskId result =>
    unfold System.call at call
    exact taskRet_ended call

theorem exec_effect {l : Label Pid} (call : s.exec l = some (s', e)) : Effect s.tasks e.outcome s'.tasks := by
  cases l with
  | syscall p tf request =>
    simp only [exec] at call
    split at call
    · rw [Option.some.injEq] at call
      exact (call_ended call).effect
    · cases call
  | resume p =>
    simp only [exec] at call
    split at call
    · rw [Option.some.injEq] at call
      exact (waitForTask_ended none call).effect
    · rw [Option.some.injEq] at call
      exact (complete_ended none call).effect
    · cases call

theorem exec_origin {l : Label Pid} {r : Request} (call : s.exec l = some (s', e))
    (origin : e.outcome.request = some r) : ∃ tf, l = .syscall e.pid tf r := by
  cases l with
  | syscall p tf request =>
    simp only [exec] at call
    split at call
    · rw [Option.some.injEq] at call
      have ended := call_ended call
      have same := Option.some.inj (ended.origin r origin)
      exact ⟨tf, by rw [ended.pid, same]⟩
    · cases call
  | resume p =>
    simp only [exec] at call
    split at call
    · rw [Option.some.injEq] at call
      cases (waitForTask_ended none call).origin r origin
    · rw [Option.some.injEq] at call
      cases (complete_ended none call).origin r origin
    · cases call

theorem complete_stored {taskId result v : Word} {next : Nat} {i : Slot}
    (call : s.complete p proc taskId result next = (s', ⟨p, .consumed i taskId v⟩)) :
    (s'.procs p).memory.loadWord result = v := by
  unfold complete at call
  split at call
  · cases call
  · split at call
    · cases call
      simp [Outcome.ret, Memory.loadWord_storeWord]
    · cases call

theorem exec_initTaskmaster {tf : TrapFrame} (call : s.exec (.syscall p tf .initTaskmaster) = some (s', e)) :
    s'.tasks = s.tasks.initTaskmaster := by
  simp only [exec] at call
  split at call
  · cases call
    rfl
  · cases call

theorem exec_doTask {tf : TrapFrame} {issue : Issue} (call : s.exec (.syscall p tf (.doTask issue)) = some (s', e)) :
    e.outcome.request = some (.doTask issue) := by
  simp only [exec] at call
  split at call
  · rw [Option.some.injEq] at call
    unfold System.call doTask at call
    dsimp only at call
    split at call
    · cases call
      rfl
    · split at call <;>
      · cases call
        rfl
  · cases call

end System

end OsLabs.Taskmaster
