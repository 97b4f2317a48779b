import Mathlib.Data.Fintype.Fin
import Mathlib.Data.Fintype.Card
import Mathlib.Data.BitVec

/-! The task table of proc.c and the scans its calls make over it. -/

set_option autoImplicit false

namespace OsLabs.Taskmaster

abbrev Word := BitVec 32

inductive TaskStatus where
  | free
  | pending
  | allocated
  | completed
  deriving DecidableEq

structure Issue where
  fptr : Word
  taskId : Word
  arg1 : Word
  arg2 : Word
  deriving DecidableEq

structure Task extends Issue where
  status : TaskStatus
  result : Word

abbrev Slot := Fin 100

scoped instance neZeroMaxTasks : NeZero 100 := ⟨by decide⟩

abbrev Table := Slot → Task

def first (p : Slot → Bool) : Option Slot := Fin.find? p

section First

variable {p : Slot → Bool} {i : Slot}

theorem first_eq_some : first p = some i ↔ p i ∧ ∀ j < i, ¬p j := by
  simp [first]

theorem first_eq_none : first p = none ↔ ∀ i, ¬p i := by
  simp [first]

end First

namespace Table

def used (t : Table) (i : Slot) : Bool := (t i).status ≠ .free

def firstFree (t : Table) : Option Slot := first fun i => (t i).status = .free

def firstPending (t : Table) : Option Slot := first fun i => (t i).status = .pending

def firstWith (t : Table) (taskId : Word) : Option Slot := first fun i => (t i).taskId = taskId

def AlreadyUsed (t : Table) (taskId : Word) : Prop := ∃ i, t.used i ∧ (t i).taskId = taskId

instance (t : Table) (taskId : Word) : Decidable (t.AlreadyUsed taskId) :=
  inferInstanceAs (Decidable (∃ _, _))

def initTaskmaster (t : Table) : Table := fun i => { t i with status := .free }

/-- The slot as `do_task` fills it; the result stays what it was. -/
def fill (t : Table) (i : Slot) (issue : Issue) : Table :=
  Function.update t i { t i with toIssue := issue, status := .pending }

def setStatus (t : Table) (i : Slot) (status : TaskStatus) : Table :=
  Function.update t i { t i with status }

def complete (t : Table) (i : Slot) (result : Word) : Table :=
  Function.update t i { t i with status := .completed, result }

/-- The slot at which `wait_for_task_to_complete`, going on from index `next`, stops
next: the first one with the identifier from there on, else the first of all. -/
def scan (t : Table) (taskId : Word) (next : Nat) : Option Slot :=
  (first fun i => next ≤ i.val ∧ (t i).taskId = taskId).or (t.firstWith taskId)

section Scans

variable {t : Table} {i : Slot} {taskId : Word}

theorem used_iff : t.used i ↔ (t i).status ≠ .free := decide_eq_true_iff

theorem firstFree_eq_some :
    t.firstFree = some i ↔ (t i).status = .free ∧ ∀ j < i, (t j).status ≠ .free := by
  simp [firstFree, first_eq_some]

theorem firstFree_eq_none : t.firstFree = none ↔ ∀ i, (t i).status ≠ .free := by
  simp [firstFree, first_eq_none]

theorem firstPending_eq_some :
    t.firstPending = some i ↔ (t i).status = .pending ∧ ∀ j < i, (t j).status ≠ .pending := by
  simp [firstPending, first_eq_some]

theorem firstWith_eq_some :
    t.firstWith taskId = some i ↔ (t i).taskId = taskId ∧ ∀ j < i, (t j).taskId ≠ taskId := by
  simp [firstWith, first_eq_some]

theorem firstWith_eq_none : t.firstWith taskId = none ↔ ∀ i, (t i).taskId ≠ taskId := by
  simp [firstWith, first_eq_none]

theorem taskId_of_scan {next : Nat} (stopped : t.scan taskId next = some i) : (t i).taskId = taskId := by
  rcases Option.or_eq_some_iff.mp stopped with later | ⟨-, again⟩
  · have here := (first_eq_some.mp later).1
    rw [decide_eq_true_eq] at here
    exact here.2
  · exact (firstWith_eq_some.mp again).1

end Scans

section Writes

variable (t : Table) (i j : Slot)

theorem fill_apply (issue : Issue) :
    t.fill i issue j = if j = i then { t i with toIssue := issue, status := .pending } else t j :=
  Function.update_apply ..

theorem setStatus_apply (status : TaskStatus) : t.setStatus i status j = if j = i then { t i with status } else t j :=
  Function.update_apply ..

theorem complete_apply (result : Word) :
    t.complete i result j = if j = i then { t i with status := .completed, result } else t j :=
  Function.update_apply ..

@[simp] theorem toIssue_setStatus (status : TaskStatus) : (t.setStatus i status j).toIssue = (t j).toIssue := by
  rw [setStatus_apply]
  split
  next same => rw [same]
  next => rfl

@[simp] theorem toIssue_complete (result : Word) : (t.complete i result j).toIssue = (t j).toIssue := by
  rw [complete_apply]
  split
  next same => rw [same]
  next => rfl

theorem used_fill (issue : Issue) : (t.fill i issue).used j ↔ j = i ∨ t.used j := by
  rw [used_iff, used_iff, fill_apply]
  split
  next same => simp [same]
  next other => simp [other]

variable {t i}

theorem used_setStatus {status : TaskStatus} (used : t.used i) (kept : status ≠ .free) :
    (t.setStatus i status).used j ↔ t.used j := by
  rw [used_iff] at used
  rw [used_iff, used_iff, setStatus_apply]
  split
  next same => simp [same, used, kept]
  next => rfl

theorem used_complete {result : Word} (used : t.used i) : (t.complete i result).used j ↔ t.used j := by
  rw [used_iff] at used
  rw [used_iff, used_iff, complete_apply]
  split
  next same => simp [same, used]
  next => rfl

theorem used_of_firstPending (found : t.firstPending = some i) : t.used i := by
  rw [used_iff, (firstPending_eq_some.mp found).1]
  exact TaskStatus.noConfusion

end Writes

end Table

end OsLabs.Taskmaster
