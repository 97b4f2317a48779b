import OsLabs.Lib.Monitor

/-! reader-writer.c: a reader-writer lock that lets no reader in past a writer. -/

set_option autoImplicit false

namespace OsLabs.Rwlock

open OsLabs.Lib OsLabs.Lib.Monitor

inductive Cond where
  | cond_r
  | cond_w
  deriving DecidableEq

structure ReadWriteLock where
  r : Int
  w : Int
  inw : Int
  deriving DecidableEq

inductive Out where
  | idle
  | reading
  | writing
  | finished
  deriving DecidableEq

/-- The next statement of a thread in one of the four functions, after its
`pthread_mutex_lock`. -/
inductive In where
  -- ReaderLock: the loop, r++, the unlock
  | readerTest
  | readerEnter
  | readerAdmitted
  -- ReaderUnlock: r--, the test of r, the broadcast, the unlock
  | readerLeave
  | readerCheck
  | readerWake
  | readerLeft
  -- WriterLock: w++, the loop, inw++, the unlock
  | writerCount
  | writerTest
  | writerEnter
  | writerAdmitted
  -- WriterUnlock: w--, inw--, the two broadcasts, the unlock
  | writerUncount
  | writerLeave
  | writerWakeWriters
  | writerWakeReaders
  | writerLeft
  deriving DecidableEq

inductive Call where
  | readerLock
  | readerUnlock
  | writerLock
  | writerUnlock
  | finish
  deriving DecidableEq

/-- Threads use the lock in matched pairs. -/
def enter : Out → Call → Option (Entry Out In)
  | .idle, .readerLock => some (.lock .readerTest)
  | .reading, .readerUnlock => some (.lock .readerLeave)
  | .idle, .writerLock => some (.lock .writerCount)
  | .writing, .writerUnlock => some (.lock .writerUncount)
  | .idle, .finish => some (.skip .finished)
  | _, _ => none

def deed (rw : ReadWriteLock) : In → Deed ReadWriteLock Cond Out In
  | .readerTest => if 0 < rw.w then .wait .cond_r .readerTest else .set rw .readerEnter
  | .readerEnter => .set { rw with r := rw.r + 1 } .readerAdmitted
  | .readerAdmitted => .unlock .reading
  | .readerLeave => .set { rw with r := rw.r - 1 } .readerCheck
  | .readerCheck => .set rw (if rw.r = 0 then .readerWake else .readerLeft)
  | .readerWake => .broadcast .cond_w .readerLeft
  | .readerLeft => .unlock .idle
  | .writerCount => .set { rw with w := rw.w + 1 } .writerTest
  | .writerTest => if 0 < rw.r ∨ 0 < rw.inw then .wait .cond_w .writerTest else .set rw .writerEnter
  | .writerEnter => .set { rw with inw := rw.inw + 1 } .writerAdmitted
  | .writerAdmitted => .unlock .writing
  | .writerUncount => .set { rw with w := rw.w - 1 } .writerLeave
  | .writerLeave => .set { rw with inw := rw.inw - 1 } .writerWakeWriters
  | .writerWakeWriters => .broadcast .cond_w .writerWakeReaders
  | .writerWakeReaders => .broadcast .cond_r .writerLeft
  | .writerLeft => .unlock .idle

def rwlock : Program ReadWriteLock Cond Out In Call where
  enter := enter
  deed := deed

abbrev State (Pid : Type*) := Monitor.State Pid ReadWriteLock Cond Out In

abbrev Point := Place Cond Out In

abbrev step {Pid : Type*} [DecidableEq Pid] : Machine (State Pid) (Pid × Turn Call) := Threads.step (act rwlock)

def initial {Pid : Type*} : State Pid where
  shared := { locked := false, data := { r := 0, w := 0, inw := 0 } }
  points _ := .out .idle

def ReaderInside : Point → Prop
  | .out o => o = .reading
  | .locking k | .inside k | .waiting _ k => k = .readerAdmitted ∨ k = .readerLeave

def WriterInside : Point → Prop
  | .out o => o = .writing
  | .locking k | .inside k | .waiting _ k => k = .writerAdmitted ∨ k = .writerUncount ∨ k = .writerLeave

/-- A writer in `WriterLock` between its `w++` and its `inw++`. -/
def WriterWaiting : Point → Prop
  | .out _ => False
  | .locking k | .inside k | .waiting _ k => k = .writerTest ∨ k = .writerEnter

instance : DecidablePred ReaderInside := fun x =>
  match x with
  | .out o => inferInstanceAs (Decidable (o = .reading))
  | .locking k | .inside k | .waiting _ k => inferInstanceAs (Decidable (k = .readerAdmitted ∨ k = .readerLeave))

instance : DecidablePred WriterInside := fun x =>
  match x with
  | .out o => inferInstanceAs (Decidable (o = .writing))
  | .locking k | .inside k | .waiting _ k =>
    inferInstanceAs (Decidable (k = .writerAdmitted ∨ k = .writerUncount ∨ k = .writerLeave))

instance : DecidablePred WriterWaiting := fun x =>
  match x with
  | .out _ => inferInstanceAs (Decidable False)
  | .locking k | .inside k | .waiting _ k => inferInstanceAs (Decidable (k = .writerTest ∨ k = .writerEnter))

end OsLabs.Rwlock
