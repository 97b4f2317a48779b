import Mathlib.Data.BitVec
import Mathlib.Data.Fintype.Fin
import OsLabs.Lib.Machine

/-! The process table of the kernel that hands the children of an exiting process to their
grandparent: `fork`, `exit`, `wait`, `kill`, `signal_process`, `pause` and the scheduler of
proc.c, one step for each acquisition or release of `ptable.lock`, each pass over the table
and each store made without the lock. `nextpid` does not wrap around. -/

set_option autoImplicit false

namespace OsLabs.Reparent

open OsLabs.Lib

abbrev NPROC : Nat := 64

scoped instance neZeroNproc : NeZero NPROC := ⟨by decide⟩

abbrev Slot := Fin NPROC

def initproc : Slot := ⟨0, by decide⟩

abbrev Word := BitVec 32

def SIGNAL_PAUSE : Word := 1
def SIGNAL_KILL : Word := 2

inductive ProcState where
  | unused | embryo | sleeping | runnable | running | zombie
  deriving DecidableEq

inductive Point where
  | user (ret : Int)
  -- allocproc
  | allocAcquire
  | allocScan (i : Nat)
  | allocRelease (np : Slot)
  | allocStack (np : Slot)
  -- fork
  | forkCopy (np : Slot)
  | forkLink (np : Slot)
  | forkAcquire (np : Slot) (pid : Int)
  | forkPublish (np : Slot) (pid : Int)
  -- exit
  | exitAcquire
  | exitWake
  | exitSearch
  | exitPass (temp : Option Slot)
  | exitZombie
  -- wait
  | waitAcquire
  | waitScan
  | waitSleep
  | waitAsleep
  -- kill, signal_process, pause
  | killAcquire (pid : Int)
  | killScan (pid : Int)
  | signalAcquire (pid : Int) (signal : Word)
  | signalScan (pid : Int) (signal : Word)
  | pauseAcquire (pid : Int) (duration : Word)
  | pauseScan (pid : Int) (duration : Word)
  -- the release that ends a call
  | release (ret : Int)
  deriving DecidableEq

/-- Of `struct proc`, what the calls read and write, and where its kernel thread stands. -/
structure Proc where
  state : ProcState
  pid : Int
  parent : Option Slot
  chan : Option Slot
  killed : Bool
  sig : Word
  ft : Word
  point : Point

/-- `ptable` and the globals beside it; of the lock, the process that holds it. -/
structure Kernel where
  proc : Slot → Proc
  lock : Option Slot
  nextpid : Int
  ticks : Word

inductive Request where
  | fork
  | exit
  | wait
  | kill (pid : Int)
  | signalProcess (pid : Int) (signal : Word)
  | pause (pid : Int) (duration : Word)
  deriving DecidableEq

inductive Event where
  -- a timer interrupt that counts, and one that takes the processor away
  | tick
  | yield (p : Slot)
  -- the scheduler picks a process
  | schedule (p : Slot)
  -- a process makes a call or goes on with one; kalloc or copyuvm succeeds or not
  | call (p : Slot) (request : Request)
  | go (p : Slot) (succeeds : Bool)

def Request.entry : Request → Point
  | .fork => .allocAcquire
  | .exit => .exitAcquire
  | .wait => .waitAcquire
  | .kill pid => .killAcquire pid
  | .signalProcess pid signal => .signalAcquire pid signal
  | .pause pid duration => .pauseAcquire pid duration

namespace Kernel

def set (s : Kernel) (q : Slot) (x : Proc) : Kernel := { s with proc := Function.update s.proc q x }

def goto (s : Kernel) (p : Slot) (x : Point) : Kernel := s.set p { s.proc p with point := x }

/-- `acquire(&ptable.lock)`, tried again until the lock is free. -/
def acquire (s : Kernel) (p : Slot) (x : Point) : Option Kernel :=
  if s.lock = none then some { s.goto p x with lock := some p } else none

def unlock (s : Kernel) (p : Slot) (x : Point) : Kernel := { s.goto p x with lock := none }

def wakeup1 (s : Kernel) (chan : Option Slot) : Kernel :=
  { s with
    proc := fun q =>
      if (s.proc q).state = .sleeping ∧ (s.proc q).chan = chan then { s.proc q with state := .runnable } else s.proc q }

/-- The slot at which a loop over the table that looks for `pid` breaks off. -/
def find (s : Kernel) (pid : Int) : Option Slot := (List.finRange NPROC).find? fun q => (s.proc q).pid = pid

def allocScan (s : Kernel) (p : Slot) (i : Nat) : Kernel :=
  if inside : i < NPROC then
    if (s.proc ⟨i, inside⟩).state = .unused then
      { (s.set ⟨i, inside⟩ { s.proc ⟨i, inside⟩ with state := .embryo, pid := s.nextpid }).goto p
          (.allocRelease ⟨i, inside⟩) with nextpid := s.nextpid + 1 }
    else s.goto p (.allocScan (i + 1))
  else s.goto p (.release (-1))

/-- A forked process that is not finished is given up, without the lock. -/
def giveUp (s : Kernel) (p np : Slot) : Kernel :=
  (s.set np { s.proc np with state := .unused }).goto p (.user (-1))

/-- The loop of `exit` that passes the children to `temp`; what others do without the lock
concerns no child of the exiting process. -/
def passChildren (s : Kernel) (p temp : Slot) : Kernel :=
  let passed :=
    { s with
      proc := fun q => if (s.proc q).parent = some p then { s.proc q with parent := some temp } else s.proc q }
  if ∃ q, (s.proc q).parent = some p ∧ (s.proc q).state = .zombie then passed.wakeup1 (some initproc) else passed

def waitScan (s : Kernel) (p : Slot) : Kernel :=
  match (List.finRange NPROC).find? fun q => (s.proc q).parent = some p ∧ (s.proc q).state = .zombie with
  | some q =>
    (s.set q { s.proc q with pid := 0, parent := none, killed := false, state := .unused }).goto p
      (.release (s.proc q).pid)
  | none =>
    if (∀ q, (s.proc q).parent ≠ some p) ∨ (s.proc p).killed then s.goto p (.release (-1)) else s.goto p .waitSleep

def kill (s : Kernel) (p : Slot) (pid : Int) : Kernel :=
  match s.find pid with
  | some q =>
    let wakes := if (s.proc q).state = .sleeping then .runnable else (s.proc q).state
    (s.set q { s.proc q with killed := true, state := wakes }).goto p (.release 0)
  | none => s.goto p (.release (-1))

def signalProcess (s : Kernel) (p : Slot) (pid : Int) (signal : Word) : Kernel :=
  match s.find pid with
  | some q => (s.set q { s.proc q with sig := signal }).goto p (.release signal.toInt)
  | none => s.goto p (.release (-1))

/-- What `pause` makes of `ft`; `ft > ticks` compares unsigned words. -/
def pauseUntil (ticks ft duration : Word) : Word :=
  if ft = -1 then ticks + duration else if ticks < ft then ft + duration else ticks + duration

def pause (s : Kernel) (p : Slot) (pid : Int) (duration : Word) : Kernel :=
  match s.find pid with
  | some q => (s.set q { s.proc q with ft := pauseUntil s.ticks (s.proc q).ft duration }).goto p (.release 0)
  | none => s.goto p (.release 0)

/-- The next step of a running process. A read through NULL and a child handed to the slot
past the table have no outcome. -/
def advance (s : Kernel) (p : Slot) (succeeds : Bool) : Option Kernel :=
  match (s.proc p).point with
  | .user _ => none
  | .allocAcquire => s.acquire p (.allocScan 0)
  | .allocScan i => some (s.allocScan p i)
  | .allocRelease np => some (s.unlock p (.allocStack np))
  | .allocStack np => some (if succeeds then s.goto p (.forkCopy np) else s.giveUp p np)
  | .forkCopy np => some (if succeeds then s.goto p (.forkLink np) else s.giveUp p np)
  -- the child goes on where the parent called fork, with 0 for a result
  | .forkLink np =>
    some ((s.set np { s.proc np with parent := some p, point := .user 0 }).goto p (.forkAcquire np (s.proc np).pid))
  | .forkAcquire np pid => s.acquire p (.forkPublish np pid)
  | .forkPublish np pid =>
    some ((s.set np { s.proc np with state := .runnable, sig := 0, ft := -1 }).goto p (.release pid))
  | .exitAcquire => s.acquire p .exitWake
  | .exitWake => some ((s.wakeup1 (s.proc p).parent).goto p .exitSearch)
  | .exitSearch => (s.proc p).parent.map fun parent => s.goto p (.exitPass (s.find (s.proc parent).pid))
  | .exitPass temp => temp.map fun temp => (s.passChildren p temp).goto p .exitZombie
  -- the scheduler on this CPU lets go of the lock
  | .exitZombie => some { s.set p { s.proc p with state := .zombie, point := .user 0 } with lock := none }
  | .waitAcquire => s.acquire p .waitScan
  | .waitScan => some (s.waitScan p)
  | .waitSleep =>
    some { s.set p { s.proc p with chan := some p, state := .sleeping, point := .waitAsleep } with lock := none }
  | .waitAsleep => none
  | .killAcquire pid => s.acquire p (.killScan pid)
  | .killScan pid => some (s.kill p pid)
  | .signalAcquire pid signal => s.acquire p (.signalScan pid signal)
  | .signalScan pid signal => some (s.signalProcess p pid signal)
  | .pauseAcquire pid duration => s.acquire p (.pauseScan pid duration)
  | .pauseScan pid duration => some (s.pause p pid duration)
  | .release ret => some (s.unlock p (.user ret))

/-- `scheduler` at one slot, and what the process does before it is past `sched`. -/
def schedule (s : Kernel) (p : Slot) : Option Kernel :=
  let x := s.proc p
  if s.lock ≠ none ∨ ((0 : Word).slt x.ft ∧ s.ticks ≤ x.ft) ∨ x.state ≠ .runnable ∨ x.sig = SIGNAL_PAUSE then none
  else
    let x := { x with killed := x.killed || x.sig == SIGNAL_KILL, state := .running }
    -- behind sched, sleep keeps the lock for wait
    if x.point = .waitAsleep then some { (s.set p { x with chan := none }).goto p .waitScan with lock := some p }
    else some (s.set p x)

end Kernel

def step : Machine Kernel Event
  | s, .tick => some { s with ticks := s.ticks + 1 }
  | s, .yield p =>
    if s.lock = none ∧ (s.proc p).state = .running then some (s.set p { s.proc p with state := .runnable }) else none
  | s, .schedule p => s.schedule p
  | s, .call p request =>
    match (s.proc p).state, (s.proc p).point with
    -- init panics when it exits
    | .running, .user _ => if request = .exit ∧ p = initproc then none else some (s.goto p request.entry)
    | _, _ => none
  | s, .go p succeeds => if (s.proc p).state = .running then s.advance p succeeds else none

/-- What `userinit` leaves, the rest of the table all zero. -/
def boot : Kernel where
  proc q :=
    if q = initproc then
      { state := .runnable, pid := 1, parent := none, chan := none, killed := false, sig := 0, ft := -1, point := .user 0 }
    else
      { state := .unused, pid := 0, parent := none, chan := none, killed := false, sig := 0, ft := 0, point := .user 0 }
  lock := none
  nextpid := 2
  ticks := 0

end OsLabs.Reparent
