import Mathlib.Data.BitVec
import Mathlib.Data.Fintype.Fin
import OsLabs.Lib.Threads

/-! The semaphores of sysproc.c over `cv_sleep`, `wakeup` and `kill` of proc.c, at the
grain of single lock operations, tests and updates of a value, and changes of a process
state. -/

set_option autoImplicit false

namespace OsLabs.Semaphore

open OsLabs.Lib

abbrev Word := BitVec 32

abbrev Index := Fin 20

scoped instance neZeroNlocks : NeZero 20 := ⟨by decide⟩

/-- The check `index < 0 || index >= NLOCKS` of each call. -/
def lookup (index : Word) : Option Index :=
  if index.toInt < 0 ∨ 20 ≤ index.toInt then none else some (Fin.ofNat 20 index.toNat)

/-- `struct semaphore_t`; of the spinlock, whether it is held. -/
structure Cell where
  semValue : Word
  locked : Bool

inductive Point where
  | user (ret : Word)
  -- sem_init
  | initValue (i : Index) (value : Word)
  | initLocked (i : Index)
  -- sem_down
  | downAcquire (i : Index)
  | downTest (i : Index)
  | downUpdate (i : Index)
  | downRelease (i : Index)
  -- cv_sleep
  | sleepPtable (i : Index)
  | sleepRelease (i : Index)
  | doze (i : Index)
  | resting (i : Index)
  | asleep (i : Index)
  | woken (i : Index)
  | tidy (i : Index)
  | reacquire (i : Index)
  -- sem_up
  | upAcquire (i : Index)
  | upUpdate (i : Index)
  | wakePtable (i : Index)
  | wakeScan (i : Index)
  | wakeUnlock (i : Index)
  | upRelease (i : Index)
  -- kill
  | killPtable (pid ret : Word)
  | killScan (pid ret : Word)
  | killUnlock (ret : Word)
  deriving DecidableEq

structure Proc where
  pid : Word
  killed : Bool
  point : Point
  deriving DecidableEq

/-- The semaphores and `ptable.lock`, and a history for each semaphore: the value it was
given, whether it was used, the `sem_up` calls made, and the updates up and down. -/
structure Shared where
  semaphores : Index → Cell
  ptable : Bool
  given : Index → Option Word
  used : Index → Bool
  calls : Index → Nat
  ups : Index → Nat
  downs : Index → Nat

/-- A system call; what `kill` returns only the whole process table tells. -/
inductive Request where
  | semInit (index value : Word)
  | semDown (index : Word)
  | semUp (index : Word)
  | kill (pid ret : Word)

inductive Choice where
  | call (request : Request)
  | go

def Point.wake : Point → Point
  | .asleep i => .woken i
  | x => x

def Proc.wakeup (i : Index) (x : Proc) : Proc :=
  if x.point = .asleep i then { x with point := x.point.wake } else x

def Proc.kill (pid : Word) (x : Proc) : Proc :=
  if x.pid = pid then { x with killed := true, point := x.point.wake } else x

namespace Shared

def setValue (s : Shared) (i : Index) (value : Word) : Shared :=
  { s with semaphores := Function.update s.semaphores i { s.semaphores i with semValue := value } }

def setLocked (s : Shared) (i : Index) (locked : Bool) : Shared :=
  { s with semaphores := Function.update s.semaphores i { s.semaphores i with locked } }

def use (s : Shared) (i : Index) : Shared := { s with used := Function.update s.used i true }

def enter (s : Shared) : Request → Shared × Point
  | .semInit index value =>
    match lookup index with
    | none => (s, .user (-1))
    | some i => (s, .initValue i value)
  | .semDown index =>
    match lookup index with
    | none => (s, .user (-1))
    | some i => (s.use i, .downAcquire i)
  | .semUp index =>
    match lookup index with
    | none => (s, .user (-1))
    | some i => ({ s.use i with calls := Function.update s.calls i (s.calls i + 1) }, .upAcquire i)
  | .kill pid ret => (s, .killPtable pid ret)

/-- `spinlock_acquire`: a failed `xchg` changes nothing and is tried again. -/
def acquire (s : Shared) (i : Index) (x : Point) : Option (Shared × Point) :=
  if (s.semaphores i).locked then none else some (s.setLocked i true, x)

def acquirePtable (s : Shared) (x : Point) : Option (Shared × Point) :=
  if s.ptable then none else some ({ s with ptable := true }, x)

def access (s : Shared) : Point → Option (Shared × Point)
  | .user _ => none
  | .initValue i value => some ({ s.setValue i value with given := Function.update s.given i (some value) }, .initLocked i)
  | .initLocked i => some (s.setLocked i false, .user 1)
  | .downAcquire i => s.acquire i (.downTest i)
  | .downTest i => if (s.semaphores i).semValue = 0 then some (s, .sleepPtable i) else some (s, .downUpdate i)
  | .downUpdate i =>
    some ({ s.setValue i ((s.semaphores i).semValue - 1) with downs := Function.update s.downs i (s.downs i + 1) },
      .downRelease i)
  | .downRelease i => some (s.setLocked i false, .user 1)
  | .sleepPtable i => s.acquirePtable (.sleepRelease i)
  | .sleepRelease i => some (s.setLocked i false, .doze i)
  | .doze i => some (s, .resting i)
  -- the scheduler on this CPU lets go of ptable.lock, and takes it again to run the process
  | .resting i => some ({ s with ptable := false }, .asleep i)
  | .asleep _ => none
  | .woken i => s.acquirePtable (.tidy i)
  | .tidy i => some ({ s with ptable := false }, .reacquire i)
  | .reacquire i => s.acquire i (.downTest i)
  | .upAcquire i => s.acquire i (.upUpdate i)
  | .upUpdate i =>
    some ({ s.setValue i ((s.semaphores i).semValue + 1) with ups := Function.update s.ups i (s.ups i + 1) },
      .wakePtable i)
  | .wakePtable i => s.acquirePtable (.wakeScan i)
  | .wakeScan i => some (s, .wakeUnlock i)
  | .wakeUnlock i => some ({ s with ptable := false }, .upRelease i)
  | .upRelease i => some (s.setLocked i false, .user 1)
  | .killPtable pid ret => s.acquirePtable (.killScan pid ret)
  | .killScan _ ret => some (s, .killUnlock ret)
  | .killUnlock ret => some ({ s with ptable := false }, .user ret)

end Shared

def Point.scan : Point → Proc → Proc
  | .wakeScan i, x => x.wakeup i
  | .killScan pid _, x => x.kill pid
  | _, x => x

/-- A killed process exits instead of making another call. -/
def act : Choice → Shared → Proc → Option (Move Shared Proc)
  | .call request, s, x =>
    match x.point with
    | .user _ =>
      if x.killed then none
      else some { shared := (s.enter request).1, point := { x with point := (s.enter request).2 }, others := id }
    | _ => none
  | .go, s, x =>
    (s.access x.point).map fun next =>
      { shared := next.1, point := { x.point.scan x with point := next.2 }, others := x.point.scan }

def boot {Pid : Type*} (semaphores : Index → Cell) (pid : Pid → Word) : Threads Pid Shared Proc where
  shared :=
    { semaphores, ptable := false, given := fun _ => none, used := fun _ => false, calls := fun _ => 0,
      ups := fun _ => 0, downs := fun _ => 0 }
  points p := { pid := pid p, killed := false, point := .user 0 }

section Views

def Point.index : Point → Option Index
  | .initValue i _ | .initLocked i | .downAcquire i | .downTest i | .downUpdate i | .downRelease i | .sleepPtable i
  | .sleepRelease i | .doze i | .resting i | .asleep i | .woken i | .tidy i | .reacquire i | .upAcquire i | .upUpdate i
  | .wakePtable i | .wakeScan i | .wakeUnlock i | .upRelease i => some i
  | _ => none

def Point.initialises : Point → Option Index
  | .initValue i _ | .initLocked i => some i
  | _ => none

/-- The semaphore of a `sem_down` or `sem_up` call. -/
def Point.uses (x : Point) : Option Index := if x.initialises = none then x.index else none

def Point.holdsSpin : Point → Option Index
  | .downTest i | .downUpdate i | .downRelease i | .sleepPtable i | .sleepRelease i | .upUpdate i | .wakePtable i
  | .wakeScan i | .wakeUnlock i | .upRelease i => some i
  | _ => none

def Point.HoldsPtable : Point → Prop
  | .sleepRelease _ | .doze _ | .resting _ | .tidy _ | .wakeScan _ | .wakeUnlock _ | .killScan _ _ | .killUnlock _ => True
  | _ => False

/-- The semaphore the process has found without units and waits for, until a wakeup. -/
def Point.sleeps : Point → Option Index
  | .sleepPtable i | .sleepRelease i | .doze i | .resting i | .asleep i => some i
  | _ => none

def Point.takes : Point → Option Index
  | .downUpdate i => some i
  | _ => none

/-- The semaphore whose sleepers the process is still to wake. -/
def Point.owes : Point → Option Index
  | .wakePtable i | .wakeScan i => some i
  | _ => none

def Point.raises : Point → Option Index
  | .upAcquire i | .upUpdate i => some i
  | _ => none

end Views

end OsLabs.Semaphore
