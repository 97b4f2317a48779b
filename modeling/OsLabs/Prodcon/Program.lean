import Mathlib.Data.Fintype.Option
import Mathlib.Data.Fintype.Sum
import OsLabs.Semaphore.Kernel

/-! prodcon.c, with each call on a semaphore or a shared variable as one step. -/

set_option autoImplicit false

namespace OsLabs.Prodcon

open OsLabs.Lib OsLabs.Semaphore

structure Args where
  bsize : Nat
  np : Nat
  pitems : Nat
  nc : Nat
  citems : Nat

inductive Side where
  | producer
  | consumer
  deriving DecidableEq

def Args.count (args : Args) : Side → Nat
  | .producer => args.np
  | .consumer => args.nc

def Args.items (args : Args) : Side → Nat
  | .producer => args.pitems
  | .consumer => args.citems

def Side.takes : Side → Index
  | .producer => 0
  | .consumer => 1

def Side.gives : Side → Index
  | .producer => 1
  | .consumer => 0

/-- What `producer` and `consumer` add to the counter. -/
def Side.change : Side → Int
  | .producer => 1
  | .consumer => -1

structure Worker where
  side : Side
  i : Nat
  j : Nat
  deriving DecidableEq

inductive Point where
  -- main
  | fork (side : Side) (i : Nat)
  | wait (i : Nat)
  | done
  -- a child, before its fork, in its loop and in producer() or consumer()
  | unborn (w : Worker)
  | loop (w : Worker)
  | downUnit (w : Worker)
  | downLock (w : Worker)
  | getVar (w : Worker)
  | setVar (w : Worker) (value : Int)
  | getShown (w : Worker)
  | print (w : Worker) (shown : Int)
  | upLock (w : Worker)
  | upUnit (w : Worker)
  | exited (w : Worker)
  deriving DecidableEq

/-- The kernel's part of the state, the forks and exits `main` can see, and a history of
the `producer` and `consumer` calls that have returned. -/
structure Shared where
  semaphores : Index → Int
  counters : Index → Int
  forked : Side → Nat
  zombies : Nat
  finished : Side → Nat

namespace Shared

def initCounters (s : Shared) : Shared := { s with counters := fun _ => 0 }

def semInit (s : Shared) (index : Index) (value : Int) : Shared :=
  { s with semaphores := Function.update s.semaphores index value }

def semDown (s : Shared) (index : Index) : Option Shared :=
  if 0 < s.semaphores index then
    some { s with semaphores := Function.update s.semaphores index (s.semaphores index - 1) }
  else none

def semUp (s : Shared) (index : Index) : Shared :=
  { s with semaphores := Function.update s.semaphores index (s.semaphores index + 1) }

def getVar (s : Shared) (index : Index) : Int := s.counters index

def setVar (s : Shared) (index : Index) (value : Int) : Shared :=
  { s with counters := Function.update s.counters index value }

def access (args : Args) (s : Shared) : Point → Option (Shared × Point)
  | .fork side i =>
    if i < args.count side then
      some ({ s with forked := Function.update s.forked side (i + 1) }, .fork side (i + 1))
    else
      match side with
      | .producer => some (s, .fork .consumer 0)
      | .consumer => some (s, .wait 0)
  | .wait i =>
    if i < args.nc + args.np then
      if 0 < s.zombies then some ({ s with zombies := s.zombies - 1 }, .wait (i + 1)) else none
    else some (s, .done)
  | .done => none
  | .unborn w => if w.i < s.forked w.side then some (s, .loop w) else none
  | .loop w =>
    if w.j < args.items w.side then some (s, .downUnit w)
    else some ({ s with zombies := s.zombies + 1 }, .exited w)
  | .downUnit w => (s.semDown w.side.takes).map fun t => (t, .downLock w)
  | .downLock w => (s.semDown 2).map fun t => (t, .getVar w)
  | .getVar w => some (s, .setVar w (s.getVar 0 + w.side.change))
  | .setVar w value => some (s.setVar 0 value, .getShown w)
  | .getShown w => some (s, .print w (s.getVar 0))
  | .print w _ => some ({ s with finished := Function.update s.finished w.side (s.finished w.side + 1) }, .upLock w)
  | .upLock w => some (s.semUp 2, .upUnit w)
  | .upUnit w => some (s.semUp w.side.gives, .loop { w with j := w.j + 1 })
  | .exited _ => none

end Shared

abbrev Pid (args : Args) := Option (Fin args.np ⊕ Fin args.nc)

def act (args : Args) (_ : Unit) (s : Shared) (x : Point) : Option (Move Shared Point) :=
  (s.access args x).map fun next => { shared := next.1, point := next.2, others := id }

/-- `main` before its first fork, whatever the semaphores and counters held before. -/
def start (args : Args) (semaphores counters : Index → Int) : Threads (Pid args) Shared Point where
  shared :=
    let s : Shared := { semaphores, counters, forked := fun _ => 0, zombies := 0, finished := fun _ => 0 }
    ((s.initCounters.semInit 0 args.bsize).semInit 1 0).semInit 2 1
  points
    | none => .fork .producer 0
    | some (.inl i) => .unborn ⟨.producer, i, 0⟩
    | some (.inr i) => .unborn ⟨.consumer, i, 0⟩

end OsLabs.Prodcon
