import Mathlib.Algebra.Order.Floor.Div
import OsLabs.Lib.Monitor

/-! barrier.c: a barrier on one mutex and one condition variable, used again and again. -/

set_option autoImplicit false

namespace OsLabs.Barrier

open OsLabs.Lib OsLabs.Lib.Monitor

/-- The fields of `struct barrier_t`, and a history: how many calls have counted themselves
in `currt`. -/
structure BarrierT where
  currt : Nat
  nt : Nat
  arrived : Nat
  deriving DecidableEq

structure Out where
  returned : Nat
  number : Nat
  deriving DecidableEq

/-- The next statement in `barrier_wait`, after its `pthread_mutex_lock`: `currt++`, the
test, `currt = 0`, the broadcast, the unlock. The call is the thread's `k`-th, from 0;
calls are numbered from 1 in the order they take the mutex, as each then counts itself
at once. -/
inductive In where
  | count (k : Nat)
  | test (k number : Nat)
  | reset (k number : Nat)
  | broadcast (k number : Nat)
  | leave (k number : Nat)
  deriving DecidableEq

def deed (barrier : BarrierT) : In → Deed BarrierT Unit Out In
  | .count k =>
    .set { barrier with currt := barrier.currt + 1, arrived := barrier.arrived + 1 } (.test k (barrier.arrived + 1))
  | .test k number =>
    if barrier.currt ≠ barrier.nt then .wait () (.leave k number) else .set barrier (.reset k number)
  | .reset k number => .set { barrier with currt := 0 } (.broadcast k number)
  | .broadcast k number => .broadcast () (.leave k number)
  | .leave k number => .unlock { returned := k + 1, number }

def barrier_wait : Program BarrierT Unit Out In Unit where
  enter o _ := some (.lock (.count o.returned))
  deed := deed

abbrev State (Pid : Type*) := Monitor.State Pid BarrierT Unit Out In

abbrev Point := Place Unit Out In

abbrev step {Pid : Type*} [DecidableEq Pid] : Machine (State Pid) (Pid × Turn Unit) := Threads.step (act barrier_wait)

def initial {Pid : Type*} (nthreads : Nat) : State Pid where
  shared := { locked := false, data := { currt := 0, nt := nthreads, arrived := 0 } }
  points _ := .out { returned := 0, number := 0 }

def BarrierT.Complete (barrier : BarrierT) (number : Nat) : Prop :=
  barrier.nt * (number ⌈/⌉ barrier.nt) ≤ barrier.arrived

instance (barrier : BarrierT) (number : Nat) : Decidable (barrier.Complete number) :=
  inferInstanceAs (Decidable (_ ≤ _))

def Waits : Point → Prop
  | .waiting _ _ => True
  | _ => False

instance : DecidablePred Waits := fun x =>
  match x with
  | .waiting _ _ => inferInstanceAs (Decidable True)
  | .out _ | .locking _ | .inside _ => inferInstanceAs (Decidable False)

def returned : Point → Nat
  | .out o => o.returned
  | .locking k | .inside k | .waiting _ k =>
    match k with
    | .count k | .test k _ | .reset k _ | .broadcast k _ | .leave k _ => k

def entered : Point → Nat
  | .out o => o.returned
  | x => returned x + 1

end OsLabs.Barrier
