import Mathlib.Data.Fintype.Fin
import OsLabs.Lib.Machine
import OsLabs.Lifecycle.Memory

/-! proc.c of the kernel with the task calls: `userinit`, and `fork`, `exit` and `wait` with
each call as one step, so that a run finds no process asleep. A kernel that panics has no
next state. -/

set_option autoImplicit false

namespace OsLabs.Lifecycle

open OsLabs.Lib
open OsLabs.LazyVm (PGSIZE)

abbrev NPROC : Nat := 64

scoped instance neZeroNproc : NeZero NPROC := ⟨by decide⟩

abbrev Slot := Fin NPROC

def initproc : Slot := 0

inductive ProcState where
  | unused | embryo | sleeping | runnable | running | zombie
  deriving DecidableEq

/-- Of `struct proc`, what the calls read and write here; a pointer that is 0 is `none`. -/
structure Proc where
  sz : Nat
  pgdir : Option Pgdir
  kstack : Option Page
  state : ProcState
  pid : Int
  parent : Option Slot
  oldtf : Option Page

structure Kernel where
  proc : Slot → Proc
  freelist : List Page
  nextpid : Int

inductive Call where
  | fork (p : Slot)
  | exit (p : Slot)
  | wait (p : Slot)
  deriving DecidableEq

namespace Kernel

def set (s : Kernel) (q : Slot) (x : Proc) : Kernel := { s with proc := Function.update s.proc q x }

def allocproc (s : Kernel) : Kernel × Option Slot :=
  match (List.finRange NPROC).find? fun p => (s.proc p).state = .unused with
  | none => (s, none)
  | some p =>
    let found := { s.set p { s.proc p with state := .embryo, pid := s.nextpid } with nextpid := s.nextpid + 1 }
    match kalloc found.freelist with
    -- the pid is used up
    | none => (found.set p { found.proc p with kstack := none, state := .unused }, none)
    | some (kstack, rest) =>
      let stacked := { found.set p { found.proc p with kstack := some kstack } with freelist := rest }
      match kalloc stacked.freelist with
      -- the slot stays EMBRYO and the stack is not given back
      | none => (stacked.set p { stacked.proc p with oldtf := none }, none)
      | some (oldtf, rest) =>
        ({ stacked.set p { stacked.proc p with oldtf := some oldtf } with freelist := rest }, some p)

def fork (s : Kernel) (p : Slot) : Option (Kernel × Int) :=
  match s.allocproc with
  | (s, none) => some (s, -1)
  | (s, some np) =>
    -- a caller without a page directory does not occur: such a call has no outcome
    (s.proc p).pgdir.bind fun pgdir =>
      match copyuvm s.freelist pgdir (s.proc p).sz with
      | .error _ => none
      | .ok (freelist, none) =>
        (s.proc np).kstack.map fun kstack =>
          -- oldtf is not given back
          ({ s.set np { s.proc np with pgdir := none, kstack := none, state := .unused } with
            freelist := kfree freelist kstack }, -1)
      | .ok (freelist, some d) =>
        -- the trap frame is copied here, the page oldtf is not
        some
          ({ s.set np { s.proc np with pgdir := some d, sz := (s.proc p).sz, parent := some p, state := .runnable } with
            freelist },
          (s.proc np).pid)

def exit (s : Kernel) (p : Slot) : Option Kernel :=
  if p = initproc then none
  else
    let passed :=
      { s with
        proc := fun q => if (s.proc q).parent = some p then { s.proc q with parent := some initproc } else s.proc q }
    some (passed.set p { passed.proc p with state := .zombie })

/-- `wait` when a child has exited; without one the call does not come back with a child. -/
def wait (s : Kernel) (p : Slot) : Option (Kernel × Int) :=
  ((List.finRange NPROC).find? fun q => (s.proc q).parent = some p ∧ (s.proc q).state = .zombie).bind fun q =>
    (s.proc q).kstack.bind fun kstack =>
      (s.proc q).pgdir.map fun pgdir =>
        -- oldtf is neither freed nor forgotten
        ({ s.set q { s.proc q with kstack := none, pid := 0, parent := none, state := .unused } with
          freelist := freevm (kfree s.freelist kstack) pgdir },
        (s.proc q).pid)

/-- A table of zeros over the pages that `kinit1` and `kinit2` put on the free list and the
rest of the kernel has left there. -/
def boot (pool : List Page) : Kernel where
  proc _ := { sz := 0, pgdir := none, kstack := none, state := .unused, pid := 0, parent := none, oldtf := none }
  freelist := pool
  nextpid := 1

/-- `userinit`; with too little memory for it there is no first process. -/
def userinit (pool : List Page) : Option Kernel :=
  match (boot pool).allocproc with
  | (_, none) => none
  | (s, some p) =>
    match setupkvm s.freelist with
    | (_, none) => none
    | (freelist, some pgdir) =>
      match inituvm freelist pgdir with
      | .ok (some (freelist, pgdir)) =>
        some { s.set p { s.proc p with pgdir := some pgdir, sz := PGSIZE, state := .runnable } with freelist }
      | _ => none

end Kernel

def step : Machine Kernel Call
  | s, .fork p =>
    if (s.proc p).state = .runnable then
      (s.fork p).bind fun (t, pid) => if pid = -1 then none else some t
    else none
  | s, .exit p => if (s.proc p).state = .runnable then s.exit p else none
  | s, .wait p => if (s.proc p).state = .runnable then (s.wait p).map fun (t, _) => t else none

end OsLabs.Lifecycle
