import Mathlib.Data.Fintype.Fin
import Mathlib.Data.Fintype.Pi
import Mathlib.Data.Set.Insert
import Mathlib.Logic.Function.Basic

/-! bio.c: the buffer cache over the disk of ide.c, one `acquiresleep`, disk transfer or
`brelse` at a time. -/

set_option autoImplicit false

namespace OsLabs.Log

/-- `BSIZE` bytes as the `int`s the log header reads them as. -/
abbrev Data := Fin 128 → BitVec 32

abbrev Slot := Fin 30

def ROOTDEV : Nat := 1

def FSSIZE : Nat := 1000

/-- `struct buf`; of its sleep lock the holder and the processes in `acquiresleep`. -/
structure Buf (Pid : Type*) where
  valid : Bool
  dirty : Bool
  dev : Nat
  blockno : Nat
  holder : Option Pid
  waiters : List Pid
  refcnt : Nat
  data : Data

/-- The buffers, their list from the most recently used one, and the disk. -/
structure Store (Pid : Type*) where
  buf : Slot → Buf Pid
  order : List Slot
  disk : Nat → Data

namespace Store

variable {Pid : Type*} [DecidableEq Pid]

/-- The cache after `binit`, which links each buffer in before the last one. -/
def binit (disk : Nat → Data) : Store Pid where
  buf _ :=
    { valid := false, dirty := false, dev := 0, blockno := 0, holder := none, waiters := [], refcnt := 0
      data := fun _ => 0 }
  order := (List.finRange 30).reverse
  disk

def put (s : Store Pid) (i : Slot) (b : Buf Pid) : Store Pid := { s with buf := Function.update s.buf i b }

def cached (s : Store Pid) (dev blockno : Nat) : Option Slot :=
  s.order.find? fun i => (s.buf i).dev == dev && (s.buf i).blockno == blockno

/-- The least recently used buffer that nobody has and the log has not pinned. -/
def unused (s : Store Pid) : Option Slot :=
  s.order.reverse.find? fun i => (s.buf i).refcnt == 0 && !(s.buf i).dirty

/-- `bget` up to its `acquiresleep`; without a buffer it panics. -/
def bget (s : Store Pid) (dev blockno : Nat) (p : Pid) : Option (Slot × Store Pid) :=
  match s.cached dev blockno with
  | some i => some (i, s.put i { s.buf i with refcnt := (s.buf i).refcnt + 1, waiters := p :: (s.buf i).waiters })
  | none => s.unused.map fun i =>
    (i, s.put i { s.buf i with
      dev, blockno, valid := false, dirty := false, refcnt := 1, waiters := p :: (s.buf i).waiters })

/-- `acquiresleep(&b->lock)` where the lock is free; where it is not, the process sleeps. -/
def acquiresleep (s : Store Pid) (i : Slot) (p : Pid) : Option (Store Pid) :=
  if p ∈ (s.buf i).waiters ∧ (s.buf i).holder = none then
    some (s.put i { s.buf i with holder := some p, waiters := (s.buf i).waiters.erase p })
  else none

/-- `iderw` with the interrupt that ends it; `none` is one of its panics. -/
def iderw (s : Store Pid) (i : Slot) : Option (Store Pid) :=
  if (s.buf i).holder = none then none
  else if (s.buf i).valid ∧ ¬(s.buf i).dirty then none
  else if FSSIZE ≤ (s.buf i).blockno then none
  else if (s.buf i).dirty then
    some { s.put i { s.buf i with valid := true, dirty := false } with
      disk := Function.update s.disk (s.buf i).blockno (s.buf i).data }
  else some (s.put i { s.buf i with valid := true, data := s.disk (s.buf i).blockno })

def fill (s : Store Pid) (i : Slot) (p : Pid) : Option (Store Pid) :=
  (s.acquiresleep i p).bind fun t => if (t.buf i).valid then some t else t.iderw i

def bread (s : Store Pid) (dev blockno : Nat) (p : Pid) : Option (Slot × Store Pid) :=
  (s.bget dev blockno p).bind fun found => (found.2.fill found.1 p).map fun t => (found.1, t)

def bwrite (s : Store Pid) (i : Slot) : Option (Store Pid) :=
  if (s.buf i).holder = none then none else (s.put i { s.buf i with dirty := true }).iderw i

/-- `brelse`; a buffer nobody has goes to the head of the list. -/
def brelse (s : Store Pid) (i : Slot) : Option (Store Pid) :=
  if (s.buf i).holder = none then none
  else some { s.put i { s.buf i with holder := none, refcnt := (s.buf i).refcnt - 1 } with
    order := if (s.buf i).refcnt - 1 = 0 then i :: s.order.erase i else s.order }

end Store

end OsLabs.Log
