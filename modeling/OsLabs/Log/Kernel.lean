import Mathlib
import OsLabs.Lib.Machine
import OsLabs.Log.Cache

/-! log.c: system calls of the file system group their writes in a log, over the buffer cache.
One step is a call of a function of log.c or bio.c, or one turn of a loop that writes a block
to the disk; its buffers are locked as long as it lasts. The machine may crash before any step. -/

set_option autoImplicit false

namespace OsLabs.Log

open OsLabs.Lib

scoped instance neZeroBlock : NeZero 128 := ⟨by decide⟩

scoped instance neZeroNbuf : NeZero 30 := ⟨by decide⟩

abbrev MAXOPBLOCKS : Nat := 10

abbrev LOGSIZE : Nat := MAXOPBLOCKS * 3

/-- The block numbers of the `struct logheader` at the head of a block; more than `LOGSIZE` of
them do not fit the one in memory. -/
def LogHeader.read (d : Data) : Option (List Nat) :=
  if (LOGSIZE : Int) < (d (Fin.ofNat 128 0)).toInt then none
  else some ((List.range (d (Fin.ofNat 128 0)).toInt.toNat).map fun i => (d (Fin.ofNat 128 (i + 1))).toNat)

def LogHeader.write (lh : List Nat) (d : Data) : Data := fun w =>
  if w.val = 0 then BitVec.ofNat 32 lh.length
  else if w.val - 1 < lh.length then BitVec.ofNat 32 (lh.getD (w.val - 1) 0)
  else d w

/-- Where `commit` is, or `recover_from_log` at the start of the kernel. -/
inductive Stage where
  | boot
  | idle
  | writeLog (tail : Nat)
  | installTrans (tail : Nat)
  | finish
  deriving DecidableEq

inductive Proc where
  | outside
  | sleeping
  | woken
  | running
  | committing
  deriving DecidableEq

/-- The buffer cache and the disk, and `log` with `lh.block` up to `lh.n`; `up` once `initlog`
has returned. -/
structure Kernel (Pid : Type*) where
  store : Store Pid
  start : Nat
  size : Nat
  outstanding : Int
  committing : Bool
  lh : List Nat
  stage : Stage
  up : Bool
  procs : Pid → Proc

/-- `go` is the next step of `commit`, or of the recovery. -/
inductive Event (Pid : Type*) where
  | beginOp (p : Pid)
  | bget (p : Pid) (blockno : Nat)
  | fill (p : Pid) (i : Slot)
  | logWrite (p : Pid) (i : Slot) (data : Data)
  | brelse (p : Pid) (i : Slot)
  | endOp (p : Pid)
  | go (p : Pid)
  | crash

namespace Store

variable {Pid : Type*}

def copy (s : Store Pid) (src dst : Slot) : Option (Store Pid) :=
  ((s.put dst { s.buf dst with data := (s.buf src).data }).bwrite dst).bind fun t =>
    (t.brelse src).bind fun u => u.brelse dst

end Store

namespace Kernel

variable {Pid : Type*} [DecidableEq Pid]

/-- What is in memory when the kernel starts over a disk; the superblock says where the log is. -/
def powerOn (start size : Nat) (disk : Nat → Data) : Kernel Pid where
  store := .binit disk
  start
  size
  outstanding := 0
  committing := false
  lh := []
  stage := .boot
  up := false
  procs _ := .outside

def readHead (k : Kernel Pid) (p : Pid) : Option (Kernel Pid) :=
  (k.store.bread ROOTDEV k.start p).bind fun found =>
    (LogHeader.read (found.2.buf found.1).data).bind fun lh => (found.2.brelse found.1).map fun store =>
    { k with store, lh }

def writeHead (k : Kernel Pid) (p : Pid) : Option (Kernel Pid) :=
  (k.store.bread ROOTDEV k.start p).bind fun found =>
    ((found.2.put found.1 { found.2.buf found.1 with data := LogHeader.write k.lh (found.2.buf found.1).data }).bwrite
      found.1).bind fun t => (t.brelse found.1).map fun store => { k with store }

def writeLogBlock (k : Kernel Pid) (p : Pid) (tail blockno : Nat) : Option (Kernel Pid) :=
  (k.store.bread ROOTDEV (k.start + tail + 1) p).bind fun dst =>
    (dst.2.bread ROOTDEV blockno p).bind fun src => (src.2.copy src.1 dst.1).map fun store => { k with store }

def installBlock (k : Kernel Pid) (p : Pid) (tail blockno : Nat) : Option (Kernel Pid) :=
  (k.store.bread ROOTDEV (k.start + tail + 1) p).bind fun src =>
    (src.2.bread ROOTDEV blockno p).bind fun dst => (dst.2.copy src.1 dst.1).map fun store => { k with store }

def wakeup (k : Kernel Pid) : Kernel Pid :=
  { k with procs := fun p => if k.procs p = .sleeping then .woken else k.procs p }

def setProc (k : Kernel Pid) (p : Pid) (x : Proc) : Kernel Pid := { k with procs := Function.update k.procs p x }

def full (k : Kernel Pid) : Bool :=
  k.committing || decide ((LOGSIZE : Int) < k.lh.length + (k.outstanding + 1) * MAXOPBLOCKS)

def beginOp (k : Kernel Pid) (p : Pid) : Kernel Pid :=
  if k.full then k.setProc p .sleeping else { k.setProc p .running with outstanding := k.outstanding + 1 }

/-- `end_op` up to the call of `commit`, which writes nothing when nothing was logged. -/
def endOp (k : Kernel Pid) (p : Pid) : Option (Kernel Pid) :=
  if k.committing then none
  else if k.outstanding - 1 = 0 then
    some { k.setProc p .committing with
      outstanding := 0, committing := true, stage := if k.lh = [] then .finish else .writeLog 0 }
  else some { (k.setProc p .outside).wakeup with outstanding := k.outstanding - 1 }

/-- A change of a locked buffer and the `log_write` its caller makes before `brelse`. -/
def logWrite (k : Kernel Pid) (i : Slot) (data : Data) : Option (Kernel Pid) :=
  if LOGSIZE ≤ k.lh.length ∨ (k.size : Int) - 1 ≤ k.lh.length then none
  else if k.outstanding < 1 then none
  else some { k with
    store := k.store.put i { k.store.buf i with data, dirty := true }
    lh := if (k.store.buf i).blockno ∈ k.lh then k.lh else k.lh ++ [(k.store.buf i).blockno] }

/-- The next step of `commit` and of the end of `end_op`; `recover_from_log` shares its second half. -/
def go (k : Kernel Pid) (p : Pid) : Option (Kernel Pid) :=
  match k.stage with
  | .boot => (k.readHead p).map fun k => { k with stage := .installTrans 0 }
  | .idle => none
  | .writeLog tail =>
    match k.lh[tail]? with
    | some blockno => (k.writeLogBlock p tail blockno).map fun k => { k with stage := .writeLog (tail + 1) }
    | none => (k.writeHead p).map fun k => { k with stage := .installTrans 0 }
  | .installTrans tail =>
    match k.lh[tail]? with
    | some blockno => (k.installBlock p tail blockno).map fun k => { k with stage := .installTrans (tail + 1) }
    | none => (({ k with lh := [] } : Kernel Pid).writeHead p).map fun k => { k with stage := .finish }
  | .finish => some { (k.setProc p .outside).wakeup with committing := false, stage := .idle, up := true }

/-- A block outside the log, which takes `size` blocks from `start` on. -/
def Home (k : Kernel Pid) (b : Nat) : Prop := ¬(k.start ≤ b ∧ b < k.start + k.size)

instance (k : Kernel Pid) (b : Nat) : Decidable (k.Home b) := inferInstanceAs (Decidable ¬_)

def Free (k : Kernel Pid) (p : Pid) : Prop :=
  k.up = true ∧ (k.procs p = .outside ∨ k.procs p = .running) ∧ ∀ i, p ∉ (k.store.buf i).waiters

instance (k : Kernel Pid) (p : Pid) : Decidable (k.Free p) := inferInstanceAs (Decidable (_ ∧ _ ∧ _))

/-- The file system calls `log_write` inside an operation, for a block of its own that it has
locked, and ends an operation without a lock. -/
def step : Machine (Kernel Pid) (Event Pid) := fun k e =>
  match e with
  | .beginOp p =>
    if k.up ∧ (k.procs p = .outside ∨ k.procs p = .woken) ∧ ∀ i, p ∉ (k.store.buf i).waiters then some
    (k.beginOp p) else none
  | .bget p b => if k.Free p then (k.store.bget ROOTDEV b p).map fun found => { k with store := found.2 } else none
  | .fill p i => if k.up then (k.store.fill i p).map fun store => { k with store } else none
  | .logWrite p i data =>
    if k.Free p ∧ k.procs p = .running ∧ (k.store.buf i).holder = some p ∧
    k.Home (k.store.buf i).blockno then k.logWrite i data
    else none
  | .brelse p i =>
    if k.Free p ∧ (k.store.buf i).holder = some p then (k.store.brelse i).map fun store => { k with store } else none
  | .endOp p => if k.Free p ∧ k.procs p = .running ∧ ∀ i, (k.store.buf i).holder ≠ some p then k.endOp p else none
  | .go p => if k.up = true → k.procs p = .committing then k.go p else none
  | .crash => some (powerOn k.start k.size k.store.disk)

end Kernel

end OsLabs.Log
