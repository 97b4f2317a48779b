import Mathlib
import OsLabs.Lib.Monitor
import OsLabs.Lib.Ring

/-! pipe.c: a buffer of 512 bytes under a spinlock, whose readers and writers sleep on the
addresses of its two counters. -/

set_option autoImplicit false

namespace OsLabs.KernelPipe

open OsLabs.Lib OsLabs.Lib.Monitor

variable {Pid : Type*}

scoped instance neZeroPipesize : NeZero 512 := ⟨by decide⟩

inductive Chan where
  | nread
  | nwrite
  deriving DecidableEq

/-- The variables of a `pipewrite`: whose call it is, the bytes at `addr`, and `i`. -/
structure Writing (Pid : Type*) where
  writer : Pid
  addr : List UInt8
  i : Nat
  deriving DecidableEq

def Writing.sent (w : Writing Pid) : List UInt8 := w.addr.take w.i

/-- `struct pipe`, and a history: the bytes stored in it with their writers, the bytes taken
out of it, what each `piperead` was left with and whose it was, and where each `pipewrite`
ended. -/
structure Pipe (Pid : Type*) where
  data : Fin 512 → UInt8
  nread : BitVec 32
  nwrite : BitVec 32
  readopen : Bool
  writeopen : Bool
  stored : List (Pid × UInt8)
  taken : List UInt8
  returned : List (Pid × List UInt8)
  written : List (Writing Pid)

namespace Pipe

def full (d : Pipe Pid) : Bool := d.nwrite == d.nread + 512

def empty (d : Pipe Pid) : Bool := d.nread == d.nwrite

def store (d : Pipe Pid) (writer : Pid) (b : UInt8) : Pipe Pid :=
  { d with
    data := Function.update d.data (Fin.ofNat 512 d.nwrite.toNat) b
    nwrite := d.nwrite + 1
    stored := d.stored ++ [(writer, b)] }

def front (d : Pipe Pid) : UInt8 := d.data (Fin.ofNat 512 d.nread.toNat)

def take (d : Pipe Pid) : Pipe Pid := { d with nread := d.nread + 1, taken := d.taken ++ [d.front] }

def finish (d : Pipe Pid) (reader : Pid) (got : List UInt8) : Pipe Pid :=
  { d with returned := d.returned ++ [(reader, got)] }

def wrote (d : Pipe Pid) (w : Writing Pid) : Pipe Pid := { d with written := d.written ++ [w] }

def close (d : Pipe Pid) (writable : Bool) : Pipe Pid :=
  if writable then { d with writeopen := false } else { d with readopen := false }

end Pipe

/-- Outside the three functions, with what the last one returned; -1 is `refused`. -/
inductive Out where
  | idle
  | wrote (addr : List UInt8) (n : Nat)
  | got (n : Nat) (bytes : List UInt8)
  | refused
  deriving DecidableEq

/-- How many tests of `killed` a process passes before the one that finds it set. -/
abbrev Patience := Option Nat

inductive In (Pid : Type*) where
  -- pipewrite: the two loops, with whether the call stored any byte since it took the lock;
  -- then the wakeup before the sleep, the sleep, and the two ends
  | writeTest (w : Writing Pid) (patience : Patience) (fresh : Bool)
  | writeFull (w : Writing Pid) (patience : Patience)
  | writeSleep (w : Writing Pid) (patience : Patience)
  | writeWake (addr : List UInt8)
  | writeDone (addr : List UInt8)
  | writeFail
  -- piperead
  | readTest (reader : Pid) (n : Nat) (patience : Patience)
  | readCopy (reader : Pid) (n : Nat) (got : List UInt8)
  | readWake (n : Nat) (got : List UInt8)
  | readDone (n : Nat) (got : List UInt8)
  | readFail
  -- pipeclose
  | closeFlag (writable : Bool)
  | closeWake (writable : Bool)
  | closeDone
  deriving DecidableEq

/-- A call; when `kill` reaches its process is part of it. -/
inductive Call where
  | write (addr : List UInt8) (patience : Patience)
  | read (n : Nat) (patience : Patience)
  | close (writable : Bool)

def enter (_ : Out) : Pid × Call → Option (Entry Out (In Pid))
  | (writer, .write addr patience) => some (.lock (.writeTest { writer, addr, i := 0 } patience false))
  | (reader, .read n patience) => some (.lock (.readTest reader n patience))
  | (_, .close writable) => some (.lock (.closeFlag writable))

def deed (d : Pipe Pid) : In Pid → Deed (Pipe Pid) Chan Out (In Pid)
  | .writeTest w patience _ =>
    match w.addr[w.i]? with
    | none => .set (d.wrote w) (.writeWake w.addr)
    | some b =>
      if d.full then
        if d.readopen = false ∨ patience = some 0 then .set (d.wrote w) .writeFail
        else .set d (.writeFull w (patience.map Nat.pred))
      else .set (d.store w.writer b) (.writeTest { w with i := w.i + 1 } patience true)
  | .writeFull w patience => .broadcast .nread (.writeSleep w patience)
  | .writeSleep w patience => .wait .nwrite (.writeTest w patience false)
  | .writeWake addr => .broadcast .nread (.writeDone addr)
  | .writeDone addr => .unlock (.wrote addr addr.length)
  | .writeFail => .unlock .refused
  | .readTest reader n patience =>
    if d.empty ∧ d.writeopen then
      if patience = some 0 then .set d .readFail else .wait .nread (.readTest reader n (patience.map Nat.pred))
    else .set d (.readCopy reader n [])
  | .readCopy reader n got =>
    if got.length = n ∨ d.empty then .set (d.finish reader got) (.readWake n got)
    else .set d.take (.readCopy reader n (got ++ [d.front]))
  | .readWake n got => .broadcast .nwrite (.readDone n got)
  | .readDone n got => .unlock (.got n got)
  | .readFail => .unlock .refused
  | .closeFlag writable => .set (d.close writable) (.closeWake writable)
  | .closeWake writable => .broadcast (if writable then .nread else .nwrite) .closeDone
  | .closeDone => .unlock .idle

def pipe : Program (Pipe Pid) Chan Out (In Pid) (Pid × Call) where
  enter := enter
  deed := deed

abbrev State (Pid : Type*) := Monitor.State Pid (Pipe Pid) Chan Out (In Pid)

abbrev Point (Pid : Type*) := Place Chan Out (In Pid)

def step [DecidableEq Pid] : Machine (State Pid) (Pid × Turn Call) :=
  fun s (p, turn) => Threads.step (act pipe) s (p, turn.map (p, ·))

def pipealloc (data : Fin 512 → UInt8) : State Pid where
  shared :=
    { locked := false
      data :=
        { data, nread := 0, nwrite := 0, readopen := true, writeopen := true, stored := [], taken := []
          returned := [], written := [] } }
  points _ := .out .idle

end OsLabs.KernelPipe
