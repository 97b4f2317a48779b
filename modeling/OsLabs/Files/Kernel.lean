import Mathlib.Data.Fintype.Fin
import Mathlib.Logic.Function.Basic
import OsLabs.Lib.Machine

/-! file.c, and the calls of sysfile.c, pipe.c and proc.c that take and drop references to files:
processes interleave wherever they hold no lock, each with its own table of descriptors. -/

set_option autoImplicit false

namespace OsLabs.Files

open OsLabs.Lib

abbrev NFILE : Nat := 100

abbrev NOFILE : Nat := 16

abbrev O_RDONLY : Nat := 0x000

abbrev O_WRONLY : Nat := 0x001

abbrev O_RDWR : Nat := 0x002

abbrev O_CREATE : Nat := 0x200

abbrev FileId := Fin NFILE

variable (Pid Pipe Inode : Type)

inductive FileType where
  | none
  | pipe (q : Pipe)
  | inode (i : Inode)
  deriving DecidableEq

/-- `struct file` but for `off`. -/
structure File where
  ref : Nat
  type : FileType Pipe Inode
  readable : Bool
  writable : Bool

/-- A reference that the call a process is in has still to drop. -/
inductive Drop where
  | fileclose (f : FileId)
  | pipeclose (q : Pipe) (writable : Bool)
  | iput (i : Inode)
  deriving DecidableEq

/-- Where a process is once it has dropped what it has to drop. -/
inductive Point where
  | user
  /-- `sys_dup` behind `fdalloc` -/
  | filedup (f : FileId)
  /-- `sys_open` before `filealloc`, before `fdalloc` and before the assignments to `f` -/
  | openFile (i : Inode) (omode : Nat)
  | openFd (i : Inode) (omode : Nat) (f : FileId)
  | openSet (i : Inode) (omode : Nat) (f : FileId)
  /-- `pipealloc` before its calls of `filealloc` and of `kalloc`, and `sys_pipe` before those of `fdalloc` -/
  | pipeFile0
  | pipeFile1 (f0 : FileId)
  | pipePage (f0 f1 : FileId)
  | pipeFd0 (rf wf : FileId)
  | pipeFd1 (fd0 : Fin NOFILE) (rf wf : FileId)
  /-- `fork` before descriptor `i` -/
  | fork (np : Pid) (i : Nat)
  /-- `exit` before descriptor `fd`, and behind its `fileclose` -/
  | exit (fd : Nat)
  | exitClear (fd : Fin NOFILE)
  /-- `piperead` or `pipewrite` on the pipe of `f` -/
  | inPipe (f : FileId) (q : Pipe) (writable : Bool)
  | chdir (i : Inode)
  deriving DecidableEq

inductive ProcState where
  | unused | embryo | runnable | zombie
  deriving DecidableEq

structure Proc where
  state : ProcState
  ofile : Fin NOFILE → Option FileId
  cwd : Option Inode
  drops : List (Drop Pipe Inode)
  point : Point Pid Pipe Inode

structure Kernel where
  file : FileId → File Pipe Inode
  /-- `readopen` and `writeopen` of the pipes there are -/
  pipe : Pipe → Option (Bool × Bool)
  /-- `ip->ref` -/
  iref : Inode → Nat
  proc : Pid → Proc Pid Pipe Inode
  panicked : Bool

inductive InodeType where
  | T_DIR | T_FILE | T_DEV
  deriving DecidableEq

/-- The calls of a process; a path stands for the inode it leads to, which comes with its type. -/
inductive Call where
  | dup (fd : Fin NOFILE)
  | close (fd : Fin NOFILE)
  | open (i : Inode) (omode : Nat) (type : InodeType)
  | pipe
  | read (fd : Fin NOFILE)
  | write (fd : Fin NOFILE)
  | chdir (i : Inode) (type : InodeType)
  | fork (np : Pid)
  | exit
  | wait (p : Pid)
  /-- the next step of the call it is in, with what `kalloc` gives -/
  | go (page : Option Pipe)
  deriving DecidableEq

variable {Pid Pipe Inode} [DecidableEq Pid] [DecidableEq Pipe] [DecidableEq Inode]

namespace Kernel

def setFile (s : Kernel Pid Pipe Inode) (f : FileId) (x : File Pipe Inode) : Kernel Pid Pipe Inode :=
  { s with file := Function.update s.file f x }

def setProc (s : Kernel Pid Pipe Inode) (p : Pid) (x : Proc Pid Pipe Inode) : Kernel Pid Pipe Inode :=
  { s with proc := Function.update s.proc p x }

def setPipe (s : Kernel Pid Pipe Inode) (q : Pipe) (x : Option (Bool × Bool)) : Kernel Pid Pipe Inode :=
  { s with pipe := Function.update s.pipe q x }

def setRef (s : Kernel Pid Pipe Inode) (i : Inode) (n : Nat) : Kernel Pid Pipe Inode :=
  { s with iref := Function.update s.iref i n }

def panic (s : Kernel Pid Pipe Inode) : Kernel Pid Pipe Inode := { s with panicked := true }

def filealloc (s : Kernel Pid Pipe Inode) : Option FileId := (List.finRange NFILE).find? fun f => (s.file f).ref = 0

def take (s : Kernel Pid Pipe Inode) (f : FileId) : Kernel Pid Pipe Inode := s.setFile f { s.file f with ref := 1 }

def fdalloc (ofile : Fin NOFILE → Option FileId) : Option (Fin NOFILE) :=
  (List.finRange NOFILE).find? fun fd => ofile fd = none

end Kernel

open Kernel

section Steps

variable (s : Kernel Pid Pipe Inode) (p : Pid)

def FileType.drops (writable : Bool) : FileType Pipe Inode → List (Drop Pipe Inode)
  | .none => []
  | .pipe q => [.pipeclose q writable]
  | .inode i => [.iput i]

/-- `fileclose`, `pipeclose` and `iput`, as far as they go under a lock. -/
def drop (rest : List (Drop Pipe Inode)) : Drop Pipe Inode → Kernel Pid Pipe Inode
  | .fileclose f =>
    let x := s.file f
    if x.ref < 1 then s.panic
    else if x.ref - 1 > 0 then (s.setFile f { x with ref := x.ref - 1 }).setProc p { s.proc p with drops := rest }
    else
      (s.setFile f { x with ref := 0, type := .none }).setProc p
        { s.proc p with drops := x.type.drops x.writable ++ rest }
  | .pipeclose q writable =>
    let ends := (s.pipe q).getD (false, false)
    let ends := if writable then (ends.1, false) else (false, ends.2)
    -- kfree with both ends closed
    (s.setPipe q (if ends = (false, false) then none else some ends)).setProc p { s.proc p with drops := rest }
  | .iput i => (s.setRef i (s.iref i - 1)).setProc p { s.proc p with drops := rest }

def argfd (fd : Fin NOFILE) (call : FileId → Kernel Pid Pipe Inode) : Kernel Pid Pipe Inode :=
  match (s.proc p).ofile fd with
  | none => s
  | some f => call f

/-- `fileread` and `filewrite`, where the access to an inode has no step of its own. -/
def access (f : FileId) (writable : Bool) : Kernel Pid Pipe Inode :=
  let x := s.file f
  if (if writable then x.writable else x.readable) = false then s
  else match x.type with
    | .pipe q => s.setProc p { s.proc p with point := .inPipe f q writable }
    | .inode _ => s
    | .none => s.panic

/-- `sys_open` gives up on the inode of its path: `create` takes files only, and a directory is
not opened for writing. -/
def refuses (omode : Nat) (type : InodeType) : Prop :=
  if omode &&& O_CREATE ≠ 0 then type ≠ .T_FILE else type = .T_DIR ∧ omode ≠ O_RDONLY

instance (omode : Nat) (type : InodeType) : Decidable (refuses omode type) :=
  inferInstanceAs (Decidable (if omode &&& O_CREATE ≠ 0 then type ≠ .T_FILE else type = .T_DIR ∧ omode ≠ O_RDONLY))

/-- A call as far as its first step goes; one that gives up on an inode has it to put back. -/
def enter : Call Pid Pipe Inode → Option (Kernel Pid Pipe Inode)
  | .dup fd => some <| argfd s p fd fun f =>
    match fdalloc (s.proc p).ofile with
    | none => s
    | some fd' =>
      s.setProc p { s.proc p with ofile := Function.update (s.proc p).ofile fd' (some f), point := .filedup f }
  | .close fd => some <| argfd s p fd fun f =>
    s.setProc p { s.proc p with ofile := Function.update (s.proc p).ofile fd none, drops := [.fileclose f] }
  | .open i omode type => some ((s.setRef i (s.iref i + 1)).setProc p
    (if refuses omode type then { s.proc p with drops := [.iput i] } else { s.proc p with point := .openFile i omode }))
  | .pipe => some (s.setProc p { s.proc p with point := .pipeFile0 })
  | .read fd => some (argfd s p fd fun f => access s p f false)
  | .write fd => some (argfd s p fd fun f => access s p f true)
  | .chdir i type => some ((s.setRef i (s.iref i + 1)).setProc p
    (if type ≠ .T_DIR then { s.proc p with drops := [.iput i] } else { s.proc p with point := .chdir i }))
  | .fork np =>
    if (s.proc np).state = .unused then
      some ((s.setProc np { s.proc np with state := .embryo }).setProc p { s.proc p with point := .fork np 0 })
    else none
  | .exit => some (s.setProc p { s.proc p with point := .exit 0 })
  | .wait q => if (s.proc q).state = .zombie then some (s.setProc q { s.proc q with state := .unused }) else none
  | .go _ => none

def advance (page : Option Pipe) : Point Pid Pipe Inode → Option (Kernel Pid Pipe Inode)
  | .user => none
  | .filedup f =>
    let x := s.file f
    if x.ref < 1 then some s.panic
    else some ((s.setFile f { x with ref := x.ref + 1 }).setProc p { s.proc p with point := .user })
  | .openFile i omode =>
    match s.filealloc with
    | none => some (s.setProc p { s.proc p with drops := [.iput i], point := .user })
    | some f => some ((s.take f).setProc p { s.proc p with point := .openFd i omode f })
  | .openFd i omode f =>
    match fdalloc (s.proc p).ofile with
    | none => some (s.setProc p { s.proc p with drops := [.fileclose f, .iput i], point := .user })
    | some fd =>
      some (s.setProc p
        { s.proc p with ofile := Function.update (s.proc p).ofile fd (some f), point := .openSet i omode f })
  | .openSet i omode f =>
    some ((s.setFile f
      { s.file f with
        type := .inode i
        readable := omode &&& O_WRONLY = 0
        writable := omode &&& O_WRONLY ≠ 0 || omode &&& O_RDWR ≠ 0 }).setProc p { s.proc p with point := .user })
  | .pipeFile0 =>
    match s.filealloc with
    | none => some (s.setProc p { s.proc p with point := .user })
    | some f => some ((s.take f).setProc p { s.proc p with point := .pipeFile1 f })
  | .pipeFile1 f0 =>
    match s.filealloc with
    | none => some (s.setProc p { s.proc p with drops := [.fileclose f0], point := .user })
    | some f => some ((s.take f).setProc p { s.proc p with point := .pipePage f0 f })
  | .pipePage f0 f1 =>
    match page with
    | none => some (s.setProc p { s.proc p with drops := [.fileclose f0, .fileclose f1], point := .user })
    | some q =>
      -- the page that kalloc gives is no pipe
      if s.pipe q = none then
        let t := s.setFile f0 { s.file f0 with type := .pipe q, readable := true, writable := false }
        let t := t.setFile f1 { t.file f1 with type := .pipe q, readable := false, writable := true }
        some ((t.setPipe q (some (true, true))).setProc p { s.proc p with point := .pipeFd0 f0 f1 })
      else none
  | .pipeFd0 rf wf =>
    match fdalloc (s.proc p).ofile with
    | none => some (s.setProc p { s.proc p with drops := [.fileclose rf, .fileclose wf], point := .user })
    | some fd =>
      some (s.setProc p
        { s.proc p with ofile := Function.update (s.proc p).ofile fd (some rf), point := .pipeFd1 fd rf wf })
  | .pipeFd1 fd0 rf wf =>
    match fdalloc (s.proc p).ofile with
    | none =>
      some (s.setProc p
        { s.proc p with
          ofile := Function.update (s.proc p).ofile fd0 none, drops := [.fileclose rf, .fileclose wf], point := .user })
    | some fd =>
      some (s.setProc p { s.proc p with ofile := Function.update (s.proc p).ofile fd (some wf), point := .user })
  | .fork np i =>
    if below : i < NOFILE then
      match (s.proc p).ofile ⟨i, below⟩ with
      | none => some (s.setProc p { s.proc p with point := .fork np (i + 1) })
      | some f =>
        let x := s.file f
        if x.ref < 1 then some s.panic
        else
          let t := s.setFile f { x with ref := x.ref + 1 }
          let t := t.setProc np
            { s.proc np with ofile := Function.update (s.proc np).ofile ⟨i, below⟩ (some f) }
          some (t.setProc p { s.proc p with point := .fork np (i + 1) })
    else
      -- idup of the working directory
      match (s.proc p).cwd with
      | none => none
      | some c =>
        let t := (s.setRef c (s.iref c + 1)).setProc np { s.proc np with cwd := some c, state := .runnable }
        some (t.setProc p { s.proc p with point := .user })
  | .exit fd =>
    if below : fd < NOFILE then
      match (s.proc p).ofile ⟨fd, below⟩ with
      | none => some (s.setProc p { s.proc p with point := .exit (fd + 1) })
      | some f => some (s.setProc p { s.proc p with drops := [.fileclose f], point := .exitClear ⟨fd, below⟩ })
    else
      match (s.proc p).cwd with
      | none => none
      | some c =>
        some ((s.setRef c (s.iref c - 1)).setProc p { s.proc p with cwd := none, state := .zombie, point := .user })
  | .exitClear fd =>
    some (s.setProc p
      { s.proc p with ofile := Function.update (s.proc p).ofile fd none, point := .exit (fd.val + 1) })
  | .inPipe _ _ _ => some (s.setProc p { s.proc p with point := .user })
  | .chdir i =>
    match (s.proc p).cwd with
    | none => none
    | some c => some ((s.setRef c (s.iref c - 1)).setProc p { s.proc p with cwd := some i, point := .user })

end Steps

def step : Machine (Kernel Pid Pipe Inode) (Pid × Call Pid Pipe Inode)
  | s, (p, call) =>
    if s.panicked || (s.proc p).state != .runnable then none
    else
      match (s.proc p).drops, call with
      | d :: rest, .go _ => some (drop s p rest d)
      | _ :: _, _ => none
      | [], .go page => advance s p page (s.proc p).point
      | [], call => if (s.proc p).point = .user then enter s p call else none

def userinit (initproc : Pid) (root : Inode) : Kernel Pid Pipe Inode where
  file _ := { ref := 0, type := .none, readable := false, writable := false }
  pipe _ := none
  iref i := if i = root then 1 else 0
  proc p :=
    { state := if p = initproc then .runnable else .unused, ofile := fun _ => none,
      cwd := if p = initproc then some root else none, drops := [], point := .user }
  panicked := false

end OsLabs.Files
