import OsLabs.Lib.Machine
import OsLabs.Lib.Ring

/-! console.c: the line that is typed is edited in a ring of 128 characters, and processes read the
lines that are complete. A step is one turn of the loop of `consoleintr`, or `consoleread` as far as
it goes under the lock. -/

set_option autoImplicit false

namespace OsLabs.Console

open OsLabs.Lib

scoped instance neZeroInputBuf : NeZero 128 := ⟨by decide⟩

abbrev INPUT_BUF : Nat := 128

/-- `C('D')`, `C('H')`, `'\n'`, `'\r'`, `C('P')`, `C('U')` and `'\x7f'`. -/
abbrev ctrlD : UInt8 := 4

abbrev ctrlH : UInt8 := 8

abbrev newline : UInt8 := 10

abbrev carriageReturn : UInt8 := 13

abbrev ctrlP : UInt8 := 16

abbrev ctrlU : UInt8 := 21

abbrev delete : UInt8 := 127

structure Input where
  buf : Fin 128 → UInt8
  r : BitVec 32
  w : BitVec 32
  e : BitVec 32

/-- Where `consoleread` stops: it returns with what it has got, or it sleeps with some still to get. -/
inductive Stop where
  | done (got : List UInt8)
  | sleep (left : Nat) (got : List UInt8)
  deriving DecidableEq

namespace Input

def char (s : Input) (i : BitVec 32) : UInt8 := s.buf (Fin.ofNat 128 i.toNat)

/-- `case C('U')`: the loop, with a bound on its turns. -/
def killLine : Nat → Input → Input
  | 0, s => s
  | n + 1, s => if s.e ≠ s.w ∧ s.char (s.e - 1) ≠ newline then killLine n { s with e := s.e - 1 } else s

/-- One turn of the loop of `consoleintr`, without what it shows. -/
def consoleintr (s : Input) (c : UInt8) : Input :=
  if c = ctrlP then s
  else if c = ctrlU then s.killLine (s.e - s.w).toNat
  else if c = ctrlH ∨ c = delete then if s.e ≠ s.w then { s with e := s.e - 1 } else s
  else if c ≠ 0 ∧ s.e - s.r < 128 then
    let c := if c = carriageReturn then newline else c
    let s := { s with buf := Function.update s.buf (Fin.ofNat 128 s.e.toNat) c, e := s.e + 1 }
    if c = newline ∨ c = ctrlD ∨ s.e = s.r + 128 then { s with w := s.e } else s
  else s

def consoleread (target : Nat) : Nat → List UInt8 → Input → Input × Stop
  | 0, got, s => (s, .done got)
  | n + 1, got, s =>
    if s.r = s.w then (s, .sleep (n + 1) got)
    else
      let c := s.char s.r
      let s := { s with r := s.r + 1 }
      if c = ctrlD then
        -- the ^D stays for the next call
        if n + 1 < target then ({ s with r := s.r - 1 }, .done got) else (s, .done got)
      else if c = newline then (s, .done (got ++ [c]))
      else consoleread target n (got ++ [c]) s

def start : Input := { buf := fun _ => 0, r := 0, w := 0, e := 0 }

end Input

structure Sleeper where
  target : Nat
  left : Nat
  got : List UInt8
  deriving DecidableEq

inductive Event (Pid : Type) where
  | key (c : UInt8)
  | read (p : Pid) (n : Nat)
  /-- the loop of a process that has slept, with `killed` as it finds it there -/
  | resume (p : Pid) (killed : Bool)

section System

variable {Pid : Type} [DecidableEq Pid] {S : Type}

/-- An input device with the calls on it and what the calls returned, -1 as `none`. -/
structure System (Pid S : Type) where
  input : S
  sleeper : Pid → Option Sleeper
  returned : List (Pid × Option (List UInt8))

namespace System

def settle (s : System Pid S) (p : Pid) (target : Nat) : S × Stop → System Pid S
  | (input, .done got) =>
    { input, sleeper := Function.update s.sleeper p none, returned := s.returned ++ [(p, some got)] }
  | (input, .sleep left got) =>
    { s with input, sleeper := Function.update s.sleeper p (some { target, left, got }) }

def step (key : S → UInt8 → S) (read : Nat → Nat → List UInt8 → S → S × Stop) (waits : S → Bool) :
    Machine (System Pid S) (Event Pid)
  | s, .key c => some { s with input := key s.input c }
  | s, .read p n =>
    match s.sleeper p with
    | none => some (s.settle p n (read n n [] s.input))
    | some _ => none
  | s, .resume p killed =>
    match s.sleeper p with
    | none => none
    | some x =>
      if killed ∧ waits s.input then
        some { s with sleeper := Function.update s.sleeper p none, returned := s.returned ++ [(p, none)] }
      else some (s.settle p x.target (read x.target x.left x.got s.input))

def boot (input : S) : System Pid S := { input, sleeper := fun _ => none, returned := [] }

end System

def console : Machine (System Pid Input) (Event Pid) :=
  System.step Input.consoleintr Input.consoleread fun s => s.r == s.w

end System

section Lines

/-- What the console is for: the lines that are complete, and the one that is edited. -/
structure Lines where
  complete : List UInt8
  edited : List UInt8

namespace Lines

/-- A key edits the last line; the line is complete with its newline or ^D, and when there is no room. -/
def key (s : Lines) (c : UInt8) : Lines :=
  if c = ctrlP then s
  else if c = ctrlU then { s with edited := [] }
  else if c = ctrlH ∨ c = delete then { s with edited := s.edited.dropLast }
  else if c ≠ 0 ∧ s.complete.length + s.edited.length < INPUT_BUF then
    let c := if c = carriageReturn then newline else c
    let edited := s.edited ++ [c]
    if c = newline ∨ c = ctrlD ∨ s.complete.length + edited.length = INPUT_BUF then
      { complete := s.complete ++ edited, edited := [] }
    else { s with edited }
  else s

/-- At most `n` characters of what is complete: up to a newline, or to a ^D, which the call takes only if
it has nothing else. -/
def take (target : Nat) : Nat → List UInt8 → List UInt8 → List UInt8 × Stop
  | 0, got, cs => (cs, .done got)
  | n + 1, got, [] => ([], .sleep (n + 1) got)
  | n + 1, got, c :: cs =>
    if c = ctrlD then if n + 1 < target then (c :: cs, .done got) else (cs, .done got)
    else if c = newline then (cs, .done (got ++ [c]))
    else take target n (got ++ [c]) cs

def read (target n : Nat) (got : List UInt8) (s : Lines) : Lines × Stop :=
  ({ s with complete := (take target n got s.complete).1 }, (take target n got s.complete).2)

end Lines

def lines {Pid : Type} [DecidableEq Pid] : Machine (System Pid Lines) (Event Pid) :=
  System.step Lines.key Lines.read fun s => s.complete.isEmpty

end Lines

end OsLabs.Console
