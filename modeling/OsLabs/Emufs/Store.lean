import OsLabs.Lib.Machine
import OsLabs.Emufs.Layout

/-! What emufs is for: a store of named files of four optional blocks, used through
handles. Its events are calls with the outcome a program sees; an outcome the store
does not allow is an event without a step. -/

set_option autoImplicit false

namespace OsLabs.Emufs

open OsLabs.Lib

structure Store where
  files : CString → Option (Fin 4 → Option Block)
  /-- The file and the offset of each open handle. -/
  handles : Nat → Option (CString × Nat)

inductive Event where
  | eopen (filename : CString) (handle : Option Nat)
  | eseek (handle : Nat) (offset : Nat)
  | ewrite (handle : Nat) (data : Nat → Block) (size : Nat) (success : Bool)
  | eread (handle : Nat) (size : Nat) (success : Bool)
  | eclose (handle : Nat)

namespace Store

def empty : Store := { files := fun _ => none, handles := fun _ => none }

def Readable (blocks : Fin 4 → Option Block) (start n : Nat) : Prop :=
  ∀ k < n, ∃ j : Fin 4, j.val = start + k ∧ (blocks j).isSome

instance (blocks : Fin 4 → Option Block) (start n : Nat) : Decidable (Readable blocks start n) :=
  inferInstanceAs (Decidable (∀ k < n, _))

def overwrite (blocks : Fin 4 → Option Block) (first past : Nat) (data : Nat → Block) : Fin 4 → Option Block :=
  fun k => if first ≤ k.val ∧ k.val < past then some (data (k.val - first)) else blocks k

def create (files : CString → Option (Fin 4 → Option Block)) (filename : CString) :
    CString → Option (Fin 4 → Option Block) :=
  if (files filename).isSome then files else Function.update files filename (some fun _ => none)

def move (s : Store) (h : Nat) (entry : Option (CString × Nat)) : Store :=
  { s with handles := Function.update s.handles h entry }

def step : Machine Store Event
  | s, .eopen _ none => some s
  | s, .eopen filename (some h) =>
    if (s.handles h).isSome then none
    else some ({ s with files := create s.files filename }.move h (some (filename, 0)))
  | s, .eseek h offset => (s.handles h).map fun (filename, _) => s.move h (some (filename, offset))
  | s, .ewrite h _ _ false => (s.handles h).map fun _ => s
  | s, .ewrite h data size true => do
    let (filename, o) ← s.handles h
    let blocks ← s.files filename
    if 2048 < o + size then none
    else
      let blocks := overwrite blocks (o / 512) ((o + size) / 512) data
      some ({ s with files := Function.update s.files filename (some blocks) }.move h (some (filename, o + size)))
  | s, .eread h size success => do
    let (filename, o) ← s.handles h
    let blocks ← s.files filename
    if success ≠ decide (Readable blocks (o / 512) (size / 512)) then none
    else if success then some (s.move h (some (filename, o + size)))
    else some s
  | s, .eclose h => (s.handles h).map fun _ => s.move h none

end Store

end OsLabs.Emufs
