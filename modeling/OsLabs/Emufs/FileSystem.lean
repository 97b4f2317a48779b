import OsLabs.Lib.Machine
import OsLabs.Emufs.Device
import Mathlib.Data.Finset.Card
import Mathlib.Data.Fintype.Fin

/-! emufs.c: the file system calls on one mounted device.

Each call reads the superblock and the metadata afresh, changes its copies and
writes them back. What C leaves open enters as data: the clock, the contents of
fresh memory and the bytes behind a buffer. A call whose signed arithmetic
overflows, or whose block index leaves the metadata buffer, has no outcome
(`none`). -/

set_option autoImplicit false

namespace OsLabs.Emufs

open OsLabs.Lib
open Superblock Metadata

structure Env where
  /-- `time(2)`, as the eight bytes of a `time_t`. -/
  now : Nat
  /-- Contents of freshly allocated memory. -/
  heap : Nat → UInt8
  /-- The bytes that follow the buffer `dec` of `eread` in memory, up to the first NUL. -/
  beyond : List UInt8

def Env.garbage (env : Env) : Block := fun i => env.heap i.val

/-- `struct mount_t`, for a device whose descriptor is open. -/
structure Mount where
  deviceFd : Int
  fsNumber : Int

structure Fs where
  dev : Device
  mp : Mount

/-- `struct file_t`; its `mount_point` is the device the call is made on. -/
structure File where
  offset : Int
  inodeNumber : Inode

/-! ## File system helper functions -/

def encrypt (input : Block) : Block := fun i => ~~~input i

def decrypt (input : Block) : Block := fun i => ~~~input i

@[simp] theorem decrypt_encrypt (b : Block) : decrypt (encrypt b) = b := by
  funext i
  simp [decrypt, encrypt]

@[simp] theorem encrypt_decrypt (b : Block) : encrypt (decrypt b) = b := by
  funext i
  simp [decrypt, encrypt]

namespace Fs

def readSuperblock (env : Env) (fs : Fs) : Fs × Block :=
  let (dev, buf, _) := fs.dev.readblock fs.mp.deviceFd 0 env.garbage
  ({ fs with dev }, buf)

def writeSuperblock (fs : Fs) (sb : Block) : Fs × Int :=
  let (dev, ret) := fs.dev.writeblock fs.mp.deviceFd 0 sb
  ({ fs with dev }, ret)

def toDevice (fs : Fs) (b : Block) : Block := if fs.mp.fsNumber = 1 then encrypt b else b

def fromDevice (fs : Fs) (b : Block) : Block := if fs.mp.fsNumber = 1 then decrypt b else b

@[simp] theorem fromDevice_toDevice (fs : Fs) (b : Block) : fs.fromDevice (fs.toDevice b) = b := by
  unfold fromDevice toDevice
  split <;> simp

@[simp] theorem toDevice_fromDevice (fs : Fs) (b : Block) : fs.toDevice (fs.fromDevice b) = b := by
  unfold fromDevice toDevice
  split <;> simp

def readMetadata (env : Env) (fs : Fs) : Fs × Block :=
  let (dev, buf, _) := fs.dev.readblock fs.mp.deviceFd 1 env.garbage
  ({ fs with dev }, fs.fromDevice buf)

def writeMetadata (fs : Fs) (md : Block) : Fs × Int :=
  let (dev, ret) := fs.dev.writeblock fs.mp.deviceFd 1 (fs.toDevice md)
  ({ fs with dev }, ret)

/-! ## File system API -/

/-- The superblock `create_file_system` writes: two bitmap loops over the one it read. -/
def formattedSuperblock (sb : Block) (fsNumber : Int) : Block :=
  let sb := setFsNumber sb fsNumber
  let sb := setBitmap (setBitmap sb 0 allocated) 1 allocated
  -- the second loop goes on where the first one left its counter
  let past := max 2 (diskSize sb).toNat
  fillBitmap (fillBitmap sb 2 past free) past 42 notExisting

/-- The metadata it writes: uninitialised memory with every status cleared. -/
def formattedMetadata (garbage : Block) : Block :=
  (List.range 10).foldl (fun md i => setStatus md i 0) garbage

def createFileSystem (env : Env) (fs : Fs) (fsNumber : Int) : Fs × Int :=
  let (fs, sb) := fs.readSuperblock env
  let sb := formattedSuperblock sb fsNumber
  let fs := { fs with mp := { fs.mp with fsNumber } }
  let md := formattedMetadata env.garbage
  let (fs, ret) := fs.writeSuperblock sb
  if ret = -1 then (fs, -1)
  else
    let (fs, ret) := fs.writeMetadata md
    if ret = -1 then (fs, -1) else (fs, 1)

def lookup (md : Block) (filename : CString) : Option Inode :=
  Fin.find? fun i => decide (status md i.val = 1 ∧ name md i.val = filename)

def unused (md : Block) : Option Inode := Fin.find? fun i => decide (status md i.val = 0)

def newInode (env : Env) (md : Block) (i : Inode) (filename : CString) : Block :=
  let md := setFileSize (setStatus md i 1) i 0
  let md := (List.range 4).foldl (fun md (k : Nat) => setBlock md i k (-1)) md
  setName (setModtime md i env.now) i filename

@[irreducible] def findInode (env : Env) (md : Block) (filename : CString) : Option (Inode × Block) :=
  match lookup md filename with
  | some i => some (i, md)
  | none => (unused md).map fun i => (i, newInode env md i filename)

/-- A `NULL` handle is `none`. -/
def eopen (env : Env) (fs : Fs) (filename : CString) : Fs × Option File :=
  let (fs, md) := fs.readMetadata env
  match findInode env md filename with
  | none => (fs, none)
  | some (i, md) =>
    -- written back also when the file was found and nothing has changed
    let (fs, ret) := fs.writeMetadata md
    if ret = -1 then (fs, none) else (fs, some { offset := 0, inodeNumber := i })

end Fs

def eseek (file : File) (offset : Int) : File := { file with offset }

abbrev InInt (v : Int) : Prop := -2 ^ 31 ≤ v ∧ v < 2 ^ 31

/-- `id->blocks[start .. start + n - 1]` lies inside the metadata buffer. -/
abbrev Accessible (i : Inode) (start n : Int) : Prop :=
  n ≤ 0 ∨ 0 ≤ slot i start ∧ slot i (start + n - 1) + 4 ≤ 512

def newBlocksRequired (md : Block) (i : Inode) (start : Int) (n : Nat) : Nat :=
  ((Finset.range n).filter fun k : Nat => blocks md i (start + k) = -1).card

def freeBlocks (sb : Block) : Finset Nat :=
  (Finset.Ico 2 (diskSize sb).toNat).filter fun b => bitmap sb b = free

def firstFree (sb : Block) : Option (Fin (diskSize sb).toNat) :=
  Fin.find? fun j => decide (2 ≤ j.val ∧ bitmap sb j.val = free)

def piece (data : Nat → UInt8) (k : Nat) : Block := fun a => data (512 * k + a.val)

namespace Fs

/-- Give `id->blocks[k]` a block if it has none: the first free one, if any. -/
def allocate (i : Inode) (k : Int) (sb md : Block) : Block × Block :=
  if blocks md i k = -1 then
    match firstFree sb with
    | some j => (setBitmap sb j allocated, setBlock md i k j.val)
    | none => (sb, md)
  else (sb, md)

structure Draft where
  fs : Fs
  sb : Block
  md : Block

def writeRound (i : Inode) (start : Int) (data : Nat → UInt8) (k : Nat) (d : Draft) : Draft × Int :=
  let copies := allocate i (start + k) d.sb d.md
  let io := d.fs.dev.writeblock d.fs.mp.deviceFd (blocks copies.2 i (start + k)) (d.fs.toDevice (piece data k))
  ({ fs := { d.fs with dev := io.1 }, sb := copies.1, md := copies.2 }, io.2)

/-- The `n` rounds from round `k` on; `false` when a write to the device failed. -/
def writeBlocks (i : Inode) (start : Int) (data : Nat → UInt8) : (n k : Nat) → Draft → Draft × Bool
  | 0, _, d => (d, true)
  | n + 1, k, d =>
    let round := writeRound i start data k d
    if round.2 = -1 then (round.1, false) else writeBlocks i start data n (k + 1) round.1

def ewrite (env : Env) (fs : Fs) (file : File) (data : Nat → UInt8) (size : Int) : Option (Fs × File × Int) :=
  let (fs, sb) := fs.readSuperblock env
  let (fs, md) := fs.readMetadata env
  let i := file.inodeNumber
  -- of the copy only: a refused call does not write it back
  let md := setStatus md i 1
  if ¬InInt (file.offset + size) then none
  else if file.offset + size > 4 * 512 then some (fs, file, -1)
  else
    let n := size.tdiv 512
    let start := file.offset.tdiv 512
    if ¬Accessible i start n then none
    -- every refusal comes before the first write to the device
    else if newBlocksRequired md i start n.toNat > (freeBlocks sb).card then some (fs, file, -1)
    else
      match writeBlocks i start data n.toNat 0 { fs, sb, md } with
      -- the blocks written so far stay, the metadata and the superblock do not follow
      | (d, false) => some (d.fs, file, -1)
      | (d, true) =>
        -- the end of this call, whatever the size was before
        let md := setModtime (setFileSize d.md i (file.offset + size)) i env.now
        let (fs, _) := d.fs.writeMetadata md
        let (fs, _) := fs.writeSuperblock d.sb
        some (fs, eseek file (file.offset + size), size)

def readRound (i : Inode) (start : Int) (md : Block) (k : Nat) (fs : Fs) (dec : Nat → UInt8) :
    Fs × (Nat → UInt8) × Int :=
  let io := fs.dev.readblock fs.mp.deviceFd (blocks md i (start + k)) (piece dec k)
  ({ fs with dev := io.1 },
    fun a => if h : 512 * k ≤ a ∧ a < 512 * k + 512 then io.2.1 ⟨a - 512 * k, by omega⟩ else dec a, io.2.2)

def readBlocks (i : Inode) (start : Int) (md : Block) : (n k : Nat) → Fs → (Nat → UInt8) →
    Fs × (Nat → UInt8) × Bool
  | 0, _, fs, dec => (fs, dec, true)
  | n + 1, k, fs, dec =>
    let round := readRound i start md k fs dec
    if round.2.2 = -1 then (round.1, round.2.1, false)
    else readBlocks i start md n (k + 1) round.1 round.2.1

/-- The caller's buffer after `strcpy(data, dec)`: the bytes of `dec`, `size` of them
its own and the rest whatever follows in memory, up to and with the first NUL. -/
def copyString (env : Env) (dec data : Nat → UInt8) (size : Nat) : Nat → UInt8 :=
  let text := (((List.range size).map dec) ++ env.beyond).takeWhile (· ≠ 0)
  fun a => if a ≤ text.length then text.getD a 0 else data a

def eread (env : Env) (fs : Fs) (file : File) (data : Nat → UInt8) (size : Int) :
    Option (Fs × File × (Nat → UInt8) × Int) :=
  let (fs, sb) := fs.readSuperblock env
  let (fs, md) := fs.readMetadata env
  let i := file.inodeNumber
  let start := file.offset.tdiv 512
  let n := size.tdiv 512
  -- whole blocks are compared here, where ewrite compares bytes
  if start + n > 4 then some (fs, file, data, -1)
  else if ¬Accessible i start n then none
  else if ∃ k < n.toNat, blocks md i (start + k) = -1 then some (fs, file, data, -1)
  else
    match readBlocks i start md n.toNat 0 fs env.heap with
    | (fs, _, false) => some (fs, file, data, -1)
    | (fs, dec, true) =>
      let data :=
        -- memcpy on an encrypted file system, strcpy on the other
        if fs.mp.fsNumber = 1 then fun a => if a < 512 * n.toNat then ~~~dec a else data a
        else copyString env dec data size.toNat
      if ¬InInt (file.offset + size) then none
      else
        let (fs, _) := fs.writeMetadata md
        let (fs, _) := fs.writeSuperblock sb
        some (fs, eseek file (file.offset + size), data, size)

end Fs

/-! ## Programs of calls -/

/-- A mounted device and the handles a program has opened on it; a closed one is `none`. -/
structure World where
  fs : Fs
  files : List (Option File)

inductive Call where
  | eopen (env : Env) (filename : CString)
  | eseek (handle : Nat) (offset : Int)
  | ewrite (env : Env) (handle : Nat) (data : Nat → UInt8) (size : Int)
  | eread (env : Env) (handle : Nat) (data : Nat → UInt8) (size : Int)
  | eclose (handle : Nat)

/-- What a call gives back: its value (the number of the handle for `eopen`, -1 for
`NULL`) and, from `eread`, the caller's buffer. -/
structure Reply where
  ret : Int
  data : Option (Nat → UInt8)

namespace World

def handle (w : World) (h : Nat) : Option File := (w.files[h]?).join

/-- One call. A call through a handle that is not open has no outcome. -/
def exec (w : World) : Call → Option (World × Reply)
  | .eopen env filename =>
    match w.fs.eopen env filename with
    -- a NULL handle takes no place in the list
    | (fs, none) => some ({ w with fs }, { ret := -1, data := none })
    | (fs, some file) => some ({ fs, files := w.files ++ [some file] }, { ret := w.files.length, data := none })
  | .eseek h offset => do
    let file ← w.handle h
    some ({ w with files := w.files.set h (some (Emufs.eseek file offset)) }, { ret := 1, data := none })
  | .ewrite env h data size => do
    let file ← w.handle h
    let (fs, file, ret) ← w.fs.ewrite env file data size
    some ({ fs, files := w.files.set h (some file) }, { ret, data := none })
  | .eread env h data size => do
    let file ← w.handle h
    let (fs, file, data, ret) ← w.fs.eread env file data size
    some ({ fs, files := w.files.set h (some file) }, { ret, data := some data })
  | .eclose h => do
    let _ ← w.handle h
    some ({ w with files := w.files.set h none }, { ret := 0, data := none })

def step : Machine World Call := fun w c => (w.exec c).map Prod.fst

end World

end OsLabs.Emufs
