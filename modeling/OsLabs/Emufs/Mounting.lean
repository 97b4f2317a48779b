import OsLabs.Emufs.Runs

/-! disk.c: the image files of a machine and the mount points a program opens them at.

The descriptor that `open` gives comes with the call, and is negative where it gives none;
the other system calls on files succeed. A file that `fopen` cannot open for reading it
does not make anew either. A device name too long for the 20 bytes it is copied to has no
outcome. -/

set_option autoImplicit false

namespace OsLabs.Emufs

open OsLabs.Lib
open Superblock Fs

structure Image where
  block : Nat → Block
  /-- Its length in whole blocks. -/
  extent : Nat

structure MountPoint where
  deviceFd : Int
  deviceName : CString
  fsNumber : Int

/-- The files of the working directory and what a program has opened of them. -/
structure Host where
  files : CString → Option Image
  /-- The file behind a descriptor and the position in it, in blocks. -/
  descriptors : Int → Option (CString × Nat)
  /-- `mounts[MAX_MOUNT_POINTS]`. -/
  mounts : Fin 10 → MountPoint

structure DiskEnv where
  /-- The descriptor that `open` or `fopen` gives; a negative one is its failure. -/
  fd : Int
  /-- Contents of the memory allocated for `superblock`. -/
  heap : Nat → UInt8
  /-- What `tempBuf` holds before it is filled. -/
  stack : Nat → UInt8
  /-- Where there is no descriptor: `fopen` could not read the file in the first place. -/
  unreadable : Bool

def CString.empty : CString := ⟨[], List.not_mem_nil⟩

namespace Host

/-- A `NULL` mount point is `none`. -/
def addNewMountPoint (h : Host) (fd : Int) (deviceName : CString) (fsNumber : Int) : Option (Host × Option (Fin 10)) :=
  match Fin.find? fun i => decide ((h.mounts i).deviceFd ≤ 0) with
  | none => some (h, none)
  | some i =>
    -- the strcpy into device_name[20], its NUL included
    if 20 ≤ deviceName.val.length then none
    else some ({ h with mounts := Function.update h.mounts i { deviceFd := fd, deviceName, fsNumber } }, some i)

def newSuperblock (env : DiskEnv) (deviceName : CString) (size : Int) : Block :=
  let sb := setFsNumber (fun i => env.heap i.val) (-1)
  let sb := setDeviceName sb deviceName
  let sb := setDiskSize sb size
  setMagicNumber sb 6763

/-- `tempBuf` after the `memcpy` of `sizeof(struct superblock_t)` bytes, 76 of them. -/
def superblockBuffer (env : DiskEnv) (sb : Block) : Block :=
  Bytes.blit (fun i => env.stack i.val) 0 76 sb.peek

/-- The image of a new device after `fputc` at `size * BLOCKSIZE`. -/
def newDevice (size : Int) : Device := { image := fun _ _ => 0, extent := size.toNat, pos := 0, faults := [] }

/-- What `fopen` with "r" finds. -/
def fopen (h : Host) (env : DiskEnv) (deviceName : CString) : Option Image :=
  if env.fd < 0 ∧ env.unreadable then none else h.files deviceName

def attached (h : Host) (fd : Int) (name : CString) (pos : Nat) : Host :=
  { h with descriptors := Function.update h.descriptors fd (some (name, pos)) }

theorem fopen_of_nonneg {h : Host} {env : DiskEnv} (opened : ¬env.fd < 0) (name : CString) :
    h.fopen env name = h.files name :=
  if_neg fun fails => opened fails.1

def opendevice (env : DiskEnv) (h : Host) (deviceName : Option CString) (size : Int) :
    Option (Host × Option (Fin 10)) :=
  match deviceName with
  | none => some (h, none)
  | some deviceName =>
    if deviceName.val.length = 0 then some (h, none)
    else if size > 42 ∨ size < 2 then some (h, none)
    else
      match h.fopen env deviceName with
      | none =>
        -- fopen could not read the file: a new image, whose name also goes into the superblock
        if 20 ≤ deviceName.val.length then none
        else
          let superblock := newSuperblock env deviceName size
          if env.fd < 0 then some (h, none)
          else
            let (dev, _) := (newDevice size).writeblock env.fd 0 (superblockBuffer env superblock)
            let h := { h with files := Function.update h.files deviceName (some { block := dev.image, extent := dev.extent }) }
            (h.attached env.fd deviceName dev.pos).addNewMountPoint env.fd deviceName (fsNumber superblock)
      | some image =>
        let dev : Device := { image := image.block, extent := image.extent, pos := 0, faults := [] }
        -- without a descriptor the superblock is what happened to be in tempBuf
        let (dev, superblock, _) := dev.readblock env.fd 0 fun i => env.stack i.val
        let h := if env.fd < 0 then h else h.attached env.fd deviceName dev.pos
        -- 2 is a size that a new image may have and that this check refuses; the descriptor stays open
        if magicNumber superblock ≠ 6763 ∨ diskSize superblock ≤ 2 ∨ diskSize superblock > 42 then some (h, none)
        else h.addNewMountPoint env.fd deviceName (fsNumber superblock)

def closedevice (h : Host) (mountPoint : Option (Fin 10)) : Host × Int :=
  match mountPoint with
  | none => (h, -1)
  | some m =>
    -- 0 is taken for a descriptor here, and for a free mount point by addNewMountPoint
    if (h.mounts m).deviceFd < 0 then (h, -1)
    else
      ({ h with
         descriptors := Function.update h.descriptors (h.mounts m).deviceFd none
         mounts := Function.update h.mounts m { deviceFd := -1, deviceName := CString.empty, fsNumber := -1 } }, 1)

/-! ## File system calls on a mount point -/

def fs (h : Host) (m : Fin 10) : Option Fs := do
  let (deviceName, pos) ← h.descriptors (h.mounts m).deviceFd
  let image ← h.files deviceName
  some
    { dev := { image := image.block, extent := image.extent, pos, faults := [] }
      mp := { deviceFd := (h.mounts m).deviceFd, fsNumber := (h.mounts m).fsNumber } }

def commit (h : Host) (m : Fin 10) (fs : Fs) : Host :=
  match h.descriptors (h.mounts m).deviceFd with
  | none => h
  | some (deviceName, _) =>
    { files := Function.update h.files deviceName (some { block := fs.dev.image, extent := fs.dev.extent })
      descriptors := Function.update h.descriptors (h.mounts m).deviceFd (some (deviceName, fs.dev.pos))
      mounts := Function.update h.mounts m { h.mounts m with fsNumber := fs.mp.fsNumber } }

def createFileSystem (env : Env) (h : Host) (m : Fin 10) (fsNumber : Int) : Option (Host × Int) :=
  (h.fs m).map fun fs =>
    let (fs, ret) := fs.createFileSystem env fsNumber
    (h.commit m fs, ret)

end Host

structure Session where
  host : Host
  mountPoint : Fin 10
  files : List (Option File)

namespace Session

def exec (s : Session) (c : Call) : Option (Session × Reply) := do
  let fs ← s.host.fs s.mountPoint
  let (w, reply) ← World.exec { fs, files := s.files } c
  some ({ s with host := s.host.commit s.mountPoint w.fs, files := w.files }, reply)

def step : Machine Session Call := fun s c => (s.exec c).map Prod.fst

def reply (s : Session) (c : Call) : Option Reply := (s.exec c).map Prod.snd

end Session

def diskName : CString := ⟨[100], by decide⟩

end OsLabs.Emufs
