import OsLabs.Lib.Bytes

/-! The on-disk objects of emufs.h as views of a block. A `struct superblock_t` or a
`struct metadata_t` is never built beside its block: the code casts the buffer it
read and assigns to fields of it, and so do the definitions here. -/

set_option autoImplicit false

namespace OsLabs.Emufs

open OsLabs.Lib

/-- `BLOCKSIZE` is 512. `MAX_BLOCKS` is 42, `MAX_FILES` 10 and `MAX_FILE_SIZE` 4. -/
abbrev Block := Bytes 512

/-! ## struct superblock_t

`magic_number` at 0, `device_name` at 4, `disk_size` at 24, `fs_number` at 28 and
`bitmap` from 32 on. -/

namespace Superblock

/-- The bitmap characters '0', '1' and 'x'. -/
def free : UInt8 := 48
def allocated : UInt8 := 49
def notExisting : UInt8 := 120

def magicNumber (sb : Block) : Int := sb.loadInt 0

def setMagicNumber (sb : Block) (v : Int) : Block := sb.storeInt 0 v

def setDeviceName (sb : Block) (s : CString) : Block := sb.strcpy 4 s.val

def diskSize (sb : Block) : Int := sb.loadInt 24

def setDiskSize (sb : Block) (v : Int) : Block := sb.storeInt 24 v

def fsNumber (sb : Block) : Int := sb.loadInt 28

def setFsNumber (sb : Block) (v : Int) : Block := sb.storeInt 28 v

def bitmap (sb : Block) (b : Nat) : UInt8 := sb.peek (32 + b)

def setBitmap (sb : Block) (b : Nat) (mark : UInt8) : Block := sb.blit (32 + b) 1 fun _ => mark

def fillBitmap (sb : Block) (first past : Nat) (mark : UInt8) : Block :=
  sb.blit (32 + first) (past - first) fun _ => mark

@[simp] theorem diskSize_setFsNumber (sb : Block) (v : Int) : diskSize (setFsNumber sb v) = diskSize sb :=
  sb.loadInt_storeInt_outside v (by omega)

@[simp] theorem diskSize_setBitmap (sb : Block) (b : Nat) (mark : UInt8) :
    diskSize (setBitmap sb b mark) = diskSize sb :=
  Bytes.loadInt_congr fun _ _ _ => sb.peek_blit_outside _ (by omega)

@[simp] theorem diskSize_fillBitmap (sb : Block) (first past : Nat) (mark : UInt8) :
    diskSize (fillBitmap sb first past mark) = diskSize sb :=
  Bytes.loadInt_congr fun _ _ _ => sb.peek_blit_outside _ (by omega)

theorem bitmap_setBitmap (sb : Block) {b c : Nat} (mark : UInt8) (bound : c < 42) :
    bitmap (setBitmap sb b mark) c = if c = b then mark else bitmap sb c := by
  unfold bitmap setBitmap
  rw [Bytes.peek_blit]
  by_cases same : c = b
  · rw [if_pos same, if_pos (by omega)]
  · rw [if_neg same, if_neg (by omega)]

theorem bitmap_fillBitmap (sb : Block) {first past c : Nat} (mark : UInt8) (bound : c < 42) :
    bitmap (fillBitmap sb first past mark) c = if first ≤ c ∧ c < past then mark else bitmap sb c := by
  unfold bitmap fillBitmap
  rw [Bytes.peek_blit]
  by_cases inside : first ≤ c ∧ c < past
  · rw [if_pos inside, if_pos (by omega)]
  · rw [if_neg inside, if_neg (by omega)]

end Superblock

/-! ## struct metadata_t

Ten inodes of 48 bytes each: `status` at 0, `name` at 4, `file_size` at 16,
`blocks` at 20 and `modtime` at 40. -/

namespace Metadata

def status (md : Block) (i : Nat) : Int := md.loadInt (48 * i)

def setStatus (md : Block) (i : Nat) (v : Int) : Block := md.storeInt (48 * i) v

def name (md : Block) (i : Nat) : CString := md.cstring (48 * i + 4)

def setName (md : Block) (i : Nat) (s : CString) : Block := md.strcpy (48 * i + 4) s.val

def fileSize (md : Block) (i : Nat) : Int := md.loadInt (48 * i + 16)

def setFileSize (md : Block) (i : Nat) (v : Int) : Block := md.storeInt (48 * i + 16) v

/-- The address of `md->inodes[i].blocks[k]`. C puts no bound on `k`. -/
def slot (i : Nat) (k : Int) : Int := 48 * i + 20 + 4 * k

def blocks (md : Block) (i : Nat) (k : Int) : Int := md.loadInt (slot i k).toNat

def setBlock (md : Block) (i : Nat) (k : Int) (v : Int) : Block := md.storeInt (slot i k).toNat v

def modtime (md : Block) (i : Nat) : Nat := md.loadNat (48 * i + 40) 8

def setModtime (md : Block) (i : Nat) (t : Nat) : Block := md.storeNat (48 * i + 40) 8 t

/-! An inode's used blocks and names, over the indices C intends. -/

abbrev Inode := Fin 10

/-- A place for a block: an inode and an index of its `blocks`. -/
abbrev Slot := Inode × Fin 4

def Used (md : Block) (i : Inode) : Prop := status md i = 1

instance (md : Block) (i : Inode) : Decidable (Used md i) := inferInstanceAs (Decidable (_ = _))

def refers (md : Block) (s : Slot) : Option Nat :=
  if Used md s.1 ∧ blocks md s.1 s.2.val ≠ -1 then some (blocks md s.1 s.2.val).toNat else none

/-! ## Reading one field after writing another -/

section Fields

variable (md : Block) (i j : Inode)

theorem status_congr {md md' : Block} {j : Inode}
    (same : ∀ a, 48 * j.val ≤ a → a < 48 * j.val + 4 → md'.peek a = md.peek a) : status md' j = status md j :=
  Bytes.loadInt_congr same

theorem blocks_congr {md md' : Block} {j : Inode} {k : Fin 4}
    (same : ∀ a, 48 * j.val + 20 ≤ a → a < 48 * j.val + 36 → md'.peek a = md.peek a) :
    blocks md' j k.val = blocks md j k.val :=
  Bytes.loadInt_congr fun a low high => same a (by unfold slot at low; omega) (by unfold slot at high; omega)

theorem name_congr {md md' : Block} {j : Inode} (fits : (name md j).val.length < 10)
    (same : ∀ a, 48 * j.val + 4 ≤ a → a < 48 * j.val + 14 → md'.peek a = md.peek a) : name md' j = name md j :=
  Subtype.ext (Bytes.cstr_congr fits fun a low high => (same a low high).symm)

theorem status_setStatus {v : Int} (low : -2 ^ 31 ≤ v) (high : v < 2 ^ 31) :
    status (setStatus md i v) j = if j = i then v else status md j := by
  by_cases same : j = i
  · rw [if_pos same, same]
    exact md.loadInt_storeInt (by omega) low high
  · rw [if_neg same]
    rw [Fin.ext_iff] at same
    exact status_congr fun a _ _ => md.peek_storeInt_outside v (by omega)

@[simp] theorem blocks_setStatus (v : Int) (k : Fin 4) :
    blocks (setStatus md i v) j k.val = blocks md j k.val :=
  blocks_congr fun a _ _ => md.peek_storeInt_outside v (by omega)

theorem name_setStatus (v : Int) (fits : (name md j).val.length < 10) :
    name (setStatus md i v) j = name md j :=
  name_congr fits fun a _ _ => md.peek_storeInt_outside v (by omega)

@[simp] theorem status_setFileSize (v : Int) : status (setFileSize md i v) j = status md j :=
  status_congr fun a _ _ => md.peek_storeInt_outside v (by omega)

@[simp] theorem blocks_setFileSize (v : Int) (k : Fin 4) :
    blocks (setFileSize md i v) j k.val = blocks md j k.val :=
  blocks_congr fun a _ _ => md.peek_storeInt_outside v (by omega)

theorem name_setFileSize (v : Int) (fits : (name md j).val.length < 10) :
    name (setFileSize md i v) j = name md j :=
  name_congr fits fun a _ _ => md.peek_storeInt_outside v (by omega)

@[simp] theorem status_setModtime (t : Nat) : status (setModtime md i t) j = status md j :=
  status_congr fun a _ _ => md.peek_storeNat_outside t (by omega)

@[simp] theorem blocks_setModtime (t : Nat) (k : Fin 4) :
    blocks (setModtime md i t) j k.val = blocks md j k.val :=
  blocks_congr fun a _ _ => md.peek_storeNat_outside t (by omega)

theorem name_setModtime (t : Nat) (fits : (name md j).val.length < 10) :
    name (setModtime md i t) j = name md j :=
  name_congr fits fun a _ _ => md.peek_storeNat_outside t (by omega)

@[simp] theorem status_setBlock (k : Fin 4) (v : Int) : status (setBlock md i k.val v) j = status md j :=
  status_congr fun a _ _ => md.peek_storeInt_outside v (by unfold slot; omega)

theorem blocks_setBlock (k l : Fin 4) {v : Int} (low : -2 ^ 31 ≤ v) (high : v < 2 ^ 31) :
    blocks (setBlock md i k.val v) j l.val = if j = i ∧ l = k then v else blocks md j l.val := by
  by_cases same : j = i ∧ l = k
  · rw [if_pos same, same.1, same.2]
    exact md.loadInt_storeInt (by unfold slot; omega) low high
  · rw [if_neg same]
    rw [Fin.ext_iff, Fin.ext_iff] at same
    exact md.loadInt_storeInt_outside v (by unfold slot; omega)

theorem name_setBlock (k : Fin 4) (v : Int) (fits : (name md j).val.length < 10) :
    name (setBlock md i k.val v) j = name md j :=
  name_congr fits fun a _ _ => md.peek_storeInt_outside v (by unfold slot; omega)

section Name

variable {s : CString} (short : s.val.length ≤ 9)
include short

theorem status_setName : status (setName md i s) j = status md j :=
  status_congr fun a _ _ => md.peek_strcpy_outside _ (by omega)

theorem blocks_setName (k : Fin 4) : blocks (setName md i s) j k.val = blocks md j k.val :=
  blocks_congr fun a _ _ => md.peek_strcpy_outside _ (by omega)

theorem name_setName_self : name (setName md i s) i = s :=
  Subtype.ext (md.cstr_strcpy s (by omega))

theorem name_setName_of_ne (different : j ≠ i) (fits : (name md j).val.length < 10) :
    name (setName md i s) j = name md j := by
  rw [Ne, Fin.ext_iff] at different
  exact name_congr fits fun a _ _ => md.peek_strcpy_outside _ (by omega)

end Name

end Fields

end Metadata

end OsLabs.Emufs
