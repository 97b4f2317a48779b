import OsLabs.Emufs.Layout

/-! disk.c: the image file behind a device and the transfer of its blocks.

Every transfer is of 512 bytes at a multiple of 512, so the image is kept by
blocks. Faults are scheduled: the head of `faults` says whether the next
`write` comes up short. -/

set_option autoImplicit false

namespace OsLabs.Emufs

open OsLabs.Lib

structure Device where
  image : Nat → Block
  /-- Length of the image file in whole blocks. -/
  extent : Nat
  /-- File position of the descriptor, in blocks. -/
  pos : Nat
  faults : List Bool

namespace Device

/-- `offset = block * BLOCKSIZE; lseek(dev_fd, offset, SEEK_SET)`. A negative
offset makes `lseek` fail and leaves the position where it was. -/
def lseek (dev : Device) (block : Int) : Nat :=
  let offset := Bytes.wrap32 (block * 512)
  if 0 ≤ offset then (offset / 512).toNat else dev.pos

theorem lseek_of_nonneg (dev : Device) {b : Nat} (small : b < 4194304) : dev.lseek b = b := by
  have offset : Bytes.wrap32 ((b : Int) * 512) = b * 512 := Bytes.wrap32_of_range (by omega) (by omega)
  simp only [lseek, offset]
  rw [if_pos (by omega), Int.mul_ediv_cancel _ (by omega), Int.toNat_natCast]

def writeblock (devFd : Int) (block : Int) (buf : Block) (dev : Device) : Device × Int :=
  if devFd < 0 then (dev, -1)
  else
    let at_ := dev.lseek block
    match dev.faults with
    | true :: rest => ({ dev with pos := at_, faults := rest }, -1)
    | faults =>
      ({ image := Function.update dev.image at_ buf
         extent := max dev.extent (at_ + 1)
         pos := at_ + 1
         faults := faults.tail }, 1)

/-- A read past the end of the image is short: it fails and leaves `buf` as it was. -/
def readblock (devFd : Int) (block : Int) (buf : Block) (dev : Device) : Device × Block × Int :=
  if devFd < 0 then (dev, buf, -1)
  else
    let at_ := dev.lseek block
    if at_ < dev.extent then ({ dev with pos := at_ + 1 }, dev.image at_, 1)
    else ({ dev with pos := at_ }, buf, -1)

theorem readblock_eq {devFd : Int} (dev : Device) {b : Nat} (buf : Block) (opened : 0 < devFd)
    (inside : b < dev.extent) (small : b < 4194304) :
    readblock devFd b buf dev = ({ dev with pos := b + 1 }, dev.image b, 1) := by
  simp [readblock, lseek_of_nonneg dev small, inside, Int.not_lt.mpr opened.le]

theorem writeblock_eq {devFd : Int} {dev : Device} {b : Nat} (buf : Block) (opened : 0 < devFd)
    (sane : dev.faults = []) (small : b < 4194304) :
    writeblock devFd b buf dev =
      ({ image := Function.update dev.image b buf, extent := max dev.extent (b + 1), pos := b + 1, faults := [] },
        1) := by
  simp [writeblock, lseek_of_nonneg dev small, sane, Int.not_lt.mpr opened.le]

end Device

end OsLabs.Emufs
