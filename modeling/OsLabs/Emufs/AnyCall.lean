import OsLabs.Emufs.Runs

/-! The calls on a mounted device whatever their arguments: they leave the superblock
before its bitmap, and neither the descriptor nor the position in the image shows in
what they return. -/

set_option autoImplicit false

namespace OsLabs.Emufs

open OsLabs.Lib
open Superblock Metadata Fs

/-! ## What every call leaves -/

structure Carried (d : Nat) (fs fs' : Fs) : Prop where
  mounted : Mounted d fs'
  mp : fs'.mp = fs.mp
  header : ∀ a < 32, fs'.superblock.peek a = fs.superblock.peek a

theorem Carried.moved {d : Nat} {fs : Fs} (mounted : Mounted d fs) (pos : Nat) : Carried d fs (fs.moved pos) :=
  ⟨mounted.moved pos, rfl, fun _ _ => rfl⟩

theorem peek_allocate (i : Inode) (k : Int) (sb md : Block) {a : Nat} (before : a < 32) :
    (allocate i k sb md).1.peek a = sb.peek a := by
  unfold allocate
  split
  · split
    next j found =>
      have outside : (sb.blit (32 + j.val) 1 fun _ => allocated).peek a = sb.peek a :=
        sb.peek_blit_outside _ (by omega)
      exact outside
    next => rfl
  · rfl

section Loops

variable {d : Nat} {fs : Fs}

theorem Mounted.writeblock (mounted : Mounted d fs) (block : Int) (buf : Block) :
    fs.dev.writeblock fs.mp.deviceFd block buf = ((fs.put (fs.dev.lseek block) buf).dev, 1) := by
  have opened := mounted.opened
  rw [Device.writeblock, if_neg (by omega)]
  simp only [mounted.sane, List.tail_nil]
  rfl

theorem writeBlocks_carried (i : Inode) (start : Int) (data : Nat → UInt8) (n k : Nat) (before : Draft)
    (mounted : Mounted d before.fs) :
    ∃ after, writeBlocks i start data n k before = (after, true) ∧ Mounted d after.fs ∧ after.fs.mp = before.fs.mp ∧
      ∀ a < 32, after.sb.peek a = before.sb.peek a := by
  induction n generalizing k before with
  | zero => exact ⟨before, rfl, mounted, rfl, fun _ _ => rfl⟩
  | succ n ih =>
    let next := (writeRound i start data k before).1
    have written : (writeRound i start data k before).2 = 1 := by
      rw [writeRound, mounted.writeblock]
    have mounted' : Mounted d next.fs := by
      simp only [next, writeRound, mounted.writeblock]
      exact mounted.put _ _
    obtain ⟨after, done, sane, mp, header⟩ := ih (k + 1) next mounted'
    refine ⟨after, ?_, sane, mp, fun a low => ?_⟩
    · rw [writeBlocks, written]
      exact done
    · rw [header a low]
      exact peek_allocate i _ _ _ low

theorem readblock_moved (fd block : Int) (buf : Block) (dev : Device) :
    ∃ pos, (dev.readblock fd block buf).1 = { dev with pos } := by
  unfold Device.readblock
  split
  · exact ⟨dev.pos, rfl⟩
  · dsimp only
    split
    · exact ⟨_, rfl⟩
    · exact ⟨_, rfl⟩

theorem readRound_moved (i : Inode) (start : Int) (md : Block) (k : Nat) (fs : Fs) (dec : Nat → UInt8) :
    ∃ pos, (readRound i start md k fs dec).1 = fs.moved pos := by
  obtain ⟨pos, same⟩ := readblock_moved fs.mp.deviceFd (blocks md i (start + k)) (piece dec k) fs.dev
  exact ⟨pos, by rw [readRound, same]; rfl⟩

theorem readBlocks_moved (i : Inode) (start : Int) (md : Block) (n k : Nat) (fs : Fs) (dec : Nat → UInt8) :
    ∃ pos, (readBlocks i start md n k fs dec).1 = fs.moved pos := by
  induction n generalizing k fs dec with
  | zero => exact ⟨fs.dev.pos, rfl⟩
  | succ n ih =>
    obtain ⟨pos, first⟩ := readRound_moved i start md k fs dec
    rw [readBlocks]
    split
    · exact ⟨pos, first⟩
    · obtain ⟨last, rest⟩ := ih (k + 1) (readRound i start md k fs dec).1 (readRound i start md k fs dec).2.1
      exact ⟨last, by rw [rest, first]; rfl⟩

end Loops

section Calls

variable {d : Nat} {fs fs' : Fs} {env : Env} {file file' : File} {data data' : Nat → UInt8} {size ret : Int}

theorem Carried.close (fs : Fs) {draft : Fs} (mounted : Mounted d draft) (mp : draft.mp = fs.mp) {sb md : Block}
    (header : ∀ a < 32, sb.peek a = fs.superblock.peek a) : Carried d fs ((draft.put 1 md).put 0 sb) where
  mounted := (mounted.put 1 md).put 0 sb
  mp := mp
  header a low := by rw [superblock_put_self, header a low]

def Fs.looped (fs : Fs) (file : File) (data : Nat → UInt8) (size : Int) : Draft :=
  (writeBlocks file.inodeNumber (file.offset.tdiv 512) data (size.tdiv 512).toNat 0 (fs.drafted file)).1

/-- `ewrite` on a device where every write succeeds: its refusals, and its loop with both headers written back. -/
theorem ewrite_eq (mounted : Mounted d fs) : fs.ewrite env file data size =
    if ¬InInt (file.offset + size) then none
    else if file.offset + size > 2048 then some (fs.moved 2, file, -1)
    else if ¬Accessible file.inodeNumber (file.offset.tdiv 512) (size.tdiv 512) then none
    else if newBlocksRequired (fs.drafted file).md file.inodeNumber (file.offset.tdiv 512) (size.tdiv 512).toNat >
        (freeBlocks fs.superblock).card then some (fs.moved 2, file, -1)
    else
      some ((fs.looped file data size).sealed env file.inodeNumber (file.offset + size),
        eseek file (file.offset + size), size) := by
  -- the loop never breaks off, for each of its writes returns 1
  obtain ⟨after, done, sane, -, -⟩ := writeBlocks_carried file.inodeNumber (file.offset.tdiv 512) data
    (size.tdiv 512).toNat 0 (fs.drafted file) ((mounted.moved 1).moved 2)
  have looped : fs.looped file data size = after := by rw [looped, done]
  have unread : (⟨(fs.moved 1).moved 2, fs.superblock, setStatus (fs.moved 1).metadata file.inodeNumber 1⟩ : Draft) =
      fs.drafted file := rfl
  simp only [Fs.ewrite, mounted.readSuperblock, (mounted.moved 1).readMetadata, unread, done, looped,
    sane.writeMetadata, (sane.put 1 _).writeSuperblock]
  rfl

theorem ewrite_carried (mounted : Mounted d fs) (call : fs.ewrite env file data size = some (fs', file', ret)) :
    Carried d fs fs' := by
  rw [ewrite_eq mounted] at call
  split at call
  · cases call
  split at call
  · cases call
    exact Carried.moved mounted 2
  split at call
  · cases call
  split at call
  · cases call
    exact Carried.moved mounted 2
  · obtain ⟨after, done, sane, mp, header⟩ := writeBlocks_carried file.inodeNumber (file.offset.tdiv 512) data
      (size.tdiv 512).toNat 0 (fs.drafted file) ((mounted.moved 1).moved 2)
    have looped : fs.looped file data size = after := by rw [looped, done]
    rw [looped] at call
    cases call
    exact Carried.close fs sane mp header

def Fs.handed (fs : Fs) (env : Env) (dec data : Nat → UInt8) (size : Int) : Nat → UInt8 :=
  if fs.mp.fsNumber = 1 then fun a => if a < 512 * (size.tdiv 512).toNat then ~~~dec a else data a
  else copyString env dec data size.toNat

theorem eread_eq (mounted : Mounted d fs) : fs.eread env file data size =
    if file.offset.tdiv 512 + size.tdiv 512 > 4 then some (fs.moved 2, file, data, -1)
    else if ¬Accessible file.inodeNumber (file.offset.tdiv 512) (size.tdiv 512) then none
    else if ∃ k < (size.tdiv 512).toNat, blocks fs.metadata file.inodeNumber (file.offset.tdiv 512 + k) = -1 then
      some (fs.moved 2, file, data, -1)
    else
      let read := readBlocks file.inodeNumber (file.offset.tdiv 512) fs.metadata (size.tdiv 512).toNat 0 (fs.moved 2)
        env.heap
      if read.2.2 = false then some (read.1, file, data, -1)
      else if ¬InInt (file.offset + size) then none
      else
        some ((fs.put 1 (fs.toDevice fs.metadata)).put 0 fs.superblock, eseek file (file.offset + size),
          fs.handed env read.2.1 data size, size) := by
  have again : (fs.moved 1).moved 2 = fs.moved 2 := rfl
  simp only [Fs.eread, mounted.readSuperblock, (mounted.moved 1).readMetadata, metadata_moved, again]
  split
  · rfl
  split
  · rfl
  split
  · rfl
  obtain ⟨pos, place⟩ := readBlocks_moved file.inodeNumber (file.offset.tdiv 512) fs.metadata
    (size.tdiv 512).toNat 0 (fs.moved 2) env.heap
  -- the loop's device is the old one at some position, so that only its flag matters below
  generalize readBlocks file.inodeNumber (file.offset.tdiv 512) fs.metadata (size.tdiv 512).toNat 0 (fs.moved 2)
    env.heap = read at place
  obtain ⟨last, dec, all⟩ := read
  obtain rfl : last = fs.moved pos := place
  cases all with
  | false => rfl
  | true =>
    have sane := mounted.moved pos
    simp only [sane.writeMetadata, (sane.put 1 _).writeSuperblock]
    rfl

theorem eread_carried (mounted : Mounted d fs) (call : fs.eread env file data size = some (fs', file', data', ret)) :
    Carried d fs fs' := by
  rw [eread_eq mounted] at call
  split at call
  · cases call
    exact Carried.moved mounted 2
  split at call
  · cases call
  split at call
  · cases call
    exact Carried.moved mounted 2
  dsimp only at call
  split at call
  · obtain ⟨pos, place⟩ := readBlocks_moved file.inodeNumber (file.offset.tdiv 512) fs.metadata
      (size.tdiv 512).toNat 0 (fs.moved 2) env.heap
    rw [place] at call
    cases call
    exact Carried.moved mounted pos
  split at call
  · cases call
  · cases call
    exact Carried.close fs mounted rfl fun _ _ => rfl

theorem eopen_eq (mounted : Mounted d fs) (env : Env) (filename : CString) : fs.eopen env filename =
    match findInode env fs.metadata filename with
    | none => (fs.moved 2, none)
    | some (i, md) => ((fs.moved 2).put 1 ((fs.moved 2).toDevice md), some { offset := 0, inodeNumber := i }) := by
  simp only [Fs.eopen, mounted.readMetadata]
  cases findInode env fs.metadata filename with
  | none => rfl
  | some entry =>
    simp only [(mounted.moved 2).writeMetadata]
    rw [if_neg (by omega)]

theorem eopen_carried (mounted : Mounted d fs) (env : Env) (filename : CString) :
    Carried d fs (fs.eopen env filename).1 := by
  rw [eopen_eq mounted]
  cases findInode env fs.metadata filename with
  | none => exact Carried.moved mounted 2
  | some entry =>
    refine ⟨(mounted.moved 2).put 1 _, rfl, fun a _ => ?_⟩
    dsimp only
    rw [superblock_put_of_ne _ _ _ (by omega), superblock_moved]

theorem exec_carried {w w' : World} {c : Call} {reply : Reply} (mounted : Mounted d w.fs)
    (call : w.exec c = some (w', reply)) : Carried d w.fs w'.fs := by
  cases c with
  | eopen env filename =>
    have carried := eopen_carried mounted env filename
    simp only [World.exec] at call
    split at call
    next fs failed =>
      cases call
      rwa [failed] at carried
    next fs file opened =>
      cases call
      rwa [opened] at carried
  | eseek h offset =>
    obtain ⟨file, opened, rfl, rfl⟩ := World.exec_eseek call
    exact ⟨mounted, rfl, fun _ _ => rfl⟩
  | ewrite env h data size =>
    obtain ⟨file, fs', file', ret, opened, written, rfl, rfl⟩ := World.exec_ewrite call
    exact ewrite_carried mounted written
  | eread env h data size =>
    obtain ⟨file, fs', file', data', ret, opened, read, rfl, rfl⟩ := World.exec_eread call
    exact eread_carried mounted read
  | eclose h =>
    obtain ⟨file, opened, rfl, rfl⟩ := World.exec_eclose call
    exact ⟨mounted, rfl, fun _ _ => rfl⟩

end Calls

/-! ## What no call shows -/

def Fs.onFd (fs : Fs) (fd : Int) : Fs := { fs with mp := { fs.mp with deviceFd := fd } }

def Fs.Draft.onFd (draft : Draft) (fd : Int) : Draft := { draft with fs := draft.fs.onFd fd }

def World.through (w : World) (fd : Int) (pos : Nat) : World := { w with fs := (w.fs.moved pos).onFd fd }

section Through

variable {d : Nat} {fs : Fs} {fd : Int}

theorem Mounted.onFd (mounted : Mounted d fs) (opened : 0 < fd) : Mounted d (fs.onFd fd) :=
  ⟨opened, mounted.sane, mounted.whole, mounted.atLeast, mounted.atMost⟩

theorem writeblock_congr {fd' : Int} (opened : 0 < fd) (opened' : 0 < fd') (dev : Device) (block : Int) (buf : Block) :
    dev.writeblock fd block buf = dev.writeblock fd' block buf := by
  unfold Device.writeblock
  rw [if_neg (by omega), if_neg (by omega)]

theorem readblock_congr {fd' : Int} (opened : 0 < fd) (opened' : 0 < fd') (dev : Device) (block : Int) (buf : Block) :
    dev.readblock fd block buf = dev.readblock fd' block buf := by
  simp only [Device.readblock, Int.not_lt.mpr opened.le, Int.not_lt.mpr opened'.le, if_false]

variable (opened : 0 < fd)
include opened

theorem writeRound_onFd (i : Inode) (start : Int) (data : Nat → UInt8) (k : Nat) (draft : Draft)
    (mounted : 0 < draft.fs.mp.deviceFd) :
    writeRound i start data k (draft.onFd fd) =
      ((writeRound i start data k draft).1.onFd fd, (writeRound i start data k draft).2) := by
  unfold writeRound
  simp only [Draft.onFd, Fs.onFd]
  rw [writeblock_congr opened mounted]
  rfl

theorem writeBlocks_onFd (i : Inode) (start : Int) (data : Nat → UInt8) (n k : Nat) (draft : Draft)
    (mounted : 0 < draft.fs.mp.deviceFd) :
    writeBlocks i start data n k (draft.onFd fd) =
      ((writeBlocks i start data n k draft).1.onFd fd, (writeBlocks i start data n k draft).2) := by
  induction n generalizing k draft with
  | zero => rfl
  | succ n ih =>
    rw [writeBlocks, writeBlocks, writeRound_onFd opened i start data k draft mounted]
    dsimp only
    split
    · rfl
    · exact ih (k + 1) (writeRound i start data k draft).1 mounted

theorem readRound_onFd (i : Inode) (start : Int) (md : Block) (k : Nat) (mounted : 0 < fs.mp.deviceFd)
    (dec : Nat → UInt8) :
    readRound i start md k (fs.onFd fd) dec =
      ((readRound i start md k fs dec).1.onFd fd, (readRound i start md k fs dec).2) := by
  unfold readRound
  simp only [Fs.onFd]
  rw [readblock_congr opened mounted]

theorem readBlocks_onFd (i : Inode) (start : Int) (md : Block) (n k : Nat) (mounted : 0 < fs.mp.deviceFd)
    (dec : Nat → UInt8) :
    readBlocks i start md n k (fs.onFd fd) dec =
      ((readBlocks i start md n k fs dec).1.onFd fd, (readBlocks i start md n k fs dec).2) := by
  induction n generalizing k fs dec with
  | zero => rfl
  | succ n ih =>
    rw [readBlocks, readBlocks, readRound_onFd opened i start md k mounted]
    dsimp only
    split
    · rfl
    · exact ih (k + 1) (show 0 < (readRound i start md k fs dec).1.mp.deviceFd from mounted) _

variable (mounted : Mounted d fs) (pos : Nat) (env : Env) (file : File) (data : Nat → UInt8) (size : Int)
include mounted

theorem eopen_through (filename : CString) : Fs.eopen env ((fs.moved pos).onFd fd) filename =
    ((fs.eopen env filename).1.onFd fd, (fs.eopen env filename).2) := by
  have sane := (mounted.moved pos).onFd opened
  simp only [Fs.eopen, sane.readMetadata, mounted.readMetadata]
  -- both devices give the same bytes: they take the same branch
  show (match findInode env fs.metadata filename with
    | none => (((fs.moved 2).onFd fd), none)
    | some (i, md) => _) = _
  cases findInode env fs.metadata filename with
  | none => rfl
  | some entry =>
    simp only [(mounted.moved 2).writeMetadata, (sane.moved 2).writeMetadata]
    rfl

theorem ewrite_through : Fs.ewrite env ((fs.moved pos).onFd fd) file data size =
    (fs.ewrite env file data size).map fun result => (result.1.onFd fd, result.2) := by
  have sane := (mounted.moved pos).onFd opened
  have loop : Fs.looped ((fs.moved pos).onFd fd) file data size = (fs.looped file data size).onFd fd := by
    have same := writeBlocks_onFd opened file.inodeNumber (file.offset.tdiv 512) data (size.tdiv 512).toNat 0
      (fs.drafted file) mounted.opened
    exact congrArg Prod.fst same
  have superblock : Fs.superblock ((fs.moved pos).onFd fd) = fs.superblock := rfl
  have metadata : (Fs.drafted ((fs.moved pos).onFd fd) file).md = (fs.drafted file).md := rfl
  rw [ewrite_eq sane, ewrite_eq mounted, loop, superblock, metadata]
  split
  · rfl
  split
  · rfl
  split
  · rfl
  split
  · rfl
  · rfl

theorem eread_through : Fs.eread env ((fs.moved pos).onFd fd) file data size =
    (fs.eread env file data size).map fun result => (result.1.onFd fd, result.2) := by
  have sane := (mounted.moved pos).onFd opened
  have loop := readBlocks_onFd opened file.inodeNumber (file.offset.tdiv 512) fs.metadata (size.tdiv 512).toNat 0
    (mounted.moved 2).opened env.heap
  have unread : Fs.moved ((fs.moved pos).onFd fd) 2 = (fs.moved 2).onFd fd := rfl
  have metadata : Fs.metadata ((fs.moved pos).onFd fd) = fs.metadata := rfl
  rw [eread_eq sane, eread_eq mounted, metadata, unread, loop]
  split
  · rfl
  split
  · rfl
  split
  · rfl
  dsimp only
  split
  · rfl
  split
  · rfl
  · rfl

end Through

/-- The reply to a call and the device after it are the same through any descriptor. -/
theorem exec_through {d : Nat} {w : World} {fd : Int} (mounted : Mounted d w.fs) (opened : 0 < fd) (pos : Nat)
    (c : Call) :
    Option.Rel (fun r s => s.2 = r.2 ∧ ∃ pos, s.1 = r.1.through fd pos) (w.exec c) ((w.through fd pos).exec c) := by
  have handles : ∀ h, (w.through fd pos).handle h = w.handle h := fun h => rfl
  have device : (w.through fd pos).fs = (w.fs.moved pos).onFd fd := rfl
  cases c with
  | eopen env filename =>
    simp only [World.exec, device, eopen_through opened mounted]
    obtain ⟨fs, file⟩ := w.fs.eopen env filename
    cases file with
    | none => exact .some ⟨rfl, fs.dev.pos, rfl⟩
    | some file => exact .some ⟨rfl, fs.dev.pos, rfl⟩
  | eseek h offset =>
    simp only [World.exec, handles]
    cases w.handle h with
    | none => exact .none
    | some file => exact .some ⟨rfl, pos, rfl⟩
  | ewrite env h data size =>
    simp only [World.exec, handles, device, ewrite_through opened mounted]
    cases w.handle h with
    | none => exact .none
    | some file =>
      simp only [Option.bind_eq_bind, Option.bind_some]
      cases w.fs.ewrite env file data size with
      | none => exact .none
      | some result => exact .some ⟨rfl, result.1.dev.pos, rfl⟩
  | eread env h data size =>
    simp only [World.exec, handles, device, eread_through opened mounted]
    cases w.handle h with
    | none => exact .none
    | some file =>
      simp only [Option.bind_eq_bind, Option.bind_some]
      cases w.fs.eread env file data size with
      | none => exact .none
      | some result => exact .some ⟨rfl, result.1.dev.pos, rfl⟩
  | eclose h =>
    simp only [World.exec, handles]
    cases w.handle h with
    | none => exact .none
    | some file => exact .some ⟨rfl, pos, rfl⟩

end OsLabs.Emufs
