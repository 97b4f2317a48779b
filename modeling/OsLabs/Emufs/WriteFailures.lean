import OsLabs.Emufs.DiskInvariant

/-! `ewrite` on a device some of whose writes fail. It gives up when a data block cannot be
written, and does not look at what becomes of the metadata and the superblock. -/

set_option autoImplicit false

namespace OsLabs.Emufs

open OsLabs.Lib
open Superblock Metadata Fs

def Fs.struck (fs : Fs) (faults : List Bool) : Fs := { fs with dev := { fs.dev with faults } }

def World.struck (w : World) (faults : List Bool) : World := { w with fs := w.fs.struck faults }

structure Unshared (sb md : Block) : Prop where
  marked : ∀ s b, refers md s = some b → bitmap sb b = allocated
  exclusive : ∀ s t b, refers md s = some b → refers md t = some b → s = t

/-- What an `ewrite` from `w` should have led to in `w'`: no block shared or unmarked, then
or after any calls without a failure, and all of its changes on the device if it returned
`size`. -/
structure Survived (w : World) (c : Call) (size : Int) (w' : World) (reply : Reply) : Prop where
  now : Unshared w'.fs.superblock w'.fs.metadata
  later : ∀ calls w'', Machine.EveryStep World.step InRange (w'.struck []) calls →
    Machine.run World.step (w'.struck []) calls = some w'' → Unshared w''.fs.superblock w''.fs.metadata
  stored : reply.ret = size → ∃ v, w.exec c = some (v, reply) ∧ w'.fs.dev.image = v.fs.dev.image

def stamped (env : Env) (md : Block) (i : Inode) (past : Int) : Block :=
  setModtime (setFileSize (setStatus md i 1) i past) i env.now

def taken (fs : Fs) (file : File) (size : Int) : Nat :=
  newBlocksRequired (setStatus fs.metadata file.inodeNumber 1) file.inodeNumber ((file.offset.toNat / 512 : Nat) : Int)
    (size.toNat / 512)

/-- The call is refused, or a data block fails, or the metadata and the superblock are
each written or as they were. -/
def Lasting (env : Env) (fs : Fs) (file : File) (size : Int) (faults : List Bool) : Prop :=
  2048 < file.offset + size ∨ (freeBlocks fs.superblock).card < taken fs file size ∨
  (∃ k < size.toNat / 512, faults[k]? = some true) ∨
  ((faults[size.toNat / 512]? = some true →
      taken fs file size = 0 ∧ stamped env fs.metadata file.inodeNumber (file.offset + size) = fs.metadata) ∧
   (faults[size.toNat / 512 + 1]? = some true → taken fs file size = 0))

/-! ## Writes that may fail -/

section Struck

variable {d : Nat} {fs : Fs} {faults : List Bool}

theorem writeblock_struck (mounted : Mounted d fs) {b : Nat} (small : b < 4194304) (buf : Block) (faults : List Bool) :
    (fs.struck faults).dev.writeblock fs.mp.deviceFd b buf =
      if faults[0]? = some true then (((fs.moved b).struck faults.tail).dev, -1)
      else (((fs.put b buf).struck faults.tail).dev, 1) := by
  have opened := mounted.opened
  have place : (fs.struck faults).dev.lseek b = b := Device.lseek_of_nonneg _ small
  rw [Device.writeblock, if_neg (by omega)]
  simp only [place]
  cases faults with
  | nil => rfl
  | cons fails rest => cases fails <;> rfl

theorem writeMetadata_struck (mounted : Mounted d fs) (md : Block) (faults : List Bool) :
    (fs.struck faults).writeMetadata md =
      if faults[0]? = some true then ((fs.moved 1).struck faults.tail, -1)
      else ((fs.put 1 (fs.toDevice md)).struck faults.tail, 1) := by
  have write := writeblock_struck mounted (b := 1) (by omega) (fs.toDevice md) faults
  simp only [Nat.cast_one] at write
  have same : (fs.struck faults).toDevice md = fs.toDevice md := rfl
  have fd : (fs.struck faults).mp.deviceFd = fs.mp.deviceFd := rfl
  rw [Fs.writeMetadata, same, fd, write]
  by_cases fails : faults[0]? = some true
  · simp only [if_pos fails]
    rfl
  · simp only [if_neg fails]
    rfl

theorem writeSuperblock_struck (mounted : Mounted d fs) (sb : Block) (faults : List Bool) :
    (fs.struck faults).writeSuperblock sb =
      if faults[0]? = some true then ((fs.moved 0).struck faults.tail, -1)
      else ((fs.put 0 sb).struck faults.tail, 1) := by
  have write := writeblock_struck mounted (b := 0) (by omega) sb faults
  simp only [Nat.cast_zero] at write
  have fd : (fs.struck faults).mp.deviceFd = fs.mp.deviceFd := rfl
  rw [Fs.writeSuperblock, fd, write]
  by_cases fails : faults[0]? = some true
  · simp only [if_pos fails]
    rfl
  · simp only [if_neg fails]
    rfl

theorem readSuperblock_struck (mounted : Mounted d fs) (env : Env) (faults : List Bool) :
    (fs.struck faults).readSuperblock env = ((fs.moved 1).struck faults, fs.superblock) := by
  have opened : 0 < (fs.struck faults).mp.deviceFd := mounted.opened
  exact readSuperblock_eq opened mounted.atLeast mounted.whole env

theorem readMetadata_struck (mounted : Mounted d fs) (env : Env) (faults : List Bool) :
    (fs.struck faults).readMetadata env = ((fs.moved 2).struck faults, fs.metadata) := by
  have opened : 0 < (fs.struck faults).mp.deviceFd := mounted.opened
  exact readMetadata_eq opened mounted.atLeast mounted.whole env

end Struck

/-! ## The loop -/

section Loop

variable {d : Nat} {i : Inode} {start n k : Nat} {data : Nat → UInt8} {faults : List Bool}

def Fs.Draft.struck (draft : Draft) (faults : List Bool) : Draft := { draft with fs := draft.fs.struck faults }

theorem Round.struck {index : Fin 4} {b : Nat} {before next : Draft}
    (round : Round d i start data n k index b before next) (mounted : Mounted d before.fs) (faults : List Bool) :
    writeRound i start data k (before.struck faults) =
      if faults[0]? = some true then
        ({ fs := (before.fs.moved b).struck faults.tail, sb := next.sb, md := next.md }, -1)
      else (next.struck faults.tail, 1) := by
  have place : (start : Int) + k = (index.val : Int) := by
    have := round.place
    omega
  have small : b < 4194304 := by
    have := mounted.atMost
    have := round.high
    omega
  have write := writeblock_struck mounted small (before.fs.toDevice (piece data k)) faults
  have same : (before.fs.struck faults).toDevice (piece data k) = before.fs.toDevice (piece data k) := rfl
  have fd : (before.fs.struck faults).mp.deviceFd = before.fs.mp.deviceFd := rfl
  have written : next.fs.struck faults.tail =
      (before.fs.put b (before.fs.toDevice (piece data k))).struck faults.tail := by
    rw [round.put]
  simp only [writeRound, Draft.struck, place, round.taken, round.block, same, fd, write, written]
  by_cases fails : faults[0]? = some true
  · simp only [if_pos fails]
    rfl
  · simp only [if_neg fails]
    rfl

structure Untouched (d : Nat) (fs fs' : Fs) : Prop where
  mounted : Mounted d (fs'.struck [])
  mp : fs'.mp = fs.mp
  header : ∀ c < 2, fs'.dev.image c = fs.dev.image c

/-- A data block that fails ends the loop. -/
theorem writeBlocks_lost (data : Nat → UInt8) {before : Draft} (ready : Ready d i start n k before) (faults : List Bool)
    (fails : ∃ j < n, faults[j]? = some true) :
    ∃ after, writeBlocks i start data n k (before.struck faults) = (after, false) ∧ Untouched d before.fs after.fs := by
  induction n generalizing k before faults with
  | zero =>
    obtain ⟨j, none_left, -⟩ := fails
    omega
  | succ n ih =>
    obtain ⟨index, b, next, round⟩ := ready.round data
    have mounted := ready.mounted
    rw [writeBlocks, round.struck mounted]
    by_cases first : faults[0]? = some true
    · simp only [if_pos first]
      refine ⟨_, rfl, ⟨mounted.opened, rfl, mounted.whole, mounted.atLeast, mounted.atMost⟩, rfl, fun c low => rfl⟩
    · simp only [if_neg first]
      obtain ⟨j, bound, here⟩ := fails
      cases j with
      | zero => exact absurd here first
      | succ j =>
        obtain ⟨after, done, untouched⟩ := ih round.ready faults.tail ⟨j, by omega, by rwa [List.getElem?_tail]⟩
        refine ⟨after, done, untouched.mounted, ?_, fun c low => ?_⟩
        · rw [untouched.mp, round.put, mp_put]
        · have above := round.low
          rw [untouched.header c low, round.put]
          exact Function.update_of_ne (by omega) _ _

theorem writeBlocks_kept (data : Nat → UInt8) {before : Draft} (ready : Ready d i start n k before) (faults : List Bool)
    (fine : ∀ j < n, faults[j]? ≠ some true) :
    writeBlocks i start data n k (before.struck faults) =
      ((writeBlocks i start data n k before).1.struck (faults.drop n), true) := by
  induction n generalizing k before faults with
  | zero => rfl
  | succ n ih =>
    obtain ⟨index, b, next, round⟩ := ready.round data
    have first : ¬faults[0]? = some true := fine 0 (by omega)
    have rest := ih round.ready faults.tail fun j bound => by
      rw [List.getElem?_tail]
      exact fine (j + 1) (by omega)
    rw [round.continues, writeBlocks, round.struck ready.mounted, if_neg first]
    simp only
    rw [if_neg (by omega), rest, List.drop_tail]

theorem writeBlocks_taking_none (data : Nat → UInt8) {before : Draft} (ready : Ready d i start n k before)
    (none_taken : required before.md i start k n = 0) :
    (writeBlocks i start data n k before).1.sb = before.sb ∧
      (writeBlocks i start data n k before).1.md = before.md := by
  induction n generalizing k before with
  | zero => exact ⟨rfl, rfl⟩
  | succ n ih =>
    obtain ⟨index, b, next, round⟩ := ready.round data
    have place : (start : Int) + k = (index.val : Int) := by
      have := round.place
      omega
    have total := required_succ before.md i start k n
    rw [place] at total
    have present : blocks before.md i index.val ≠ -1 := by
      intro empty
      rw [if_pos empty] at total
      omega
    have same := round.taken
    rw [allocate, if_neg present, Prod.mk.injEq] at same
    have cost := round.cost
    rw [← same.1] at cost
    have rest := ih round.ready (by omega)
    rw [round.continues, same.1, same.2]
    exact rest

end Loop

/-! ## The call -/

section Call

variable {d : Nat} {fs : Fs} {env : Env} {file : File} {size : Int} {faults : List Bool}

def Fs.finished (fs : Fs) (file : File) (data : Nat → UInt8) (size : Int) : Draft :=
  (writeBlocks file.inodeNumber ((file.offset.toNat / 512 : Nat) : Int) data (size.toNat / 512) 0 (fs.drafted file)).1

def Fs.Draft.close (draft : Draft) (env : Env) (i : Inode) (past : Int) (faults : List Bool) : Fs :=
  let md := setModtime (setFileSize draft.md i past) i env.now
  let fs := if faults[0]? = some true then draft.fs.moved 1 else draft.fs.put 1 (draft.fs.toDevice md)
  let fs := if faults[1]? = some true then fs.moved 0 else fs.put 0 draft.sb
  fs.struck (faults.drop 2)

theorem ready_drafted (mounted : Mounted d fs) (con : Consistent d fs.superblock fs.metadata)
    (used : Used fs.metadata file.inodeNumber) (low : 0 ≤ file.offset) (inside : file.offset + size ≤ 2048)
    (enough : taken fs file size ≤ (freeBlocks fs.superblock).card) :
    Ready d file.inodeNumber (file.offset.toNat / 512) (size.toNat / 512) 0 (fs.drafted file) := by
  rw [taken, newBlocksRequired_eq] at enough
  exact Ready.initial mounted con used low inside enough

theorem ewrite_struck (mounted : Mounted d fs) (low : 0 ≤ file.offset) (word : InInt (file.offset + size))
    (data : Nat → UInt8) (faults : List Bool) :
    (fs.struck faults).ewrite env file data size =
      if 2048 < file.offset + size ∨ (freeBlocks fs.superblock).card < taken fs file size then
        some (((fs.moved 1).moved 2).struck faults, file, -1)
      else
        match writeBlocks file.inodeNumber ((file.offset.toNat / 512 : Nat) : Int) data (size.toNat / 512) 0
            ((fs.drafted file).struck faults) with
        | (draft, false) => some (draft.fs, file, -1)
        | (draft, true) =>
          let md := setModtime (setFileSize draft.md file.inodeNumber (file.offset + size)) file.inodeNumber env.now
          some (((draft.fs.writeMetadata md).1.writeSuperblock draft.sb).1, eseek file (file.offset + size), size) := by
  simp only [Fs.ewrite, readSuperblock_struck mounted, readMetadata_struck (mounted.moved 1), tdiv_of_nonneg low,
    toNat_tdiv]
  rw [if_neg (not_not.mpr word)]
  by_cases large : file.offset + size > 4 * 512
  · rw [if_pos large, if_pos (Or.inl (by omega))]
  · rw [if_neg large, if_neg (not_not.mpr (accessible_of_inside _ low (by omega)))]
    have near : ¬2048 < file.offset + size := by omega
    by_cases scarce : (freeBlocks fs.superblock).card < taken fs file size
    · rw [if_pos (Or.inr scarce)]
      exact if_pos scarce
    · rw [if_neg (not_or.mpr ⟨near, scarce⟩)]
      exact if_neg scarce

theorem ewrite_closed (mounted : Mounted d fs) (con : Consistent d fs.superblock fs.metadata)
    (used : Used fs.metadata file.inodeNumber) (low : 0 ≤ file.offset) (word : InInt (file.offset + size))
    (inside : file.offset + size ≤ 2048) (enough : taken fs file size ≤ (freeBlocks fs.superblock).card)
    (env : Env) (data : Nat → UInt8) (faults : List Bool) (fine : ∀ k < size.toNat / 512, faults[k]? ≠ some true) :
    (fs.struck faults).ewrite env file data size =
      some ((fs.finished file data size).close env file.inodeNumber (file.offset + size)
          (faults.drop (size.toNat / 512)),
        eseek file (file.offset + size), size) := by
  have ready := ready_drafted mounted con used low inside enough
  obtain ⟨after, done, written, -, -⟩ := writeBlocks_written data ready
  have finished : fs.finished file data size = after := by rw [finished, done]
  have sane := written.mounted
  rw [ewrite_struck mounted low word, if_neg (not_or.mpr ⟨not_lt.mpr inside, not_lt.mpr enough⟩),
    writeBlocks_kept data ready faults fine, finished, done]
  have index : ∀ j, (faults.drop (size.toNat / 512)).tail[j]? = (faults.drop (size.toNat / 512))[j + 1]? :=
    fun j => List.getElem?_tail
  simp only [Draft.struck, Draft.close, writeMetadata_struck sane]
  by_cases first : (faults.drop (size.toNat / 512))[0]? = some true
  · simp only [if_pos first, writeSuperblock_struck (sane.moved 1), index, Nat.zero_add]
    by_cases second : (faults.drop (size.toNat / 512))[1]? = some true
    · simp only [if_pos second, List.tail_drop, List.drop_drop]
    · simp only [if_neg second, List.tail_drop, List.drop_drop]
  · simp only [if_neg first, writeSuperblock_struck (sane.put 1 _), index, Nat.zero_add]
    by_cases second : (faults.drop (size.toNat / 512))[1]? = some true
    · simp only [if_pos second, List.tail_drop, List.drop_drop]
    · simp only [if_neg second, List.tail_drop, List.drop_drop]

theorem Written.present {i : Inode} {lo hi : Nat} {f : Nat → Block} {before after : Draft}
    (written : Written d i lo hi f before after) {k : Fin 4} (low : lo ≤ k.val) (high : k.val < hi) :
    blocks after.md i k.val ≠ -1 := by
  intro empty
  have holds := congrFun written.contents (i, k)
  rw [overwritten, if_pos ⟨rfl, low, high⟩] at holds
  simp only [Fs.contents, Allocation.held, refers_of_empty (s := (i, k)) empty] at holds
  cases holds

/-! ## What the last two writes leave -/

theorem image_close_superblock (draft : Draft) (env : Env) (i : Inode) (past : Int) (faults : List Bool) :
    (draft.close env i past faults).dev.image 0 =
      if faults[1]? = some true then draft.fs.dev.image 0 else draft.sb := by
  unfold Draft.close
  by_cases first : faults[0]? = some true <;> by_cases second : faults[1]? = some true <;>
    simp [first, second, Fs.struck, Fs.moved, Fs.put]

theorem image_close_metadata (draft : Draft) (env : Env) (i : Inode) (past : Int) (faults : List Bool) :
    (draft.close env i past faults).dev.image 1 = if faults[0]? = some true then draft.fs.dev.image 1
      else draft.fs.toDevice (setModtime (setFileSize draft.md i past) i env.now) := by
  unfold Draft.close
  by_cases first : faults[0]? = some true <;> by_cases second : faults[1]? = some true <;>
    simp [first, second, Fs.struck, Fs.moved, Fs.put]

theorem image_close_data (draft : Draft) (env : Env) (i : Inode) (past : Int) (faults : List Bool) {c : Nat}
    (data : 2 ≤ c) :
    (draft.close env i past faults).dev.image c = draft.fs.dev.image c := by
  have zero : c ≠ 0 := by omega
  have one : c ≠ 1 := by omega
  unfold Draft.close
  by_cases first : faults[0]? = some true <;> by_cases second : faults[1]? = some true <;>
    simp [first, second, Fs.struck, Fs.moved, Fs.put, zero, one]

section Close

variable (mounted : Mounted d fs) (con : Consistent d fs.superblock fs.metadata)
  (used : Used fs.metadata file.inodeNumber) (low : 0 ≤ file.offset) (inside : file.offset + size ≤ 2048)
  (enough : taken fs file size ≤ (freeBlocks fs.superblock).card) (data : Nat → UInt8)

include mounted con used low inside enough

theorem finished_facts :
    Written d file.inodeNumber (file.offset.toNat / 512) (file.offset.toNat / 512 + size.toNat / 512)
        (fun j => piece data (j - file.offset.toNat / 512)) (fs.drafted file) (fs.finished file data size) ∧
      (freeBlocks (fs.finished file data size).sb).card + taken fs file size = (freeBlocks fs.superblock).card ∧
      ∀ c < 2, (fs.finished file data size).fs.dev.image c = fs.dev.image c := by
  obtain ⟨after, done, written, spent, header⟩ :=
    writeBlocks_written data (ready_drafted mounted con used low inside enough)
  have finished : fs.finished file data size = after := by rw [finished, done]
  rw [finished, taken, newBlocksRequired_eq]
  exact ⟨written, spent, header⟩

theorem superblock_finished : (fs.finished file data size).sb = fs.superblock ↔ taken fs file size = 0 := by
  constructor
  · intro same
    obtain ⟨-, spent, -⟩ := finished_facts mounted con used low inside enough data
    rw [same] at spent
    omega
  · intro none_taken
    rw [taken, newBlocksRequired_eq] at none_taken
    exact (writeBlocks_taking_none data (ready_drafted mounted con used low inside enough) none_taken).1

theorem metadata_finished (env : Env) :
    setModtime (setFileSize (fs.finished file data size).md file.inodeNumber (file.offset + size))
      file.inodeNumber env.now = fs.metadata ↔
    taken fs file size = 0 ∧ stamped env fs.metadata file.inodeNumber (file.offset + size) = fs.metadata := by
  have ready := ready_drafted mounted con used low inside enough
  have unchanged : taken fs file size = 0 →
      (fs.finished file data size).md = setStatus fs.metadata file.inodeNumber 1 := by
    intro none_taken
    rw [taken, newBlocksRequired_eq] at none_taken
    exact (writeBlocks_taking_none data ready none_taken).2
  constructor
  · intro same
    have none_taken : taken fs file size = 0 := by
      obtain ⟨written, -⟩ := finished_facts mounted con used low inside enough data
      have stamps := (sameInodes_setFileSize (fs.finished file data size).md file.inodeNumber
        (file.offset + size)).trans (sameInodes_setModtime _ file.inodeNumber env.now)
      have flagged := sameInodes_setStatus used
      rw [taken, newBlocksRequired, Finset.card_eq_zero, Finset.filter_eq_empty_iff]
      intro j member empty
      have bound := Finset.mem_range.mp member
      have fits := ready.fits (by omega)
      obtain ⟨k, place⟩ : ∃ k : Fin 4, k.val = file.offset.toNat / 512 + j := ⟨⟨_, by omega⟩, rfl⟩
      rw [← Nat.cast_add, ← place, flagged.blocks] at empty
      -- the slot holds a block after the loop, so it held one before
      have holds := written.present (k := k) (by omega) (by omega)
      have kept := stamps.blocks file.inodeNumber k
      rw [same, empty] at kept
      exact holds kept.symm
    refine ⟨none_taken, ?_⟩
    rwa [unchanged none_taken] at same
  · rintro ⟨none_taken, same⟩
    rwa [unchanged none_taken]

/-- The device is as without failures when each write that failed would have changed nothing. -/
theorem close_image_iff (env : Env) (faults : List Bool) :
    ((fs.finished file data size).close env file.inodeNumber (file.offset + size) faults).dev.image =
        ((fs.finished file data size).close env file.inodeNumber (file.offset + size) []).dev.image ↔
      (faults[0]? = some true →
        taken fs file size = 0 ∧ stamped env fs.metadata file.inodeNumber (file.offset + size) = fs.metadata) ∧
      (faults[1]? = some true → taken fs file size = 0) := by
  obtain ⟨written, -, header⟩ := finished_facts mounted con used low inside enough data
  have onto := metadata_finished mounted con used low inside enough data env
  have bitmaps := superblock_finished mounted con used low inside enough data
  -- blocks 0 and 1 before the two writes
  have sb : (fs.finished file data size).fs.dev.image 0 = fs.superblock := header 0 (by omega)
  have md : (fs.finished file data size).fs.dev.image 1 = (fs.finished file data size).fs.toDevice fs.metadata := by
    have number : (fs.finished file data size).fs.mp = fs.mp := written.mp
    rw [header 1 (by omega), toDevice, number]
    exact (fs.toDevice_fromDevice _).symm
  have unfailing : ∀ j : Nat, ([] : List Bool)[j]? ≠ some true := by simp
  constructor
  · intro same
    constructor
    · intro fails
      have here := congrFun same 1
      rw [image_close_metadata, image_close_metadata, if_pos fails, if_neg (unfailing 0), md] at here
      apply onto.mp
      rw [← (fs.finished file data size).fs.fromDevice_toDevice (setModtime _ _ _), ← here, fromDevice_toDevice]
    · intro fails
      have here := congrFun same 0
      rw [image_close_superblock, image_close_superblock, if_pos fails, if_neg (unfailing 1), sb] at here
      exact bitmaps.mp here.symm
  · rintro ⟨first, second⟩
    funext c
    have place : c = 0 ∨ c = 1 ∨ 2 ≤ c := by omega
    rcases place with rfl | rfl | data_
    · rw [image_close_superblock, image_close_superblock, if_neg (unfailing 1)]
      split
      next fails => rw [sb, bitmaps.mpr (second fails)]
      next => rfl
    · rw [image_close_metadata, image_close_metadata, if_neg (unfailing 0)]
      split
      next fails => rw [md, onto.mpr (first fails)]
      next => rfl
    · rw [image_close_data _ _ _ _ _ data_, image_close_data _ _ _ _ _ data_]

end Close

theorem Mounted.calm (mounted : Mounted d fs) (faults : List Bool) : Mounted d ((fs.struck faults).struck []) :=
  ⟨mounted.opened, rfl, mounted.whole, mounted.atLeast, mounted.atMost⟩

theorem Mounted.close {draft : Draft} (mounted : Mounted d draft.fs) (env : Env) (i : Inode) (past : Int)
    (faults : List Bool) : Mounted d ((draft.close env i past faults).struck []) := by
  unfold Draft.close
  by_cases first : faults[0]? = some true <;> by_cases second : faults[1]? = some true
  · simp only [if_pos first, if_pos second]
    exact ((mounted.moved 1).moved 0).calm _
  · simp only [if_pos first, if_neg second]
    exact ((mounted.moved 1).put 0 _).calm _
  · simp only [if_neg first, if_pos second]
    exact ((mounted.put 1 _).moved 0).calm _
  · simp only [if_neg first, if_neg second]
    exact ((mounted.put 1 _).put 0 _).calm _

theorem mp_close (draft : Draft) (env : Env) (i : Inode) (past : Int) (faults : List Bool) :
    (draft.close env i past faults).mp = draft.fs.mp := by
  unfold Draft.close
  by_cases first : faults[0]? = some true <;> by_cases second : faults[1]? = some true <;>
    simp [first, second, Fs.struck, Fs.moved, Fs.put]

theorem ewrite_overflow (mounted : Mounted d fs) (range : ¬InInt (file.offset + size)) (data : Nat → UInt8)
    (faults : List Bool) : (fs.struck faults).ewrite env file data size = none := by
  simp only [Fs.ewrite, readSuperblock_struck mounted, readMetadata_struck (mounted.moved 1)]
  exact if_pos range

end Call

/-! ## Runs with a failing ewrite -/

section World

variable {d : Nat} {w w' v : World} {h : Nat} {file : File} {env : Env} {data : Nat → UInt8} {size : Int}

theorem Coherent.unshared (coherent : Coherent d w) : Unshared w.fs.superblock w.fs.metadata where
  marked s b owned := by
    have inside := Finset.mem_Ico.mp (coherent.con.sound.inPool s b owned)
    exact (coherent.con.not_free_iff inside.1 inside.2).mp (coherent.con.sound.not_free owned)
  exclusive := coherent.con.sound.exclusive

theorem Coherent.of_untouched (coherent : Coherent d v) (untouched : Untouched d v.fs w'.fs)
    (files : ∀ h file, w'.handle h = some file → Used v.fs.metadata file.inodeNumber) : Coherent d (w'.struck []) := by
  have superblock : (w'.struck []).fs.superblock = v.fs.superblock := untouched.header 0 (by omega)
  have metadata : (w'.struck []).fs.metadata = v.fs.metadata := by
    have number : (w'.struck []).fs.mp = v.fs.mp := untouched.mp
    have image : (w'.struck []).fs.dev.image 1 = v.fs.dev.image 1 := untouched.header 1 (by omega)
    rw [Fs.metadata, Fs.metadata, image, fromDevice, fromDevice, number]
  refine ⟨untouched.mounted, ?_, fun h file opened => ?_⟩
  · rw [superblock, metadata]
    exact coherent.con
  · rw [metadata]
    exact files h file opened

theorem survived_of_coherent {c : Call} {reply : Reply} (coherent : Coherent d (w'.struck []))
    (stored : reply.ret = size → ∃ v, w.exec c = some (v, reply) ∧ w'.fs.dev.image = v.fs.dev.image) :
    Survived w c size w' reply where
  now := coherent.unshared
  later _ _ inRange reached := (coherent_run coherent inRange reached).unshared
  stored := stored

theorem exec_struck (opened : w.handle h = some file) (env : Env) (data : Nat → UInt8) (size : Int)
    (faults : List Bool) :
    (w.struck faults).exec (.ewrite env h data size) = ((w.fs.struck faults).ewrite env file data size).map fun r =>
      ({ fs := r.1, files := w.files.set h (some r.2.1) }, { ret := r.2.2, data := none }) := by
  have same : (w.struck faults).handle h = some file := opened
  have same_fs : (w.struck faults).fs = w.fs.struck faults := rfl
  simp only [World.exec, same, Option.bind_eq_bind, Option.bind_some, same_fs]
  cases (w.fs.struck faults).ewrite env file data size <;> rfl

theorem Coherent.struck_nil (coherent : Coherent d w) : w.fs.struck [] = w.fs := by
  have sane := coherent.mounted.sane
  rw [Fs.struck, ← sane]

theorem Coherent.survived_failed (coherent : Coherent d w) (opened : w.handle h = some file) (blocks : 512 ∣ size)
    {faults : List Bool} {fs' : Fs}
    (done : (w.fs.struck faults).ewrite env file data size = some (fs', file, -1)) (untouched : Untouched d w.fs fs')
    (w' : World) (reply : Reply) (call : (w.struck faults).exec (.ewrite env h data size) = some (w', reply)) :
    Survived w (.ewrite env h data size) size w' reply := by
  rw [exec_struck opened, done] at call
  cases call
  refine survived_of_coherent (coherent.of_untouched untouched fun g file' opened' => ?_) fun same => ?_
  · rw [w.handle_kept fs' opened] at opened'
    exact coherent.used g file' opened'
  · have minus : (-1 : Int) = size := same
    omega

/-- A call whose data is written is as it should be exactly when the device has become what
it would have become without failures. -/
theorem Coherent.survived_closed_iff (coherent : Coherent d w) (opened : w.handle h = some file) (low : 0 ≤ file.offset)
    (inside : file.offset + size ≤ 2048) (word : InInt (file.offset + size))
    (enough : taken w.fs file size ≤ (freeBlocks w.fs.superblock).card) {faults : List Bool}
    (fine : ∀ k < size.toNat / 512, faults[k]? ≠ some true) :
    (∀ w' reply, (w.struck faults).exec (.ewrite env h data size) = some (w', reply) →
      Survived w (.ewrite env h data size) size w' reply) ↔
    ((w.fs.finished file data size).close env file.inodeNumber (file.offset + size)
        (faults.drop (size.toNat / 512))).dev.image =
      ((w.fs.finished file data size).close env file.inodeNumber (file.offset + size) []).dev.image := by
  have mounted := coherent.mounted
  have con := coherent.con
  have used := coherent.used h file opened
  have closed := ewrite_closed mounted con used low word inside enough env data
  have struck := exec_struck opened env data size faults
  have sound := exec_struck opened env data size []
  have calm : w.struck [] = w := by rw [World.struck, coherent.struck_nil]
  rw [closed faults fine] at struck
  rw [closed [] (by simp), calm, List.drop_nil] at sound
  simp only [Option.map_some] at struck sound
  constructor
  · intro survived
    obtain ⟨v, call, same⟩ := (survived _ _ struck).stored rfl
    cases Option.some.inj (sound.symm.trans call)
    exact same
  · intro same w' reply call
    cases Option.some.inj (struck.symm.trans call)
    have written := (finished_facts mounted con used low inside enough data).1
    have inRange : InRange w (.ewrite env h data size) := fun file' opened' => by
      cases Option.some.inj (opened.symm.trans opened')
      exact low
    have after := coherent.of_outcome (exec_outcome coherent inRange sound)
    have untouched : Untouched d
        ((w.fs.finished file data size).close env file.inodeNumber (file.offset + size) [])
        ((w.fs.finished file data size).close env file.inodeNumber (file.offset + size)
          (faults.drop (size.toNat / 512))) :=
      ⟨written.mounted.close _ _ _ _, by rw [mp_close, mp_close], fun c _ => congrFun same c⟩
    exact survived_of_coherent (after.of_untouched untouched after.used) fun _ => ⟨_, sound, same⟩

theorem Coherent.survived_iff_lasting (coherent : Coherent d w) (opened : w.handle h = some file)
    (low : 0 ≤ file.offset) (blocks : 512 ∣ size) (word : InInt size) (env : Env) (data : Nat → UInt8)
    (faults : List Bool) :
    (∀ w' reply, (w.struck faults).exec (.ewrite env h data size) = some (w', reply) →
      Survived w (.ewrite env h data size) size w' reply) ↔ Lasting env w.fs file size faults := by
  have mounted := coherent.mounted
  have con := coherent.con
  have used := coherent.used h file opened
  by_cases range : InInt (file.offset + size)
  swap
  · refine iff_of_true (fun w' reply call => ?_) (Or.inl (by omega))
    rw [exec_struck opened, ewrite_overflow mounted range] at call
    cases call
  by_cases refused : 2048 < file.offset + size ∨ (freeBlocks w.fs.superblock).card < taken w.fs file size
  · have done : (w.fs.struck faults).ewrite env file data size =
        some (((w.fs.moved 1).moved 2).struck faults, file, -1) := by
      rw [ewrite_struck mounted low range, if_pos refused]
    have untouched : Untouched d w.fs (((w.fs.moved 1).moved 2).struck faults) :=
      ⟨((mounted.moved 1).moved 2).calm faults, rfl, fun _ _ => rfl⟩
    apply iff_of_true (coherent.survived_failed opened blocks done untouched)
    exact refused.elim Or.inl fun scarce => Or.inr (Or.inl scarce)
  have inside : file.offset + size ≤ 2048 := by omega
  have enough : taken w.fs file size ≤ (freeBlocks w.fs.superblock).card := by omega
  by_cases lost : ∃ k < size.toNat / 512, faults[k]? = some true
  · obtain ⟨after, stopped, untouched⟩ :=
      writeBlocks_lost data (ready_drafted mounted con used low inside enough) faults lost
    have done : (w.fs.struck faults).ewrite env file data size = some (after.fs, file, -1) := by
      rw [ewrite_struck mounted low range, if_neg refused, stopped]
    have header : Untouched d w.fs after.fs := ⟨untouched.mounted, untouched.mp, untouched.header⟩
    apply iff_of_true (coherent.survived_failed opened blocks done header)
    exact Or.inr (Or.inr (Or.inl lost))
  have fine : ∀ k < size.toNat / 512, faults[k]? ≠ some true := fun k bound here => lost ⟨k, bound, here⟩
  have image := close_image_iff mounted con used low inside enough data env (faults.drop (size.toNat / 512))
  simp only [List.getElem?_drop, Nat.add_zero] at image
  rw [coherent.survived_closed_iff opened low inside range enough fine, image]
  -- of the four ways to last only the fourth is left
  constructor
  · intro both
    exact Or.inr (Or.inr (Or.inr both))
  · intro lasting
    exact ((lasting.resolve_left (by omega)).resolve_left (by omega)).resolve_left lost

end World

/-- After any run without a failure: an `ewrite` some of whose writes fail leaves what it
should exactly when it is refused, or gives up at a data block, or each of its last two
writes either goes through or would have changed nothing. -/
theorem survived_iff {d : Nat} {n : Int} {fs : Fs} {env : Env} {calls : List Call} {w : World} {h : Nat} {file : File}
    {size : Int} (mounted : Mounted d fs) (disk : diskSize fs.superblock = d)
    (inRange : Machine.EveryStep World.step InRange (World.formatted env fs n) calls)
    (reached : Machine.run World.step (World.formatted env fs n) calls = some w) (opened : w.handle h = some file)
    (low : 0 ≤ file.offset) (blocks : 512 ∣ size) (word : InInt size) (env' : Env) (data : Nat → UInt8)
    (faults : List Bool) :
    (∀ w' reply, (w.struck faults).exec (.ewrite env' h data size) = some (w', reply) →
      Survived w (.ewrite env' h data size) size w' reply) ↔ Lasting env' w.fs file size faults := by
  have coherent := coherent_run (sane_formatted env n mounted disk).coherent inRange reached
  exact coherent.survived_iff_lasting opened low blocks word env' data faults

def openOne : List Call := [.eopen ⟨1, fun _ => 0, []⟩ fileName]

def writeOne : Call := .ewrite ⟨2, fun _ => 0, []⟩ 0 (fun _ => 7) 512

theorem inRange_openOne :
    Machine.EveryStep World.step InRange (World.formatted ⟨0, fun _ => 0, []⟩ (Fs.blank 42) 0) openOne :=
  ⟨show ([102] : List UInt8).length ≤ 9 by decide, fun _ _ => trivial⟩

theorem survived_failing_block : ∃ w w' reply,
    Machine.run World.step (World.formatted ⟨0, fun _ => 0, []⟩ (Fs.blank 42) 0) openOne = some w ∧
      (w.struck [true]).exec writeOne = some (w', reply) ∧ Survived w writeOne 512 w' reply := by
  have seen : (Machine.run World.step (World.formatted ⟨0, fun _ => 0, []⟩ (Fs.blank 42) 0) openOne).any (fun w =>
      (w.handle 0).any fun file =>
        decide (file.offset = 0) && ((w.struck [true]).exec writeOne).any fun _ => true) = true := by
    decide +kernel
  simp only [Option.any_eq_true, Bool.and_eq_true, decide_eq_true_eq, and_true] at seen
  obtain ⟨w, reached, file, opened, start, ⟨w', reply⟩, call⟩ := seen
  refine ⟨w, w', reply, reached, call, ?_⟩
  have fails : Lasting ⟨2, fun _ => 0, []⟩ w.fs file 512 [true] := Or.inr (Or.inr (Or.inl ⟨0, by decide, rfl⟩))
  exact (survived_iff (mounted_blank (by decide) le_rfl) (diskSize_blank le_rfl) inRange_openOne reached opened
    (by omega) (by decide) (by decide) ⟨2, fun _ => 0, []⟩ (fun _ => 7) [true]).mpr fails w' reply call

/-- The inode is written, the bitmap is not: the file's block is still free for another. -/
theorem not_survived_superblock : ¬∀ (d : Nat) (n : Int) (fs : Fs) (env : Env) (calls : List Call) (w : World) (h : Nat)
    (file : File) (size : Int), Mounted d fs → diskSize fs.superblock = d →
    Machine.EveryStep World.step InRange (World.formatted env fs n) calls →
    Machine.run World.step (World.formatted env fs n) calls = some w → w.handle h = some file →
    0 ≤ file.offset → file.offset ≤ 2048 → 512 ∣ size → InInt size → ∀ env' data faults w' reply,
      (w.struck faults).exec (.ewrite env' h data size) = some (w', reply) →
      Survived w (.ewrite env' h data size) size w' reply := by
  intro claimed
  have seen : (Machine.run World.step (World.formatted ⟨0, fun _ => 0, []⟩ (Fs.blank 42) 0) openOne).any (fun w =>
      (w.handle 0).any fun file =>
        decide (file.offset = 0) && ((w.struck [false, false, true]).exec writeOne).any fun r =>
          decide (refers r.1.fs.metadata (0, 0) = some 2) && decide (bitmap r.1.fs.superblock 2 = free)) = true := by
    decide +kernel
  simp only [Option.any_eq_true, Bool.and_eq_true, decide_eq_true_eq] at seen
  obtain ⟨w, reached, file, opened, start, ⟨w', reply⟩, call, owned, unmarked⟩ := seen
  have survived := claimed 42 0 (Fs.blank 42) ⟨0, fun _ => 0, []⟩ openOne w 0 file 512
    (mounted_blank (by decide) le_rfl) (diskSize_blank le_rfl) inRange_openOne reached opened (by omega) (by omega)
    (by decide) (by decide) _ _ _ w' reply call
  have marked := survived.now.marked (0, 0) 2 owned
  rw [unmarked] at marked
  cases marked

end OsLabs.Emufs
