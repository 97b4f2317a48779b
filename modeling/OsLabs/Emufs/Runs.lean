import OsLabs.Emufs.Calls

/-! Runs of calls on a formatted device: the state every call keeps, and what each
call can have done in such a state. -/

set_option autoImplicit false

namespace OsLabs.Emufs

open OsLabs.Lib
open Superblock Metadata Fs

/-! ## Formatting -/

section Format

variable {d : Nat} {fs : Fs} (env : Env) (n : Int)

theorem status_formattedMetadata (garbage : Block) (i : Inode) : status (formattedMetadata garbage) i = 0 := by
  have cleared : ∀ (m : Nat) (bound : m ≤ 10) (j : Inode), j.val < m →
      status ((List.range m).foldl (fun md k => setStatus md k 0) garbage) j = 0 := by
    intro m
    induction m with
    | zero => intro _ j less; omega
    | succ m ih =>
      intro bound j less
      have last := status_setStatus ((List.range m).foldl (fun md k => setStatus md k 0) garbage)
        ⟨m, by omega⟩ j (v := 0) (by omega) (by omega)
      rw [List.range_succ, List.foldl_append]
      simp only [List.foldl_cons, List.foldl_nil]
      rw [last]
      split
      · rfl
      next other =>
        rw [Fin.ext_iff] at other
        exact ih (by omega) j (by simp only at other; omega)
  exact cleared 10 le_rfl i i.isLt

theorem diskSize_formattedSuperblock (sb : Block) : diskSize (formattedSuperblock sb n) = diskSize sb := by
  simp [formattedSuperblock]

theorem bitmap_formattedSuperblock {sb : Block} (size : diskSize sb = d) (atLeast : 2 ≤ d) {b : Nat} (bound : b < 42) :
    bitmap (formattedSuperblock sb n) b = if b < 2 then allocated else if b < d then free else notExisting := by
  have past : max 2 (diskSize (setBitmap (setBitmap (setFsNumber sb n) 0 allocated) 1 allocated)).toNat = d := by
    simp [size, atLeast]
  unfold formattedSuperblock
  simp only [past]
  rw [bitmap_fillBitmap _ _ bound, bitmap_fillBitmap _ _ bound, bitmap_setBitmap _ _ bound, bitmap_setBitmap _ _ bound]
  split_ifs <;> first | rfl | omega

def Fs.numbered (fs : Fs) (n : Int) : Fs := { fs.moved 1 with mp := { fs.mp with fsNumber := n } }

theorem Mounted.numbered (mounted : Mounted d fs) : Mounted d (fs.numbered n) :=
  ⟨mounted.opened, mounted.sane, mounted.whole, mounted.atLeast, mounted.atMost⟩

theorem createFileSystem_eq (mounted : Mounted d fs) : fs.createFileSystem env n =
    (((fs.numbered n).put 0 (formattedSuperblock fs.superblock n)).put 1
      (((fs.numbered n).put 0 (formattedSuperblock fs.superblock n)).toDevice (formattedMetadata env.garbage)), 1) := by
  have sane := mounted.numbered n
  have first := sane.writeSuperblock (formattedSuperblock fs.superblock n)
  have second := (sane.put 0 (formattedSuperblock fs.superblock n)).writeMetadata (formattedMetadata env.garbage)
  simp only [numbered] at first second ⊢
  simp only [Fs.createFileSystem, mounted.readSuperblock, mp_moved, first]
  rw [if_neg (by omega), second, if_neg (by omega)]

theorem createFileSystem_spec (mounted : Mounted d fs) (size : diskSize fs.superblock = d) :
    ∃ fs', fs.createFileSystem env n = (fs', 1) ∧ Mounted d fs' ∧ fs'.mp.fsNumber = n ∧
      Consistent d fs'.superblock fs'.metadata ∧ ∀ i : Inode, ¬Used fs'.metadata i := by
  have sane := mounted.numbered n
  have atMost := mounted.atMost
  let sb := formattedSuperblock fs.superblock n
  let md := formattedMetadata env.garbage
  have cleared : ∀ i : Inode, ¬Used md i := fun i used => by
    rw [Used, status_formattedMetadata] at used
    omega
  refine ⟨_, createFileSystem_eq env n mounted, (sane.put 0 sb).put 1 _, rfl, ?_, ?_⟩
  · rw [superblock_put_of_ne _ _ _ (by omega), superblock_put_self, metadata_put_self]
    have mark := fun {b : Nat} (bound : b < 42) => bitmap_formattedSuperblock n size mounted.atLeast bound
    have pool : freeBlocks sb = Finset.Ico 2 d := by
      ext b
      rw [mem_freeBlocks ((diskSize_formattedSuperblock n _).trans size), Finset.mem_Ico]
      refine ⟨And.left, fun inside => ⟨inside, ?_⟩⟩
      rw [mark (by omega), if_neg (by omega), if_pos inside.2]
    refine
      { size := (diskSize_formattedSuperblock n _).trans size
        header := ⟨mark (by omega), mark (by omega)⟩
        marked := fun b low high => Or.inl ?_
        beyond := fun b low high => ?_
        flagged := fun i => Or.inl (status_formattedMetadata _ i)
        atLeast := fun i _ used => absurd used (cleared i)
        sound := ?_
        short := fun i used => absurd used (cleared i)
        names := fun i _ used => absurd used (cleared i) }
    · rw [mark (by omega), if_neg (by omega), if_pos high]
    · have atLeast := mounted.atLeast
      rw [mark high, if_neg (by omega), if_neg (by omega)]
    · rw [pool]
      exact Allocation.Sound.of_no_owner fun s => refers_of_unused (cleared s.1)
  · rw [metadata_put_self]
    exact cleared

end Format

/-! ## Handles -/

namespace World

theorem handle_append (w : World) (fs : Fs) (file : File) (h : Nat) :
    handle { fs, files := w.files ++ [some file] } h = if h = w.files.length then some file else w.handle h := by
  unfold handle
  by_cases last : h = w.files.length
  · simp [last]
  · simp only [List.getElem?_append, last, if_false]
    split
    · rfl
    · rw [List.getElem?_eq_none (by simp; omega), List.getElem?_eq_none (by omega)]

theorem handle_set (w : World) (fs : Fs) {g : Nat} {file : File} (opened : w.handle g = some file)
    (file' : Option File) (h : Nat) :
    handle { fs, files := w.files.set g file' } h = if h = g then file' else w.handle h := by
  have bound : g < w.files.length := by
    by_contra beyond
    rw [handle, List.getElem?_eq_none (by omega)] at opened
    cases opened
  unfold handle
  by_cases same : h = g
  · simp [same, bound]
  · rw [List.getElem?_set_ne (Ne.symm same), if_neg same]

theorem handle_kept (w : World) (fs : Fs) {g : Nat} {file : File} (opened : w.handle g = some file) :
    handle { fs, files := w.files.set g (some file) } = w.handle := by
  funext h
  rw [w.handle_set fs opened]
  split
  next same => rw [same, opened]
  next => rfl

section Handled

variable {w w' : World} {reply : Reply} {env : Env} {h : Nat} {data : Nat → UInt8} {size offset : Int}

theorem exec_eseek (call : w.exec (.eseek h offset) = some (w', reply)) :
    ∃ file, w.handle h = some file ∧ w' = { w with files := w.files.set h (some (Emufs.eseek file offset)) } ∧
      reply = { ret := 1, data := none } := by
  obtain ⟨file, opened, result⟩ := Option.bind_eq_some_iff.mp call
  cases result
  exact ⟨file, opened, rfl, rfl⟩

theorem exec_ewrite (call : w.exec (.ewrite env h data size) = some (w', reply)) :
    ∃ file fs file' ret, w.handle h = some file ∧ w.fs.ewrite env file data size = some (fs, file', ret) ∧
      w' = { fs, files := w.files.set h (some file') } ∧ reply = { ret, data := none } := by
  obtain ⟨file, opened, rest⟩ := Option.bind_eq_some_iff.mp call
  obtain ⟨⟨fs, file', ret⟩, written, result⟩ := Option.bind_eq_some_iff.mp rest
  cases result
  exact ⟨file, fs, file', ret, opened, written, rfl, rfl⟩

theorem exec_eread (call : w.exec (.eread env h data size) = some (w', reply)) :
    ∃ file fs file' data' ret, w.handle h = some file ∧ w.fs.eread env file data size = some (fs, file', data', ret) ∧
      w' = { fs, files := w.files.set h (some file') } ∧ reply = { ret, data := some data' } := by
  obtain ⟨file, opened, rest⟩ := Option.bind_eq_some_iff.mp call
  obtain ⟨⟨fs, file', data', ret⟩, read, result⟩ := Option.bind_eq_some_iff.mp rest
  cases result
  exact ⟨file, fs, file', data', ret, opened, read, rfl, rfl⟩

theorem exec_eclose (call : w.exec (.eclose h) = some (w', reply)) :
    ∃ file, w.handle h = some file ∧ w' = { w with files := w.files.set h none } ∧
      reply = { ret := 0, data := none } := by
  obtain ⟨file, opened, result⟩ := Option.bind_eq_some_iff.mp call
  cases result
  exact ⟨file, opened, rfl, rfl⟩

end Handled

end World

/-! ## Runs -/

/-- The calls the interface documents: names that fit their field, offsets
0 .. 2048 for `eseek` and sizes that are not negative. -/
def Documented (_ : World) : Call → Prop
  | .eopen _ filename => filename.val.length ≤ 9
  | .eseek _ offset => 0 ≤ offset ∧ offset ≤ 2048
  | .ewrite _ _ _ size => 0 ≤ size
  | .eread _ _ _ size => 0 ≤ size
  | .eclose _ => True

structure Sane (d : Nat) (w : World) : Prop where
  mounted : Mounted d w.fs
  con : Consistent d w.fs.superblock w.fs.metadata
  used : ∀ h file, w.handle h = some file → Used w.fs.metadata file.inodeNumber
  offset : ∀ h file, w.handle h = some file → 0 ≤ file.offset

structure Coherent (d : Nat) (w : World) : Prop where
  mounted : Mounted d w.fs
  con : Consistent d w.fs.superblock w.fs.metadata
  used : ∀ h file, w.handle h = some file → Used w.fs.metadata file.inodeNumber

/-- Names fit their field, and data is moved at offsets that are not negative, wherever
`eseek` has put a handle in between. -/
def InRange (w : World) : Call → Prop
  | .eopen _ filename => filename.val.length ≤ 9
  | .eseek _ _ => True
  | .ewrite _ h _ _ => ∀ file, w.handle h = some file → 0 ≤ file.offset
  | .eread _ h _ size => 0 ≤ size ∧ ∀ file, w.handle h = some file → 0 ≤ file.offset
  | .eclose _ => True

theorem Sane.coherent {d : Nat} {w : World} (sane : Sane d w) : Coherent d w := ⟨sane.mounted, sane.con, sane.used⟩

theorem Sane.inRange {d : Nat} {w : World} {c : Call} (sane : Sane d w) (documented : Documented w c) :
    InRange w c := by
  cases c with
  | eopen env filename => exact documented
  | eseek h offset => trivial
  | ewrite env h data size => exact sane.offset h
  | eread env h data size => exact ⟨documented, sane.offset h⟩
  | eclose h => trivial

def Outcome (d : Nat) (w w' : World) (reply : Reply) : Call → Prop
  | .eopen _ filename =>
    (reply.ret = -1 ∧ Kept d w.fs w'.fs ∧ w'.handle = w.handle) ∨
    ∃ i, reply.ret = w.files.length ∧ Opened d filename i w.fs w'.fs ∧
      ∀ h, w'.handle h = if h = w.files.length then some { offset := 0, inodeNumber := i } else w.handle h
  | .eseek g offset => ∃ file, w.handle g = some file ∧ w'.fs = w.fs ∧
      ∀ h, w'.handle h = if h = g then some (eseek file offset) else w.handle h
  | .ewrite _ g data size => ∃ file, w.handle g = some file ∧
      ((reply.ret = -1 ∧ Kept d w.fs w'.fs ∧ w'.handle = w.handle) ∨
       (reply.ret = size ∧ file.offset + size ≤ 2048 ∧
        Overwrote d file.inodeNumber (file.offset.toNat / 512) (file.offset.toNat / 512 + size.toNat / 512)
          (fun j => piece data (j - file.offset.toNat / 512)) w.fs w'.fs ∧
        ∀ h, w'.handle h = if h = g then some (eseek file (file.offset + size)) else w.handle h))
  | .eread _ g _ size => ∃ file, w.handle g = some file ∧ Kept d w.fs w'.fs ∧
      ((reply.ret = -1 ∧ w'.handle = w.handle ∧
        ¬Present w.fs.metadata file.inodeNumber (file.offset.toNat / 512) (size.toNat / 512)) ∨
       (reply.ret = size ∧ Present w.fs.metadata file.inodeNumber (file.offset.toNat / 512) (size.toNat / 512) ∧
        ∀ h, w'.handle h = if h = g then some (eseek file (file.offset + size)) else w.handle h))
  | .eclose g => ∃ file, w.handle g = some file ∧ w'.fs = w.fs ∧
      ∀ h, w'.handle h = if h = g then none else w.handle h

theorem exec_outcome {d : Nat} {w w' : World} {c : Call} {reply : Reply} (coherent : Coherent d w)
    (inRange : InRange w c) (call : w.exec c = some (w', reply)) : Outcome d w w' reply c := by
  cases c with
  | eopen env filename =>
    rcases eopen_spec env coherent.mounted coherent.con inRange with ⟨fs', opened, kept⟩ | ⟨fs', i, opened, spec⟩
    · simp only [World.exec, opened, Option.some.injEq, Prod.mk.injEq] at call
      obtain ⟨rfl, rfl⟩ := call
      exact Or.inl ⟨rfl, kept, rfl⟩
    · simp only [World.exec, opened, Option.some.injEq, Prod.mk.injEq] at call
      obtain ⟨rfl, rfl⟩ := call
      exact Or.inr ⟨i, rfl, spec, w.handle_append fs' _⟩
  | eseek g offset =>
    obtain ⟨file, opened, rfl, rfl⟩ := World.exec_eseek call
    exact ⟨file, opened, rfl, w.handle_set w.fs opened _⟩
  | ewrite env g data size =>
    obtain ⟨file, fs', file', ret, opened, written, rfl, rfl⟩ := World.exec_ewrite call
    refine ⟨file, opened, ?_⟩
    rcases ewrite_spec coherent.mounted coherent.con (coherent.used g file opened) (inRange file opened) written with
      ⟨failed, rfl, kept⟩ | ⟨done, fits, rfl, spec⟩
    · exact Or.inl ⟨failed, kept, w.handle_kept fs' opened⟩
    · exact Or.inr ⟨done, fits, spec, w.handle_set fs' opened _⟩
  | eread env g data size =>
    obtain ⟨file, fs', file', data', ret, opened, read, rfl, rfl⟩ := World.exec_eread call
    obtain ⟨kept, either⟩ := eread_spec coherent.mounted coherent.con (coherent.used g file opened)
      (inRange.2 file opened) inRange.1 read
    refine ⟨file, opened, kept, ?_⟩
    rcases either with ⟨failed, rfl, absent⟩ | ⟨done, rfl, present, -⟩
    · exact Or.inl ⟨failed, w.handle_kept fs' opened, absent⟩
    · exact Or.inr ⟨done, present, w.handle_set fs' opened _⟩
  | eclose g =>
    obtain ⟨file, opened, rfl, rfl⟩ := World.exec_eclose call
    exact ⟨file, opened, rfl, w.handle_set w.fs opened _⟩

def Defined (w : World) : Call → Prop
  | .eopen _ _ => True
  | .eseek h _ => ∃ file, w.handle h = some file
  | .ewrite _ h _ size => ∃ file, w.handle h = some file ∧ InInt (file.offset + size)
  | .eread _ h _ size => ∃ file, w.handle h = some file ∧ InInt (file.offset + size)
  | .eclose h => ∃ file, w.handle h = some file

/-- Calls in range never leave an inode's `blocks` nor fail to return. -/
theorem exec_isSome {d : Nat} {w : World} {c : Call} (coherent : Coherent d w) (inRange : InRange w c)
    (defined : Defined w c) : (w.exec c).isSome := by
  cases c with
  | eopen env filename =>
    simp only [World.exec]
    split <;> rfl
  | eseek g offset =>
    obtain ⟨file, opened⟩ := defined
    simp [World.exec, opened]
  | eclose g =>
    obtain ⟨file, opened⟩ := defined
    simp [World.exec, opened]
  | ewrite env g data size =>
    obtain ⟨file, opened, range⟩ := defined
    have low : 0 ≤ file.offset := inRange file opened
    suffices some_ : (w.fs.ewrite env file data size).isSome by
      obtain ⟨result, done⟩ := Option.isSome_iff_exists.mp some_
      simp [World.exec, opened, done]
    simp only [Fs.ewrite, coherent.mounted.readSuperblock, (coherent.mounted.moved 1).readMetadata]
    rw [if_neg (not_not.mpr range)]
    split
    next => rfl
    next inside =>
      -- an end of at most 2048 keeps the loop in the array, whichever of its blocks are missing
      rw [tdiv_of_nonneg low, if_neg (not_not.mpr (accessible_of_inside _ low (by omega)))]
      split
      · rfl
      · split <;> rfl
  | eread env g data size =>
    obtain ⟨positive, inRange⟩ := inRange
    obtain ⟨file, opened, range⟩ := defined
    have low : 0 ≤ file.offset := inRange file opened
    suffices some_ : (w.fs.eread env file data size).isSome by
      obtain ⟨result, done⟩ := Option.isSome_iff_exists.mp some_
      simp [World.exec, opened, done]
    simp only [Fs.eread, coherent.mounted.readSuperblock, (coherent.mounted.moved 1).readMetadata]
    rw [tdiv_of_nonneg positive, tdiv_of_nonneg low]
    split
    next => rfl
    next inside =>
      rw [if_neg (not_not.mpr (accessible_of_fits _ (by omega)))]
      split
      · rfl
      · split <;> rfl

theorem Kept.used_iff {d : Nat} {fs fs' : Fs} (kept : Kept d fs fs') (i : Inode) :
    Used fs'.metadata i ↔ Used fs.metadata i := by
  rw [kept.metadata]

theorem Overwrote.used_iff {d : Nat} {i : Inode} {lo hi : Nat} {f : Nat → Block} {fs fs' : Fs}
    (wrote : Overwrote d i lo hi f fs fs') (j : Inode) : Used fs'.metadata j ↔ Used fs.metadata j := by
  rw [Used, Used, wrote.status]

namespace Coherent

variable {d : Nat} {w w' : World}

theorem of_kept (coherent : Coherent d w) (kept : Kept d w.fs w'.fs)
    (files : ∀ h file, w'.handle h = some file → Used w.fs.metadata file.inodeNumber) : Coherent d w' where
  mounted := kept.mounted
  con := by
    rw [kept.superblock, kept.metadata]
    exact coherent.con
  used h file opened := (kept.used_iff _).mpr (files h file opened)

theorem files_set (coherent : Coherent d w) {g : Nat} {file : File} (moved : Option Int)
    (opened : w.handle g = some file)
    (others : ∀ h, w'.handle h = if h = g then moved.map (eseek file) else w.handle h) (h : Nat) (file' : File)
    (after : w'.handle h = some file') : Used w.fs.metadata file'.inodeNumber := by
  rw [others] at after
  split at after
  · obtain ⟨o, -, rfl⟩ := Option.map_eq_some_iff.mp after
    exact coherent.used g file opened
  · exact coherent.used h file' after

theorem of_outcome {c : Call} {reply : Reply} (coherent : Coherent d w) (outcome : Outcome d w w' reply c) :
    Coherent d w' := by
  have same : w'.handle = w.handle → ∀ h file, w'.handle h = some file → Used w.fs.metadata file.inodeNumber := by
    intro handles h file opened
    rw [handles] at opened
    exact coherent.used h file opened
  -- eseek and eclose do not come to the device
  have unmoved : w'.fs = w.fs → Kept d w.fs w'.fs := by
    intro equal
    rw [equal]
    exact ⟨coherent.mounted, rfl, rfl, rfl, rfl⟩
  cases c with
  | eopen env filename =>
    rcases outcome with ⟨-, kept, handles⟩ | ⟨i, -, opened, handles⟩
    · exact coherent.of_kept kept (same handles)
    · refine ⟨opened.mounted, opened.con, fun h file after => ?_⟩
      rw [handles] at after
      split at after
      · cases after
        exact (opened.used i).mpr (Or.inr rfl)
      · exact (opened.used _).mpr (Or.inl (coherent.used h file after))
  | eseek g offset =>
    obtain ⟨file, opened, equal, handles⟩ := outcome
    exact coherent.of_kept (unmoved equal) (coherent.files_set (some offset) opened handles)
  | ewrite env g data size =>
    obtain ⟨file, opened, ⟨-, kept, handles⟩ | ⟨-, -, wrote, handles⟩⟩ := outcome
    · exact coherent.of_kept kept (same handles)
    · have files := coherent.files_set (some (file.offset + size)) opened handles
      exact ⟨wrote.mounted, wrote.con, fun h file' after => (wrote.used_iff _).mpr (files h file' after)⟩
  | eread env g data size =>
    obtain ⟨file, opened, kept, ⟨-, handles, -⟩ | ⟨-, -, handles⟩⟩ := outcome
    · exact coherent.of_kept kept (same handles)
    · exact coherent.of_kept kept (coherent.files_set (some (file.offset + size)) opened handles)
  | eclose g =>
    obtain ⟨file, opened, equal, handles⟩ := outcome
    exact coherent.of_kept (unmoved equal) (coherent.files_set none opened handles)

end Coherent

theorem coherent_step {d : Nat} {w w' : World} {c : Call} (coherent : Coherent d w) (inRange : InRange w c)
    (step : World.step w c = some w') : Coherent d w' := by
  obtain ⟨⟨next, reply⟩, call, same⟩ := Option.map_eq_some_iff.mp step
  cases same
  exact coherent.of_outcome (exec_outcome coherent inRange call)

theorem coherent_run {d : Nat} {w w' : World} {calls : List Call} (coherent : Coherent d w)
    (inRange : Machine.EveryStep World.step InRange w calls)
    (reached : Machine.run World.step w calls = some w') : Coherent d w' :=
  Machine.invariant_of_everyStep (I := Coherent d) (fun _ _ _ => coherent_step) coherent inRange reached

namespace Sane

variable {d : Nat} {w w' : World}

theorem offset_set (sane : Sane d w) {g : Nat} (file : File) (moved : Option Int)
    (low : ∀ o, moved = some o → 0 ≤ o)
    (others : ∀ h, w'.handle h = if h = g then moved.map (eseek file) else w.handle h) (h : Nat) (file' : File)
    (after : w'.handle h = some file') : 0 ≤ file'.offset := by
  rw [others] at after
  split at after
  · obtain ⟨o, place, rfl⟩ := Option.map_eq_some_iff.mp after
    exact low o place
  · exact sane.offset h file' after

theorem of_outcome {c : Call} {reply : Reply} (sane : Sane d w) (documented : Documented w c)
    (outcome : Outcome d w w' reply c) : Sane d w' := by
  obtain ⟨mounted, con, used⟩ := sane.coherent.of_outcome outcome
  refine ⟨mounted, con, used, ?_⟩
  have same : w'.handle = w.handle → ∀ h file, w'.handle h = some file → 0 ≤ file.offset := by
    intro handles h file opened
    rw [handles] at opened
    exact sane.offset h file opened
  cases c with
  | eopen env filename =>
    rcases outcome with ⟨-, -, handles⟩ | ⟨i, -, -, handles⟩
    · exact same handles
    · intro h file after
      rw [handles] at after
      split at after
      · cases after
        exact le_rfl
      · exact sane.offset h file after
  | eseek g offset =>
    obtain ⟨file, -, -, handles⟩ := outcome
    exact sane.offset_set file (some offset) (by rintro o ⟨⟩; exact documented.1) handles
  | ewrite env g data size =>
    have positive : 0 ≤ size := documented
    obtain ⟨file, opened, ⟨-, -, handles⟩ | ⟨-, -, -, handles⟩⟩ := outcome
    · exact same handles
    · have low := sane.offset g file opened
      exact sane.offset_set file (some (file.offset + size)) (by rintro o ⟨⟩; omega) handles
  | eread env g data size =>
    have positive : 0 ≤ size := documented
    obtain ⟨file, opened, -, ⟨-, handles, -⟩ | ⟨-, -, handles⟩⟩ := outcome
    · exact same handles
    · have low := sane.offset g file opened
      exact sane.offset_set file (some (file.offset + size)) (by rintro o ⟨⟩; omega) handles
  | eclose g =>
    obtain ⟨file, -, -, handles⟩ := outcome
    exact sane.offset_set file none nofun handles

end Sane

theorem sane_step {d : Nat} {w w' : World} {c : Call} (sane : Sane d w) (documented : Documented w c)
    (step : World.step w c = some w') : Sane d w' := by
  obtain ⟨⟨next, reply⟩, call, same⟩ := Option.map_eq_some_iff.mp step
  cases same
  exact sane.of_outcome documented (exec_outcome sane.coherent (sane.inRange documented) call)

def World.formatted (env : Env) (fs : Fs) (n : Int) : World :=
  { fs := (fs.createFileSystem env n).1, files := [] }

theorem sane_formatted {d : Nat} {fs : Fs} (env : Env) (n : Int) (mounted : Mounted d fs)
    (size : diskSize fs.superblock = d) : Sane d (World.formatted env fs n) := by
  obtain ⟨fs', format, sane, -, con, -⟩ := createFileSystem_spec env n mounted size
  have none_open : ∀ h, (World.formatted env fs n).handle h = none := fun h => rfl
  refine ⟨?_, ?_, fun h file opened => ?_, fun h file opened => ?_⟩
  · rw [World.formatted, format]
    exact sane
  · rw [World.formatted, format]
    exact con
  · rw [none_open] at opened
    cases opened
  · rw [none_open] at opened
    cases opened

/-- A mounted image of `d` blocks that hold nothing but the size of the disk. -/
def Fs.blank (d : Nat) : Fs where
  dev := { image := fun _ => Bytes.storeInt (fun _ => 0) 24 d, extent := d, pos := 0, faults := [] }
  mp := { deviceFd := 3, fsNumber := -1 }

def fileName : CString := ⟨[102], by decide⟩

theorem mounted_blank {d : Nat} (atLeast : 2 ≤ d) (atMost : d ≤ 42) : Mounted d (Fs.blank d) :=
  ⟨show (0 : Int) < 3 by decide, rfl, le_rfl, atLeast, atMost⟩

theorem diskSize_blank {d : Nat} (atMost : d ≤ 42) : diskSize (Fs.blank d).superblock = d :=
  Bytes.loadInt_storeInt _ (by omega) (by omega) (by omega)

theorem sane_run {d : Nat} {w w' : World} {calls : List Call} (sane : Sane d w)
    (documented : Machine.EveryStep World.step Documented w calls)
    (reached : Machine.run World.step w calls = some w') : Sane d w' :=
  Machine.invariant_of_everyStep (I := Sane d) (fun _ _ _ => sane_step) sane documented reached

instance (w : World) (c : Call) : Decidable (Documented w c) :=
  match c with
  | .eopen _ _ | .ewrite _ _ _ _ | .eread _ _ _ _ => inferInstanceAs (Decidable (_ ≤ _))
  | .eseek _ _ => inferInstanceAs (Decidable (_ ∧ _))
  | .eclose _ => isTrue trivial

/-- Two files of two blocks and one; then a block of the first is written over and the second is read. -/
def twoWritten : List Call :=
  [.eopen ⟨1, fun _ => 0, []⟩ ⟨[102], by decide⟩, .ewrite ⟨2, fun _ => 0, []⟩ 0 (fun _ => 7) 1024,
    .eopen ⟨3, fun _ => 0, []⟩ ⟨[103], by decide⟩, .ewrite ⟨4, fun _ => 0, []⟩ 1 (fun _ => 9) 512,
    .eseek 0 512, .ewrite ⟨5, fun _ => 0, []⟩ 0 (fun _ => 8) 512, .eseek 1 0,
    .eread ⟨6, fun _ => 0, []⟩ 1 (fun _ => 0) 512]

end OsLabs.Emufs
