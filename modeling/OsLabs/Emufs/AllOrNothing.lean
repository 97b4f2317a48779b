import OsLabs.Emufs.Inodes

/-! When the calls fail and what is left of a call that fails: nothing but the position in
the image file, which no later call sees. -/

set_option autoImplicit false

namespace OsLabs.Emufs

open OsLabs.Lib
open Superblock Metadata Fs

def unallocated (md : Block) (i : Inode) (offset size : Int) : Nat :=
  (Finset.univ.filter fun k : Fin 4 =>
    offset / 512 ≤ k.val ∧ k.val < offset / 512 + size / 512 ∧ blocks md i k.val = -1).card

def zeros (sb : Block) : Nat := ((Finset.range 42).filter fun b => bitmap sb b = free).card

def World.reply (w : World) (c : Call) : Option Reply := (w.exec c).map Prod.snd

/-- The image, every handle and the replies to whatever calls come later are the same. -/
structure Unnoticed (w w' : World) : Prop where
  image : w'.fs.dev.image = w.fs.dev.image
  extent : w'.fs.dev.extent = w.fs.dev.extent
  handles : w'.handle = w.handle
  later : ∀ calls, Machine.observations World.step World.reply w' calls =
    Machine.observations World.step World.reply w calls

/-- `eopen`, `ewrite` and `eread` report a failure with -1. -/
def Reports (size : Int → Prop) : Call → Prop
  | .eopen _ _ => True
  | .ewrite _ _ _ n => size n
  | .eread _ _ _ n => size n
  | .eseek _ _ => False
  | .eclose _ => False

structure AllOrNothing (w : World) : Prop where
  ewrite : ∀ (env : Env) (h : Nat) (data : Nat → UInt8) (size : Int) (file : File), 0 ≤ size → size ≤ 2048 →
    w.handle h = some file → ∃ w' reply, w.exec (.ewrite env h data size) = some (w', reply) ∧
      (reply.ret = -1 ↔ 2048 < file.offset + size ∨
        zeros w.fs.superblock < unallocated w.fs.metadata file.inodeNumber file.offset size) ∧
      (reply.ret ≠ -1 → ∀ b ∈ writeTargets file.inodeNumber (file.offset.tdiv 512) data (size.tdiv 512).toNat 0
        (w.fs.drafted file), 2 ≤ b ∧ (b : Int) < diskSize w.fs.superblock)
  eopen : ∀ (env : Env) (filename : CString), ∃ w' reply, w.exec (.eopen env filename) = some (w', reply) ∧
    (reply.ret = -1 ↔ (∀ i : Inode, Used w.fs.metadata i → name w.fs.metadata i ≠ filename) ∧
      ∀ i : Inode, Used w.fs.metadata i)
  failed : ∀ (c : Call) (w' : World) (reply : Reply), Reports (0 ≤ ·) c → w.exec c = some (w', reply) →
    reply.ret = -1 → Unnoticed w w'

/-! ## Counting -/

section Counting

variable {d : Nat} {sb md : Block}

theorem Consistent.zeros_eq (con : Consistent d sb md) (small : d ≤ 42) : zeros sb = (freeBlocks sb).card := by
  apply congrArg Finset.card
  ext b
  rw [Finset.mem_filter, Finset.mem_range, mem_freeBlocks con.size]
  constructor
  · rintro ⟨bound, open_⟩
    -- neither the header nor what lies past the device is marked '0'
    have low : b ≠ 0 ∧ b ≠ 1 := by
      constructor
      · rintro rfl
        rw [con.header.1] at open_
        cases open_
      · rintro rfl
        rw [con.header.2] at open_
        cases open_
    have high : b < d := by
      by_contra past
      rw [con.beyond b (not_lt.mp past) bound] at open_
      cases open_
    exact ⟨⟨by omega, high⟩, open_⟩
  · rintro ⟨inside, open_⟩
    exact ⟨by omega, open_⟩

theorem unallocated_eq (md : Block) (i : Inode) {offset size : Int} (low : 0 ≤ offset) (positive : 0 ≤ size)
    (inside : offset + size ≤ 2048) :
    newBlocksRequired (setStatus md i 1) i (offset.tdiv 512) (size.tdiv 512).toNat = unallocated md i offset size := by
  symm
  rw [tdiv_of_nonneg low, toNat_tdiv]
  apply Finset.card_bij fun (k : Fin 4) _ => k.val - offset.toNat / 512
  · intro k member
    simp only [Finset.mem_filter, Finset.mem_univ, true_and] at member
    rw [Finset.mem_filter, Finset.mem_range]
    have index : ((offset.toNat / 512 : Nat) : Int) + ((k.val - offset.toNat / 512 : Nat) : Int) = k.val := by omega
    rw [index, blocks_setStatus]
    exact ⟨by omega, member.2.2⟩
  · intro k first l second same
    simp only [Finset.mem_filter, Finset.mem_univ, true_and] at first second
    exact Fin.ext (by omega)
  · intro k member
    rw [Finset.mem_filter, Finset.mem_range] at member
    have bound : offset.toNat / 512 + k < 4 := by omega
    have entry := blocks_setStatus md i i 1 ⟨offset.toNat / 512 + k, bound⟩
    rw [Nat.cast_add, member.2] at entry
    refine ⟨⟨offset.toNat / 512 + k, bound⟩, ?_, Nat.add_sub_cancel_left _ _⟩
    simp only [Finset.mem_filter, Finset.mem_univ, true_and]
    exact ⟨by omega, by omega, by rw [Nat.cast_add]; exact entry.symm⟩

end Counting

/-! ## Failures -/

section Failures

variable {d : Nat} {w w' : World} {c : Call} {reply : Reply}

theorem unnoticed_of_moved (mounted : Mounted d w.fs) {pos : Nat} (moved : w' = { w with fs := w.fs.moved pos }) :
    Unnoticed w w' := by
  subst moved
  refine ⟨rfl, rfl, rfl, fun calls => ?_⟩
  -- the same device through the same descriptor, at another position
  let R : World → World → Prop := fun s t => Mounted d s.fs ∧ ∃ fd pos, 0 < fd ∧ t = s.through fd pos
  have related : R w { w with fs := w.fs.moved pos } := ⟨mounted, w.fs.mp.deviceFd, pos, mounted.opened, rfl⟩
  symm
  refine Machine.observations_congr (R := R) (C := fun _ _ => True) ?_ related
    (Machine.everyStep_of_forall fun _ _ => trivial)
  rintro s t c ⟨sane, fd, pos, opened, rfl⟩ -
  have same := exec_through sane opened pos c
  simp only [World.reply, World.step]
  generalize result : s.exec c = r at same
  generalize (s.through fd pos).exec c = r' at same
  cases same with
  | none => exact ⟨rfl, .none⟩
  | @some r r' agree =>
    obtain ⟨reply, pos', next⟩ := agree
    exact ⟨congrArg some reply.symm, .some ⟨(exec_carried sane result).mounted, fd, pos', opened, next⟩⟩

theorem World.files_set_self {h : Nat} {file : File} (opened : w.handle h = some file) :
    w.files.set h (some file) = w.files := by
  have entry : w.files[h]? = some (some file) := by
    unfold World.handle at opened
    cases found : w.files[h]? with
    | none => rw [found] at opened; cases opened
    | some entry =>
      rw [found] at opened
      exact congrArg some opened
  obtain ⟨bound, same⟩ := List.getElem?_eq_some_iff.mp entry
  rw [← same, List.set_getElem_self]

/-- A call that reports a failure has moved the position in the image at most. -/
theorem exec_failed (mounted : Mounted d w.fs) (reports : Reports (0 ≤ ·) c) (call : w.exec c = some (w', reply))
    (failed : reply.ret = -1) : ∃ pos, w' = { w with fs := w.fs.moved pos } := by
  cases c with
  | eopen env filename =>
    simp only [World.exec, eopen_eq mounted] at call
    cases found : findInode env w.fs.metadata filename with
    | none =>
      rw [found] at call
      cases call
      exact ⟨2, rfl⟩
    | some entry =>
      rw [found] at call
      cases call
      simp only at failed
      omega
  | ewrite env h data size =>
    have positive : 0 ≤ size := reports
    obtain ⟨file, fs, file', ret, opened, written, rfl, rfl⟩ := World.exec_ewrite call
    by_cases refused : w.fs.Refused file size
    · obtain ⟨-, rfl, rfl⟩ := ewrite_of_refused mounted refused written
      exact ⟨2, by rw [World.files_set_self opened]⟩
    · obtain ⟨-, -, same, -⟩ := ewrite_of_not_refused mounted refused written
      simp only at failed
      omega
  | eread env h data size =>
    have positive : 0 ≤ size := reports
    obtain ⟨file, fs, file', data', ret, opened, read, rfl, rfl⟩ := World.exec_eread call
    obtain ⟨pos, rfl, rfl⟩ : ∃ pos, fs = w.fs.moved pos ∧ file' = file := by
      rw [eread_eq mounted] at read
      split at read
      · cases read
        exact ⟨2, rfl, rfl⟩
      split at read
      · cases read
      split at read
      · cases read
        exact ⟨2, rfl, rfl⟩
      dsimp only at read
      split at read
      · obtain ⟨pos, place⟩ := readBlocks_moved file.inodeNumber (file.offset.tdiv 512) w.fs.metadata
          (size.tdiv 512).toNat 0 (w.fs.moved 2) env.heap
        rw [place] at read
        cases read
        exact ⟨pos, rfl, rfl⟩
      split at read
      · cases read
      · cases read
        simp only at failed
        omega
    exact ⟨pos, by rw [World.files_set_self opened]⟩
  | eseek h offset => exact reports.elim
  | eclose h => exact reports.elim

end Failures

/-! ## Runs -/

/-- Offsets stay near the files: `eread` takes a handle past block 3 by less than two blocks. -/
def Near (w : World) : Prop := ∀ h file, w.handle h = some file → file.offset ≤ 3072

theorem near_step {d : Nat} {w w' : World} {c : Call} (sane : Sane d w) (documented : Documented w c) (near : Near w)
    (step : World.step w c = some w') : Near w' := by
  obtain ⟨⟨next, reply⟩, call, same⟩ := Option.map_eq_some_iff.mp step
  cases same
  have outcome := exec_outcome sane.coherent (sane.inRange documented) call
  have moved : ∀ (g : Nat) (file : File) (o : Option Int), (∀ v ∈ o, v ≤ 3072) →
      (∀ h, next.handle h = if h = g then o.map (eseek file) else w.handle h) → Near next := by
    intro g file o bound others h file' after
    rw [others] at after
    split at after
    · obtain ⟨v, place, rfl⟩ := Option.map_eq_some_iff.mp after
      exact bound v place
    · exact near h file' after
  cases c with
  | eopen env filename =>
    rcases outcome with ⟨-, -, handles⟩ | ⟨i, -, -, handles⟩
    · rwa [Near, handles]
    · intro h file after
      rw [handles] at after
      split at after
      · cases after
        exact show (0 : Int) ≤ 3072 by decide
      · exact near h file after
  | eseek g offset =>
    obtain ⟨file, -, -, handles⟩ := outcome
    have bound := documented.2
    exact moved g file (some offset) (by rintro v ⟨⟩; omega) handles
  | ewrite env g data size =>
    obtain ⟨file, opened, ⟨-, -, handles⟩ | ⟨-, inside, -, handles⟩⟩ := outcome
    · rwa [Near, handles]
    · exact moved g file (some (file.offset + size)) (by rintro v ⟨⟩; omega) handles
  | eread env g data size =>
    obtain ⟨file, opened, -, ⟨-, handles, -⟩ | ⟨-, present, handles⟩⟩ := outcome
    · rwa [Near, handles]
    · have low := sane.offset g file opened
      have positive : 0 ≤ size := documented
      have fits := present.1
      exact moved g file (some (file.offset + size)) (by rintro v ⟨⟩; omega) handles
  | eclose g =>
    obtain ⟨file, -, -, handles⟩ := outcome
    exact moved g file none (by simp) handles

theorem writeTargets_inside {d : Nat} {fs : Fs} {file : File} {size : Int} (mounted : Mounted d fs)
    (con : Consistent d fs.superblock fs.metadata) (used : Used fs.metadata file.inodeNumber) (low : 0 ≤ file.offset)
    (through : ¬fs.Refused file size) (data : Nat → UInt8) :
    ∀ b ∈ writeTargets file.inodeNumber (file.offset.tdiv 512) data (size.tdiv 512).toNat 0 (fs.drafted file),
      2 ≤ b ∧ b < d := by
  have inside : file.offset + size ≤ 2048 := not_lt.mp fun beyond => through (.inl beyond)
  have enough := not_lt.mp fun short => through (.inr short)
  rw [tdiv_of_nonneg low, toNat_tdiv] at enough ⊢
  rw [newBlocksRequired_eq] at enough
  have ready := Ready.initial mounted con used low inside enough
  obtain ⟨after, done, written, -, -⟩ := writeBlocks_written data ready
  have owned := writeTargets_owned data ready
  rw [done] at owned
  intro b member
  obtain ⟨j, block⟩ := owned b member
  have held : Used after.md file.inodeNumber := (written.status _).trans ready.used
  exact Finset.mem_Ico.mp (written.con.sound.inPool (file.inodeNumber, j) b (refers_of_block held block))

theorem Sane.allOrNothing {d : Nat} {w : World} (sane : Sane d w) (near : Near w) : AllOrNothing w := by
  have mounted := sane.mounted
  have con := sane.con
  refine ⟨fun env h data size file positive small opened => ?_, fun env filename => ?_, ?_⟩
  · have low := sane.offset h file opened
    have above := near h file opened
    have used := sane.used h file opened
    have inRange : InRange w (.ewrite env h data size) := fun file' opened' => sane.offset h file' opened'
    obtain ⟨⟨w', reply⟩, call⟩ := Option.isSome_iff_exists.mp
      (exec_isSome (c := .ewrite env h data size) sane.coherent inRange ⟨file, opened, by omega, by omega⟩)
    obtain ⟨file₁, fs', file', ret, opened₁, written, rfl, rfl⟩ := World.exec_ewrite call
    obtain rfl := Option.some.inj (opened.symm.trans opened₁)
    -- the two counts agree wherever the size check passes
    have refused : w.fs.Refused file size ↔ 2048 < file.offset + size ∨
        zeros w.fs.superblock < unallocated w.fs.metadata file.inodeNumber file.offset size := by
      apply or_congr_right'
      intro beyond
      have drafted : (w.fs.drafted file).md = setStatus w.fs.metadata file.inodeNumber 1 := rfl
      rw [drafted, unallocated_eq w.fs.metadata file.inodeNumber low positive (not_lt.mp beyond),
        con.zeros_eq mounted.atMost]
    rw [← refused]
    by_cases whole : w.fs.Refused file size
    · obtain ⟨failed, -⟩ := ewrite_of_refused mounted whole written
      exact ⟨_, _, call, iff_of_true failed whole, fun success => absurd failed success⟩
    · obtain ⟨-, -, success, -⟩ := ewrite_of_not_refused mounted whole written
      refine ⟨_, _, call, iff_of_false (by simp only; omega) whole, fun _ b member => ?_⟩
      have inside := writeTargets_inside mounted con used low whole data b member
      rw [con.size]
      omega
  · obtain ⟨⟨w', reply⟩, call⟩ : ∃ result, w.exec (.eopen env filename) = some result := by
      simp only [World.exec]
      split
      · exact ⟨_, rfl⟩
      · exact ⟨_, rfl⟩
    refine ⟨w', reply, call, ?_⟩
    rcases exec_eopen mounted call with ⟨absent, full, failed, -⟩ | ⟨i, found, success, -⟩
    · refine iff_of_true failed ⟨lookup_eq_none absent, fun i => ?_⟩
      exact (con.flagged i).resolve_left (of_decide_eq_false (Fin.eq_false_of_find?_eq_none full i))
    · refine iff_of_false (by omega) ?_
      rintro ⟨absent, full⟩
      rcases findInode_eq_some_iff.mp found with ⟨present, -⟩ | ⟨-, available, -⟩
      · obtain ⟨used, named⟩ := lookup_eq_some present
        exact absent i used named
      · exact unused_eq_some available (full i)
  · intro c w' reply reports call failed
    obtain ⟨pos, moved⟩ := exec_failed mounted reports call failed
    exact unnoticed_of_moved mounted moved

/-- Wherever a program has taken a formatted device, calls fail only when they must and a call
that fails leaves everything as it was. -/
theorem allOrNothing_of_run {d : Nat} {n : Int} {fs : Fs} {env : Env} {calls : List Call} {w : World}
    (mounted : Mounted d fs) (size : diskSize fs.superblock = d)
    (documented : Machine.EveryStep World.step Documented (World.formatted env fs n) calls)
    (reached : Machine.run World.step (World.formatted env fs n) calls = some w) : AllOrNothing w := by
  have start : Sane d (World.formatted env fs n) ∧ Near (World.formatted env fs n) :=
    ⟨sane_formatted env n mounted size, nofun⟩
  obtain ⟨sane, near⟩ := Machine.invariant_of_everyStep (I := fun w => Sane d w ∧ Near w)
    (fun w c w' before documented step =>
      ⟨sane_step before.1 documented step, near_step before.1 documented before.2 step⟩) start documented reached
  exact sane.allOrNothing near

/-- On five blocks `twoWritten` leaves none free, and the next block is refused. -/
theorem allOrNothing_twoWritten :
    ∃ w w' reply, Machine.run World.step (World.formatted ⟨0, fun _ => 7, []⟩ (Fs.blank 5) 1) twoWritten = some w ∧
      w.exec (.ewrite ⟨7, fun _ => 0, []⟩ 1 (fun _ => 6) 512) = some (w', reply) ∧ reply.ret = -1 ∧
      Unnoticed w w' ∧ AllOrNothing w := by
  have facts : (Machine.run World.step (World.formatted ⟨0, fun _ => 7, []⟩ (Fs.blank 5) 1) twoWritten).any
      (fun w => (w.exec (.ewrite ⟨7, fun _ => 0, []⟩ 1 (fun _ => 6) 512)).any fun r => r.2.ret == -1) = true := by
    decide +kernel
  obtain ⟨w, reached, refused⟩ := (Option.any_eq_true _ _).mp facts
  obtain ⟨⟨w', reply⟩, call, failed⟩ := (Option.any_eq_true _ _).mp refused
  have checked : Machine.checkRun World.step (fun w c => decide (Documented w c))
      (World.formatted ⟨0, fun _ => 7, []⟩ (Fs.blank 5) 1) twoWritten = true := by decide +kernel
  have documented := Machine.everyStep_of_checkRun (fun _ _ checked => of_decide_eq_true checked) checked
  have all := allOrNothing_of_run (mounted_blank (by decide) (by decide)) (diskSize_blank (by decide)) documented reached
  have positive : Reports (0 ≤ ·) (.ewrite ⟨7, fun _ => 0, []⟩ 1 (fun _ => 6) 512) := show (0 : Int) ≤ 512 by decide
  exact ⟨w, w', reply, reached, call, beq_iff_eq.mp failed, all.failed _ w' reply positive call (beq_iff_eq.mp failed), all⟩

end OsLabs.Emufs
