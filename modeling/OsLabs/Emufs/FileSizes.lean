import OsLabs.Emufs.Inodes

/-! The size of a file against everything that has been written to it. An `ewrite` sets the
size to the end of its own data, wherever in the file that is. -/

set_option autoImplicit false

namespace OsLabs.Emufs

open OsLabs.Lib
open Superblock Metadata Fs

/-! ## What has been written -/

def World.landed (w : World) : Call → List (Inode × Int)
  | .ewrite env h data size =>
    match w.handle h with
    | none => []
    | some file =>
      match w.fs.ewrite env file data size with
      | some (_, _, ret) => if ret = -1 then [] else [(file.inodeNumber, file.offset + size)]
      | none => []
  | _ => []

abbrev Logged := World × List (Inode × Int)

def logging : Machine Logged Call := Machine.watch (fun w c ends => ends ++ w.landed c) World.step

/-- The largest of the ends of an inode, 0 where it has none. -/
def largest (ends : List (Inode × Int)) (i : Inode) : Int :=
  ((ends.filter fun e => e.1 = i).map Prod.snd).foldl max 0

theorem largest_append (ends : List (Inode × Int)) (i j : Inode) (v : Int) :
    largest (ends ++ [(i, v)]) j = if j = i then max (largest ends j) v else largest ends j := by
  unfold largest
  by_cases same : j = i
  · simp [same]
  · simp [same, Ne.symm same]

theorem largest_of_not_mem {ends : List (Inode × Int)} {i : Inode} (none_ : ∀ e ∈ ends, e.1 ≠ i) :
    largest ends i = 0 := by
  have empty : ends.filter (fun e => e.1 = i) = [] := List.filter_eq_nil_iff.mpr fun e member => by simpa using none_ e member
  rw [largest, empty]
  rfl

/-- The size of every file is the largest end of what has been written to it. -/
def Covers (x : Logged) : Prop :=
  ∀ i : Inode, Used x.1.fs.metadata i → fileSize x.1.fs.metadata i = largest x.2 i

/-- After the call the sizes cover what has been written, and no file is shorter. -/
def Covering (x : Logged) (c : Call) : Prop :=
  ∀ y, logging x c = some y →
    Covers y ∧ ∀ i : Inode, Used x.1.fs.metadata i → fileSize x.1.fs.metadata i ≤ fileSize y.1.fs.metadata i

/-- A new file has a name that ends before or at the first byte of its size, and an `ewrite`
that is not refused reaches at least the size the file has. -/
def Extends (w : World) : Call → Prop
  | .eopen _ filename => lookup w.fs.metadata filename = none → (unused w.fs.metadata).isSome → filename.val.length ≤ 12
  | .ewrite _ h _ size => ∀ file, w.handle h = some file → ¬w.fs.Refused file size →
      fileSize w.fs.metadata file.inodeNumber ≤ file.offset + size
  | _ => True

structure Tallied (d : Nat) (x : Logged) : Prop where
  mounted : Mounted d x.1.fs
  used : ∀ h file, x.1.handle h = some file → Used x.1.fs.metadata file.inodeNumber
  offset : ∀ h file, x.1.handle h = some file → 0 ≤ file.offset
  ends : ∀ e ∈ x.2, Used x.1.fs.metadata e.1
  covers : Covers x

/-! ## One call -/

namespace Tallied

variable {d : Nat} {x y : Logged}

theorem largest_of_unused (tallied : Tallied d x) {i : Inode} (unused : ¬Used x.1.fs.metadata i) : largest x.2 i = 0 :=
  largest_of_not_mem fun e member same => unused (same ▸ tallied.ends e member)

theorem of_same_metadata (tallied : Tallied d x) (mounted : Mounted d y.1.fs)
    (metadata : y.1.fs.metadata = x.1.fs.metadata) (ends : y.2 = x.2)
    (handles : ∀ h file, y.1.handle h = some file → Used x.1.fs.metadata file.inodeNumber ∧ 0 ≤ file.offset) :
    Tallied d y ∧ ∀ i : Inode, Used x.1.fs.metadata i → fileSize x.1.fs.metadata i ≤ fileSize y.1.fs.metadata i := by
  refine ⟨⟨mounted, fun h file opened => ?_, fun h file opened => (handles h file opened).2, ?_, ?_⟩, fun i _ => ?_⟩
  · rw [metadata]
    exact (handles h file opened).1
  · rw [metadata, ends]
    exact tallied.ends
  · rw [Covers, metadata, ends]
    exact tallied.covers
  · rw [metadata]

theorem handles_set (tallied : Tallied d x) {g : Nat} {file : File} (opened : x.1.handle g = some file)
    {w : World} {moved : Option File}
    (others : ∀ h, w.handle h = if h = g then moved else x.1.handle h)
    (same : ∀ file' ∈ moved, file'.inodeNumber = file.inodeNumber ∧ 0 ≤ file'.offset) (h : Nat) (file' : File)
    (after : w.handle h = some file') : Used x.1.fs.metadata file'.inodeNumber ∧ 0 ≤ file'.offset := by
  rw [others] at after
  split at after
  · obtain ⟨inode, low⟩ := same file' after
    rw [inode]
    exact ⟨tallied.used g file opened, low⟩
  · exact ⟨tallied.used h file' after, tallied.offset h file' after⟩

theorem eopen_of_extends (tallied : Tallied d x) {env : Env} {filename : CString}
    (extends_ : Extends x.1 (.eopen env filename)) (step : logging x (.eopen env filename) = some y) :
    Tallied d y ∧ ∀ i : Inode, Used x.1.fs.metadata i → fileSize x.1.fs.metadata i ≤ fileSize y.1.fs.metadata i := by
  obtain ⟨⟨reply, call⟩, ends⟩ := World.watched step
  have mounted := (exec_carried tallied.mounted call).mounted
  have unchanged : y.2 = x.2 := by simpa [World.landed] using ends
  rcases exec_eopen tallied.mounted call with ⟨-, -, -, handles, metadata⟩ | ⟨i, found, -, handles⟩
  · refine tallied.of_same_metadata mounted metadata unchanged fun h file opened => ?_
    rw [handles] at opened
    exact ⟨tallied.used h file opened, tallied.offset h file opened⟩
  rcases findInode_eq_some_iff.mp found with ⟨present, metadata⟩ | ⟨absent, available, metadata⟩
  · refine tallied.of_same_metadata mounted metadata unchanged fun h file opened => ?_
    rw [handles] at opened
    split at opened
    · cases opened
      exact ⟨(lookup_eq_some present).1, le_rfl⟩
    · exact ⟨tallied.used h file opened, tallied.offset h file opened⟩
  · have fresh := unused_eq_some available
    -- a name of 13 bytes or more runs into the size of the inode, which was set to 0 before
    have short : filename.val.length ≤ 12 := extends_ absent (by rw [available]; rfl)
    have used : ∀ j : Inode, Used y.1.fs.metadata j ↔ j = i ∨ Used x.1.fs.metadata j := by
      intro j
      rw [metadata]
      by_cases own : j = i
      · rw [own]
        exact iff_of_true used_newInode (.inl rfl)
      · rw [used_newInode_of_ne (by omega) own, or_iff_right own]
    have others : ∀ j : Inode, j ≠ i → fileSize y.1.fs.metadata j = fileSize x.1.fs.metadata j := by
      intro j other
      rw [metadata, fileSize_newInode_of_ne (by omega) other]
    refine ⟨⟨mounted, fun h file opened => ?_, fun h file opened => ?_, ?_, fun j inUse => ?_⟩, fun j inUse => ?_⟩
    · rw [handles] at opened
      split at opened
      · cases opened
        exact (used i).mpr (.inl rfl)
      · exact (used _).mpr (.inr (tallied.used h file opened))
    · rw [handles] at opened
      split at opened
      · cases opened
        exact le_rfl
      · exact tallied.offset h file opened
    · rw [unchanged]
      exact fun e member => (used e.1).mpr (.inr (tallied.ends e member))
    · rw [unchanged]
      by_cases own : j = i
      · rw [own, tallied.largest_of_unused fresh, metadata]
        exact fileSize_newInode_iff.mpr short
      · rw [others j own]
        exact tallied.covers j (((used j).mp inUse).resolve_left own)
    · have other : j ≠ i := fun same => fresh (same ▸ inUse)
      exact (others j other).ge

theorem fileSize_ewrite (tallied : Tallied d x) {env : Env} {h : Nat} {data : Nat → UInt8} {size : Int} {file : File}
    (positive : 0 ≤ size) (opened : x.1.handle h = some file) (through : ¬x.1.fs.Refused file size)
    (step : logging x (.ewrite env h data size) = some y) :
    y.2 = x.2 ++ [(file.inodeNumber, file.offset + size)] ∧
      (∀ j : Inode, Used y.1.fs.metadata j ↔ Used x.1.fs.metadata j) ∧
      (∀ j : Inode, fileSize y.1.fs.metadata j =
        if j = file.inodeNumber then file.offset + size else fileSize x.1.fs.metadata j) ∧
      ∀ g, y.1.handle g = if g = h then some (eseek file (file.offset + size)) else x.1.handle g := by
  obtain ⟨⟨reply, call⟩, ends⟩ := World.watched step
  obtain ⟨file₁, fs, file', ret, opened₁, written, world, -⟩ := World.exec_ewrite call
  obtain rfl := Option.some.inj (opened.symm.trans opened₁)
  have low := tallied.offset h file opened
  have inside : file.offset + size ≤ 2048 := not_lt.mp fun beyond => through (.inl beyond)
  obtain ⟨range, -, rfl, rfl, rfl⟩ := ewrite_of_not_refused tallied.mounted through written
  rw [world]
  refine ⟨?_, used_sealed low inside (tallied.used h file opened) _, fileSize_sealed low inside range, ?_⟩
  · have success : ¬ret = -1 := by omega
    simpa [World.landed, opened, written, success] using ends
  · exact x.1.handle_set _ opened _

theorem ewrite_of_extends (tallied : Tallied d x) {env : Env} {h : Nat} {data : Nat → UInt8} {size : Int}
    (positive : 0 ≤ size) (extends_ : Extends x.1 (.ewrite env h data size))
    (step : logging x (.ewrite env h data size) = some y) :
    Tallied d y ∧ ∀ i : Inode, Used x.1.fs.metadata i → fileSize x.1.fs.metadata i ≤ fileSize y.1.fs.metadata i := by
  obtain ⟨⟨reply, call⟩, ends⟩ := World.watched step
  have mounted := (exec_carried tallied.mounted call).mounted
  obtain ⟨file, fs, file', ret, opened, written, world, -⟩ := World.exec_ewrite call
  have low := tallied.offset h file opened
  by_cases refused : x.1.fs.Refused file size
  · obtain ⟨failed, rfl, rfl⟩ := ewrite_of_refused tallied.mounted refused written
    have unchanged : y.2 = x.2 := by simpa [World.landed, opened, written, failed] using ends
    refine tallied.of_same_metadata mounted (by rw [world]; rfl) unchanged fun g file' after => ?_
    rw [world, x.1.handle_kept _ opened] at after
    exact ⟨tallied.used g file' after, tallied.offset g file' after⟩
  -- the size is set to the end of this write, whatever it was
  · have reached := extends_ file opened refused
    obtain ⟨ends, used, sizes, handles⟩ := tallied.fileSize_ewrite positive opened refused step
    have allowed := tallied.handles_set opened handles (by
      rintro file' ⟨rfl⟩
      exact ⟨rfl, show 0 ≤ file.offset + size by omega⟩)
    refine ⟨⟨mounted, fun g file' after => (used _).mpr (allowed g file' after).1,
      fun g file' after => (allowed g file' after).2, fun e member => ?_, fun j inUse => ?_⟩, fun j _ => ?_⟩
    · rw [ends, List.mem_append] at member
      rcases member with earlier | last
      · exact (used _).mpr (tallied.ends e earlier)
      · rw [List.mem_singleton.mp last]
        exact (used _).mpr (tallied.used h file opened)
    · rw [ends, largest_append, sizes, ← tallied.covers j ((used j).mp inUse)]
      split
      next own => rw [own, max_eq_right reached]
      next => rfl
    · rw [sizes]
      split
      next own =>
        rw [own]
        exact reached
      next => exact le_rfl

theorem step_of_extends (tallied : Tallied d x) {c : Call} (positioned : Positioned c) (extends_ : Extends x.1 c)
    (step : logging x c = some y) :
    Tallied d y ∧ ∀ i : Inode, Used x.1.fs.metadata i → fileSize x.1.fs.metadata i ≤ fileSize y.1.fs.metadata i := by
  cases c with
  | eopen env filename => exact tallied.eopen_of_extends extends_ step
  | ewrite env h data size => exact tallied.ewrite_of_extends positioned extends_ step
  | eseek h offset =>
    obtain ⟨⟨reply, call⟩, ends⟩ := World.watched step
    have mounted := (exec_carried tallied.mounted call).mounted
    obtain ⟨file, opened, world, -⟩ := World.exec_eseek call
    refine tallied.of_same_metadata mounted (by rw [world]) (by simpa [World.landed] using ends)
      (tallied.handles_set opened (by rw [world]; exact x.1.handle_set _ opened _) ?_)
    rintro file' ⟨rfl⟩
    exact ⟨rfl, positioned.1⟩
  | eread env h data size =>
    obtain ⟨⟨reply, call⟩, ends⟩ := World.watched step
    have mounted := (exec_carried tallied.mounted call).mounted
    obtain ⟨file, fs, file', data', ret, opened, read, world, -⟩ := World.exec_eread call
    obtain ⟨metadata, inode, moved⟩ := eread_metadata tallied.mounted read
    refine tallied.of_same_metadata mounted (by rw [world]; exact metadata) (by simpa [World.landed] using ends)
      (tallied.handles_set opened (by rw [world]; exact x.1.handle_set _ opened _) ?_)
    rintro file' ⟨rfl⟩
    have low := tallied.offset h file opened
    have positive : 0 ≤ size := positioned
    refine ⟨inode, ?_⟩
    rcases moved with rfl | ⟨-, offset⟩
    · exact low
    · omega
  | eclose h =>
    obtain ⟨⟨reply, call⟩, ends⟩ := World.watched step
    have mounted := (exec_carried tallied.mounted call).mounted
    obtain ⟨file, opened, world, -⟩ := World.exec_eclose call
    exact tallied.of_same_metadata mounted (by rw [world]) (by simpa [World.landed] using ends)
      (tallied.handles_set opened (by rw [world]; exact x.1.handle_set _ opened _) (by simp))

theorem exists_eopen (x : Logged) (env : Env) (filename : CString) :
    ∃ y, logging x (.eopen env filename) = some y := by
  obtain ⟨result, call⟩ : ∃ result, x.1.exec (.eopen env filename) = some result := by
    simp only [World.exec]
    split
    · exact ⟨_, rfl⟩
    · exact ⟨_, rfl⟩
  have taken : World.step x.1 (.eopen env filename) = some result.1 := by
    rw [World.step, call]
    rfl
  exact Machine.exists_watch taken

theorem exists_ewrite (tallied : Tallied d x) (env : Env) {h : Nat} (data : Nat → UInt8) {size : Int} {file : File}
    (positive : 0 ≤ size) (opened : x.1.handle h = some file) (through : ¬x.1.fs.Refused file size) :
    ∃ y, logging x (.ewrite env h data size) = some y := by
  have low := tallied.offset h file opened
  have inside : ¬file.offset + size > 2048 := fun beyond => through (.inl beyond)
  have word : InInt (file.offset + size) := ⟨by omega, by omega⟩
  have accessible := accessible_of_inside file.inodeNumber low (not_lt.mp inside)
  rw [← tdiv_of_nonneg low] at accessible
  have written : x.1.fs.ewrite env file data size = _ := ewrite_eq tallied.mounted
  rw [if_neg (not_not.mpr word), if_neg inside, if_neg (not_not.mpr accessible),
    if_neg fun short => through (.inr short)] at written
  have taken : World.step x.1 (.ewrite env h data size) =
      some
        { fs := (x.1.fs.looped file data size).sealed env file.inodeNumber (file.offset + size)
          files := x.1.files.set h (some (eseek file (file.offset + size))) } := by
    simp [World.step, World.exec, opened, written]
  exact Machine.exists_watch taken

theorem covering_iff (tallied : Tallied d x) {c : Call} (positioned : Positioned c) : Covering x c ↔ Extends x.1 c := by
  constructor
  · intro covering
    cases c with
    | eopen env filename =>
      intro absent room
      obtain ⟨i, available⟩ := Option.isSome_iff_exists.mp room
      obtain ⟨y, step⟩ := exists_eopen x env filename
      obtain ⟨⟨reply, call⟩, ends⟩ := World.watched step
      have metadata : y.1.fs.metadata = newInode env x.1.fs.metadata i filename := by
        rcases exec_eopen tallied.mounted call with ⟨-, full, -⟩ | ⟨j, found, -⟩
        · rw [full] at available
          cases available
        · rcases findInode_eq_some_iff.mp found with ⟨present, -⟩ | ⟨-, first, metadata⟩
          · rw [absent] at present
            cases present
          · rw [metadata, Option.some.inj (available.symm.trans first)]
      have size := (covering y step).1 i (by rw [metadata]; exact used_newInode)
      have unchanged : y.2 = x.2 := by simpa [World.landed] using ends
      rw [unchanged, tallied.largest_of_unused (unused_eq_some available), metadata] at size
      exact fileSize_newInode_iff.mp size
    -- the maximum takes in the old size: covering says that the new one is no less
    | ewrite env h data size =>
      intro file opened through
      obtain ⟨y, step⟩ := tallied.exists_ewrite env data positioned opened through
      obtain ⟨ends, used, sizes, -⟩ := tallied.fileSize_ewrite positioned opened through step
      have inUse := tallied.used h file opened
      have size := (covering y step).1 file.inodeNumber ((used _).mpr inUse)
      rw [ends, largest_append, sizes, if_pos rfl, if_pos rfl, ← tallied.covers _ inUse] at size
      exact (le_max_left _ _).trans size.ge
    | eseek h offset => trivial
    | eread env h data size => trivial
    | eclose h => trivial
  · intro extends_ y step
    obtain ⟨next, longer⟩ := tallied.step_of_extends positioned extends_ step
    exact ⟨next.covers, longer⟩

end Tallied

/-! ## Runs -/

theorem tallied_formatted {d : Nat} {fs : Fs} (env : Env) (n : Int) (mounted : Mounted d fs)
    (size : diskSize fs.superblock = d) : Tallied d (World.formatted env fs n, []) := by
  obtain ⟨fs', format, -, -, -, unused⟩ := createFileSystem_spec env n mounted size
  have sane := sane_formatted env n mounted size
  refine ⟨sane.mounted, sane.used, sane.offset, nofun, fun i inUse => ?_⟩
  have formatted : (World.formatted env fs n).fs = fs' := by rw [World.formatted, format]
  rw [formatted] at inUse
  exact absurd inUse (unused i)

/-- The size of every file is the largest end of what has been written to it, after each call
of a program on a formatted device, exactly when no new file has too long a name and no
`ewrite` that is not refused ends before the size the file has. -/
theorem sizes_cover_iff {d : Nat} {n : Int} {fs : Fs} {env : Env} {calls : List Call} (mounted : Mounted d fs)
    (size : diskSize fs.superblock = d) (positioned : ∀ c ∈ calls, Positioned c) :
    Machine.EveryStep logging Covering (World.formatted env fs n, []) calls ↔
      Machine.EveryStep logging (fun x c => Extends x.1 c) (World.formatted env fs n, []) calls :=
  Machine.everyStep_iff_of_invariant (I := Tallied d) (fun _ _ tallied positioned => tallied.covering_iff positioned)
    (fun _ _ _ tallied positioned extends_ step => (tallied.step_of_extends positioned extends_ step).1)
    (tallied_formatted env n mounted size) (Machine.everyStep_of_forall positioned)

/-! ## A file written from its start again -/

instance (w : World) (c : Call) : Decidable (Extends w c) :=
  match c with
  | .eopen _ filename => inferInstanceAs (Decidable (_ = none → _ → filename.val.length ≤ 12))
  | .ewrite _ h _ size => inferInstanceAs (Decidable (∀ file ∈ w.handle h, ¬w.fs.Refused file size → _))
  | .eseek _ _ | .eread _ _ _ _ | .eclose _ => isTrue trivial

def twice : List Call :=
  [.eopen clockEnv firstName, .ewrite clockEnv 0 (fun _ => 7) 512, .ewrite clockEnv 0 (fun _ => 7) 512]

theorem sizes_cover_twice :
    Machine.EveryStep logging Covering (World.formatted clockEnv (Fs.blank 42) 0, []) twice := by
  have extends_ : Machine.checkRun logging (fun x c => decide (Extends x.1 c))
      (World.formatted clockEnv (Fs.blank 42) 0, []) twice = true := by decide +kernel
  apply (sizes_cover_iff (mounted_blank (by decide) le_rfl) (diskSize_blank le_rfl) (by decide)).mpr
  exact Machine.everyStep_of_checkRun (fun _ _ checked => of_decide_eq_true checked) extends_

def again : List Call := twice ++ [.eseek 0 0]

theorem not_sizes_cover_again : ¬∀ (d : Nat) (n : Int) (fs : Fs) (env : Env) (calls : List Call), n = 0 ∨ n = 1 →
    Mounted d fs → diskSize fs.superblock = d → (∀ c ∈ calls, Positioned c) →
    Machine.EveryStep logging Covering (World.formatted env fs n, []) calls := by
  intro claimed
  let last : Call := .ewrite clockEnv 0 (fun _ => 8) 512
  have covering := claimed 42 0 (Fs.blank 42) clockEnv (again ++ [last]) (.inl rfl) (mounted_blank (by decide) le_rfl)
    (diskSize_blank le_rfl) (by decide)
  have seen : (Machine.run logging (World.formatted clockEnv (Fs.blank 42) 0, []) again).any (fun x =>
      (logging x last).any fun y => decide (Used y.1.fs.metadata 0 ∧ fileSize y.1.fs.metadata 0 = 512 ∧
        largest y.2 0 = 1024)) = true := by decide +kernel
  simp only [Option.any_eq_true, decide_eq_true_eq] at seen
  obtain ⟨x, reached, y, step, used, shorter, whole⟩ := seen
  have covers := ((Machine.everyStep_iff.mp covering) again last [] x rfl reached y step).1 0 used
  exact absurd (shorter.symm.trans (covers.trans whole)) (by decide)

end OsLabs.Emufs
