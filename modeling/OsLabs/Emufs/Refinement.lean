import OsLabs.Emufs.Store
import OsLabs.Emufs.Runs

/-! The disk refines the store: the files read off a formatted device follow the
store through every run of calls. -/

set_option autoImplicit false

namespace OsLabs.Emufs

open OsLabs.Lib
open Superblock Metadata Fs

/-- The map read off the disk: name, then block index, to contents. -/
def Fs.mapped (fs : Fs) (filename : CString) : Option (Fin 4 → Option Block) :=
  (lookup fs.metadata filename).map fun i k => fs.contents fs.metadata (i, k)

/-! ## The map after each call -/

section Mapped

variable {d : Nat} {fs fs' : Fs} {sb md : Block}

theorem Consistent.lookup_eq_some_iff (con : Consistent d sb md) {filename : CString} {i : Inode} :
    lookup md filename = some i ↔ Used md i ∧ name md i = filename := by
  constructor
  · exact lookup_eq_some
  · rintro ⟨used, named⟩
    cases found : lookup md filename with
    | none => exact absurd named (lookup_eq_none found i used)
    | some j =>
      obtain ⟨used', named'⟩ := lookup_eq_some found
      rw [con.names j i used' used (named'.trans named.symm)]

theorem Consistent.mapped_name (con : Consistent d fs.superblock fs.metadata) {i : Inode}
    (used : Used fs.metadata i) :
    fs.mapped (name fs.metadata i) = some fun k => fs.contents fs.metadata (i, k) := by
  rw [Fs.mapped, con.lookup_eq_some_iff.mpr ⟨used, rfl⟩]
  rfl

theorem Kept.mapped_eq (kept : Kept d fs fs') : fs'.mapped = fs.mapped := by
  funext filename
  unfold Fs.mapped
  rw [kept.contents, kept.metadata]

theorem lookup_congr {sb' md' : Block} (con : Consistent d sb md) (con' : Consistent d sb' md')
    {filename : CString}
    (same : ∀ i : Inode, Used md' i ∧ name md' i = filename ↔ Used md i ∧ name md i = filename) :
    lookup md' filename = lookup md filename := by
  ext i
  rw [con'.lookup_eq_some_iff, con.lookup_eq_some_iff]
  exact same i

theorem Overwrote.mapped_eq {i : Inode} {lo hi : Nat} {f : Nat → Block}
    (con : Consistent d fs.superblock fs.metadata) (used : Used fs.metadata i)
    (wrote : Overwrote d i lo hi (fun j => f (j - lo)) fs fs') :
    fs'.mapped = Function.update fs.mapped (name fs.metadata i)
      (some (Store.overwrite (fun k => fs.contents fs.metadata (i, k)) lo hi f)) := by
  have named : ∀ j : Inode, Used fs.metadata j → name fs'.metadata j = name fs.metadata j :=
    fun j used => wrote.names j (con.short j used)
  have found : ∀ filename, lookup fs'.metadata filename = lookup fs.metadata filename := by
    intro filename
    apply lookup_congr con wrote.con
    intro j
    rw [wrote.used_iff]
    exact and_congr_right fun used => by rw [named j used]
  funext filename
  by_cases same : filename = name fs.metadata i
  · rw [same, Function.update_self, Fs.mapped, found, con.lookup_eq_some_iff.mpr ⟨used, rfl⟩, wrote.contents]
    apply congrArg some
    funext k
    simp [overwritten, Store.overwrite]
  · rw [Function.update_of_ne same]
    unfold Fs.mapped
    rw [found, wrote.contents]
    cases present : lookup fs.metadata filename with
    | none => rfl
    | some j =>
      have other : j ≠ i := fun equal => same ((lookup_eq_some present).2.symm.trans (by rw [equal]))
      apply congrArg some
      funext k
      exact if_neg fun inside => other inside.1

theorem Opened.mapped_eq {filename : CString} {i : Inode} (con : Consistent d fs.superblock fs.metadata)
    (opened : Opened d filename i fs fs') : fs'.mapped = Store.create fs.mapped filename := by
  have self : lookup fs'.metadata filename = some i :=
    opened.con.lookup_eq_some_iff.mpr ⟨(opened.used i).mpr (Or.inr rfl), opened.named⟩
  have others : ∀ g, g ≠ filename → fs'.mapped g = fs.mapped g := by
    intro g different
    unfold Fs.mapped
    rw [opened.contents, lookup_congr con opened.con]
    intro j
    constructor
    · rintro ⟨used, named⟩
      rcases (opened.used j).mp used with before | rfl
      · exact ⟨before, (opened.names j before).symm.trans named⟩
      · exact absurd (named.symm.trans opened.named) different
    · rintro ⟨used, named⟩
      exact ⟨(opened.used j).mpr (Or.inl used), (opened.names j used).trans named⟩
  funext g
  unfold Store.create
  cases present : lookup fs.metadata filename with
  | some j =>
    have before := (lookup_eq_some present)
    have exists_ : fs.mapped filename = some fun k => fs.contents fs.metadata (j, k) := by
      rw [Fs.mapped, present]
      rfl
    -- names are unique, so the inode of the handle is the one found before
    have same : j = i := opened.con.names j i ((opened.used j).mpr (Or.inl before.1))
      ((opened.used i).mpr (Or.inr rfl)) ((opened.names j before.1).trans (before.2.trans opened.named.symm))
    rw [exists_, if_pos Option.isSome_some]
    by_cases named : g = filename
    · rw [named, exists_, Fs.mapped, self, opened.contents, same]
      rfl
    · exact others g named
  | none =>
    have absent : fs.mapped filename = none := by
      rw [Fs.mapped, present]
      rfl
    -- an inode in use under this name would have been found
    have unused : ¬Used fs.metadata i := fun used =>
      lookup_eq_none present i used ((opened.names i used).symm.trans opened.named)
    rw [absent, if_neg (by simp)]
    by_cases named : g = filename
    · rw [named, Function.update_self, Fs.mapped, self, opened.contents]
      apply congrArg some
      funext k
      simp [Fs.contents, Allocation.held, refers_of_unused (s := (i, k)) unused]
    · rw [Function.update_of_ne named]
      exact others g named

theorem readable_iff_present {i : Inode} (used : Used fs.metadata i) {start n : Nat} (near : start ≤ 4) :
    Store.Readable (fun k => fs.contents fs.metadata (i, k)) start n ↔ Present fs.metadata i start n := by
  have held : ∀ k : Fin 4, (fs.contents fs.metadata (i, k)).isSome ↔ blocks fs.metadata i k.val ≠ -1 := by
    intro k
    simp [Fs.contents, Allocation.held, refers, used]
  constructor
  · intro readable
    have bound : start + n ≤ 4 := by
      cases n with
      | zero => exact near
      | succ n =>
        obtain ⟨j, place, -⟩ := readable n (by omega)
        omega
    refine ⟨bound, fun k low high => ?_⟩
    obtain ⟨j, place, some_⟩ := readable (k.val - start) (by omega)
    have same : j = k := Fin.ext (by omega)
    exact (held k).mp (same ▸ some_)
  · rintro ⟨bound, present⟩ k inside
    exact ⟨⟨start + k, by omega⟩, rfl, (held _).mpr (present _ (by simp) (by simpa using inside))⟩

end Mapped

/-! ## What a history knows of the handles -/

section Noted

variable {N : Type*} (note : CString → Int → N) {d : Nat} {w w' : World}

def World.noted (w : World) (h : Nat) : Option N :=
  (w.handle h).map fun file => note (name w.fs.metadata file.inodeNumber) file.offset

theorem noted_of_handle {h : Nat} {file : File} (opened : w.handle h = some file) :
    w.noted note h = some (note (name w.fs.metadata file.inodeNumber) file.offset) := by
  rw [World.noted, opened]
  rfl

theorem noted_of_names (coherent : Coherent d w) {h : Nat}
    (names : ∀ i : Inode, Used w.fs.metadata i → name w'.fs.metadata i = name w.fs.metadata i)
    (same : w'.handle h = w.handle h) : w'.noted note h = w.noted note h := by
  rw [World.noted, World.noted, same]
  cases opened : w.handle h with
  | none => rfl
  | some file => rw [Option.map_some, Option.map_some, names _ (coherent.used h file opened)]

theorem noted_move (coherent : Coherent d w) {g : Nat} {file : File} (opened : w.handle g = some file)
    (names : ∀ i : Inode, Used w.fs.metadata i → name w'.fs.metadata i = name w.fs.metadata i)
    (moved : Option Int) (handles : ∀ h, w'.handle h = if h = g then moved.map (eseek file) else w.handle h) :
    w'.noted note = Function.update (w.noted note) g (moved.map (note (name w.fs.metadata file.inodeNumber))) := by
  funext h
  by_cases same : h = g
  · rw [same, Function.update_self, World.noted, handles, if_pos rfl, Option.map_map]
    have named := names _ (coherent.used g file opened)
    cases moved with
    | none => rfl
    | some o => exact congrArg (fun filename => some (note filename o)) named
  · rw [Function.update_of_ne same]
    exact noted_of_names note coherent names ((handles h).trans (if_neg same))

theorem noted_open (coherent : Coherent d w) {filename : CString} {i : Inode} (opened : Opened d filename i w.fs w'.fs)
    (handles : ∀ h, w'.handle h =
      if h = w.files.length then some { offset := 0, inodeNumber := i } else w.handle h) :
    w'.noted note = Function.update (w.noted note) w.files.length (some (note filename 0)) := by
  funext h
  by_cases last : h = w.files.length
  · have fresh : w'.handle h = some { offset := 0, inodeNumber := i } := (handles h).trans (if_pos last)
    rw [noted_of_handle note fresh, last, Function.update_self, opened.named]
  · rw [Function.update_of_ne last]
    exact noted_of_names note coherent opened.names ((handles h).trans (if_neg last))

end Noted

/-! ## The simulation -/

def Call.event : Call → Reply → Event
  | .eopen _ filename, reply => .eopen filename (if reply.ret = -1 then none else some reply.ret.toNat)
  | .eseek h offset, _ => .eseek h offset.toNat
  | .ewrite _ h data size, reply => .ewrite h (piece data) size.toNat (reply.ret ≠ -1)
  | .eread _ h _ size, reply => .eread h size.toNat (reply.ret ≠ -1)
  | .eclose h, _ => .eclose h

def World.observe (w : World) (c : Call) : Event :=
  c.event (((w.exec c).map Prod.snd).getD { ret := -1, data := none })

/-- Documented calls whose sizes are whole blocks. -/
def Aligned (w : World) (c : Call) : Prop :=
  Documented w c ∧ match c with
    | .ewrite _ _ _ size | .eread _ _ _ size => size % 512 = 0
    | _ => True

structure Represents (d : Nat) (w : World) (s : Store) : Prop where
  sane : Sane d w
  files : w.fs.mapped = s.files
  handles : ∀ h, s.handles h =
    (w.handle h).map fun file => (name w.fs.metadata file.inodeNumber, file.offset.toNat)
  near : ∀ h file, w.handle h = some file → file.offset < 2560

namespace Represents

variable {d : Nat} {w w' : World} {s : Store}

theorem handle_eq (rep : Represents d w s) {h : Nat} {file : File} (opened : w.handle h = some file) :
    s.handles h = some (name w.fs.metadata file.inodeNumber, file.offset.toNat) := by
  rw [rep.handles, opened]
  rfl

theorem file_eq (rep : Represents d w s) {h : Nat} {file : File} (opened : w.handle h = some file) :
    s.files (name w.fs.metadata file.inodeNumber) =
      some fun k => w.fs.contents w.fs.metadata (file.inodeNumber, k) := by
  rw [← rep.files]
  exact rep.sane.con.mapped_name (rep.sane.used h file opened)

theorem of_kept (rep : Represents d w s) (sane : Sane d w') (kept : Kept d w.fs w'.fs)
    (handles : w'.handle = w.handle) : Represents d w' s where
  sane := sane
  files := by rw [kept.mapped_eq, rep.files]
  handles h := by rw [rep.handles, handles, kept.metadata]
  near h file opened := rep.near h file (by rwa [handles] at opened)

theorem move (rep : Represents d w s) (sane : Sane d w') {g : Nat} {file : File} (opened : w.handle g = some file)
    (names : ∀ i : Inode, Used w.fs.metadata i → name w'.fs.metadata i = name w.fs.metadata i)
    {files : CString → Option (Fin 4 → Option Block)} (mapped : w'.fs.mapped = files)
    (offset : Option Int) (near : ∀ o, offset = some o → o < 2560)
    (handles : ∀ h, w'.handle h = if h = g then offset.map (eseek file) else w.handle h) :
    Represents d w' (Store.move { s with files } g
      (offset.map fun o => (name w.fs.metadata file.inodeNumber, o.toNat))) where
  sane := sane
  files := mapped
  handles h := by
    have noted := noted_move (fun filename o => (filename, o.toNat)) rep.sane.coherent opened names offset handles
    have before : s.handles = w.noted fun filename o => (filename, o.toNat) := funext rep.handles
    rw [Store.move, before]
    exact (congrFun noted h).symm
  near h file' after := by
    rw [handles] at after
    split at after
    · obtain ⟨o, moved, same⟩ := Option.map_eq_some_iff.mp after
      rw [← same]
      exact near o moved
    · exact rep.near h file' after

theorem eopen (rep : Represents d w s) (sane : Sane d w') {filename : CString} {i : Inode}
    (opened : Opened d filename i w.fs w'.fs)
    (handles : ∀ h, w'.handle h =
      if h = w.files.length then some { offset := 0, inodeNumber := i } else w.handle h) :
    Represents d w'
      (Store.move { s with files := Store.create s.files filename } w.files.length (some (filename, 0))) where
  sane := sane
  files := by
    rw [opened.mapped_eq rep.sane.con, rep.files]
    rfl
  handles h := by
    have noted := noted_open (fun filename o => (filename, o.toNat)) rep.sane.coherent opened handles
    have before : s.handles = w.noted fun filename o => (filename, o.toNat) := funext rep.handles
    rw [Store.move, before]
    exact (congrFun noted h).symm
  near h file after := by
    rw [handles] at after
    split at after
    · cases after
      show (0 : Int) < 2560
      omega
    · exact rep.near h file after

end Represents

theorem represents_follows {d : Nat} {w w' : World} {s : Store} {c : Call} (rep : Represents d w s)
    (aligned : Aligned w c) (step : World.step w c = some w') :
    ∃ s', Store.step s (w.observe c) = some s' ∧ Represents d w' s' := by
  have sane' := sane_step rep.sane aligned.1 step
  obtain ⟨⟨next, reply⟩, call, same⟩ := Option.map_eq_some_iff.mp step
  cases same
  have seen : w.observe c = c.event reply := by rw [World.observe, call]; rfl
  rw [seen]
  have outcome := exec_outcome rep.sane.coherent (rep.sane.inRange aligned.1) call
  cases c with
  | eopen env filename =>
    rcases outcome with ⟨failed, kept, handles⟩ | ⟨i, done, opened, handles⟩
    · refine ⟨s, ?_, rep.of_kept sane' kept handles⟩
      simp [Call.event, failed, Store.step]
    · have fresh : s.handles w.files.length = none := by
        simp [rep.handles, World.handle]
      have event : Call.event (.eopen env filename) reply = .eopen filename (some w.files.length) := by
        rw [Call.event, done, if_neg (by omega), Int.toNat_natCast]
      refine ⟨_, ?_, rep.eopen sane' opened handles⟩
      rw [event, Store.step, fresh, if_neg (by simp)]
  | eseek g offset =>
    obtain ⟨file, opened, equal, handles⟩ := outcome
    have high := aligned.1.2
    refine ⟨_, ?_, rep.move sane' opened (fun _ _ => by rw [equal]) (show _ = s.files by rw [equal, rep.files])
      (some offset) (fun o same => by cases same; omega) handles⟩
    rw [Call.event, Store.step, rep.handle_eq opened]
    rfl
  | ewrite env g data size =>
    obtain ⟨file, opened, ⟨failed, kept, handles⟩ | ⟨done, fits, wrote, handles⟩⟩ := outcome
    · refine ⟨s, ?_, rep.of_kept sane' kept handles⟩
      simp [Call.event, failed, Store.step, rep.handle_eq opened]
    · have positive : 0 ≤ size := aligned.1
      have whole : size % 512 = 0 := aligned.2
      have low := rep.sane.offset g file opened
      have used := rep.sane.used g file opened
      have event : Call.event (.ewrite env g data size) reply = .ewrite g (piece data) size.toNat true := by
        rw [Call.event, done, decide_eq_true (by omega)]
      have mapped := wrote.mapped_eq (f := piece data) rep.sane.con used
      -- whole blocks: the quotients add up although the offset may lie inside a block
      have past : file.offset.toNat / 512 + size.toNat / 512 = (file.offset.toNat + size.toNat) / 512 := by omega
      have sum : (file.offset + size).toNat = file.offset.toNat + size.toNat := by omega
      refine ⟨_, ?_, rep.move sane' opened (fun i used => wrote.names i (rep.sane.con.short i used)) mapped
        (some (file.offset + size)) (fun o same => by cases same; omega) handles⟩
      rw [event, Store.step, rep.handle_eq opened]
      simp only [Option.bind_eq_bind, Option.bind_some, rep.file_eq opened]
      rw [if_neg (by omega), past, rep.files, Option.map_some, sum]
  | eread env g data size =>
    obtain ⟨file, opened, kept, either⟩ := outcome
    have positive : 0 ≤ size := aligned.1
    have low := rep.sane.offset g file opened
    have near := rep.near g file opened
    have used := rep.sane.used g file opened
    -- the offset is at most one block past the file, where an empty read is still allowed
    have readable := readable_iff_present used (n := size.toNat / 512) (show file.offset.toNat / 512 ≤ 4 by omega)
    rcases either with ⟨failed, handles, absent⟩ | ⟨done, present, handles⟩
    · refine ⟨s, ?_, rep.of_kept sane' kept handles⟩
      rw [Call.event, failed, Store.step, rep.handle_eq opened]
      simp [rep.file_eq opened, readable, absent]
    · have sum : (file.offset + size).toNat = file.offset.toNat + size.toNat := by omega
      have bound := present.1
      have whole : size % 512 = 0 := aligned.2
      have event : Call.event (.eread env g data size) reply = .eread g size.toNat true := by
        rw [Call.event, done, decide_eq_true (by omega)]
      refine ⟨_, ?_, rep.move sane' opened (fun _ _ => by rw [kept.metadata])
        (show _ = s.files by rw [kept.mapped_eq, rep.files]) (some (file.offset + size)) (fun o same => by cases same; omega) handles⟩
      rw [event, Store.step, rep.handle_eq opened]
      simp [rep.file_eq opened, readable, present, sum]
  | eclose g =>
    obtain ⟨file, opened, equal, handles⟩ := outcome
    refine ⟨_, ?_, rep.move sane' opened (fun _ _ => by rw [equal]) (show _ = s.files by rw [equal, rep.files])
      none (fun o same => by cases same) handles⟩
    rw [Call.event, Store.step, rep.handle_eq opened]
    rfl

theorem represents_formatted {d : Nat} {fs : Fs} (env : Env) (n : Int) (mounted : Mounted d fs)
    (size : diskSize fs.superblock = d) : Represents d (World.formatted env fs n) Store.empty where
  sane := sane_formatted env n mounted size
  files := by
    obtain ⟨fs', format, -, -, -, cleared⟩ := createFileSystem_spec env n mounted size
    funext filename
    rw [World.formatted, format, Fs.mapped]
    cases found : lookup fs'.metadata filename with
    | none => rfl
    | some i => exact absurd (lookup_eq_some found).1 (cleared i)
  handles h := rfl
  near h file opened := by cases opened

/-- Every run of block-sized calls on a formatted device is a run of the store with the
same outcomes, and leaves on the disk what the store holds. -/
theorem disk_refines_store {d : Nat} {n : Int} {fs : Fs} {env : Env} {calls : List Call} {w : World}
    (mounted : Mounted d fs) (size : diskSize fs.superblock = d)
    (aligned : Machine.EveryStep World.step Aligned (World.formatted env fs n) calls)
    (reached : Machine.run World.step (World.formatted env fs n) calls = some w) :
    ∃ s, Machine.run Store.step Store.empty
        (Machine.observations World.step World.observe (World.formatted env fs n) calls) = some s ∧
      w.fs.mapped = s.files ∧
      ∀ h, s.handles h = (w.handle h).map fun file => (name w.fs.metadata file.inodeNumber, file.offset.toNat) := by
  have follows : ∀ w s c w', Represents d w s → Aligned w c → World.step w c = some w' →
      ∃ s', Store.step s (World.observe w c) = some s' ∧ Represents d w' s' := fun _ _ _ _ => represents_follows
  obtain ⟨s, followed, rep⟩ := Machine.simulation follows (represents_formatted env n mounted size) aligned reached
  exact ⟨s, followed, rep.files, rep.handles⟩

instance (w : World) (c : Call) : Decidable (Aligned w c) :=
  match c with
  | .ewrite _ _ _ _ | .eread _ _ _ _ => inferInstanceAs (Decidable (_ ∧ _ = _))
  | .eopen _ _ | .eseek _ _ | .eclose _ => inferInstanceAs (Decidable (_ ∧ True))

theorem disk_refines_store_twoWritten :
    ∃ w s, Machine.run World.step (World.formatted ⟨0, fun _ => 7, []⟩ (Fs.blank 42) 1) twoWritten = some w ∧
      Machine.run Store.step Store.empty
        (Machine.observations World.step World.observe (World.formatted ⟨0, fun _ => 7, []⟩ (Fs.blank 42) 1)
          twoWritten) = some s ∧
      w.fs.mapped = s.files ∧
      ∀ h, s.handles h = (w.handle h).map fun file => (name w.fs.metadata file.inodeNumber, file.offset.toNat) := by
  have returns : (Machine.run World.step (World.formatted ⟨0, fun _ => 7, []⟩ (Fs.blank 42) 1) twoWritten).isSome =
      true := by
    decide +kernel
  obtain ⟨w, reached⟩ := Option.isSome_iff_exists.mp returns
  have checked : Machine.checkRun World.step (fun w c => decide (Aligned w c))
      (World.formatted ⟨0, fun _ => 7, []⟩ (Fs.blank 42) 1) twoWritten = true := by decide +kernel
  have aligned := Machine.everyStep_of_checkRun (fun _ _ checked => of_decide_eq_true checked) checked
  obtain ⟨s, followed, same⟩ := disk_refines_store (mounted_blank (by decide) le_rfl) (diskSize_blank le_rfl) aligned reached
  exact ⟨w, s, reached, followed, same⟩

end OsLabs.Emufs
