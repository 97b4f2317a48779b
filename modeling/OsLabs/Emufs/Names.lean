import OsLabs.Emufs.Inodes

/-! Names of files of any length. `eopen` copies a name into the ten bytes of its field without
a bound, so a longer one goes on into the size of the file and the entries of its blocks, and
what is later written there changes the name. -/

set_option autoImplicit false

namespace OsLabs.Emufs

open OsLabs.Lib
open Superblock Metadata Fs

/-! ## What names stand for -/

def World.opened (w : World) : Call → List (CString × Inode)
  | .eopen env filename => ((w.fs.eopen env filename).2.map fun file => (filename, file.inodeNumber)).toList
  | _ => []

abbrev Registry := World × List (CString × Inode)

def naming : Machine Registry Call := Machine.watch (fun w c opens => opens ++ w.opened c) World.step

/-- Equal names have been opened on one inode, and different names on different ones. -/
def Distinct (opens : List (CString × Inode)) : Prop := ∀ p ∈ opens, ∀ q ∈ opens, p.2 = q.2 ↔ p.1 = q.1

/-- An `eopen` tells files apart by their names, makes a new one empty and changes no other. -/
def Identifies (x : Registry) : Call → Prop
  | .eopen env filename =>
    Distinct (x.2 ++ x.1.opened (.eopen env filename)) ∧
    (∀ file, (x.1.fs.eopen env filename).2 = some file → ¬Used x.1.fs.metadata file.inodeNumber →
      fileSize (x.1.fs.eopen env filename).1.metadata file.inodeNumber = 0 ∧
        ∀ k : Fin 4, blocks (x.1.fs.eopen env filename).1.metadata file.inodeNumber k.val = -1) ∧
    ∀ j : Inode, (∀ file, (x.1.fs.eopen env filename).2 = some file → j ≠ file.inodeNumber) →
      ∀ a, 48 * j.val ≤ a → a < 48 * j.val + 48 →
        (x.1.fs.eopen env filename).1.metadata.peek a = x.1.fs.metadata.peek a
  | _ => True

def Spells (md : Block) (i : Inode) (filename : CString) : Prop := Used md i ∧ name md i = filename

/-- The first inode whose field spells the name was opened by that name; a name opened before is
still spelled somewhere unless every inode is used; and a name that gets a new inode ends before
or at the first byte of its size. -/
structure Legible (md : Block) (opens : List (CString × Inode)) (filename : CString) : Prop where
  first : ∀ j, Spells md j filename → (∀ l < j, ¬Spells md l filename) → (filename, j) ∈ opens
  still : ∀ i, (filename, i) ∈ opens → (∃ j, Spells md j filename) ∨ ∀ j : Inode, Used md j
  short : (∀ j, ¬Spells md j filename) → (∃ j : Inode, ¬Used md j) → filename.val.length ≤ 12

def LegibleCall (x : Registry) : Call → Prop
  | .eopen _ filename => Legible x.1.fs.metadata x.2 filename
  | _ => True

structure Registered (d : Nat) (x : Registry) : Prop where
  mounted : Mounted d x.1.fs
  flagged : ∀ i : Inode, status x.1.fs.metadata i = 0 ∨ status x.1.fs.metadata i = 1
  handles : ∀ h file, x.1.handle h = some file → Used x.1.fs.metadata file.inodeNumber
  distinct : Distinct x.2
  listed : ∀ i : Inode, Used x.1.fs.metadata i ↔ ∃ filename, (filename, i) ∈ x.2

/-! ## Status words -/

section Status

variable {md : Block} {i : Inode}

theorem slot_toNat_dvd (i : Nat) (k : Int) : 4 ∣ (slot i k).toNat := by
  unfold slot
  omega

/-- The loop of `ewrite` fills words that hold -1 and no others, wherever it starts. -/
theorem loadInt_writeBlocks {start : Int} {data : Nat → UInt8} {n k : Nat} {before : Draft} {a : Nat} (word : 4 ∣ a)
    (held : before.md.loadInt a ≠ -1) :
    (writeBlocks i start data n k before).1.md.loadInt a = before.md.loadInt a := by
  induction n generalizing k before with
  | zero => rfl
  | succ n ih =>
    have first : (writeRound i start data k before).1.md.loadInt a = before.md.loadInt a := by
      simp only [writeRound, allocate]
      split
      next empty =>
        have apart : (slot i (start + k)).toNat ≠ a := by
          rintro rfl
          exact held empty
        have aligned := slot_toNat_dvd i (start + k)
        split
        · exact Bytes.loadInt_storeInt_outside _ _ (by omega)
        · rfl
      next => rfl
    rw [writeBlocks]
    split
    · exact first
    · rw [ih (by rw [first]; exact held), first]

theorem status_ewrite {d : Nat} {fs fs' : Fs} {env : Env} {file file' : File} {data : Nat → UInt8} {size ret : Int}
    (mounted : Mounted d fs) (flagged : ∀ i : Inode, status fs.metadata i = 0 ∨ status fs.metadata i = 1)
    (used : Used fs.metadata file.inodeNumber) (call : fs.ewrite env file data size = some (fs', file', ret))
    (j : Inode) : status fs'.metadata j = status fs.metadata j := by
  by_cases refused : fs.Refused file size
  · obtain ⟨-, -, rfl⟩ := ewrite_of_refused mounted refused call
    rfl
  · obtain ⟨-, -, -, -, rfl⟩ := ewrite_of_not_refused mounted refused call
    have drafted : status (fs.drafted file).md j = status fs.metadata j := (sameInodes_setStatus used).status j
    have held : status (fs.drafted file).md j ≠ -1 := by
      have := flagged j
      omega
    rw [metadata_sealed, Draft.metadata, status_setModtime, status_setFileSize, ← drafted]
    exact loadInt_writeBlocks (by omega) held

end Status

/-! ## eopen -/

section Eopen

variable {d : Nat} {md : Block} {opens : List (CString × Inode)} {filename : CString} {i : Inode}

theorem lookup_eq_some_iff :
    lookup md filename = some i ↔ Spells md i filename ∧ ∀ l < i, ¬Spells md l filename := by
  rw [lookup, Fin.find?_eq_some_iff, decide_eq_true_eq]
  exact and_congr_right fun _ => forall₂_congr fun l _ => decide_eq_false_iff_not

theorem lookup_eq_none_iff : lookup md filename = none ↔ ∀ l, ¬Spells md l filename := by
  rw [lookup, Fin.find?_eq_none_iff]
  exact forall_congr' fun l => decide_eq_false_iff_not

theorem unused_eq_none_iff (flagged : ∀ i : Inode, status md i = 0 ∨ status md i = 1) :
    unused md = none ↔ ∀ i : Inode, Used md i := by
  rw [unused, Fin.find?_eq_none_iff]
  refine forall_congr' fun i => decide_eq_false_iff_not.trans ?_
  have := flagged i
  rw [Used]
  omega

theorem blocks_newInode_self {env : Env} (short : filename.val.length ≤ 15) (k : Fin 4) :
    blocks (newInode env md i filename) i k.val = -1 := by
  have empty : blocks (unnamed env md i) i k.val = -1 := by
    let blank : CString := ⟨[], List.not_mem_nil⟩
    have fits : blank.val.length ≤ 9 := Nat.zero_le 9
    have named : blocks (newInode env md i blank) i k.val = _ := blocks_newInode env fits i k
    rwa [if_pos rfl, newInode_eq_setName, blocks_setName _ _ _ fits] at named
  rw [newInode_eq_setName, ← empty]
  exact blocks_congr fun a _ _ => Bytes.peek_strcpy_outside _ _ (by omega)

namespace Registered

variable {x y : Registry}

theorem of_opened (registered : Registered d x) {i : Inode} {filename : CString} (member : (filename, i) ∈ x.2) :
    Used x.1.fs.metadata i :=
  (registered.listed i).mpr ⟨filename, member⟩

theorem distinct_append (registered : Registered d x) {i : Inode} {filename : CString}
    (same : ∀ p ∈ x.2, p.2 = i ↔ p.1 = filename) : Distinct (x.2 ++ [(filename, i)]) := by
  intro p first q second
  rw [List.mem_append, List.mem_singleton] at first second
  rcases first with first | rfl
  · rcases second with second | rfl
    · exact registered.distinct p first q second
    · exact same p first
  · rcases second with second | rfl
    · rw [eq_comm, same q second, eq_comm]
    · exact iff_of_true rfl rfl

theorem identifies_iff (registered : Registered d x) (env : Env) (filename : CString) :
    Identifies x (.eopen env filename) ↔ Legible x.1.fs.metadata x.2 filename := by
  have full := unused_eq_none_iff registered.flagged
  have call := eopen_eq registered.mounted env filename
  cases found : findInode env x.1.fs.metadata filename with
  | none =>
    rw [found] at call
    obtain ⟨absent, taken⟩ := findInode_eq_none_iff.mp found
    have used := full.mp taken
    refine iff_of_true ?_ ?_
    · have none_opened : x.1.opened (.eopen env filename) = [] := by simp [World.opened, call]
      rw [Identifies, none_opened, List.append_nil, call]
      exact ⟨registered.distinct, nofun, fun _ _ _ _ _ => rfl⟩
    · refine ⟨fun j spelled _ => absurd spelled (lookup_eq_none_iff.mp absent j), fun _ _ => .inr used, ?_⟩
      rintro - ⟨j, free⟩
      exact absurd (used j) free
  | some entry =>
    obtain ⟨i, md⟩ := entry
    rw [found] at call
    have metadata : (x.1.fs.eopen env filename).1.metadata = md := by rw [call, metadata_put_self]
    have handed : (x.1.fs.eopen env filename).2 = some { offset := 0, inodeNumber := i } := by rw [call]
    have opens : x.1.opened (.eopen env filename) = [(filename, i)] := by simp [World.opened, handed]
    rw [Identifies, opens, metadata, handed]
    rcases findInode_eq_some_iff.mp found with ⟨present, rfl⟩ | ⟨absent, available, rfl⟩
    · obtain ⟨spelled, before⟩ := lookup_eq_some_iff.mp present
      constructor
      · rintro ⟨distinct, -⟩
        obtain ⟨other, listed⟩ := (registered.listed i).mp spelled.1
        -- the inode was opened by some name, and by this one now
        have same : other = filename := (distinct (other, i) (List.mem_append_left _ listed) (filename, i)
          (List.mem_append_right _ List.mem_cons_self)).mp rfl
        refine ⟨fun j spelled' before' => ?_, fun _ _ => .inl ⟨i, spelled⟩, fun none_ => absurd spelled (none_ i)⟩
        have unique := Option.some.inj ((lookup_eq_some_iff.mpr ⟨spelled', before'⟩).symm.trans present)
        rw [unique, ← same]
        exact listed
      · intro legible
        have listed := legible.first i spelled before
        refine ⟨registered.distinct_append fun p member => registered.distinct p member (filename, i) listed, ?_,
          fun _ _ _ _ _ => rfl⟩
        rintro file ⟨rfl⟩ free
        exact absurd spelled.1 free
    · have fresh := unused_eq_some available
      have unspelled := lookup_eq_none_iff.mp absent
      constructor
      · rintro ⟨distinct, created, -⟩
        refine ⟨fun j spelled _ => absurd spelled (unspelled j), fun j listed => ?_, fun _ _ => ?_⟩
        · have same : j = i := (distinct (filename, j) (List.mem_append_left _ listed) (filename, i)
            (List.mem_append_right _ List.mem_cons_self)).mpr rfl
          exact absurd (registered.of_opened listed) (same ▸ fresh)
        · exact fileSize_newInode_iff.mp (created _ rfl fresh).1
      · intro legible
        have short := legible.short unspelled ⟨i, fresh⟩
        have unlisted : ∀ p ∈ x.2, p.1 ≠ filename := by
          rintro ⟨other, j⟩ listed rfl
          rcases legible.still j listed with ⟨l, spelled⟩ | used
          · exact unspelled l spelled
          · exact fresh (used i)
        refine ⟨registered.distinct_append fun p member => ?_, ?_, ?_⟩
        · refine iff_of_false (fun same => ?_) (unlisted p member)
          exact fresh (same ▸ registered.of_opened (i := p.2) member)
        · rintro file ⟨rfl⟩ -
          exact ⟨fileSize_newInode_iff.mpr short, blocks_newInode_self (by omega)⟩
        · intro j other a low high
          have apart : j ≠ i := other _ rfl
          rw [Ne, Fin.ext_iff] at apart
          exact peek_newInode (by omega) (by omega)

theorem of_same_status (registered : Registered d x) (mounted : Mounted d y.1.fs)
    (status : ∀ j : Inode, Metadata.status y.1.fs.metadata j = Metadata.status x.1.fs.metadata j) (opens : y.2 = x.2)
    (handles : ∀ h file, y.1.handle h = some file → Used x.1.fs.metadata file.inodeNumber) : Registered d y := by
  have used : ∀ j : Inode, Used y.1.fs.metadata j ↔ Used x.1.fs.metadata j := fun j => by rw [Used, Used, status]
  refine ⟨mounted, fun j => ?_, fun h file opened => (used _).mpr (handles h file opened), ?_, fun j => ?_⟩
  · rw [status]
    exact registered.flagged j
  · rw [opens]
    exact registered.distinct
  · rw [opens, used]
    exact registered.listed j

theorem handles_set (registered : Registered d x) {g : Nat} {file : File} (opened : x.1.handle g = some file)
    {w : World} {moved : Option File} (others : ∀ h, w.handle h = if h = g then moved else x.1.handle h)
    (same : ∀ file' ∈ moved, file'.inodeNumber = file.inodeNumber) (h : Nat) (file' : File)
    (after : w.handle h = some file') : Used x.1.fs.metadata file'.inodeNumber := by
  rw [others] at after
  split at after
  · rw [same file' after]
    exact registered.handles g file opened
  · exact registered.handles h file' after

theorem eopen_step (registered : Registered d x) {env : Env} {filename : CString}
    (legible : Legible x.1.fs.metadata x.2 filename) (step : naming x (.eopen env filename) = some y) :
    Registered d y := by
  obtain ⟨⟨reply, call⟩, opens⟩ := World.watched step
  have mounted := (exec_carried registered.mounted call).mounted
  have distinct := ((registered.identifies_iff env filename).mpr legible).1
  have unchanged := eopen_eq registered.mounted env filename
  rcases exec_eopen registered.mounted call with ⟨absent, taken, -, handles, metadata⟩ | ⟨i, found, -, handles⟩
  · have none_opened : x.1.opened (.eopen env filename) = [] := by
      simp [World.opened, unchanged, findInode_eq_none_iff.mpr ⟨absent, taken⟩]
    rw [none_opened, List.append_nil] at opens
    refine registered.of_same_status mounted (fun j => by rw [metadata]) opens fun h file opened => ?_
    rw [handles] at opened
    exact registered.handles h file opened
  · have one_opened : x.1.opened (.eopen env filename) = [(filename, i)] := by simp [World.opened, unchanged, found]
    rw [one_opened] at opens distinct
    obtain ⟨own, others⟩ : Used y.1.fs.metadata i ∧
        ∀ j : Inode, j ≠ i → status y.1.fs.metadata j = status x.1.fs.metadata j := by
      rcases findInode_eq_some_iff.mp found with ⟨present, metadata⟩ | ⟨absent, available, metadata⟩
      · rw [metadata]
        exact ⟨(lookup_eq_some_iff.mp present).1.1, fun _ _ => rfl⟩
      · have short := legible.short (lookup_eq_none_iff.mp absent) ⟨i, unused_eq_some available⟩
        rw [metadata]
        refine ⟨used_newInode, fun j other => ?_⟩
        rw [Ne, Fin.ext_iff] at other
        exact status_congr fun a _ _ => peek_newInode (by omega) (by omega)
    have used : ∀ j : Inode, Used y.1.fs.metadata j ↔ j = i ∨ Used x.1.fs.metadata j := by
      intro j
      by_cases same : j = i
      · rw [same]
        exact iff_of_true own (.inl rfl)
      · rw [Used, others j same, or_iff_right same, Used]
    refine ⟨mounted, fun j => ?_, fun h file opened => ?_, by rw [opens]; exact distinct, fun j => ?_⟩
    · by_cases same : j = i
      · rw [same]
        exact .inr own
      · rw [others j same]
        exact registered.flagged j
    · rw [handles] at opened
      split at opened
      · cases opened
        exact own
      · exact (used _).mpr (.inr (registered.handles h file opened))
    · rw [opens, used, registered.listed]
      simp only [List.mem_append, List.mem_singleton, Prod.mk.injEq, exists_or, exists_eq_left]
      rw [or_comm]

theorem step (registered : Registered d x) {c : Call} (legible : LegibleCall x c) (step : naming x c = some y) :
    Registered d y := by
  cases c with
  | eopen env filename => exact registered.eopen_step legible step
  | ewrite env h data size =>
    obtain ⟨⟨reply, call⟩, opens⟩ := World.watched step
    have mounted := (exec_carried registered.mounted call).mounted
    obtain ⟨file, fs, file', ret, opened, written, world, -⟩ := World.exec_ewrite call
    have used := registered.handles h file opened
    have inode : file'.inodeNumber = file.inodeNumber := by
      by_cases refused : x.1.fs.Refused file size
      · rw [(ewrite_of_refused registered.mounted refused written).2.1]
      · rw [(ewrite_of_not_refused registered.mounted refused written).2.2.2.1]
        rfl
    refine registered.of_same_status mounted (fun j => ?_) (by simpa [World.opened] using opens)
      (registered.handles_set opened (by rw [world]; exact x.1.handle_set _ opened _) (by rintro _ ⟨rfl⟩; exact inode))
    rw [world]
    exact status_ewrite registered.mounted registered.flagged used written j
  | eread env h data size =>
    obtain ⟨⟨reply, call⟩, opens⟩ := World.watched step
    have mounted := (exec_carried registered.mounted call).mounted
    obtain ⟨file, fs, file', data', ret, opened, read, world, -⟩ := World.exec_eread call
    obtain ⟨metadata, inode, -⟩ := eread_metadata registered.mounted read
    exact registered.of_same_status mounted (fun j => by rw [world]; simp only [metadata])
      (by simpa [World.opened] using opens)
      (registered.handles_set opened (by rw [world]; exact x.1.handle_set _ opened _) (by rintro _ ⟨rfl⟩; exact inode))
  | eseek h offset =>
    obtain ⟨⟨reply, call⟩, opens⟩ := World.watched step
    have mounted := (exec_carried registered.mounted call).mounted
    obtain ⟨file, opened, world, -⟩ := World.exec_eseek call
    exact registered.of_same_status mounted (fun j => by rw [world]) (by simpa [World.opened] using opens)
      (registered.handles_set opened (by rw [world]; exact x.1.handle_set _ opened _) (by rintro _ ⟨rfl⟩; rfl))
  | eclose h =>
    obtain ⟨⟨reply, call⟩, opens⟩ := World.watched step
    have mounted := (exec_carried registered.mounted call).mounted
    obtain ⟨file, opened, world, -⟩ := World.exec_eclose call
    exact registered.of_same_status mounted (fun j => by rw [world]) (by simpa [World.opened] using opens)
      (registered.handles_set opened (by rw [world]; exact x.1.handle_set _ opened _) (by simp))

end Registered

end Eopen

/-! ## Runs -/

theorem registered_formatted {d : Nat} {fs : Fs} (env : Env) (n : Int) (mounted : Mounted d fs)
    (size : diskSize fs.superblock = d) : Registered d (World.formatted env fs n, []) := by
  obtain ⟨fs', format, -, -, -, unused⟩ := createFileSystem_spec env n mounted size
  have sane := sane_formatted env n mounted size
  have formatted : (World.formatted env fs n).fs = fs' := by rw [World.formatted, format]
  refine ⟨sane.mounted, sane.con.flagged, sane.used, fun _ listed => (by cases listed), fun i => iff_of_false ?_ (by simp)⟩
  rw [formatted]
  exact unused i

/-- Names identify files, new files are empty and no other inode changes, in every `eopen` of a
program on a formatted device, whatever it writes in between, exactly when the names in the
metadata are legible at each of them. -/
theorem names_identify_iff {d : Nat} {n : Int} {fs : Fs} {env : Env} {calls : List Call} (mounted : Mounted d fs)
    (size : diskSize fs.superblock = d) :
    Machine.EveryStep naming Identifies (World.formatted env fs n, []) calls ↔
      Machine.EveryStep naming LegibleCall (World.formatted env fs n, []) calls := by
  apply Machine.everyStep_iff_of_invariant (K := fun _ _ => True) (I := Registered d)
  · intro x c registered _
    cases c with
    | eopen env filename => exact registered.identifies_iff env filename
    | ewrite env h data size => exact Iff.rfl
    | eread env h data size => exact Iff.rfl
    | eseek h offset => exact Iff.rfl
    | eclose h => exact Iff.rfl
  · exact fun x c y registered _ legible step => registered.step legible step
  · exact registered_formatted env n mounted size
  · exact Machine.everyStep_of_forall fun _ _ => trivial

/-! ## Names that end before the size

A field and the two bytes of padding behind it hold eleven characters and a NUL, which calls at
offsets that are not negative never touch. -/

section Short

variable {d : Nat} {md md' : Block} {j : Inode}

theorem name_congr_padded (fits : (name md j).val.length < 12)
    (same : ∀ a, 48 * j.val + 4 ≤ a → a < 48 * j.val + 16 → md'.peek a = md.peek a) : name md' j = name md j :=
  Subtype.ext (Bytes.cstr_congr fits fun a low high => (same a low high).symm)

structure Spelled (x : Registry) : Prop where
  fits : ∀ p ∈ x.2, p.1.val.length ≤ 11
  names : ∀ p ∈ x.2, name x.1.fs.metadata p.2 = p.1
  offset : ∀ h file, x.1.handle h = some file → 0 ≤ file.offset

def ShortNamed : Call → Prop
  | .eopen _ filename => filename.val.length ≤ 11
  | c => Positioned c

variable {x y : Registry}

theorem Registered.legible_of_spelled (registered : Registered d x) (spelled : Spelled x) {filename : CString}
    (short : filename.val.length ≤ 11) : Legible x.1.fs.metadata x.2 filename where
  first j spells _ := by
    obtain ⟨other, listed⟩ := (registered.listed j).mp spells.1
    have same : other = filename := (spelled.names _ listed).symm.trans spells.2
    rwa [← same]
  still i listed := .inl ⟨i, registered.of_opened listed, spelled.names _ listed⟩
  short _ _ := by omega

theorem Spelled.of_same_fields (spelled : Spelled x) (opens : y.2 = x.2)
    (fields : ∀ (j : Inode) (a : Nat), 48 * j.val + 4 ≤ a → a < 48 * j.val + 16 →
      y.1.fs.metadata.peek a = x.1.fs.metadata.peek a)
    (offset : ∀ h file, y.1.handle h = some file → 0 ≤ file.offset) : Spelled y where
  fits := by
    rw [opens]
    exact spelled.fits
  names := by
    rw [opens]
    intro p listed
    have named := spelled.names p listed
    have fits := spelled.fits p listed
    rw [name_congr_padded (by rw [named]; omega) (fields p.2), named]
  offset := offset

theorem Registered.spelled_eopen (registered : Registered d x) (spelled : Spelled x) {env : Env} {filename : CString}
    (short : filename.val.length ≤ 11) (step : naming x (.eopen env filename) = some y) : Spelled y := by
  obtain ⟨⟨reply, call⟩, opens⟩ := World.watched step
  have unchanged := eopen_eq registered.mounted env filename
  rcases exec_eopen registered.mounted call with ⟨absent, taken, -, handles, metadata⟩ | ⟨i, found, -, handles⟩
  · have none_opened : x.1.opened (.eopen env filename) = [] := by
      simp [World.opened, unchanged, findInode_eq_none_iff.mpr ⟨absent, taken⟩]
    rw [none_opened, List.append_nil] at opens
    exact spelled.of_same_fields opens (fun j a _ _ => by rw [metadata]) (by rw [handles]; exact spelled.offset)
  · have one_opened : x.1.opened (.eopen env filename) = [(filename, i)] := by simp [World.opened, unchanged, found]
    rw [one_opened] at opens
    have offset : ∀ h file, y.1.handle h = some file → 0 ≤ file.offset := by
      intro h file opened
      rw [handles] at opened
      split at opened
      · cases opened
        exact le_rfl
      · exact spelled.offset h file opened
    have named : name y.1.fs.metadata i = filename := by
      rcases findInode_eq_some_iff.mp found with ⟨present, metadata⟩ | ⟨-, -, metadata⟩
      · rw [metadata]
        exact (lookup_eq_some_iff.mp present).1.2
      · rw [metadata, newInode_eq_setName]
        exact Subtype.ext (Bytes.cstr_strcpy _ filename (by omega))
    have others : ∀ p ∈ x.2, name y.1.fs.metadata p.2 = p.1 := by
      intro p listed
      have before := spelled.names p listed
      rcases findInode_eq_some_iff.mp found with ⟨-, metadata⟩ | ⟨-, available, metadata⟩
      · rw [metadata, before]
      · have other : p.2 ≠ i := fun equal => unused_eq_some available (equal ▸ registered.of_opened listed)
        have fits := spelled.fits p listed
        rw [Ne, Fin.ext_iff] at other
        rw [name_congr_padded (by rw [before]; omega) fun a _ _ => ?_, before]
        rw [metadata]
        exact peek_newInode (by omega) (by omega)
    refine ⟨fun p member => ?_, fun p member => ?_, offset⟩
    all_goals
      rw [opens, List.mem_append, List.mem_singleton] at member
      rcases member with listed | rfl
    · exact spelled.fits p listed
    · exact short
    · exact others p listed
    · exact named

theorem Registered.spelled_step (registered : Registered d x) (spelled : Spelled x) {c : Call} (short : ShortNamed c)
    (step : naming x c = some y) : Spelled y := by
  cases c with
  | eopen env filename => exact registered.spelled_eopen spelled short step
  | ewrite env h data size =>
    have positive : 0 ≤ size := short
    obtain ⟨⟨reply, call⟩, opens⟩ := World.watched step
    obtain ⟨file, fs, file', ret, opened, written, world, -⟩ := World.exec_ewrite call
    have low := spelled.offset h file opened
    have listed : y.2 = x.2 := by simpa [World.opened] using opens
    by_cases refused : x.1.fs.Refused file size
    · obtain ⟨-, rfl, rfl⟩ := ewrite_of_refused registered.mounted refused written
      refine spelled.of_same_fields listed (fun j a _ _ => by rw [world]; rfl) ?_
      rw [world, x.1.handle_kept _ opened]
      exact spelled.offset
    · have inside : file.offset + size ≤ 2048 := not_lt.mp fun beyond => refused (.inl beyond)
      obtain ⟨-, -, -, rfl, rfl⟩ := ewrite_of_not_refused registered.mounted refused written
      refine spelled.of_same_fields listed (fun j a first last => ?_) fun g file' after => ?_
      · rw [world]
        exact peek_sealed_field low inside _ first last
      · rw [world, x.1.handle_set _ opened] at after
        split at after
        · cases after
          exact show 0 ≤ file.offset + size by omega
        · exact spelled.offset g file' after
  | eread env h data size =>
    have positive : 0 ≤ size := short
    obtain ⟨⟨reply, call⟩, opens⟩ := World.watched step
    obtain ⟨file, fs, file', data', ret, opened, read, world, -⟩ := World.exec_eread call
    obtain ⟨metadata, -, moved⟩ := eread_metadata registered.mounted read
    refine spelled.of_same_fields (by simpa [World.opened] using opens) (fun j a _ _ => by rw [world]; simp only [metadata])
      fun g file₁ after => ?_
    rw [world, x.1.handle_set _ opened] at after
    split at after
    · cases after
      have low := spelled.offset h file opened
      rcases moved with rfl | ⟨-, offset⟩
      · exact low
      · omega
    · exact spelled.offset g file₁ after
  | eseek h offset =>
    obtain ⟨⟨reply, call⟩, opens⟩ := World.watched step
    obtain ⟨file, opened, world, -⟩ := World.exec_eseek call
    refine spelled.of_same_fields (by simpa [World.opened] using opens) (fun j a _ _ => by rw [world]) fun g file₁ after => ?_
    rw [world, x.1.handle_set _ opened] at after
    split at after
    · cases after
      exact short.1
    · exact spelled.offset g file₁ after
  | eclose h =>
    obtain ⟨⟨reply, call⟩, opens⟩ := World.watched step
    obtain ⟨file, opened, world, -⟩ := World.exec_eclose call
    refine spelled.of_same_fields (by simpa [World.opened] using opens) (fun j a _ _ => by rw [world]) fun g file₁ after => ?_
    rw [world, x.1.handle_set _ opened] at after
    split at after
    · cases after
    · exact spelled.offset g file₁ after

/-- Names of at most eleven characters are always legible. -/
theorem legible_of_short {n : Int} {fs : Fs} {env : Env} {calls : List Call} (mounted : Mounted d fs)
    (size : diskSize fs.superblock = d) (short : ∀ c ∈ calls, ShortNamed c) :
    Machine.EveryStep naming LegibleCall (World.formatted env fs n, []) calls := by
  have sane := sane_formatted env n mounted size
  have start : Registered d (World.formatted env fs n, []) ∧ Spelled (World.formatted env fs n, []) :=
    ⟨registered_formatted env n mounted size, nofun, nofun, sane.offset⟩
  have legible : ∀ (x : Registry) (c : Call), Registered d x ∧ Spelled x → ShortNamed c → LegibleCall x c := by
    rintro x c ⟨registered, spelled⟩ short
    cases c with
    | eopen env filename => exact registered.legible_of_spelled spelled short
    | ewrite env h data size => trivial
    | eread env h data size => trivial
    | eseek h offset => trivial
    | eclose h => trivial
  refine Machine.EveryStep.imp_of_invariant (I := fun x => Registered d x ∧ Spelled x) legible ?_ start
    (Machine.everyStep_of_forall short)
  rintro x c y ⟨registered, spelled⟩ short step
  exact ⟨registered.step (legible x c ⟨registered, spelled⟩ short) step, registered.spelled_step spelled short step⟩

end Short

/-! ## A name of twelve characters -/

instance (md : Block) (i : Inode) (filename : CString) : Decidable (Spells md i filename) :=
  inferInstanceAs (Decidable (_ ∧ _))

instance (md : Block) (opens : List (CString × Inode)) (filename : CString) : Decidable (Legible md opens filename) :=
  letI first : Decidable (∀ j, Spells md j filename → (∀ l < j, ¬Spells md l filename) → (filename, j) ∈ opens) :=
    inferInstance
  letI still : Decidable (∀ i, (filename, i) ∈ opens → (∃ j, Spells md j filename) ∨ ∀ j : Inode, Used md j) :=
    inferInstance
  letI short : Decidable ((∀ j, ¬Spells md j filename) → (∃ j : Inode, ¬Used md j) → filename.val.length ≤ 12) :=
    inferInstance
  @decidable_of_decidable_of_iff _ _ (@instDecidableAnd _ _ first (@instDecidableAnd _ _ still short))
    ⟨fun ⟨first, still, short⟩ => ⟨first, still, short⟩, fun legible => ⟨legible.first, legible.still, legible.short⟩⟩

instance (x : Registry) (c : Call) : Decidable (LegibleCall x c) :=
  match c with
  | .eopen _ filename => inferInstanceAs (Decidable (Legible x.1.fs.metadata x.2 filename))
  | .eseek _ _ | .ewrite _ _ _ _ | .eread _ _ _ _ | .eclose _ => isTrue trivial

def OpensOrWrites : Call → Prop
  | .eopen _ filename => filename.val.length ≤ 75
  | .ewrite _ _ _ _ => True
  | _ => False

def twelve : CString := ⟨List.replicate 12 97, by decide⟩

def longNamed (size : Int) : List Call := [.eopen clockEnv twelve, .ewrite clockEnv 0 (fun _ => 7) size]

theorem names_identify_twelve : Machine.EveryStep naming Identifies (World.formatted clockEnv (Fs.blank 42) 0, [])
    (longNamed 512 ++ [.eopen clockEnv twelve]) := by
  have legible : Machine.checkRun naming (fun x c => decide (LegibleCall x c))
      (World.formatted clockEnv (Fs.blank 42) 0, []) (longNamed 512 ++ [.eopen clockEnv twelve]) = true := by
    decide +kernel
  apply (names_identify_iff (mounted_blank (by decide) le_rfl) (diskSize_blank le_rfl)).mpr
  exact Machine.everyStep_of_checkRun (fun _ _ checked => of_decide_eq_true checked) legible

/-- With a size of one byte the file is not found again. -/
theorem not_names_identify_twelve : ¬∀ (d : Nat) (n : Int) (fs : Fs) (env : Env) (calls : List Call), n = 0 ∨ n = 1 →
    Mounted d fs → diskSize fs.superblock = d → (∀ c ∈ calls, OpensOrWrites c) →
    Machine.EveryStep naming Identifies (World.formatted env fs n, []) calls := by
  intro claimed
  have within : ∀ c ∈ longNamed 1 ++ [.eopen clockEnv twelve], OpensOrWrites c := by
    simp [longNamed, OpensOrWrites, twelve]
  have identifies := claimed 42 0 (Fs.blank 42) clockEnv (longNamed 1 ++ [.eopen clockEnv twelve]) (.inl rfl)
    (mounted_blank (by decide) le_rfl) (diskSize_blank le_rfl) within
  have seen : (Machine.run naming (World.formatted clockEnv (Fs.blank 42) 0, []) (longNamed 1)).any (fun x =>
      decide ((twelve, 0) ∈ x.2 ∧ (twelve, 1) ∈ x.1.opened (.eopen clockEnv twelve))) = true := by decide +kernel
  simp only [Option.any_eq_true, decide_eq_true_eq] at seen
  obtain ⟨x, reached, before, again⟩ := seen
  obtain ⟨distinct, -⟩ :=
    (Machine.everyStep_iff.mp identifies) (longNamed 1) (.eopen clockEnv twelve) [] x rfl reached
  have same := (distinct (twelve, 0) (List.mem_append_left _ before) (twelve, 1) (List.mem_append_right _ again)).mpr rfl
  cases same

end OsLabs.Emufs
