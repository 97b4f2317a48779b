import Mathlib.Data.List.GetD
import OsLabs.Emufs.Isolation

/-! The bytes of an inode after each call, whatever the names. A name lies at 4 of its inode
and the size of the file at 16, so a name of twelve characters still ends on a byte that is
zero and a longer one does not. -/

set_option autoImplicit false

namespace OsLabs.Emufs

open OsLabs.Lib
open Metadata Fs

/-! ## A new inode -/

section NewInode

variable {md : Block} {env : Env} {i : Inode} {filename : CString}

theorem fileSize_congr {md md' : Block} {j : Inode}
    (same : ∀ a, 48 * j.val + 16 ≤ a → a < 48 * j.val + 20 → md'.peek a = md.peek a) :
    fileSize md' j = fileSize md j :=
  Bytes.loadInt_congr same

theorem fileSize_setFileSize (md : Block) (i j : Inode) {v : Int} (low : -2 ^ 31 ≤ v) (high : v < 2 ^ 31) :
    fileSize (setFileSize md i v) j = if j = i then v else fileSize md j := by
  by_cases same : j = i
  · rw [if_pos same, same]
    exact md.loadInt_storeInt (by omega) low high
  · rw [if_neg same]
    rw [Fin.ext_iff] at same
    exact fileSize_congr fun a _ _ => md.peek_storeInt_outside v (by omega)

theorem fileSize_setModtime (md : Block) (i j : Inode) (t : Nat) : fileSize (setModtime md i t) j = fileSize md j :=
  fileSize_congr fun a _ _ => md.peek_storeNat_outside t (by omega)

def unnamed (env : Env) (md : Block) (i : Inode) : Block :=
  setModtime (setBlock (setBlock (setBlock (setBlock (setFileSize (setStatus md i 1) i 0)
    i (0 : Fin 4).val (-1)) i (1 : Fin 4).val (-1)) i (2 : Fin 4).val (-1)) i (3 : Fin 4).val (-1)) i env.now

theorem newInode_eq_setName : newInode env md i filename = setName (unnamed env md i) i filename := newInode_eq env

theorem peek_unnamed {a : Nat} (outside : a < 48 * i.val ∨ 48 * i.val + 48 ≤ a) :
    (unnamed env md i).peek a = md.peek a := by
  simp only [unnamed, setModtime, setBlock, setFileSize, setStatus, slot]
  rw [Bytes.peek_storeNat_outside _ _ (by omega), Bytes.peek_storeInt_outside _ _ (by omega),
    Bytes.peek_storeInt_outside _ _ (by omega), Bytes.peek_storeInt_outside _ _ (by omega),
    Bytes.peek_storeInt_outside _ _ (by omega), Bytes.peek_storeInt_outside _ _ (by omega),
    Bytes.peek_storeInt_outside _ _ (by omega)]

theorem status_unnamed : status (unnamed env md i) i = 1 := by
  simp only [unnamed, status_setModtime, status_setBlock, status_setFileSize]
  rw [status_setStatus md i i (by omega) (by omega), if_pos rfl]

theorem fileSize_unnamed : fileSize (unnamed env md i) i = 0 := by
  have stored : fileSize (setFileSize (setStatus md i 1) i 0) i = 0 := by
    rw [fileSize_setFileSize _ _ _ (by omega) (by omega), if_pos rfl]
  rw [← stored]
  apply fileSize_congr
  intro a low high
  simp only [unnamed, setModtime, setBlock, slot]
  rw [Bytes.peek_storeNat_outside _ _ (by omega), Bytes.peek_storeInt_outside _ _ (by omega),
    Bytes.peek_storeInt_outside _ _ (by omega), Bytes.peek_storeInt_outside _ _ (by omega),
    Bytes.peek_storeInt_outside _ _ (by omega)]

theorem peek_newInode {a : Nat} (short : filename.val.length ≤ 43)
    (outside : a < 48 * i.val ∨ 48 * i.val + 48 ≤ a) : (newInode env md i filename).peek a = md.peek a := by
  rw [newInode_eq_setName, setName, Bytes.peek_strcpy_outside _ _ (by omega), peek_unnamed outside]

theorem used_newInode : Used (newInode env md i filename) i := by
  have unnamed : status (unnamed env md i) i = 1 := status_unnamed
  rw [Used, newInode_eq_setName, ← unnamed]
  exact status_congr fun a _ _ => Bytes.peek_strcpy_outside _ _ (by omega)

theorem used_newInode_of_ne (short : filename.val.length ≤ 43) {j : Inode} (other : j ≠ i) :
    Used (newInode env md i filename) j ↔ Used md j := by
  rw [Ne, Fin.ext_iff] at other
  have same : status (newInode env md i filename) j = status md j :=
    status_congr fun a _ _ => peek_newInode short (by omega)
  rw [Used, same, Used]

/-- The first byte of the size is the thirteenth of the name, or the NUL after the twelfth. -/
theorem fileSize_newInode_iff : fileSize (newInode env md i filename) i = 0 ↔ filename.val.length ≤ 12 := by
  rw [newInode_eq_setName]
  constructor
  · intro zero
    by_contra long
    have first := Bytes.loadInt_eq_zero_iff.mp zero 0 (by omega)
    rw [setName, Bytes.strcpy, Bytes.peek_blit_inside _ _ (by omega) (by omega) (by omega)] at first
    have character : 48 * i.val + 16 + 0 - (48 * i.val + 4) = 12 := by omega
    rw [character, List.getD_eq_getElem _ _ (by omega)] at first
    exact filename.property (List.mem_of_getElem first)
  · intro short
    have empty : fileSize (unnamed env md i) i = 0 := fileSize_unnamed
    have zero := Bytes.loadInt_eq_zero_iff.mp empty
    apply Bytes.loadInt_eq_zero_iff.mpr
    intro j bound
    by_cases nul : j = 0 ∧ filename.val.length = 12
    · rw [setName, Bytes.strcpy, Bytes.peek_blit_inside _ _ (by omega) (by omega) (by omega)]
      exact List.getD_eq_default _ _ (by omega)
    · rw [setName, Bytes.peek_strcpy_outside _ _ (by omega), zero j bound]

theorem fileSize_newInode_of_ne (short : filename.val.length ≤ 43) {j : Inode} (other : j ≠ i) :
    fileSize (newInode env md i filename) j = fileSize md j := by
  rw [Ne, Fin.ext_iff] at other
  exact fileSize_congr fun a _ _ => peek_newInode short (by omega)

end NewInode

/-! ## The calls -/

/-- Offsets of `eseek` lie in a file and sizes are not negative; names are of any length. -/
def Positioned : Call → Prop
  | .eseek _ offset => 0 ≤ offset ∧ offset ≤ 2048
  | .ewrite _ _ _ size => 0 ≤ size
  | .eread _ _ _ size => 0 ≤ size
  | .eopen _ _ => True
  | .eclose _ => True

instance (c : Call) : Decidable (Positioned c) :=
  match c with
  | .eseek _ offset => inferInstanceAs (Decidable (0 ≤ offset ∧ offset ≤ 2048))
  | .ewrite _ _ _ size | .eread _ _ _ size => inferInstanceAs (Decidable (0 ≤ size))
  | .eopen _ _ | .eclose _ => isTrue trivial

section Calls

variable {d : Nat} {fs fs' : Fs} {env : Env} {file file' : File} {data data' : Nat → UInt8} {size ret : Int}
  {filename : CString}

/-- The two checks of `ewrite`. -/
def Fs.Refused (fs : Fs) (file : File) (size : Int) : Prop :=
  2048 < file.offset + size ∨
    (freeBlocks fs.superblock).card <
      newBlocksRequired (fs.drafted file).md file.inodeNumber (file.offset.tdiv 512) (size.tdiv 512).toNat

instance (fs : Fs) (file : File) (size : Int) : Decidable (fs.Refused file size) := inferInstanceAs (Decidable (_ ∨ _))

theorem ewrite_of_refused (mounted : Mounted d fs) (refused : fs.Refused file size)
    (call : fs.ewrite env file data size = some (fs', file', ret)) : ret = -1 ∧ file' = file ∧ fs' = fs.moved 2 := by
  rw [ewrite_eq mounted] at call
  split at call
  · cases call
  split at call
  · cases call
    exact ⟨rfl, rfl, rfl⟩
  next inside =>
    split at call
    · cases call
    rw [if_pos (refused.resolve_left inside)] at call
    cases call
    exact ⟨rfl, rfl, rfl⟩

theorem ewrite_of_not_refused (mounted : Mounted d fs) (enough : ¬fs.Refused file size)
    (call : fs.ewrite env file data size = some (fs', file', ret)) :
    InInt (file.offset + size) ∧ Accessible file.inodeNumber (file.offset.tdiv 512) (size.tdiv 512) ∧ ret = size ∧
      file' = eseek file (file.offset + size) ∧
      fs' = (fs.looped file data size).sealed env file.inodeNumber (file.offset + size) := by
  rw [ewrite_eq mounted] at call
  split at call
  · cases call
  next word =>
    rw [if_neg fun beyond => enough (.inl beyond)] at call
    split at call
    · cases call
    next accessible =>
      rw [if_neg fun short => enough (.inr short)] at call
      cases call
      exact ⟨not_not.mp word, not_not.mp accessible, rfl, rfl, rfl⟩

theorem peek_looped (low : 0 ≤ file.offset) (inside : file.offset + size ≤ 2048) {a : Nat}
    (outside : a < 48 * file.inodeNumber.val + 20 ∨ 48 * file.inodeNumber.val + 36 ≤ a) :
    (fs.looped file data size).md.peek a = (fs.drafted file).md.peek a := by
  have placed : 512 ≤ size → -512 < file.offset := fun _ => by omega
  rw [looped_placed placed data]
  exact peek_writeBlocks data (fits_of_placed inside placed) outside

section Sealed

variable (low : 0 ≤ file.offset) (inside : file.offset + size ≤ 2048)
include low inside

theorem peek_sealed_of_ne (past : Int) {j : Inode} (other : j ≠ file.inodeNumber) {a : Nat} (first : 48 * j.val ≤ a)
    (last : a < 48 * j.val + 48) :
    ((fs.looped file data size).sealed env file.inodeNumber past).metadata.peek a = fs.metadata.peek a := by
  have others : ∀ a, a < 48 * file.inodeNumber.val ∨ 48 * file.inodeNumber.val + 48 ≤ a →
      (fs.looped file data size).md.peek a = (fs.drafted file).md.peek a :=
    fun a outside => peek_looped low inside (by omega)
  rw [Ne, Fin.ext_iff] at other
  exact peek_sealed others env past (by omega)

theorem peek_sealed_field (past : Int) {j : Inode} {a : Nat} (first : 48 * j.val + 4 ≤ a) (last : a < 48 * j.val + 16) :
    ((fs.looped file data size).sealed env file.inodeNumber past).metadata.peek a = fs.metadata.peek a := by
  by_cases own : j = file.inodeNumber
  · rw [own] at first last
    rw [metadata_sealed]
    calc (setModtime (setFileSize (fs.looped file data size).md file.inodeNumber past) file.inodeNumber env.now).peek a
        = (setFileSize (fs.looped file data size).md file.inodeNumber past).peek a :=
          Bytes.peek_storeNat_outside _ _ (by omega)
      _ = (fs.looped file data size).md.peek a := Bytes.peek_storeInt_outside _ _ (by omega)
      _ = (fs.drafted file).md.peek a := peek_looped low inside (by omega)
      _ = fs.metadata.peek a := Bytes.peek_storeInt_outside _ _ (by omega)
  · exact peek_sealed_of_ne low inside past own (by omega) (by omega)

theorem used_sealed (used : Used fs.metadata file.inodeNumber) (past : Int) (j : Inode) :
    Used ((fs.looped file data size).sealed env file.inodeNumber past).metadata j ↔ Used fs.metadata j := by
  by_cases own : j = file.inodeNumber
  · rw [own]
    refine iff_of_true ?_ used
    have drafted : status (fs.drafted file).md file.inodeNumber = 1 :=
      (status_setStatus fs.metadata _ _ (by omega) (by omega)).trans (if_pos rfl)
    rw [metadata_sealed, Draft.metadata, Used, status_setModtime, status_setFileSize, ← drafted]
    exact status_congr fun a _ _ => peek_looped low inside (by omega)
  · have same : status ((fs.looped file data size).sealed env file.inodeNumber past).metadata j = status fs.metadata j :=
      status_congr fun a _ _ => peek_sealed_of_ne low inside past own (by omega) (by omega)
    rw [Used, Used, same]

theorem fileSize_sealed {past : Int} (range : InInt past) (j : Inode) :
    fileSize ((fs.looped file data size).sealed env file.inodeNumber past).metadata j =
      if j = file.inodeNumber then past else fileSize fs.metadata j := by
  by_cases own : j = file.inodeNumber
  · rw [own, metadata_sealed, Draft.metadata, fileSize_setModtime, fileSize_setFileSize _ _ _ range.1 range.2,
      if_pos rfl, if_pos rfl]
  · rw [if_neg own]
    exact fileSize_congr fun a _ _ => peek_sealed_of_ne low inside past own (by omega) (by omega)

end Sealed

theorem eread_metadata (mounted : Mounted d fs) (call : fs.eread env file data size = some (fs', file', data', ret)) :
    fs'.metadata = fs.metadata ∧ file'.inodeNumber = file.inodeNumber ∧
      (file' = file ∨ file.offset.tdiv 512 + size.tdiv 512 ≤ 4 ∧ file'.offset = file.offset + size) := by
  rw [eread_eq mounted] at call
  split at call
  · cases call
    exact ⟨rfl, rfl, .inl rfl⟩
  next near =>
    split at call
    · cases call
    split at call
    · cases call
      exact ⟨rfl, rfl, .inl rfl⟩
    dsimp only at call
    split at call
    · obtain ⟨pos, place⟩ := readBlocks_moved file.inodeNumber (file.offset.tdiv 512) fs.metadata
        (size.tdiv 512).toNat 0 (fs.moved 2) env.heap
      rw [place] at call
      cases call
      exact ⟨rfl, rfl, .inl rfl⟩
    split at call
    · cases call
    · cases call
      exact ⟨(metadata_put_of_ne _ _ _ (by omega)).trans (metadata_put_self _ _), rfl, .inr ⟨not_lt.mp near, rfl⟩⟩

theorem unused_eq_some {md : Block} {i : Inode} (found : unused md = some i) : ¬Used md i := by
  have zero : status md i.val = 0 := of_decide_eq_true (Fin.eq_true_of_find?_eq_some found)
  rw [Used, zero]
  omega

theorem findInode_eq_none_iff {md : Block} :
    findInode env md filename = none ↔ lookup md filename = none ∧ unused md = none := by
  unfold findInode
  cases lookup md filename with
  | none => simp
  | some i => simp

theorem findInode_eq_some_iff {md md' : Block} {i : Inode} : findInode env md filename = some (i, md') ↔
    (lookup md filename = some i ∧ md' = md) ∨
    (lookup md filename = none ∧ unused md = some i ∧ md' = newInode env md i filename) := by
  unfold findInode
  cases lookup md filename with
  | none => simp [eq_comm]
  | some l => simp [eq_comm]

theorem World.watched {H : Type*} {note : World → Call → H → H} {x y : World × H} {c : Call}
    (step : Machine.watch note World.step x c = some y) :
    (∃ reply, x.1.exec c = some (y.1, reply)) ∧ y.2 = note x.1 c x.2 :=
  Machine.watch_map step

theorem exec_eopen {w w' : World} {reply : Reply} (mounted : Mounted d w.fs)
    (call : w.exec (.eopen env filename) = some (w', reply)) :
    (lookup w.fs.metadata filename = none ∧ unused w.fs.metadata = none ∧ reply.ret = -1 ∧
      w'.handle = w.handle ∧ w'.fs.metadata = w.fs.metadata) ∨
    ∃ i, findInode env w.fs.metadata filename = some (i, w'.fs.metadata) ∧ reply.ret = w.files.length ∧
      ∀ h, w'.handle h = if h = w.files.length then some { offset := 0, inodeNumber := i } else w.handle h := by
  simp only [World.exec, eopen_eq mounted] at call
  cases found : findInode env w.fs.metadata filename with
  | none =>
    rw [found] at call
    cases call
    obtain ⟨absent, full⟩ := findInode_eq_none_iff.mp found
    exact .inl ⟨absent, full, rfl, rfl, rfl⟩
  | some entry =>
    obtain ⟨i, md⟩ := entry
    rw [found] at call
    cases call
    refine .inr ⟨i, ?_, rfl, w.handle_append _ _⟩
    rw [metadata_put_self]

end Calls

end OsLabs.Emufs
