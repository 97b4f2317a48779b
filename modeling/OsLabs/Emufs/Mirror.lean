import OsLabs.Emufs.Runs

/-! Two devices of one size, one with a plain and one with an encrypted file system: one
sequence of calls keeps their blocks complements of each other. -/

set_option autoImplicit false

namespace OsLabs.Emufs

open OsLabs.Lib
open Superblock Metadata Fs

/-- Two superblocks agree but for `fs_number`, up to what `first` and `second`, those of the
devices before, differed in outside the bitmap. -/
structure Alike (first second sb sb' : Block) : Prop where
  size : diskSize sb' = diskSize sb
  bitmap : ∀ b < 42, bitmap sb' b = bitmap sb b
  rest : ∀ a, ¬(28 ≤ a ∧ a < 32) → ¬(32 ≤ a ∧ a < 74) → second.peek a = first.peek a → sb'.peek a = sb.peek a

/-- A plain and an encrypted file system whose metadata, and whose blocks that are marked
in `sb`, are complements of each other; the blocks that are not are as they were on the
devices before. -/
structure Paired (d : Nat) (first second : Fs) (sb : Block) (fs fs' : Fs) : Prop where
  mounted : Mounted d fs
  mounted' : Mounted d fs'
  plain : fs.mp.fsNumber = 0
  encrypted : fs'.mp.fsNumber = 1
  metadata : fs'.dev.image 1 = encrypt (fs.dev.image 1)
  data : ∀ b, 2 ≤ b → b < d →
    bitmap sb b = allocated ∧ fs'.dev.image b = encrypt (fs.dev.image b) ∨
    bitmap sb b = free ∧ fs.dev.image b = first.dev.image b ∧ fs'.dev.image b = second.dev.image b

/-! ## Superblocks -/

namespace Alike

variable {d : Nat} {first second sb sb' md : Block}

theorem freeBlocks_eq (alike : Alike first second sb sb') (bound : diskSize sb ≤ 42) :
    freeBlocks sb' = freeBlocks sb := by
  ext b
  simp only [freeBlocks, alike.size, Finset.mem_filter, Finset.mem_Ico]
  exact and_congr_right fun inside => by rw [alike.bitmap b (by omega)]

theorem find_val_congr {n m : Nat} {p : Fin n → Bool} {q : Fin m → Bool} (size : n = m)
    (same : ∀ j (low : j < n) (high : j < m), p ⟨j, low⟩ = q ⟨j, high⟩) :
    (Fin.find? p).map Fin.val = (Fin.find? q).map Fin.val := by
  subst size
  have equal : p = q := by
    funext j
    exact same j.val j.isLt j.isLt
  rw [equal]

theorem firstFree_eq (alike : Alike first second sb sb') (bound : diskSize sb ≤ 42) :
    (firstFree sb').map Fin.val = (firstFree sb).map Fin.val := by
  have size := alike.size
  refine find_val_congr (by rw [size]) fun j low high => ?_
  rw [alike.bitmap j (by omega)]

theorem mark (alike : Alike first second sb sb') (b : Nat) (small : b < 42) (m : UInt8) :
    Alike first second (setBitmap sb b m) (setBitmap sb' b m) where
  size := by rw [diskSize_setBitmap, diskSize_setBitmap, alike.size]
  bitmap c bound := by rw [bitmap_setBitmap _ _ bound, bitmap_setBitmap _ _ bound, alike.bitmap c bound]
  rest a number marks same := by
    rw [setBitmap, setBitmap, Bytes.peek_blit_outside _ _ (by omega), Bytes.peek_blit_outside _ _ (by omega)]
    exact alike.rest a number marks same

theorem allocate (alike : Alike first second sb sb') (bound : diskSize sb ≤ 42) (i : Inode) (k : Int) (md : Block) :
    (Fs.allocate i k sb' md).2 = (Fs.allocate i k sb md).2 ∧
      Alike first second (Fs.allocate i k sb md).1 (Fs.allocate i k sb' md).1 := by
  unfold Fs.allocate
  split
  · have same := alike.firstFree_eq bound
    cases found : firstFree sb with
    | none =>
      rw [found, Option.map_none, Option.map_eq_none_iff] at same
      rw [same]
      exact ⟨rfl, alike⟩
    | some j =>
      rw [found, Option.map_some, Option.map_eq_some_iff] at same
      obtain ⟨j', found', equal⟩ := same
      have small := j.isLt
      simp only [found', equal, true_and]
      exact alike.mark j.val (by omega) _
  · exact ⟨rfl, alike⟩

theorem consistent (alike : Alike first second sb sb') (con : Consistent d sb md) (small : d ≤ 42) :
    Consistent d sb' md where
  size := alike.size.trans con.size
  header := by
    rw [alike.bitmap 0 (by omega), alike.bitmap 1 (by omega)]
    exact con.header
  marked b low high := by
    rw [alike.bitmap b (by omega)]
    exact con.marked b low high
  beyond b low high := by
    rw [alike.bitmap b high]
    exact con.beyond b low high
  flagged := con.flagged
  atLeast := con.atLeast
  sound := by
    rw [alike.freeBlocks_eq (by rw [con.size]; omega)]
    exact con.sound
  short := con.short
  names := con.names

end Alike

/-! ## Blocks -/

namespace Paired

variable {d : Nat} {first second fs fs' : Fs} {sb sb' md : Block}

theorem metadata_eq (paired : Paired d first second sb fs fs') : fs'.metadata = fs.metadata := by
  have plain : ¬fs.mp.fsNumber = 1 := by rw [paired.plain]; decide
  rw [Fs.metadata, Fs.metadata, fromDevice, fromDevice, if_pos paired.encrypted, if_neg plain, paired.metadata,
    decrypt_encrypt]

theorem toDevice_eq (paired : Paired d first second sb fs fs') (b : Block) :
    fs.toDevice b = b ∧ fs'.toDevice b = encrypt b := by
  have plain : ¬fs.mp.fsNumber = 1 := by rw [paired.plain]; decide
  exact ⟨if_neg plain, if_pos paired.encrypted⟩

theorem moved (paired : Paired d first second sb fs fs') (pos pos' : Nat) :
    Paired d first second sb (fs.moved pos) (fs'.moved pos') :=
  ⟨paired.mounted.moved pos, paired.mounted'.moved pos', paired.plain, paired.encrypted, paired.metadata, paired.data⟩

theorem image_put (fs : Fs) {b c : Nat} (buf : Block) (other : c ≠ b) : (fs.put b buf).dev.image c = fs.dev.image c :=
  Function.update_of_ne other _ _

theorem put_superblock (paired : Paired d first second sb fs fs') (buf buf' : Block) :
    Paired d first second sb (fs.put 0 buf) (fs'.put 0 buf') where
  mounted := paired.mounted.put 0 buf
  mounted' := paired.mounted'.put 0 buf'
  plain := paired.plain
  encrypted := paired.encrypted
  metadata := by
    rw [image_put _ _ (by omega), image_put _ _ (by omega)]
    exact paired.metadata
  data b low high := by
    rw [image_put _ _ (by omega), image_put _ _ (by omega)]
    exact paired.data b low high

theorem put_metadata (paired : Paired d first second sb fs fs') (md : Block) :
    Paired d first second sb (fs.put 1 (fs.toDevice md)) (fs'.put 1 (fs'.toDevice md)) where
  mounted := paired.mounted.put 1 _
  mounted' := paired.mounted'.put 1 _
  plain := paired.plain
  encrypted := paired.encrypted
  metadata := by
    rw [(paired.toDevice_eq md).1, (paired.toDevice_eq md).2]
    simp [put]
  data b low high := by
    rw [image_put _ _ (by omega), image_put _ _ (by omega)]
    exact paired.data b low high

theorem put_data (paired : Paired d first second sb fs fs') {b : Nat} (low : 2 ≤ b) (x : Block)
    (marked : bitmap sb' b = allocated) (others : ∀ c < 42, c ≠ b → bitmap sb' c = bitmap sb c) :
    Paired d first second sb' (fs.put b (fs.toDevice x)) (fs'.put b (fs'.toDevice x)) where
  mounted := paired.mounted.put b _
  mounted' := paired.mounted'.put b _
  plain := paired.plain
  encrypted := paired.encrypted
  metadata := by
    rw [image_put _ _ (by omega), image_put _ _ (by omega)]
    exact paired.metadata
  data c low' high := by
    have atMost := paired.mounted.atMost
    by_cases same : c = b
    · subst same
      refine Or.inl ⟨marked, ?_⟩
      rw [(paired.toDevice_eq x).1, (paired.toDevice_eq x).2]
      simp [put]
    · rw [image_put _ _ same, image_put _ _ same, others c (by omega) same]
      exact paired.data c low' high

end Paired

/-! ## The loop of ewrite -/

section Loop

variable {d : Nat} {first second : Fs} {i : Inode}

theorem bitmap_allocate {sb md : Block} (con : Consistent d sb md) (small : d ≤ 42) {k : Fin 4} {b : Nat}
    (used : Used md i) (room : blocks md i k.val = -1 → (freeBlocks sb).Nonempty)
    (block : blocks (allocate i k.val sb md).2 i k.val = b) :
    bitmap (allocate i k.val sb md).1 b = allocated ∧
      ∀ c < 42, c ≠ b → bitmap (allocate i k.val sb md).1 c = bitmap sb c := by
  by_cases empty : blocks md i k.val = -1
  · obtain ⟨j, found⟩ := firstFree_isSome (room empty)
    have size := con.size
    have bound := j.isLt
    have same : allocate i k.val sb md = (setBitmap sb j allocated, setBlock md i k.val j.val) := by
      simp only [allocate, if_pos empty, found]
    rw [same] at block ⊢
    rw [blocks_setBlock md i i k k (by omega) (by omega), if_pos ⟨rfl, rfl⟩, Int.natCast_inj] at block
    subst block
    refine ⟨?_, fun c bound different => ?_⟩
    · rw [bitmap_setBitmap _ _ (by omega), if_pos rfl]
    · rw [bitmap_setBitmap _ _ bound, if_neg different]
  -- an owned block is marked already, for it is not among the free ones
  · have same : allocate i k.val sb md = (sb, md) := if_neg empty
    rw [same] at block ⊢
    have owned := refers_of_block (s := (i, k)) used block
    have inside := Finset.mem_Ico.mp (con.sound.inPool _ _ owned)
    refine ⟨?_, fun _ _ _ => rfl⟩
    rcases con.marked b inside.1 inside.2 with unmarked | marked
    · exact absurd ((mem_freeBlocks con.size).mpr ⟨inside, unmarked⟩) (con.sound.not_free owned)
    · exact marked

structure Drafted (d : Nat) (first second : Fs) (draft draft' : Draft) : Prop where
  metadata : draft'.md = draft.md
  alike : Alike first.superblock second.superblock draft.sb draft'.sb
  paired : Paired d first second draft.sb draft.fs draft'.fs

theorem Drafted.ready {start n k : Nat} {draft draft' : Draft} (drafted : Drafted d first second draft draft')
    (ready : Ready d i start n k draft) : Ready d i start n k draft' where
  mounted := drafted.paired.mounted'
  con := by
    rw [drafted.metadata]
    exact drafted.alike.consistent ready.con ready.mounted.atMost
  used := by
    rw [drafted.metadata]
    exact ready.used
  fits := ready.fits
  room := by
    have size := ready.con.size
    have atMost := ready.mounted.atMost
    rw [drafted.metadata, drafted.alike.freeBlocks_eq (by omega)]
    exact ready.room

/-- The two loops take the same blocks. -/
theorem writeBlocks_drafted (start : Nat) (data : Nat → UInt8) {n k : Nat} {before before' : Draft}
    (ready : Ready d i start n k before) (drafted : Drafted d first second before before') :
    ∃ after after', writeBlocks i start data n k before = (after, true) ∧
      writeBlocks i start data n k before' = (after', true) ∧ Drafted d first second after after' := by
  induction n generalizing k before before' with
  | zero => exact ⟨before, before', rfl, rfl, drafted⟩
  | succ n ih =>
    have size := ready.con.size
    have atMost := ready.mounted.atMost
    obtain ⟨index, b, next, round⟩ := ready.round data
    obtain ⟨index', b', next', round'⟩ := (drafted.ready ready).round data
    -- both rounds come to the same entry, and get the same block for it
    have place : index' = index := Fin.ext (round'.place.trans round.place.symm)
    subst place
    have metadata : next'.md = next.md := by
      have same := (drafted.alike.allocate (by omega) i index'.val before.md).1
      rwa [← drafted.metadata, round'.taken, drafted.metadata, round.taken] at same
    have alike : Alike first.superblock second.superblock next.sb next'.sb := by
      have same := (drafted.alike.allocate (by omega) i index'.val before.md).2
      rwa [← drafted.metadata, round'.taken, drafted.metadata, round.taken] at same
    have block : b' = b := by
      have here := round'.block
      rw [metadata, round.block] at here
      omega
    subst block
    have marks := bitmap_allocate ready.con atMost ready.used ?_ (by rw [round.taken]; exact round.block)
    · rw [round.taken] at marks
      have paired : Paired d first second next.sb next.fs next'.fs := by
        rw [round.put, round'.put]
        exact drafted.paired.put_data round.low (piece data k) marks.1 marks.2
      obtain ⟨after, after', done, done', rest⟩ := ih round.ready ⟨metadata, alike, paired⟩
      exact ⟨after, after', round.continues.trans done, round'.continues.trans done', rest⟩
    · intro empty
      have cost := round.granted.cost
      rw [if_pos empty] at cost
      exact Finset.card_pos.mp (by omega)

end Loop

/-! ## The calls -/

structure Mirrored (d : Nat) (first second fs fs' : Fs) : Prop where
  alike : Alike first.superblock second.superblock fs.superblock fs'.superblock
  paired : Paired d first second fs.superblock fs fs'

namespace Mirrored

variable {d : Nat} {first second fs fs' : Fs}

theorem moved (mirrored : Mirrored d first second fs fs') (pos pos' : Nat) :
    Mirrored d first second (fs.moved pos) (fs'.moved pos') :=
  ⟨mirrored.alike, mirrored.paired.moved pos pos'⟩

theorem put_metadata (mirrored : Mirrored d first second fs fs') (md : Block) :
    Mirrored d first second (fs.put 1 (fs.toDevice md)) (fs'.put 1 (fs'.toDevice md)) where
  alike := by
    rw [superblock_put_of_ne _ _ _ (by omega), superblock_put_of_ne _ _ _ (by omega)]
    exact mirrored.alike
  paired := by
    rw [superblock_put_of_ne _ _ _ (by omega)]
    exact mirrored.paired.put_metadata md

theorem of_drafted {draft draft' : Draft} (drafted : Drafted d first second draft draft') (md : Block) :
    Mirrored d first second ((draft.fs.put 1 (draft.fs.toDevice md)).put 0 draft.sb)
      ((draft'.fs.put 1 (draft'.fs.toDevice md)).put 0 draft'.sb) where
  alike := by
    rw [superblock_put_self, superblock_put_self]
    exact drafted.alike
  paired := by
    rw [superblock_put_self]
    exact (drafted.paired.put_metadata md).put_superblock _ _

theorem eopen (mirrored : Mirrored d first second fs fs') (env : Env) (filename : CString) :
    (fs'.eopen env filename).2 = (fs.eopen env filename).2 ∧
      Mirrored d first second (fs.eopen env filename).1 (fs'.eopen env filename).1 := by
  have mounted := mirrored.paired.mounted
  have mounted' := mirrored.paired.mounted'
  simp only [Fs.eopen, mounted.readMetadata, mounted'.readMetadata, mirrored.paired.metadata_eq]
  cases findInode env fs.metadata filename with
  | none => exact ⟨rfl, mirrored.moved 2 2⟩
  | some entry =>
    simp only [(mounted.moved 2).writeMetadata, (mounted'.moved 2).writeMetadata]
    rw [if_neg (by omega), if_neg (by omega)]
    exact ⟨rfl, (mirrored.moved 2 2).put_metadata entry.2⟩

variable {file : File} {size : Int}

theorem ewrite (mirrored : Mirrored d first second fs fs') (env : Env) (data : Nat → UInt8) (size : Int)
    (con : Consistent d fs.superblock fs.metadata) (used : Used fs.metadata file.inodeNumber) (low : 0 ≤ file.offset) :
    Option.Rel (fun r r' => r'.2 = r.2 ∧ Mirrored d first second r.1 r'.1)
      (fs.ewrite env file data size) (fs'.ewrite env file data size) := by
  have mounted := mirrored.paired.mounted
  have mounted' := mirrored.paired.mounted'
  have atMost := mounted.atMost
  have size_eq := con.size
  simp only [Fs.ewrite, mounted.readSuperblock, (mounted.moved 1).readMetadata, mounted'.readSuperblock,
    (mounted'.moved 1).readMetadata, tdiv_of_nonneg low, metadata_moved, mirrored.paired.metadata_eq, toNat_tdiv,
    newBlocksRequired_eq, mirrored.alike.freeBlocks_eq (show diskSize fs.superblock ≤ 42 by omega)]
  split
  · exact .none
  split
  · exact .some ⟨rfl, mirrored.moved 2 2⟩
  next inside =>
    split
    · exact .none
    split
    · exact .some ⟨rfl, mirrored.moved 2 2⟩
    next enough =>
      have ready := Ready.initial mounted con used low (by omega) (not_lt.mp enough)
      have drafted : Drafted d first second
          { fs := (fs.moved 1).moved 2, sb := fs.superblock, md := setStatus fs.metadata file.inodeNumber 1 }
          { fs := (fs'.moved 1).moved 2, sb := fs'.superblock, md := setStatus fs.metadata file.inodeNumber 1 } :=
        ⟨rfl, mirrored.alike, (mirrored.paired.moved 1 1).moved 2 2⟩
      obtain ⟨after, after', done, done', drafted⟩ := writeBlocks_drafted (file.offset.toNat / 512) data ready drafted
      have written := drafted.paired.mounted
      have written' := drafted.paired.mounted'
      simp only [done, done', written.writeMetadata, written'.writeMetadata, (written.put 1 _).writeSuperblock,
        (written'.put 1 _).writeSuperblock, drafted.metadata]
      exact .some ⟨rfl, of_drafted drafted _⟩

theorem eread (mirrored : Mirrored d first second fs fs') (env : Env) (data : Nat → UInt8)
    (con : Consistent d fs.superblock fs.metadata) (used : Used fs.metadata file.inodeNumber) (low : 0 ≤ file.offset)
    (positive : 0 ≤ size) :
    Option.Rel (fun r r' => r'.2.1 = r.2.1 ∧ r'.2.2.2 = r.2.2.2 ∧ Mirrored d first second r.1 r'.1)
      (fs.eread env file data size) (fs'.eread env file data size) := by
  have mounted := mirrored.paired.mounted
  have mounted' := mirrored.paired.mounted'
  simp only [Fs.eread, mounted.readSuperblock, (mounted.moved 1).readMetadata, mounted'.readSuperblock,
    (mounted'.moved 1).readMetadata, tdiv_of_nonneg low, tdiv_of_nonneg positive,
    metadata_moved, mirrored.paired.metadata_eq, Int.toNat_natCast]
  split
  · exact .some ⟨rfl, rfl, mirrored.moved 2 2⟩
  split
  · exact .none
  split
  · exact .some ⟨rfl, rfl, mirrored.moved 2 2⟩
  next within _ full =>
    have present := present_of_full (show file.offset.toNat / 512 + size.toNat / 512 ≤ 4 by omega) full
    have located : ∀ j, 0 ≤ j → j < 0 + size.toNat / 512 →
        ∃ b : Nat, blocks fs.metadata file.inodeNumber (((file.offset.toNat / 512 : Nat) : Int) + j) = b ∧ b < d :=
      fun j _ bound => con.located used present (by omega)
    obtain ⟨pos, dec, done, -⟩ := readBlocks_done ((mounted.moved 1).moved 2) located env.heap
    obtain ⟨pos', dec', done', -⟩ := readBlocks_done ((mounted'.moved 1).moved 2) located env.heap
    have sane := ((mounted.moved 1).moved 2).moved pos
    have sane' := ((mounted'.moved 1).moved 2).moved pos'
    simp only [done, done', sane.writeMetadata, sane'.writeMetadata, (sane.put 1 _).writeSuperblock,
      (sane'.put 1 _).writeSuperblock]
    split
    · exact .none
    · have drafted : Drafted d first second
          { fs := ((fs.moved 1).moved 2).moved pos, sb := fs.superblock, md := fs.metadata }
          { fs := ((fs'.moved 1).moved 2).moved pos', sb := fs'.superblock, md := fs.metadata } :=
        ⟨rfl, mirrored.alike, ((mirrored.paired.moved 1 1).moved 2 2).moved pos pos'⟩
      exact .some ⟨rfl, rfl, of_drafted drafted fs.metadata⟩

end Mirrored

/-! ## Runs -/

/-- A program's two worlds: the same handles over mirrored devices. -/
structure Twin (d : Nat) (first second : Fs) (w w' : World) : Prop where
  sane : Sane d w
  files : w'.files = w.files
  mirrored : Mirrored d first second w.fs w'.fs

section Twins

variable {d : Nat} {first second : Fs} {w w' : World} {c : Call}

theorem Twin.exec (twin : Twin d first second w w') (documented : Documented w c) :
    Option.Rel (fun r r' => r'.2.ret = r.2.ret ∧ r'.1.files = r.1.files ∧ Mirrored d first second r.1.fs r'.1.fs)
      (w.exec c) (w'.exec c) := by
  have handle : ∀ h, w'.handle h = w.handle h := fun h => by rw [World.handle, World.handle, twin.files]
  cases c with
  | eopen env filename =>
    obtain ⟨same, mirrored⟩ := twin.mirrored.eopen env filename
    simp only [World.exec]
    generalize w.fs.eopen env filename = r at same mirrored
    generalize w'.fs.eopen env filename = r' at same mirrored
    obtain ⟨fs, file⟩ := r
    obtain ⟨fs', file'⟩ := r'
    cases same
    cases file with
    | none => exact .some ⟨rfl, twin.files, mirrored⟩
    | some file => exact .some ⟨by simp only [twin.files], by simp only [twin.files], mirrored⟩
  | eseek h offset =>
    simp only [World.exec, handle]
    cases w.handle h with
    | none => exact .none
    | some file => exact .some ⟨rfl, by simp only [twin.files], twin.mirrored⟩
  | ewrite env h data size =>
    simp only [World.exec, handle]
    cases opened : w.handle h with
    | none => exact .none
    | some file =>
      apply Machine.rel_bind (twin.mirrored.ewrite env data size twin.sane.con
        (twin.sane.used h file opened) (twin.sane.offset h file opened))
      rintro ⟨fs, file, ret⟩ ⟨fs', file', ret'⟩ - ⟨same, mirrored⟩
      cases same
      exact .some ⟨rfl, by simp only [twin.files], mirrored⟩
  | eread env h data size =>
    simp only [World.exec, handle]
    cases opened : w.handle h with
    | none => exact .none
    | some file =>
      apply Machine.rel_bind (twin.mirrored.eread env data twin.sane.con
        (twin.sane.used h file opened) (twin.sane.offset h file opened) documented)
      rintro ⟨fs, file, buffer, ret⟩ ⟨fs', file', buffer', ret'⟩ - ⟨same, value, mirrored⟩
      cases same
      exact .some ⟨value, by simp only [twin.files], mirrored⟩
  | eclose h =>
    simp only [World.exec, handle]
    cases w.handle h with
    | none => exact .none
    | some file => exact .some ⟨rfl, by simp only [twin.files], twin.mirrored⟩

theorem Twin.step (twin : Twin d first second w w') (documented : Documented w c) :
    (w.exec c).map (·.2.ret) = (w'.exec c).map (·.2.ret) ∧
      Option.Rel (Twin d first second) (World.step w c) (World.step w' c) := by
  have related := twin.exec documented
  have sane : ∀ next, World.step w c = some next → Sane d next := fun _ => sane_step twin.sane documented
  unfold World.step at sane ⊢
  generalize w.exec c = r at related sane
  generalize w'.exec c = r' at related
  cases related with
  | none => exact ⟨rfl, .none⟩
  | some related =>
    obtain ⟨same, files, mirrored⟩ := related
    exact ⟨congrArg some same.symm, .some ⟨sane _ rfl, files, mirrored⟩⟩

end Twins

theorem peek_formattedSuperblock (sb : Block) (n : Int) {a : Nat} (small : diskSize sb ≤ 42)
    (number : ¬(28 ≤ a ∧ a < 32)) (marks : ¬(32 ≤ a ∧ a < 74)) : (formattedSuperblock sb n).peek a = sb.peek a := by
  simp only [formattedSuperblock, fillBitmap, setBitmap, setFsNumber]
  have past : max 2 (diskSize (Bytes.blit (Bytes.blit (sb.storeInt 28 n) (32 + 0) 1 fun _ => allocated) (32 + 1) 1
      fun _ => allocated)).toNat ≤ 42 := by
    have same : diskSize (setBitmap (setBitmap (setFsNumber sb n) 0 allocated) 1 allocated) = diskSize sb := by simp
    simp only [setBitmap, setFsNumber] at same
    omega
  rw [Bytes.peek_blit_outside _ _ (by omega), Bytes.peek_blit_outside _ _ (by omega),
    Bytes.peek_blit_outside _ _ (by omega), Bytes.peek_blit_outside _ _ (by omega),
    Bytes.peek_storeInt_outside _ _ (by omega)]

theorem mirrored_formatted {d : Nat} {fs fs' : Fs} (env : Env) (mounted : Mounted d fs) (mounted' : Mounted d fs')
    (size : diskSize fs.superblock = d) (size' : diskSize fs'.superblock = d) :
    Mirrored d fs fs' (World.formatted env fs 0).fs (World.formatted env fs' 1).fs := by
  have atMost := mounted.atMost
  have alike : Alike fs.superblock fs'.superblock (formattedSuperblock fs.superblock 0)
      (formattedSuperblock fs'.superblock 1) := by
    refine ⟨?_, fun b bound => ?_, fun a number marks same => ?_⟩
    · rw [diskSize_formattedSuperblock, diskSize_formattedSuperblock, size, size']
    · rw [bitmap_formattedSuperblock 1 size' mounted.atLeast bound,
        bitmap_formattedSuperblock 0 size mounted.atLeast bound]
    · rw [peek_formattedSuperblock _ _ (by omega) number marks,
        peek_formattedSuperblock _ _ (by omega) number marks, same]
  rw [World.formatted, World.formatted, createFileSystem_eq env 0 mounted, createFileSystem_eq env 1 mounted']
  have sane := (mounted.numbered 0).put 0 (formattedSuperblock fs.superblock 0)
  have sane' := (mounted'.numbered 1).put 0 (formattedSuperblock fs'.superblock 1)
  have paired : Paired d fs fs' (formattedSuperblock fs.superblock 0)
      (((fs.numbered 0).put 0 (formattedSuperblock fs.superblock 0)).put 1 (formattedMetadata env.garbage))
      (((fs'.numbered 1).put 0 (formattedSuperblock fs'.superblock 1)).put 1 (encrypt (formattedMetadata env.garbage))) :=
    { mounted := sane.put 1 _
      mounted' := sane'.put 1 _
      plain := rfl
      encrypted := rfl
      metadata := by simp [put]
      data := fun b low high => by
        -- a fresh data block is free on both sides, and holds what its image held
        refine Or.inr ⟨?_, ?_, ?_⟩
        · rw [bitmap_formattedSuperblock 0 size mounted.atLeast (by omega), if_neg (by omega), if_pos high]
        · rw [Paired.image_put _ _ (by omega), Paired.image_put _ _ (by omega)]
          rfl
        · rw [Paired.image_put _ _ (by omega), Paired.image_put _ _ (by omega)]
          rfl }
  have header : ∀ (fs : Fs) (sb md : Block), ((fs.put 0 sb).put 1 md).superblock = sb := fun fs sb md => by
    rw [superblock_put_of_ne _ _ _ (by omega), superblock_put_self]
  refine ⟨?_, ?_⟩
  · dsimp only
    rw [header, header]
    exact alike
  · dsimp only
    rw [header]
    exact paired

def returns (w : World) (calls : List Call) : List (Option Int) :=
  Machine.observations World.step (fun w c => (w.exec c).map (·.2.ret)) w calls

/-- One sequence of calls on a plain and on an encrypted file system returns the same
values, and leaves the same handles, superblocks alike and complementary blocks behind. -/
theorem encrypted_mirrors_plain {d : Nat} {fs fs' : Fs} {env : Env} {calls : List Call} (mounted : Mounted d fs)
    (mounted' : Mounted d fs') (size : diskSize fs.superblock = d) (size' : diskSize fs'.superblock = d)
    (documented : Machine.EveryStep World.step Documented (World.formatted env fs 0) calls) :
    returns (World.formatted env fs 0) calls = returns (World.formatted env fs' 1) calls ∧
      Option.Rel (Twin d fs fs') (Machine.run World.step (World.formatted env fs 0) calls)
        (Machine.run World.step (World.formatted env fs' 1) calls) := by
  have start : Twin d fs fs' (World.formatted env fs 0) (World.formatted env fs' 1) :=
    ⟨sane_formatted env 0 mounted size, rfl, mirrored_formatted env mounted mounted' size size'⟩
  exact ⟨Machine.observations_congr (fun w w' c twin met => twin.step met) start documented,
    Machine.run_rel (fun w w' c twin met => (twin.step met).2) start documented⟩

def twoBlocks : List Call :=
  [.eopen ⟨1, fun _ => 0, []⟩ fileName, .ewrite ⟨2, fun _ => 0, []⟩ 0 UInt8.ofNat 1024, .eseek 0 0,
    .ewrite ⟨3, fun _ => 0, []⟩ 0 (fun _ => 7) 512, .eread ⟨4, fun _ => 0, []⟩ 0 (fun _ => 0) 512]

theorem encrypted_mirrors_plain_two_blocks :
    returns (World.formatted ⟨0, fun _ => 0, []⟩ (Fs.blank 42) 1) twoBlocks =
        [some 0, some 1024, some 1, some 512, some 512] ∧
      Option.Rel (Twin 42 (Fs.blank 42) (Fs.blank 42))
        (Machine.run World.step (World.formatted ⟨0, fun _ => 0, []⟩ (Fs.blank 42) 0) twoBlocks)
        (Machine.run World.step (World.formatted ⟨0, fun _ => 0, []⟩ (Fs.blank 42) 1) twoBlocks) := by
  have documented :
      Machine.EveryStep World.step Documented (World.formatted ⟨0, fun _ => 0, []⟩ (Fs.blank 42) 0) twoBlocks :=
    ⟨show ([102] : List UInt8).length ≤ 9 by decide, fun _ _ =>
      ⟨show (0 : Int) ≤ 1024 by decide, fun _ _ =>
        ⟨show (0 : Int) ≤ 0 ∧ (0 : Int) ≤ 2048 by decide, fun _ _ =>
          ⟨show (0 : Int) ≤ 512 by decide, fun _ _ => ⟨show (0 : Int) ≤ 512 by decide, fun _ _ => trivial⟩⟩⟩⟩⟩
  obtain ⟨same, related⟩ := encrypted_mirrors_plain (mounted_blank (d := 42) (by decide) le_rfl)
    (mounted_blank (by decide) le_rfl) (diskSize_blank le_rfl) (diskSize_blank le_rfl) documented
  have values : returns (World.formatted ⟨0, fun _ => 0, []⟩ (Fs.blank 42) 0) twoBlocks =
      [some 0, some 1024, some 1, some 512, some 512] := by decide +kernel
  exact ⟨same.symm.trans values, related⟩

end OsLabs.Emufs
