import OsLabs.Emufs.AnyCall

/-! What an `ewrite` or `eread` may touch: the blocks of its own file. `eseek` takes every
offset, and the checks of both calls bound it from above only. -/

set_option autoImplicit false

namespace OsLabs.Emufs

open OsLabs.Lib
open Superblock Metadata Fs

/-! ## What a call goes through -/

/-- The indices `k` at which a call accesses `id->blocks[k]`, and the blocks of the device
it reads or writes, in order. -/
structure Footprint where
  slots : List Int
  transfers : List Nat

/-- The counting loop of `ewrite`, whose indices its second loop goes through again. -/
def counted (start : Int) (n : Nat) : List Int := (List.range n).map fun k : Nat => start + k

/-- The checking loop of `eread`, which stops at the first block that is not allocated. -/
def scanned (md : Block) (i : Inode) : Nat → Int → List Int
  | 0, _ => []
  | n + 1, k => k :: if blocks md i k = -1 then [] else scanned md i n (k + 1)

namespace Fs

def writeTargets (i : Inode) (start : Int) (data : Nat → UInt8) : (n k : Nat) → Draft → List Nat
  | 0, _, _ => []
  | n + 1, k, d =>
    let round := writeRound i start data k d
    d.fs.dev.lseek (blocks round.1.md i (start + k)) ::
      if round.2 = -1 then [] else writeTargets i start data n (k + 1) round.1

def readTargets (i : Inode) (start : Int) (md : Block) : (n k : Nat) → Fs → (Nat → UInt8) → List Nat
  | 0, _, _, _ => []
  | n + 1, k, fs, dec =>
    let round := readRound i start md k fs dec
    fs.dev.lseek (blocks md i (start + k)) ::
      if round.2.2 = -1 then [] else readTargets i start md n (k + 1) round.1 round.2.1

/-- `ewrite` on a mounted device: both headers are read first and written last. -/
def ewriteFootprint (fs : Fs) (file : File) (data : Nat → UInt8) (size : Int) : Footprint :=
  let copies := fs.drafted file
  let i := file.inodeNumber
  let start := file.offset.tdiv 512
  let n := (size.tdiv 512).toNat
  if file.offset + size > 2048 then { slots := [], transfers := [0, 1] }
  else if newBlocksRequired copies.md i start n > (freeBlocks fs.superblock).card then
    { slots := counted start n, transfers := [0, 1] }
  else { slots := counted start n, transfers := [0, 1] ++ writeTargets i start data n 0 copies ++ [1, 0] }

def ereadFootprint (env : Env) (fs : Fs) (file : File) (size : Int) : Footprint :=
  let i := file.inodeNumber
  let start := file.offset.tdiv 512
  let n := (size.tdiv 512).toNat
  let md := fs.metadata
  if start + size.tdiv 512 > 4 then { slots := [], transfers := [0, 1] }
  else if ∃ k < n, blocks md i (start + k) = -1 then { slots := scanned md i n start, transfers := [0, 1] }
  else
    { slots := scanned md i n start
      transfers := [0, 1] ++ readTargets i start md n 0 (fs.moved 2) env.heap ++
        if (readBlocks i start md n 0 (fs.moved 2) env.heap).2.2 then [1, 0] else [] }

end Fs

/-- A call that returns -1 and goes no further than the headers it starts by reading, or
one that keeps to `id->blocks` and to the headers and the blocks of its own inode. -/
def Confined (i : Inode) (fs fs' : Fs) (footprint : Footprint) (ret : Int) : Prop :=
  (ret = -1 ∧ fs'.dev.image = fs.dev.image ∧ footprint.transfers = [0, 1]) ∨
  (∀ k ∈ footprint.slots, 0 ≤ k ∧ k < 4) ∧
    ∀ b ∈ footprint.transfers, b < 2 ∨ ∃ k : Fin 4, refers fs'.metadata (i, k) = some b

structure Spared (i : Inode) (fs fs' : Fs) : Prop where
  inodes : ∀ j : Inode, j ≠ i → ∀ a, 48 * j.val ≤ a → a < 48 * j.val + 48 → fs'.metadata.peek a = fs.metadata.peek a
  contents : ∀ j : Inode, j ≠ i → ∀ k : Fin 4, fs'.contents fs'.metadata (j, k) = fs.contents fs.metadata (j, k)
  header : ∀ a < 32, fs'.superblock.peek a = fs.superblock.peek a

/-- A call through a handle returns, is confined to the file of the handle and spares the others. -/
def Isolated (w : World) : Call → Prop
  | .ewrite env h data size => ∀ file, w.handle h = some file →
    ∃ fs' file' ret, w.fs.ewrite env file data size = some (fs', file', ret) ∧
      Confined file.inodeNumber w.fs fs' (w.fs.ewriteFootprint file data size) ret ∧ Spared file.inodeNumber w.fs fs'
  | .eread env h data size => ∀ file, w.handle h = some file →
    ∃ fs' file' data' ret, w.fs.eread env file data size = some (fs', file', data', ret) ∧
      Confined file.inodeNumber w.fs fs' (w.fs.ereadFootprint env file size) ret ∧ Spared file.inodeNumber w.fs fs'
  | _ => True

/-- The calls whose offset and size add up to an `int` and that come to no block, or to
none before `id->blocks`, or are refused for what the blocks there hold. -/
def Bounded (w : World) : Call → Prop
  | .ewrite _ h _ size => ∀ file, w.handle h = some file →
    InInt (file.offset + size) ∧
    (file.offset + size ≤ 2048 → 512 ≤ size → file.offset ≤ -512 →
      Accessible file.inodeNumber (file.offset.tdiv 512) (size.tdiv 512) ∧
      (freeBlocks w.fs.superblock).card <
        newBlocksRequired (w.fs.drafted file).md file.inodeNumber (file.offset.tdiv 512) (size.tdiv 512).toNat)
  | .eread _ h _ size => ∀ file, w.handle h = some file → file.offset.tdiv 512 + size.tdiv 512 ≤ 4 →
    (size < 512 → InInt (file.offset + size)) ∧
    (512 ≤ size → file.offset ≤ -512 →
      Accessible file.inodeNumber (file.offset.tdiv 512) (size.tdiv 512) ∧
      ∃ k < (size.tdiv 512).toNat, blocks w.fs.metadata file.inodeNumber (file.offset.tdiv 512 + k) = -1)
  | _ => True

def Named (_ : World) : Call → Prop
  | .eopen _ filename => filename.val.length ≤ 9
  | _ => True

/-! ## The blocks a call starts at -/

section Start

variable {offset size : Int}

theorem tdiv_of_above (above : -512 < offset) : offset.tdiv 512 = ((offset.toNat / 512 : Nat) : Int) := by
  rcases Int.le_total 0 offset with low | low
  · exact tdiv_of_nonneg low
  · have negated : (-offset).tdiv 512 = -offset.tdiv 512 := Int.neg_tdiv offset 512
    rw [Int.tdiv_eq_ediv_of_nonneg (by omega)] at negated
    omega

theorem tdiv_neg_of_below (below : offset ≤ -512) : offset.tdiv 512 < 0 := by
  have negated : (-offset).tdiv 512 = -offset.tdiv 512 := Int.neg_tdiv offset 512
  rw [Int.tdiv_eq_ediv_of_nonneg (by omega)] at negated
  omega

theorem congr_start {α : Type*} (f : Int → Nat → α) (none_ : ∀ s t, f s 0 = f t 0) {s t : Int} {n : Nat}
    (same : n ≠ 0 → s = t) : f s n = f t n := by
  cases n with
  | zero => exact none_ s t
  | succ n => rw [same (Nat.succ_ne_zero n)]

theorem start_of_placed (placed : 512 ≤ size → -512 < offset) :
    size.toNat / 512 ≠ 0 → offset.tdiv 512 = ((offset.toNat / 512 : Nat) : Int) := by
  intro some_
  exact tdiv_of_above (placed (by omega))

theorem accessible_of_placed (i : Inode) (placed : 512 ≤ size → -512 < offset)
    (fits : 512 ≤ size → offset.toNat / 512 + size.toNat / 512 ≤ 4) :
    Accessible i (offset.tdiv 512) (size.tdiv 512) := by
  by_cases whole : 512 ≤ size
  · rw [tdiv_of_above (placed whole), tdiv_of_nonneg (show 0 ≤ size by omega)]
    exact accessible_of_fits i (fits whole)
  · left
    have rounds := toNat_tdiv size
    omega

theorem fits_of_placed (inside : offset + size ≤ 2048) (placed : 512 ≤ size → -512 < offset) :
    size.toNat / 512 ≠ 0 → offset.toNat / 512 + 0 + size.toNat / 512 ≤ 4 := by
  intro some_
  have above := placed (by omega)
  omega

theorem inInt_of_near (near : offset.tdiv 512 + size.tdiv 512 ≤ 4) (whole : 512 ≤ size) (above : -512 < offset) :
    InInt (offset + size) := by
  have start := tdiv_of_above above
  have rounds := tdiv_of_nonneg (show 0 ≤ size by omega)
  constructor <;> omega

end Start

/-! ## The loops of a call that starts inside `id->blocks` -/

section Loops

variable {d : Nat} {i : Inode} {start n k : Nat}

theorem writeTargets_owned (data : Nat → UInt8) {before : Draft} (ready : Ready d i start n k before) :
    ∀ b ∈ writeTargets i start data n k before,
      ∃ j : Fin 4, blocks (writeBlocks i start data n k before).1.md i j.val = b := by
  induction n generalizing k before with
  | zero => nofun
  | succ n ih =>
    obtain ⟨index, c, next, round⟩ := ready.round data
    obtain ⟨after, done, written, -, -⟩ := writeBlocks_written data round.ready
    have place : (start : Int) + k = (index.val : Int) := by
      have := round.place
      omega
    have bound := ready.mounted.atMost
    have small : c < 4194304 := by
      have := round.high
      omega
    have target : before.fs.dev.lseek (blocks next.md i ((start : Int) + k)) = c := by
      rw [place, round.block, Device.lseek_of_nonneg _ small]
    -- no later round changes the entry of this one
    have kept : blocks after.md i index.val = c := by
      rw [written.others (i, index) fun inside => absurd inside.2.1 (by have := round.place; simp only; omega)]
      exact round.block
    intro b member
    rw [round.continues, done]
    rw [writeTargets, round.done] at member
    dsimp only at member
    rw [target, if_neg (by omega)] at member
    rcases List.mem_cons.mp member with rfl | later
    · exact ⟨index, kept⟩
    · have owned := ih round.ready b later
      rwa [done] at owned

theorem peek_writeBlocks (data : Nat → UInt8) {before : Draft} (fits : n ≠ 0 → start + k + n ≤ 4) {a : Nat}
    (outside : a < 48 * i.val + 20 ∨ 48 * i.val + 36 ≤ a) :
    (writeBlocks i start data n k before).1.md.peek a = before.md.peek a := by
  induction n generalizing k before with
  | zero => rfl
  | succ n ih =>
    have bound := fits (Nat.succ_ne_zero n)
    have first : (writeRound i start data k before).1.md.peek a = before.md.peek a := by
      simp only [writeRound, allocate]
      split
      · split
        · apply Bytes.peek_storeInt_outside
          unfold slot
          omega
        · rfl
      · rfl
    rw [writeBlocks]
    split
    · exact first
    · rw [ih (by omega), first]

theorem readTargets_owned {fs : Fs} {md : Block} {start : Int} (mounted : Mounted d fs)
    (present : ∀ j, k ≤ j → j < k + n → ∃ b : Nat, blocks md i (start + j) = b ∧ b < d) (dec : Nat → UInt8) :
    ∀ b ∈ readTargets i start md n k fs dec, ∃ j, k ≤ j ∧ j < k + n ∧ blocks md i (start + j) = b := by
  induction n generalizing k fs dec with
  | zero => nofun
  | succ n ih =>
    obtain ⟨c, block, bound⟩ := present k le_rfl (by omega)
    have small : c < 4194304 := by
      have := mounted.atMost
      omega
    obtain ⟨pos, moved⟩ := readRound_moved i start md k fs dec
    intro b member
    rw [readTargets] at member
    rcases List.mem_cons.mp member with rfl | later
    · exact ⟨k, le_rfl, by omega, by rw [block, Device.lseek_of_nonneg _ small]⟩
    · split at later
      · cases later
      · rw [moved] at later
        obtain ⟨j, low, high, same⟩ :=
          ih (mounted.moved pos) (fun j low high => present j (by omega) (by omega)) _ b later
        exact ⟨j, by omega, by omega, same⟩

theorem mem_counted {k start : Int} {n : Nat} (member : k ∈ counted start n) : start ≤ k ∧ k < start + n := by
  obtain ⟨j, bound, rfl⟩ := List.mem_map.mp member
  rw [List.mem_range] at bound
  omega

theorem mem_scanned {md : Block} {k : Int} {n : Nat} {start : Int} (member : k ∈ scanned md i n start) :
    start ≤ k ∧ k < start + n := by
  induction n generalizing start with
  | zero => cases member
  | succ n ih =>
    rcases List.mem_cons.mp member with rfl | later
    · omega
    · split at later
      · cases later
      · have := ih later
        omega

end Loops

/-! ## The calls -/

section Ewrite

variable {d : Nat} {fs : Fs} {file : File} {size : Int} {after : Draft}

theorem peek_sealed (others : ∀ a, a < 48 * file.inodeNumber.val ∨ 48 * file.inodeNumber.val + 48 ≤ a →
      after.md.peek a = (fs.drafted file).md.peek a) (env : Env) (past : Int) {a : Nat}
    (outside : a < 48 * file.inodeNumber.val ∨ 48 * file.inodeNumber.val + 48 ≤ a) :
    (after.sealed env file.inodeNumber past).metadata.peek a = fs.metadata.peek a := by
  calc _ = (setModtime (setFileSize after.md file.inodeNumber past) file.inodeNumber env.now).peek a := by
        rw [metadata_sealed]; rfl
    _ = (setFileSize after.md file.inodeNumber past).peek a := Bytes.peek_storeNat_outside _ _ (by omega)
    _ = after.md.peek a := Bytes.peek_storeInt_outside _ _ (by omega)
    _ = (fs.drafted file).md.peek a := others a outside
    _ = fs.metadata.peek a := Bytes.peek_storeInt_outside _ _ (by omega)

theorem spared_sealed {lo hi : Nat} {f : Nat → Block} {env : Env} {past : Int}
    (others : ∀ a, a < 48 * file.inodeNumber.val ∨ 48 * file.inodeNumber.val + 48 ≤ a →
      after.md.peek a = (fs.drafted file).md.peek a)
    (wrote : Overwrote d file.inodeNumber lo hi f fs (after.sealed env file.inodeNumber past))
    (header : ∀ a < 32, after.sb.peek a = fs.superblock.peek a) :
    Spared file.inodeNumber fs (after.sealed env file.inodeNumber past) where
  inodes j other a low high := by
    rw [Ne, Fin.ext_iff] at other
    exact peek_sealed others env past (by omega)
  contents j other k := by
    rw [wrote.contents]
    exact if_neg fun inside => other inside.1
  header a low := by
    rw [Draft.sealed, superblock_put_self]
    exact header a low

theorem mem_transfers {i : Inode} {md : Block} {targets : List Nat} (used : Used md i)
    (owned : ∀ b ∈ targets, ∃ j : Fin 4, blocks md i j.val = b) {b : Nat} (member : b ∈ [0, 1] ++ targets ++ [1, 0]) :
    b < 2 ∨ ∃ k : Fin 4, refers md (i, k) = some b := by
  simp only [List.mem_append, List.mem_cons, List.not_mem_nil, or_false] at member
  rcases member with ((rfl | rfl) | target) | (rfl | rfl)
  · exact .inl (by omega)
  · exact .inl (by omega)
  · obtain ⟨j, block⟩ := owned b target
    exact .inr ⟨j, refers_of_block used block⟩
  · exact .inl (by omega)
  · exact .inl (by omega)

section Placed

variable (placed : 512 ≤ size → -512 < file.offset) (data : Nat → UInt8)
include placed

theorem looped_placed : fs.looped file data size =
    (writeBlocks file.inodeNumber ((file.offset.toNat / 512 : Nat) : Int) data (size.toNat / 512) 0
      (fs.drafted file)).1 := by
  rw [Fs.looped, toNat_tdiv]
  exact congr_start (fun s n => (writeBlocks file.inodeNumber s data n 0 (fs.drafted file)).1) (fun _ _ => rfl)
    (start_of_placed placed)

theorem writeTargets_placed :
    writeTargets file.inodeNumber (file.offset.tdiv 512) data (size.toNat / 512) 0 (fs.drafted file) =
      writeTargets file.inodeNumber ((file.offset.toNat / 512 : Nat) : Int) data (size.toNat / 512) 0
        (fs.drafted file) :=
  congr_start (fun s n => writeTargets file.inodeNumber s data n 0 (fs.drafted file)) (fun _ _ => rfl)
    (start_of_placed placed)

omit data in
theorem ready_placed (mounted : Mounted d fs) (con : Consistent d fs.superblock fs.metadata)
    (used : Used fs.metadata file.inodeNumber) (inside : file.offset + size ≤ 2048)
    (enough : ¬newBlocksRequired (fs.drafted file).md file.inodeNumber (file.offset.tdiv 512) (size.tdiv 512).toNat >
      (freeBlocks fs.superblock).card) :
    Ready d file.inodeNumber (file.offset.toNat / 512) (size.toNat / 512) 0 (fs.drafted file) := by
  have count : newBlocksRequired (fs.drafted file).md file.inodeNumber (file.offset.tdiv 512) (size.toNat / 512) =
      required (fs.drafted file).md file.inodeNumber (file.offset.toNat / 512) 0 (size.toNat / 512) := by
    rw [← newBlocksRequired_eq]
    exact congr_start (newBlocksRequired (fs.drafted file).md file.inodeNumber) (by simp [newBlocksRequired])
      (start_of_placed placed)
  have flagged := sameInodes_setStatus used
  rw [toNat_tdiv, count] at enough
  exact ⟨(mounted.moved 1).moved 2, con.of_sameInodes flagged, (flagged.used_iff _).mpr used,
    fits_of_placed inside placed, Nat.not_lt.mp enough⟩

end Placed

theorem ewrite_placed (mounted : Mounted d fs) (con : Consistent d fs.superblock fs.metadata)
    (used : Used fs.metadata file.inodeNumber) (word : InInt (file.offset + size)) (inside : file.offset + size ≤ 2048)
    (placed : 512 ≤ size → -512 < file.offset)
    (enough : ¬newBlocksRequired (fs.drafted file).md file.inodeNumber (file.offset.tdiv 512) (size.tdiv 512).toNat >
      (freeBlocks fs.superblock).card) (env : Env) (data : Nat → UInt8) :
    ∃ fs', fs.ewrite env file data size = some (fs', eseek file (file.offset + size), size) ∧
      Overwrote d file.inodeNumber (file.offset.toNat / 512) (file.offset.toNat / 512 + size.toNat / 512)
        (fun j => piece data (j - file.offset.toNat / 512)) fs fs' ∧
      Confined file.inodeNumber fs fs' (fs.ewriteFootprint file data size) size ∧ Spared file.inodeNumber fs fs' := by
  have fits := fits_of_placed inside placed
  have refused : ¬file.offset + size > 2048 := by omega
  have accessible := accessible_of_placed file.inodeNumber placed fun whole => by
    have := fits (by omega)
    omega
  have ready := ready_placed placed mounted con used inside enough
  obtain ⟨after, done, written, -, -⟩ := writeBlocks_written data ready
  -- the quotient is that of a natural offset, if the loop has a round at all
  have loop : fs.looped file data size = _ := looped_placed placed data
  have owned := writeTargets_owned data ready
  have others : ∀ a, a < 48 * file.inodeNumber.val ∨ 48 * file.inodeNumber.val + 48 ≤ a →
      (writeBlocks file.inodeNumber ((file.offset.toNat / 512 : Nat) : Int) data (size.toNat / 512) 0
        (fs.drafted file)).1.md.peek a = (fs.drafted file).md.peek a :=
    fun a outside => peek_writeBlocks data fits (by omega)
  rw [done] at loop owned others
  have wrote := written.overwrote used env (file.offset + size)
  have call : fs.ewrite env file data size = some (after.sealed env file.inodeNumber (file.offset + size),
      eseek file (file.offset + size), size) := by
    rw [ewrite_eq mounted, if_neg (not_not.mpr word), if_neg refused, if_neg (not_not.mpr accessible), if_neg enough,
      loop]
  have header := (ewrite_carried mounted call).header
  rw [Draft.sealed, superblock_put_self] at header
  refine ⟨_, call, wrote, .inr ?_, spared_sealed others wrote header⟩
  rw [Fs.ewriteFootprint, if_neg refused, if_neg enough]
  dsimp only
  rw [toNat_tdiv, writeTargets_placed placed]
  constructor
  · intro k member
    have place := mem_counted member
    have start := start_of_placed placed (by omega)
    have bound := fits (by omega)
    omega
  · intro b member
    apply mem_transfers ((wrote.used_iff _).mpr used) _ member
    intro b target
    obtain ⟨j, block⟩ := owned b target
    refine ⟨j, ?_⟩
    rw [metadata_sealed, (sameInodes_metadata after env file.inodeNumber _).blocks]
    exact block

end Ewrite

section Eread

variable {d : Nat} {fs fs' : Fs} {file : File} {size : Int}

theorem Kept.spared (kept : Kept d fs fs') (i : Inode) : Spared i fs fs' where
  inodes j _ a _ _ := by rw [kept.metadata]
  contents j _ k := by rw [kept.contents]
  header a _ := by rw [kept.superblock]

theorem located_of_placed (con : Consistent d fs.superblock fs.metadata) (used : Used fs.metadata file.inodeNumber)
    (placed : 512 ≤ size → -512 < file.offset) (near : file.offset.tdiv 512 + size.tdiv 512 ≤ 4)
    (full : ¬∃ k < (size.tdiv 512).toNat, blocks fs.metadata file.inodeNumber (file.offset.tdiv 512 + k) = -1) {j : Nat}
    (bound : j < (size.tdiv 512).toNat) :
    ∃ (k : Fin 4) (b : Nat), file.offset.tdiv 512 + j = k.val ∧ blocks fs.metadata file.inodeNumber k.val = b ∧ b < d := by
  have rounds := toNat_tdiv size
  have start := start_of_placed placed (by omega)
  have fits : file.offset.toNat / 512 + (size.tdiv 512).toNat ≤ 4 := by omega
  rw [start] at full
  obtain ⟨b, block, small⟩ := con.located used (present_of_full fits full) bound
  refine ⟨⟨file.offset.toNat / 512 + j, by omega⟩, b, ?_, ?_, small⟩
  · rw [start]
    exact (Nat.cast_add _ _).symm
  · rw [← block]
    exact congrArg _ (Nat.cast_add _ _)

theorem eread_placed (mounted : Mounted d fs) (con : Consistent d fs.superblock fs.metadata)
    (used : Used fs.metadata file.inodeNumber) (near : file.offset.tdiv 512 + size.tdiv 512 ≤ 4)
    (word : InInt (file.offset + size)) (placed : 512 ≤ size → -512 < file.offset)
    (full : ¬∃ k < (size.tdiv 512).toNat, blocks fs.metadata file.inodeNumber (file.offset.tdiv 512 + k) = -1)
    (env : Env) (data : Nat → UInt8) :
    ∃ fs' data', fs.eread env file data size = some (fs', eseek file (file.offset + size), data', size) ∧
      Kept d fs fs' ∧ Confined file.inodeNumber fs fs' (fs.ereadFootprint env file size) size := by
  have located := fun j => located_of_placed (j := j) con used placed near full
  have present : ∀ j, 0 ≤ j → j < 0 + (size.tdiv 512).toNat →
      ∃ b : Nat, blocks fs.metadata file.inodeNumber (file.offset.tdiv 512 + j) = b ∧ b < d := by
    intro j _ bound
    obtain ⟨k, b, place, block, small⟩ := located j (by omega)
    exact ⟨b, by rw [place, block], small⟩
  have accessible := accessible_of_placed file.inodeNumber placed fun whole => by
    have above := tdiv_of_above (placed whole)
    have rounds := tdiv_of_nonneg (show 0 ≤ size by omega)
    omega
  have refused : ¬file.offset.tdiv 512 + size.tdiv 512 > 4 := by omega
  obtain ⟨pos, dec, done, -, -⟩ := readBlocks_done (mounted.moved 2) present env.heap
  have kept := Kept.rewritten mounted con
  refine ⟨_, fs.handed env dec data size, ?_, kept, .inr ?_⟩
  · rw [eread_eq mounted, if_neg refused, if_neg (not_not.mpr accessible), if_neg full]
    dsimp only
    rw [done, if_neg (by simp), if_neg (not_not.mpr word)]
  · rw [Fs.ereadFootprint, if_neg refused, if_neg full]
    dsimp only
    rw [done, if_pos rfl]
    constructor
    · intro k member
      have place := mem_scanned member
      obtain ⟨index, -, same, -⟩ := located (k - file.offset.tdiv 512).toNat (by omega)
      omega
    · intro b member
      rw [kept.metadata]
      apply mem_transfers used _ member
      intro b target
      obtain ⟨j, -, bound, block⟩ := readTargets_owned (mounted.moved 2) present env.heap b target
      obtain ⟨k, -, place, -⟩ := located j (by omega)
      exact ⟨k, by rw [← place, block]⟩

end Eread

/-! ## Bounded calls are isolated -/

structure Preserved (d : Nat) (fs fs' : Fs) : Prop where
  mounted : Mounted d fs'
  con : Consistent d fs'.superblock fs'.metadata
  used : ∀ j : Inode, Used fs'.metadata j ↔ Used fs.metadata j

section Steps

variable {d : Nat} {fs fs' : Fs} {file : File} {size : Int}

theorem Kept.preserved (kept : Kept d fs fs') (con : Consistent d fs.superblock fs.metadata) : Preserved d fs fs' where
  mounted := kept.mounted
  con := by
    rw [kept.superblock, kept.metadata]
    exact con
  used := kept.used_iff

variable (mounted : Mounted d fs)
include mounted

theorem bounded_of_ewrite {env : Env} {data : Nat → UInt8} {file' : File} {ret : Int}
    (call : fs.ewrite env file data size = some (fs', file', ret))
    (confined : Confined file.inodeNumber fs fs' (fs.ewriteFootprint file data size) ret) :
    InInt (file.offset + size) ∧
    (file.offset + size ≤ 2048 → 512 ≤ size → file.offset ≤ -512 →
      Accessible file.inodeNumber (file.offset.tdiv 512) (size.tdiv 512) ∧
      (freeBlocks fs.superblock).card <
        newBlocksRequired (fs.drafted file).md file.inodeNumber (file.offset.tdiv 512) (size.tdiv 512).toNat) := by
  rw [ewrite_eq mounted] at call
  split at call
  · cases call
  next word =>
    refine ⟨not_not.mp word, fun inside whole below => ?_⟩
    rw [if_neg (by omega)] at call
    split at call
    · cases call
    next accessible =>
      split at call
      next scarce => exact ⟨not_not.mp accessible, scarce⟩
      next enough =>
        cases call
        rcases confined with ⟨failed, -⟩ | ⟨slots, -⟩
        · omega
        · rw [Fs.ewriteFootprint, if_neg (by omega), if_neg enough] at slots
          have rounds := toNat_tdiv size
          -- the first index counted is the block of the offset
          have first := slots (file.offset.tdiv 512) (List.mem_map.mpr ⟨0, List.mem_range.mpr (by omega), by simp⟩)
          have before := tdiv_neg_of_below below
          omega

theorem bounded_of_eread {env : Env} {data data' : Nat → UInt8} {file' : File} {ret : Int}
    (call : fs.eread env file data size = some (fs', file', data', ret))
    (confined : Confined file.inodeNumber fs fs' (fs.ereadFootprint env file size) ret)
    (near : file.offset.tdiv 512 + size.tdiv 512 ≤ 4) :
    (size < 512 → InInt (file.offset + size)) ∧
    (512 ≤ size → file.offset ≤ -512 →
      Accessible file.inodeNumber (file.offset.tdiv 512) (size.tdiv 512) ∧
      ∃ k < (size.tdiv 512).toNat, blocks fs.metadata file.inodeNumber (file.offset.tdiv 512 + k) = -1) := by
  have rounds := toNat_tdiv size
  rw [eread_eq mounted, if_neg (by omega)] at call
  rw [Fs.ereadFootprint, if_neg (by omega)] at confined
  split at call
  · cases call
  next accessible =>
    split at call
    next missing =>
      refine ⟨fun short => ?_, fun _ _ => ⟨not_not.mp accessible, missing⟩⟩
      obtain ⟨k, bound, -⟩ := missing
      omega
    next full =>
      rw [if_neg full] at confined
      dsimp only at call confined
      constructor
      · intro short
        rw [rounds, show size.toNat / 512 = 0 by omega] at call
        simp only [readBlocks, Bool.true_eq_false, if_false] at call
        split at call
        · cases call
        next word => exact not_not.mp word
      · intro whole below
        -- no block is missing, so the loop has a first round, and its index lies before the array
        obtain ⟨m, more⟩ : ∃ m, (size.tdiv 512).toNat = m + 1 := ⟨size.toNat / 512 - 1, by omega⟩
        rw [more, scanned, readTargets] at confined
        rcases confined with ⟨-, -, untouched⟩ | ⟨slots, -⟩
        · simp at untouched
        · have first := slots (file.offset.tdiv 512) List.mem_cons_self
          have before := tdiv_neg_of_below below
          omega

variable (con : Consistent d fs.superblock fs.metadata)
  (used : Used fs.metadata file.inodeNumber)
include con used

theorem ewrite_bounded (word : InInt (file.offset + size))
    (early : file.offset + size ≤ 2048 → 512 ≤ size → file.offset ≤ -512 →
      Accessible file.inodeNumber (file.offset.tdiv 512) (size.tdiv 512) ∧
      (freeBlocks fs.superblock).card <
        newBlocksRequired (fs.drafted file).md file.inodeNumber (file.offset.tdiv 512) (size.tdiv 512).toNat)
    (env : Env) (data : Nat → UInt8) :
    ∃ fs' file' ret, fs.ewrite env file data size = some (fs', file', ret) ∧ file'.inodeNumber = file.inodeNumber ∧
      Preserved d fs fs' ∧ Confined file.inodeNumber fs fs' (fs.ewriteFootprint file data size) ret ∧
      Spared file.inodeNumber fs fs' := by
  have kept := Kept.moved mounted 2
  by_cases beyond : file.offset + size > 2048
  · refine ⟨fs.moved 2, file, -1, ?_, rfl, kept.preserved con, .inl ⟨rfl, rfl, ?_⟩, kept.spared _⟩
    · rw [ewrite_eq mounted, if_neg (not_not.mpr word), if_pos beyond]
    · rw [Fs.ewriteFootprint, if_pos beyond]
  have fits : 512 ≤ size → -512 < file.offset → file.offset.toNat / 512 + size.toNat / 512 ≤ 4 := by omega
  by_cases scarce : newBlocksRequired (fs.drafted file).md file.inodeNumber (file.offset.tdiv 512)
      (size.tdiv 512).toNat > (freeBlocks fs.superblock).card
  · have accessible : Accessible file.inodeNumber (file.offset.tdiv 512) (size.tdiv 512) := by
      by_cases before : 512 ≤ size ∧ file.offset ≤ -512
      · exact (early (by omega) before.1 before.2).1
      · exact accessible_of_placed _ (by omega) fun whole => fits whole (by omega)
    refine ⟨fs.moved 2, file, -1, ?_, rfl, kept.preserved con, .inl ⟨rfl, rfl, ?_⟩, kept.spared _⟩
    · rw [ewrite_eq mounted, if_neg (not_not.mpr word), if_neg beyond, if_neg (not_not.mpr accessible), if_pos scarce]
    · rw [Fs.ewriteFootprint, if_neg beyond, if_pos scarce]
  -- neither refusal applies: a start before the array would have run out of blocks
  · have placed : 512 ≤ size → -512 < file.offset := by
      intro whole
      by_contra below
      exact scarce (early (by omega) whole (by omega)).2
    obtain ⟨fs', call, wrote, confined, spared⟩ :=
      ewrite_placed mounted con used word (by omega) placed scarce env data
    exact ⟨fs', _, size, call, rfl, ⟨wrote.mounted, wrote.con, wrote.used_iff⟩, confined, spared⟩

theorem eread_bounded (range : file.offset.tdiv 512 + size.tdiv 512 ≤ 4 →
      (size < 512 → InInt (file.offset + size)) ∧
      (512 ≤ size → file.offset ≤ -512 →
        Accessible file.inodeNumber (file.offset.tdiv 512) (size.tdiv 512) ∧
        ∃ k < (size.tdiv 512).toNat, blocks fs.metadata file.inodeNumber (file.offset.tdiv 512 + k) = -1))
    (env : Env) (data : Nat → UInt8) :
    ∃ fs' file' data' ret, fs.eread env file data size = some (fs', file', data', ret) ∧
      file'.inodeNumber = file.inodeNumber ∧ Preserved d fs fs' ∧
      Confined file.inodeNumber fs fs' (fs.ereadFootprint env file size) ret ∧ Spared file.inodeNumber fs fs' := by
  have rounds := toNat_tdiv size
  have kept := Kept.moved mounted 2
  by_cases beyond : file.offset.tdiv 512 + size.tdiv 512 > 4
  · refine ⟨fs.moved 2, file, data, -1, ?_, rfl, kept.preserved con, .inl ⟨rfl, rfl, ?_⟩, kept.spared _⟩
    · rw [eread_eq mounted, if_pos beyond]
    · rw [Fs.ereadFootprint, if_pos beyond]
  have near : file.offset.tdiv 512 + size.tdiv 512 ≤ 4 := by omega
  obtain ⟨word, early⟩ := range near
  by_cases missing : ∃ k < (size.tdiv 512).toNat,
      blocks fs.metadata file.inodeNumber (file.offset.tdiv 512 + k) = -1
  · have accessible : Accessible file.inodeNumber (file.offset.tdiv 512) (size.tdiv 512) := by
      by_cases before : 512 ≤ size ∧ file.offset ≤ -512
      · exact (early before.1 before.2).1
      · apply accessible_of_placed _ (by omega)
        intro whole
        have above := tdiv_of_above (show -512 < file.offset by omega)
        omega
    refine ⟨fs.moved 2, file, data, -1, ?_, rfl, kept.preserved con, .inl ⟨rfl, rfl, ?_⟩, kept.spared _⟩
    · rw [eread_eq mounted, if_neg beyond, if_neg (not_not.mpr accessible), if_pos missing]
    · rw [Fs.ereadFootprint, if_neg beyond, if_pos missing]
  · have placed : 512 ≤ size → -512 < file.offset := by
      intro whole
      by_contra below
      exact missing (early whole (by omega)).2
    have total : InInt (file.offset + size) := by
      by_cases whole : 512 ≤ size
      · exact inInt_of_near near whole (placed whole)
      · exact word (Int.not_le.mp whole)
    obtain ⟨fs', data', call, kept, confined⟩ := eread_placed mounted con used near total placed missing env data
    exact ⟨fs', _, data', size, call, rfl, kept.preserved con, confined, kept.spared _⟩

end Steps

/-! ## Runs -/

namespace Coherent

variable {d : Nat} {w w' : World} {c : Call}

theorem isolated_iff_bounded (coherent : Coherent d w) (c : Call) : Isolated w c ↔ Bounded w c := by
  have mounted := coherent.mounted
  cases c with
  | eopen env filename => exact Iff.rfl
  | eseek h offset => exact Iff.rfl
  | eclose h => exact Iff.rfl
  | ewrite env h data size =>
    constructor
    · intro isolated file opened
      obtain ⟨fs', file', ret, call, confined, -⟩ := isolated file opened
      exact bounded_of_ewrite mounted call confined
    · intro bounded file opened
      obtain ⟨word, early⟩ := bounded file opened
      obtain ⟨fs', file', ret, call, -, -, confined, spared⟩ :=
        ewrite_bounded mounted coherent.con (coherent.used h file opened) word early env data
      exact ⟨fs', file', ret, call, confined, spared⟩
  | eread env h data size =>
    constructor
    · intro isolated file opened near
      obtain ⟨fs', file', data', ret, call, confined, -⟩ := isolated file opened
      exact bounded_of_eread mounted call confined near
    · intro bounded file opened
      obtain ⟨fs', file', data', ret, call, -, -, confined, spared⟩ :=
        eread_bounded mounted coherent.con (coherent.used h file opened) (bounded file opened) env data
      exact ⟨fs', file', data', ret, call, confined, spared⟩

theorem of_preserved (coherent : Coherent d w) {fs : Fs} (preserved : Preserved d w.fs fs) {h : Nat}
    {file file' : File} (opened : w.handle h = some file) (same : file'.inodeNumber = file.inodeNumber) :
    Coherent d { fs, files := w.files.set h (some file') } where
  mounted := preserved.mounted
  con := preserved.con
  used g other after := by
    rw [w.handle_set fs opened] at after
    rw [preserved.used]
    split at after
    · cases after
      rw [same]
      exact coherent.used h file opened
    · exact coherent.used g other after

theorem step_bounded (coherent : Coherent d w) (named : Named w c) (bounded : Bounded w c)
    (step : World.step w c = some w') : Coherent d w' := by
  cases c with
  | eopen env filename => exact coherent_step (c := .eopen env filename) coherent named step
  | eseek h offset => exact coherent_step (c := .eseek h offset) coherent trivial step
  | eclose h => exact coherent_step (c := .eclose h) coherent trivial step
  | ewrite env h data size =>
    obtain ⟨⟨next, reply⟩, call, rfl⟩ := Option.map_eq_some_iff.mp step
    obtain ⟨file, fs, file', ret, opened, written, rfl, rfl⟩ := World.exec_ewrite call
    obtain ⟨word, early⟩ := bounded file opened
    obtain ⟨fs', last, ret', call', same, preserved, -, -⟩ :=
      ewrite_bounded coherent.mounted coherent.con (coherent.used h file opened) word early env data
    cases written.symm.trans call'
    exact coherent.of_preserved preserved opened same
  | eread env h data size =>
    obtain ⟨⟨next, reply⟩, call, rfl⟩ := Option.map_eq_some_iff.mp step
    obtain ⟨file, fs, file', data', ret, opened, read, rfl, rfl⟩ := World.exec_eread call
    obtain ⟨fs', last, data'', ret', call', same, preserved, -, -⟩ :=
      eread_bounded coherent.mounted coherent.con (coherent.used h file opened) (bounded file opened) env data
    cases read.symm.trans call'
    exact coherent.of_preserved preserved opened same

end Coherent

/-- Every call of a run keeps to its own file exactly when no call of it starts, unrefused, before `id->blocks`. -/
theorem isolated_iff {d : Nat} {n : Int} {fs : Fs} {env : Env} {calls : List Call} (mounted : Mounted d fs)
    (size : diskSize fs.superblock = d)
    (named : Machine.EveryStep World.step Named (World.formatted env fs n) calls) :
    Machine.EveryStep World.step Isolated (World.formatted env fs n) calls ↔
      Machine.EveryStep World.step Bounded (World.formatted env fs n) calls := by
  have start := (sane_formatted env n mounted size).coherent
  apply Machine.everyStep_iff_of_invariant (I := Coherent d) _ _ start named
  · exact fun w c coherent _ => coherent.isolated_iff_bounded c
  · exact fun w c w' coherent named bounded => coherent.step_bounded named bounded

/-! ## One file written through the handle of another -/

instance (w : World) (c : Call) : Decidable (Named w c) :=
  match c with
  | .eopen _ _ => inferInstanceAs (Decidable (_ ≤ _))
  | .eseek _ _ | .ewrite _ _ _ _ | .eread _ _ _ _ | .eclose _ => isTrue trivial

instance (w : World) (c : Call) : Decidable (Bounded w c) :=
  match c with
  | .ewrite _ h _ size => inferInstanceAs (Decidable (∀ file ∈ w.handle h, InInt (file.offset + size) ∧ (_ → _ → _ → _)))
  | .eread _ h _ size => inferInstanceAs (Decidable (∀ file ∈ w.handle h, _ → (size < 512 → _) ∧ (_ → _ → _)))
  | .eopen _ _ | .eseek _ _ | .eclose _ => isTrue trivial

def clockEnv : Env := ⟨1, fun _ => 0, []⟩

def firstName : CString := ⟨[97], by decide⟩

def writeBefore : List Call :=
  [.eopen clockEnv firstName, .ewrite clockEnv 0 (fun _ => 7) 512, .eseek 0 (-511),
    .ewrite clockEnv 0 (fun _ => 8) 1024]

theorem isolated_write_before :
    Machine.EveryStep World.step Isolated (World.formatted clockEnv (Fs.blank 42) 0) writeBefore := by
  have named : Machine.checkRun World.step (fun w c => decide (Named w c))
      (World.formatted clockEnv (Fs.blank 42) 0) writeBefore = true := by decide +kernel
  have bounded : Machine.checkRun World.step (fun w c => decide (Bounded w c))
      (World.formatted clockEnv (Fs.blank 42) 0) writeBefore = true := by decide +kernel
  apply (isolated_iff (mounted_blank (by decide) le_rfl) (diskSize_blank le_rfl) _).mpr
  · exact Machine.everyStep_of_checkRun (fun w c checked => of_decide_eq_true checked) bounded
  · exact Machine.everyStep_of_checkRun (fun w c checked => of_decide_eq_true checked) named

/-- A file with a block, and another with two bytes and none, its handle at block -1: what
stands there for a block number is the size of the file. -/
def twoFiles : List Call :=
  [.eopen clockEnv ⟨[97], by decide⟩, .ewrite clockEnv 0 (fun _ => 7) 512, .eopen clockEnv ⟨[98], by decide⟩,
    .ewrite clockEnv 1 (fun _ => 0) 2, .eseek 1 (-512)]

def writeOther : Call := .ewrite clockEnv 1 (fun _ => 9) 512

theorem not_isolated_two_files : ¬∀ (d : Nat) (n : Int) (fs : Fs) (env : Env) (calls : List Call), n = 0 ∨ n = 1 →
    Mounted d fs → diskSize fs.superblock = d →
    Machine.EveryStep World.step Named (World.formatted env fs n) calls →
    Machine.EveryStep World.step Isolated (World.formatted env fs n) calls := by
  intro claimed
  have named : Machine.checkRun World.step (fun w c => decide (Named w c))
      (World.formatted clockEnv (Fs.blank 42) 0) (twoFiles ++ [writeOther]) = true := by decide +kernel
  have isolated := claimed 42 0 (Fs.blank 42) clockEnv (twoFiles ++ [writeOther]) (.inl rfl)
    (mounted_blank (by decide) le_rfl) (diskSize_blank le_rfl)
    (Machine.everyStep_of_checkRun (fun w c checked => of_decide_eq_true checked) named)
  have seen : (Machine.run World.step (World.formatted clockEnv (Fs.blank 42) 0) twoFiles).any (fun w =>
      (w.handle 1).any fun file => decide (file.inodeNumber = 1) &&
        (w.fs.ewrite clockEnv file (fun _ => 9) 512).any fun r =>
          ((w.fs.contents w.fs.metadata (0, 0)).map (· 0) == some 7) &&
            ((r.1.contents r.1.metadata (0, 0)).map (· 0) == some 9)) = true := by decide +kernel
  simp only [Option.any_eq_true, Bool.and_eq_true, decide_eq_true_eq, beq_iff_eq] at seen
  obtain ⟨w, reached, file, opened, inode, result, call, before, after⟩ := seen
  obtain ⟨fs', file', ret, call', -, spared⟩ :=
    (Machine.everyStep_iff.mp isolated) twoFiles writeOther [] w rfl reached file opened
  cases call.symm.trans call'
  -- the handle is of inode 1, and block 0 of inode 0 has changed
  have kept := spared.contents 0 (by rw [inode]; decide) 0
  rw [kept, before] at after
  cases after

end OsLabs.Emufs
