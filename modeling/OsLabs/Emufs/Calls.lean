import OsLabs.Emufs.Consistency

/-! What each file system call does on a sane device with consistent metadata. -/

set_option autoImplicit false

namespace OsLabs.Emufs

open OsLabs.Lib
open Superblock Metadata Fs

namespace Fs

/-! ## The device as the file system sees it -/

def superblock (fs : Fs) : Block := fs.dev.image 0

def metadata (fs : Fs) : Block := fs.fromDevice (fs.dev.image 1)

def contents (fs : Fs) (md : Block) : Slot → Option Block :=
  Allocation.held (refers md) fun b => fs.fromDevice (fs.dev.image b)

def moved (fs : Fs) (pos : Nat) : Fs := { fs with dev := { fs.dev with pos } }

def put (fs : Fs) (b : Nat) (buf : Block) : Fs :=
  { fs with dev :=
    { image := Function.update fs.dev.image b buf
      extent := max fs.dev.extent (b + 1)
      pos := b + 1
      faults := [] } }

section

variable (fs : Fs) (pos : Nat) (b : Nat) (buf md : Block)

@[simp] theorem mp_moved : (fs.moved pos).mp = fs.mp := rfl
@[simp] theorem superblock_moved : (fs.moved pos).superblock = fs.superblock := rfl
@[simp] theorem metadata_moved : (fs.moved pos).metadata = fs.metadata := rfl
@[simp] theorem contents_moved : (fs.moved pos).contents md = fs.contents md := rfl
@[simp] theorem mp_put : (fs.put b buf).mp = fs.mp := rfl

theorem superblock_put_self : (fs.put 0 buf).superblock = buf := by
  simp [superblock, put]

theorem superblock_put_of_ne (other : b ≠ 0) : (fs.put b buf).superblock = fs.superblock := by
  simp [superblock, put, other.symm]

theorem metadata_put_self : (fs.put 1 (fs.toDevice md)).metadata = md :=
  (congrArg fs.fromDevice (by simp [put])).trans (fs.fromDevice_toDevice md)

theorem contents_put (x : Block) : (fs.put b (fs.toDevice x)).contents md =
    Allocation.held (refers md) (Function.update (fun c => fs.fromDevice (fs.dev.image c)) b x) := by
  apply congrArg (Allocation.held (refers md))
  funext c
  by_cases same : c = b
  · rw [same, Function.update_self]
    exact (congrArg fs.fromDevice (by simp [put])).trans (fs.fromDevice_toDevice x)
  · rw [Function.update_of_ne same]
    exact congrArg fs.fromDevice (by simp [put, same])

theorem metadata_put_of_ne (other : b ≠ 1) : (fs.put b buf).metadata = fs.metadata :=
  congrArg fs.fromDevice (by simp [put, other.symm])

end

section Reading

variable {d : Nat} {fs : Fs} (opened : 0 < fs.mp.deviceFd) (atLeast : 2 ≤ d) (whole : d ≤ fs.dev.extent) (env : Env)

include opened atLeast whole

-- reading depends on the length of the image only, not on the writes to come
theorem readSuperblock_eq : fs.readSuperblock env = (fs.moved 1, fs.superblock) := by
  have read := Device.readblock_eq fs.dev (b := 0) env.garbage opened (by omega) (by omega)
  simp only [Nat.cast_zero] at read
  simp only [readSuperblock, read]
  rfl

theorem readMetadata_eq : fs.readMetadata env = (fs.moved 2, fs.metadata) := by
  have read := Device.readblock_eq fs.dev (b := 1) env.garbage opened (by omega) (by omega)
  simp only [Nat.cast_one] at read
  simp only [readMetadata, read]
  rfl

end Reading

end Fs

structure Mounted (d : Nat) (fs : Fs) : Prop where
  opened : 0 < fs.mp.deviceFd
  sane : fs.dev.faults = []
  whole : d ≤ fs.dev.extent
  atLeast : 2 ≤ d
  atMost : d ≤ 42

namespace Mounted

variable {d : Nat} {fs : Fs}

theorem moved (mounted : Mounted d fs) (pos : Nat) : Mounted d (fs.moved pos) :=
  ⟨mounted.opened, mounted.sane, mounted.whole, mounted.atLeast, mounted.atMost⟩

theorem put (mounted : Mounted d fs) (b : Nat) (buf : Block) : Mounted d (fs.put b buf) :=
  ⟨mounted.opened, rfl, mounted.whole.trans (le_max_left _ _), mounted.atLeast, mounted.atMost⟩

theorem readSuperblock (mounted : Mounted d fs) (env : Env) : fs.readSuperblock env = (fs.moved 1, fs.superblock) :=
  Fs.readSuperblock_eq mounted.opened mounted.atLeast mounted.whole env

theorem readMetadata (mounted : Mounted d fs) (env : Env) : fs.readMetadata env = (fs.moved 2, fs.metadata) :=
  Fs.readMetadata_eq mounted.opened mounted.atLeast mounted.whole env

theorem writeSuperblock (mounted : Mounted d fs) (sb : Block) : fs.writeSuperblock sb = (fs.put 0 sb, 1) := by
  have write := Device.writeblock_eq (b := 0) sb mounted.opened mounted.sane (by omega)
  simp only [Nat.cast_zero] at write
  simp only [Fs.writeSuperblock, write]
  rfl

theorem writeMetadata (mounted : Mounted d fs) (md : Block) :
    fs.writeMetadata md = (fs.put 1 (fs.toDevice md), 1) := by
  have write := Device.writeblock_eq (b := 1) (fs.toDevice md) mounted.opened mounted.sane (by omega)
  simp only [Nat.cast_one] at write
  simp only [Fs.writeMetadata, write]
  rfl

end Mounted

/-! ## Writing blocks -/

/-- Blocks `lo .. hi - 1` of inode `i` set to `f`, everything else as before. -/
def overwritten (before : Slot → Option Block) (i : Inode) (lo hi : Nat) (f : Nat → Block) : Slot → Option Block :=
  fun s => if s.1 = i ∧ lo ≤ s.2.val ∧ s.2.val < hi then some (f s.2.val) else before s

theorem overwritten_empty (before : Slot → Option Block) (i : Inode) (lo : Nat) (f : Nat → Block) :
    overwritten before i lo lo f = before := by
  funext s
  exact if_neg (by omega)

theorem overwritten_update (before : Slot → Option Block) (i : Inode) (k : Fin 4) {hi : Nat} (f : Nat → Block)
    (room : k.val < hi) :
    overwritten (Function.update before (i, k) (some (f k.val))) i (k.val + 1) hi f =
      overwritten before i k.val hi f := by
  funext s
  unfold overwritten
  by_cases here : s = (i, k)
  · rw [here, if_neg (by simp), Function.update_self, if_pos ⟨rfl, le_rfl, room⟩]
  · rw [Function.update_of_ne here]
    have apart : s.1 = i → s.2.val ≠ k.val := fun inode index => here (Prod.ext inode (Fin.ext index))
    by_cases inside : s.1 = i ∧ k.val + 1 ≤ s.2.val ∧ s.2.val < hi
    · rw [if_pos inside, if_pos ⟨inside.1, by omega, inside.2.2⟩]
    · rw [if_neg inside, if_neg]
      rintro ⟨inode, low, high⟩
      have index := apart inode
      exact inside ⟨inode, by omega, high⟩

structure Granted (d : Nat) (i : Inode) (k : Fin 4) (sb md sb' md' : Block) : Prop where
  con : Consistent d sb' md'
  place : ∃ b : Nat, blocks md' i k.val = b ∧ 2 ≤ b ∧ b < d
  status : ∀ j : Inode, Metadata.status md' j = Metadata.status md j
  names : KeepsNames md md'
  others : ∀ s : Slot, s ≠ (i, k) → blocks md' s.1 s.2.val = blocks md s.1 s.2.val
  cost : (freeBlocks sb').card + (if blocks md i k.val = -1 then 1 else 0) = (freeBlocks sb).card
  holds : ∀ (b : Nat) (store : Nat → Block) (x : Block), blocks md' i k.val = b →
    Allocation.held (refers md') (Function.update store b x) =
      Function.update (Allocation.held (refers md) store) (i, k) (some x)

theorem allocate_granted {d : Nat} {sb md : Block} (con : Consistent d sb md) (small : d ≤ 42) {i : Inode}
    {k : Fin 4} (used : Used md i) (room : blocks md i k.val = -1 → (freeBlocks sb).Nonempty) :
    Granted d i k sb md (allocate i k.val sb md).1 (allocate i k.val sb md).2 := by
  by_cases empty : blocks md i k.val = -1
  · obtain ⟨j, found⟩ := firstFree_isSome (room empty)
    have available := firstFree_eq_some found
    have place := (mem_freeBlocks con.size).mp available
    have size := con.size
    have same : allocate i k.val sb md = (setBitmap sb j allocated, setBlock md i k.val j.val) := by
      simp only [allocate, if_pos empty, found]
    have got : blocks (setBlock md i k.val j.val) i k.val = j.val := by
      rw [blocks_setBlock md i i k k (by omega) (by omega), if_pos ⟨rfl, rfl⟩]
    rw [same]
    refine
      { con := con.setBlock small used empty available
        place := ⟨j.val, got, place.1⟩
        status := fun l => status_setBlock md i l k _
        names := fun l short => name_setBlock md i l k _ (by omega)
        others := fun s different => ?_
        cost := ?_
        holds := fun b store x block => ?_ }
    · rw [blocks_setBlock md i s.1 k s.2 (by omega) (by omega), if_neg]
      exact fun equal => different (Prod.ext equal.1 equal.2)
    · have positive := Finset.card_pos.mpr ⟨j.val, available⟩
      rw [if_pos empty, freeBlocks_setBitmap (by omega), Finset.card_erase_of_mem available]
      omega
    · have index : b = j.val := by rw [got] at block; omega
      have unowned : refers md (i, k) = none := refers_of_empty empty
      rw [index, refers_setBlock used (by omega)]
      exact con.sound.held_allocate_write unowned available x
  · have same : allocate i k.val sb md = (sb, md) := by simp only [allocate, if_neg empty]
    have low := con.atLeast i k used
    obtain ⟨b, block⟩ : ∃ b : Nat, blocks md i k.val = b := Int.eq_ofNat_of_zero_le (by omega)
    have owned : refers md (i, k) = some b := refers_of_block used block
    have inside := con.sound.inPool _ _ owned
    rw [same]
    refine
      { con, place := ⟨b, block, Finset.mem_Ico.mp inside⟩, status := fun _ => rfl, names := fun _ _ => rfl
        others := fun _ _ => rfl, cost := by simp [empty], holds := fun c store x same => ?_ }
    have owner : refers md (i, k) = some c := refers_of_block used same
    exact con.sound.held_write owner x

structure Written (d : Nat) (i : Inode) (lo hi : Nat) (f : Nat → Block) (before after : Draft) : Prop where
  mounted : Mounted d after.fs
  mp : after.fs.mp = before.fs.mp
  con : Consistent d after.sb after.md
  status : ∀ j : Inode, Metadata.status after.md j = Metadata.status before.md j
  names : KeepsNames before.md after.md
  others : ∀ s : Slot, ¬(s.1 = i ∧ lo ≤ s.2.val ∧ s.2.val < hi) →
    blocks after.md s.1 s.2.val = blocks before.md s.1 s.2.val
  contents : after.fs.contents after.md = overwritten (before.fs.contents before.md) i lo hi f

def required (md : Block) (i : Inode) (start k n : Nat) : Nat :=
  ((Finset.Ico k (k + n)).filter fun j : Nat => blocks md i ((start : Int) + j) = -1).card

theorem newBlocksRequired_eq (md : Block) (i : Inode) (start n : Nat) :
    newBlocksRequired md i start n = required md i start 0 n := by
  rw [newBlocksRequired, required, Finset.range_eq_Ico, Nat.zero_add]

theorem required_zero (md : Block) (i : Inode) (start k : Nat) : required md i start k 0 = 0 := by simp [required]

theorem required_succ (md : Block) (i : Inode) (start k n : Nat) : required md i start k (n + 1) =
    required md i start (k + 1) n + if blocks md i ((start : Int) + k) = -1 then 1 else 0 := by
  have split : Finset.Ico k (k + (n + 1)) = insert k (Finset.Ico (k + 1) (k + 1 + n)) := by
    ext j
    simp only [Finset.mem_Ico, Finset.mem_insert]
    omega
  rw [required, split, Finset.filter_insert]
  split_ifs
  · rw [Finset.card_insert_of_notMem (by simp), required]
  · rfl

/-- The second loop of `ewrite` before round `k`, with `n` rounds to go: there are blocks
enough for those that have to take one. -/
structure Ready (d : Nat) (i : Inode) (start n k : Nat) (draft : Draft) : Prop where
  mounted : Mounted d draft.fs
  con : Consistent d draft.sb draft.md
  used : Used draft.md i
  fits : n ≠ 0 → start + k + n ≤ 4
  room : required draft.md i start k n ≤ (freeBlocks draft.sb).card

structure Round (d : Nat) (i : Inode) (start : Nat) (data : Nat → UInt8) (n k : Nat) (index : Fin 4) (b : Nat)
    (before next : Draft) : Prop where
  place : index.val = start + k
  taken : allocate i index.val before.sb before.md = (next.sb, next.md)
  granted : Granted d i index before.sb before.md next.sb next.md
  block : blocks next.md i index.val = b
  low : 2 ≤ b
  high : b < d
  put : next.fs = before.fs.put b (before.fs.toDevice (piece data k))
  done : writeRound i start data k before = (next, 1)
  ready : Ready d i start n (k + 1) next
  cost : (freeBlocks next.sb).card + required before.md i start k (n + 1) =
    (freeBlocks before.sb).card + required next.md i start (k + 1) n

theorem Ready.round {d : Nat} {i : Inode} {start n k : Nat} {before : Draft} (ready : Ready d i start (n + 1) k before)
    (data : Nat → UInt8) : ∃ index b next, Round d i start data n k index b before next := by
  have fits := ready.fits (Nat.succ_ne_zero n)
  obtain ⟨index, same⟩ : ∃ index : Fin 4, index.val = start + k := ⟨⟨start + k, by omega⟩, rfl⟩
  have place : (start : Int) + k = (index.val : Int) := by omega
  have room := ready.room
  have total := required_succ before.md i start k n
  rw [place] at total
  have enough : blocks before.md i index.val = -1 → (freeBlocks before.sb).Nonempty := by
    intro empty
    apply Finset.card_pos.mp
    rw [if_pos empty] at total
    omega
  obtain ⟨sb, md, taken⟩ : ∃ sb md, allocate i index.val before.sb before.md = (sb, md) := ⟨_, _, Prod.mk.eta.symm⟩
  have granted : Granted d i index before.sb before.md sb md := by
    have granted := allocate_granted ready.con ready.mounted.atMost ready.used enough
    rwa [taken] at granted
  obtain ⟨b, block, low, high⟩ := granted.place
  have small : b < 4194304 := by
    have := ready.mounted.atMost
    omega
  have write := Device.writeblock_eq (before.fs.toDevice (piece data k)) ready.mounted.opened ready.mounted.sane small
  have later : required md i start (k + 1) n = required before.md i start (k + 1) n := by
    apply congrArg Finset.card
    apply Finset.filter_congr
    intro j member
    rw [Finset.mem_Ico] at member
    have other := granted.others (i, ⟨start + j, by omega⟩) (by simp [Fin.ext_iff]; omega)
    rw [← Nat.cast_add, other]
  have cost := granted.cost
  refine ⟨index, b, ⟨before.fs.put b (before.fs.toDevice (piece data k)), sb, md⟩, same, taken, granted, block, low,
    high, rfl, ?_, ⟨ready.mounted.put b _, granted.con, (granted.status i).trans ready.used, by omega, ?_⟩, ?_⟩
  · rw [writeRound, place, taken]
    dsimp only
    rw [block, write]
    rfl
  · dsimp only
    rw [later]
    split_ifs at total cost <;> omega
  · dsimp only
    rw [later, total]
    split_ifs at cost ⊢ <;> omega

theorem Round.continues {d : Nat} {i : Inode} {start : Nat} {data : Nat → UInt8} {n k : Nat} {index : Fin 4} {b : Nat}
    {before next : Draft} (round : Round d i start data n k index b before next) :
    writeBlocks i start data (n + 1) k before = writeBlocks i start data n (k + 1) next := by
  rw [writeBlocks, round.done]
  rfl

/-- The availability counted before the loop covers every round of it: a round that
takes a block lowers what is available and what is still required by one each. The
blocks the loop writes are the file's own, so the first two stay. -/
theorem writeBlocks_written {d : Nat} {i : Inode} {start n k : Nat} (data : Nat → UInt8) {before : Draft}
    (ready : Ready d i start n k before) :
    ∃ after, writeBlocks i start data n k before = (after, true) ∧
      Written d i (start + k) (start + k + n) (fun j => piece data (j - start)) before after ∧
      (freeBlocks after.sb).card + required before.md i start k n = (freeBlocks before.sb).card ∧
      ∀ c < 2, after.fs.dev.image c = before.fs.dev.image c := by
  induction n generalizing k before with
  | zero =>
    exact ⟨before, rfl, ⟨ready.mounted, rfl, ready.con, fun _ => rfl, fun _ _ => rfl, fun _ _ => rfl,
      (overwritten_empty _ _ _ _).symm⟩, by rw [required_zero, Nat.add_zero], fun _ _ => rfl⟩
  | succ n ih =>
    have fits := ready.fits (Nat.succ_ne_zero n)
    obtain ⟨index, b, next, round⟩ := ready.round data
    have granted := round.granted
    have same := round.place
    obtain ⟨after, done, written, spent, header⟩ := ih round.ready
    refine ⟨after, round.continues.trans done,
      ⟨written.mounted, ?_, written.con, ?_, granted.names.trans written.names, ?_, ?_⟩, ?_, ?_⟩
    · rw [written.mp, round.put, mp_put]
    · intro j
      rw [written.status, granted.status]
    · intro s outside
      rw [written.others s fun inside => outside ⟨inside.1, by omega, by omega⟩, granted.others s]
      rintro rfl
      exact outside ⟨rfl, by simp only; omega, by simp only; omega⟩
    · have first : next.fs.contents next.md =
          Function.update (before.fs.contents before.md) (i, index) (some (piece data (index.val - start))) := by
        rw [round.put, contents_put, granted.holds b _ _ round.block, same, Nat.add_sub_cancel_left]
        rfl
      rw [written.contents, first, ← Nat.add_assoc, ← same]
      convert overwritten_update (before.fs.contents before.md) i index (fun j => piece data (j - start)) _
        using 2 <;> omega
    · have cost := round.cost
      omega
    · intro c first
      have low := round.low
      rw [header c first, round.put]
      exact Function.update_of_ne (by omega) _ _

/-! ## The calls -/

structure Kept (d : Nat) (fs fs' : Fs) : Prop where
  mounted : Mounted d fs'
  mp : fs'.mp = fs.mp
  superblock : fs'.superblock = fs.superblock
  metadata : fs'.metadata = fs.metadata
  contents : fs'.contents fs'.metadata = fs.contents fs.metadata

theorem Kept.moved {d : Nat} {fs : Fs} (mounted : Mounted d fs) (pos : Nat) : Kept d fs (fs.moved pos) :=
  ⟨mounted.moved pos, rfl, rfl, rfl, rfl⟩

theorem contents_put_header {d : Nat} {fs : Fs} {sb md : Block} (con : Consistent d sb md) {b : Nat} (header : b < 2)
    (buf : Block) : (fs.put b buf).contents md = fs.contents md := by
  apply con.sound.held_congr
  intro c member
  rw [Finset.mem_Ico] at member
  have above : c ≠ b := by omega
  exact congrArg fs.fromDevice (by simp [put, above])

theorem Kept.rewritten {d : Nat} {fs : Fs} (mounted : Mounted d fs) (con : Consistent d fs.superblock fs.metadata) :
    Kept d fs ((fs.put 1 (fs.toDevice fs.metadata)).put 0 fs.superblock) where
  mounted := (mounted.put 1 _).put 0 _
  mp := rfl
  superblock := superblock_put_self _ _
  metadata := by rw [metadata_put_of_ne _ _ _ (by omega), metadata_put_self]
  contents := by
    rw [metadata_put_of_ne _ _ _ (by omega), metadata_put_self, contents_put_header con (by omega),
      contents_put_header con (by omega)]

section Ewrite

variable {d : Nat} {fs fs' : Fs} {env : Env} {file file' : File} {data : Nat → UInt8} {size ret : Int}

structure Overwrote (d : Nat) (i : Inode) (lo hi : Nat) (f : Nat → Block) (fs fs' : Fs) : Prop where
  mounted : Mounted d fs'
  mp : fs'.mp = fs.mp
  con : Consistent d fs'.superblock fs'.metadata
  status : ∀ j : Inode, Metadata.status fs'.metadata j = Metadata.status fs.metadata j
  names : KeepsNames fs.metadata fs'.metadata
  contents : fs'.contents fs'.metadata = overwritten (fs.contents fs.metadata) i lo hi f

theorem accessible_of_fits (i : Inode) {start n : Nat} (fits : start + n ≤ 4) : Accessible i start n := by
  unfold Accessible slot
  omega

theorem toNat_tdiv (v : Int) : (v.tdiv 512).toNat = v.toNat / 512 := by
  rcases Int.le_total 0 v with low | low
  · rw [Int.tdiv_eq_ediv_of_nonneg low]
    omega
  · have negated : (-v).tdiv 512 = -v.tdiv 512 := Int.neg_tdiv v 512
    rw [Int.tdiv_eq_ediv_of_nonneg (by omega)] at negated
    omega

theorem tdiv_of_nonneg {v : Int} (low : 0 ≤ v) : v.tdiv 512 = ((v.toNat / 512 : Nat) : Int) := by
  rw [Int.tdiv_eq_ediv_of_nonneg low]
  omega

theorem accessible_of_inside (i : Inode) {offset : Int} (low : 0 ≤ offset) (inside : offset + size ≤ 2048) :
    Accessible i ((offset.toNat / 512 : Nat) : Int) (size.tdiv 512) := by
  have rounds := toNat_tdiv size
  by_cases none_left : size.tdiv 512 ≤ 0
  · exact Or.inl none_left
  · rw [← Int.toNat_of_nonneg (Int.not_le.mp none_left).le]
    exact accessible_of_fits i (by omega)

def Fs.drafted (fs : Fs) (file : File) : Draft where
  fs := (fs.moved 1).moved 2
  sb := fs.superblock
  md := setStatus fs.metadata file.inodeNumber 1

theorem Ready.initial (mounted : Mounted d fs) (con : Consistent d fs.superblock fs.metadata)
    (used : Used fs.metadata file.inodeNumber) (low : 0 ≤ file.offset) (inside : file.offset + size ≤ 2048)
    (enough : required (setStatus fs.metadata file.inodeNumber 1) file.inodeNumber (file.offset.toNat / 512) 0
      (size.toNat / 512) ≤ (freeBlocks fs.superblock).card) :
    Ready d file.inodeNumber (file.offset.toNat / 512) (size.toNat / 512) 0
      { fs := (fs.moved 1).moved 2, sb := fs.superblock, md := setStatus fs.metadata file.inodeNumber 1 } := by
  have flagged := sameInodes_setStatus used
  exact ⟨(mounted.moved 1).moved 2, con.of_sameInodes flagged, (flagged.used_iff _).mpr used, by omega, enough⟩

def Fs.Draft.metadata (draft : Draft) (env : Env) (i : Inode) (past : Int) : Block :=
  setModtime (setFileSize draft.md i past) i env.now

def Fs.Draft.sealed (draft : Draft) (env : Env) (i : Inode) (past : Int) : Fs :=
  (draft.fs.put 1 (draft.fs.toDevice (draft.metadata env i past))).put 0 draft.sb

theorem metadata_sealed (draft : Draft) (env : Env) (i : Inode) (past : Int) :
    (draft.sealed env i past).metadata = draft.metadata env i past := by
  rw [Draft.sealed, metadata_put_of_ne _ _ _ (by omega), metadata_put_self]

theorem sameInodes_metadata (draft : Draft) (env : Env) (i : Inode) (past : Int) :
    SameInodes draft.md (draft.metadata env i past) :=
  (sameInodes_setFileSize draft.md i past).trans (sameInodes_setModtime _ i env.now)

/-- The headers written back after the loop leave the device with the file overwritten. -/
theorem Written.overwrote {lo hi : Nat} {f : Nat → Block} {after : Draft}
    (used : Used fs.metadata file.inodeNumber)
    (written : Written d file.inodeNumber lo hi f (fs.drafted file) after) (env : Env) (past : Int) :
    Overwrote d file.inodeNumber lo hi f fs (after.sealed env file.inodeNumber past) := by
  have flagged := sameInodes_setStatus used
  have stamped := sameInodes_metadata after env file.inodeNumber past
  have final := written.con.of_sameInodes stamped
  refine ⟨(written.mounted.put 1 _).put 0 _, written.mp, ?_, ?_, ?_, ?_⟩
  all_goals rw [metadata_sealed]
  · rw [Draft.sealed, superblock_put_self]
    exact final
  · intro j
    rw [stamped.status, written.status]
    exact flagged.status j
  · exact flagged.names.trans (written.names.trans stamped.names)
  · have reread : after.fs.contents (after.metadata env file.inodeNumber past) = after.fs.contents after.md := by
      rw [Fs.contents, stamped.refers_eq, Fs.contents]
    have unread : Fs.contents (fs.drafted file).fs (fs.drafted file).md = fs.contents fs.metadata := by
      have copies : (fs.drafted file).md = setStatus fs.metadata file.inodeNumber 1 := rfl
      have device : (fs.drafted file).fs = (fs.moved 1).moved 2 := rfl
      rw [copies, device, contents_moved, contents_moved, Fs.contents, flagged.refers_eq, Fs.contents]
    rw [Draft.sealed, contents_put_header final (by omega), contents_put_header final (by omega), reread,
      written.contents, unread]

theorem ewrite_spec (mounted : Mounted d fs) (con : Consistent d fs.superblock fs.metadata)
    (used : Used fs.metadata file.inodeNumber) (low : 0 ≤ file.offset)
    (call : fs.ewrite env file data size = some (fs', file', ret)) :
    (ret = -1 ∧ file' = file ∧ Kept d fs fs') ∨
    (ret = size ∧ file.offset + size ≤ 2048 ∧ file' = eseek file (file.offset + size) ∧
      Overwrote d file.inodeNumber (file.offset.toNat / 512) (file.offset.toNat / 512 + size.toNat / 512)
        (fun j => piece data (j - file.offset.toNat / 512)) fs fs') := by
  simp only [Fs.ewrite, mounted.readSuperblock, (mounted.moved 1).readMetadata, tdiv_of_nonneg low] at call
  split at call
  · cases call
  split at call
  · simp only [Option.some.injEq, Prod.mk.injEq] at call
    obtain ⟨rfl, rfl, rfl⟩ := call
    exact Or.inl ⟨rfl, rfl, Kept.moved mounted 2⟩
  next inside =>
    split at call
    · cases call
    split at call
    · simp only [Option.some.injEq, Prod.mk.injEq] at call
      obtain ⟨rfl, rfl, rfl⟩ := call
      exact Or.inl ⟨rfl, rfl, Kept.moved mounted 2⟩
    next enough =>
      right
      simp only [metadata_moved, toNat_tdiv, gt_iff_lt, not_lt, newBlocksRequired_eq] at call enough
      have ready := Ready.initial mounted con used low (by omega) enough
      obtain ⟨after, done, written, -, -⟩ := writeBlocks_written data ready
      rw [done] at call
      simp only [written.mounted.writeMetadata, (written.mounted.put 1 _).writeSuperblock, Option.some.injEq,
        Prod.mk.injEq] at call
      obtain ⟨rfl, rfl, rfl⟩ := call
      exact ⟨rfl, by omega, rfl, written.overwrote used env _⟩

end Ewrite

section Eread

variable {d : Nat} {fs fs' : Fs} {env : Env} {file file' : File} {data data' : Nat → UInt8} {size ret : Int}

theorem readBlocks_done {md : Block} {i : Inode} {start : Int} {n k : Nat} (mounted : Mounted d fs)
    (present : ∀ j, k ≤ j → j < k + n → ∃ b : Nat, blocks md i (start + j) = b ∧ b < d) (dec : Nat → UInt8) :
    ∃ pos dec', readBlocks i start md n k fs dec = (fs.moved pos, dec', true) ∧
      (∀ c < 512 * k, dec' c = dec c) ∧
      ∀ j (a : Fin 512) (b : Nat), k ≤ j → j < k + n → blocks md i (start + j) = b →
        dec' (512 * j + a.val) = fs.dev.image b a := by
  induction n generalizing k fs dec with
  | zero => exact ⟨fs.dev.pos, dec, rfl, fun _ _ => rfl, fun j a b low high => by omega⟩
  | succ n ih =>
    obtain ⟨b, block, bound⟩ := present k le_rfl (by omega)
    have inside : b < fs.dev.extent := bound.trans_le mounted.whole
    have small : b < 4194304 := by
      have := mounted.atMost
      omega
    have read := Device.readblock_eq fs.dev (piece dec k) mounted.opened inside small
    have first : (readRound i start md k fs dec).1 = fs.moved (b + 1) := by
      rw [readRound, block, read]
      rfl
    have value : (readRound i start md k fs dec).2.2 = 1 := by
      rw [readRound, block, read]
    have filled : (readRound i start md k fs dec).2.1 = fun a =>
        if h : 512 * k ≤ a ∧ a < 512 * k + 512 then fs.dev.image b ⟨a - 512 * k, by omega⟩ else dec a := by
      rw [readRound, block, read]
    obtain ⟨pos, dec', rest, kept, others⟩ := ih (k := k + 1) (mounted.moved (b + 1))
      (fun j low high => present j (by omega) (by omega)) (readRound i start md k fs dec).2.1
    refine ⟨pos, dec', ?_, fun c below => ?_, fun j a c low high same => ?_⟩
    · rw [readBlocks, value, first]
      exact rest
    · rw [kept c (by omega), filled]
      exact dif_neg (by omega)
    · by_cases here : j = k
      · subst here
        have equal : c = b := by omega
        rw [kept _ (by omega), filled, equal]
        dsimp only
        rw [dif_pos (by omega)]
        exact congrArg _ (Fin.ext (by simp))
      · exact others j a c (by omega) (by omega) same

def Present (md : Block) (i : Inode) (start n : Nat) : Prop :=
  start + n ≤ 4 ∧ ∀ k : Fin 4, start ≤ k.val → k.val < start + n → blocks md i k.val ≠ -1

theorem present_of_full {md : Block} {i : Inode} {start n : Nat} (fits : start + n ≤ 4)
    (full : ¬∃ k < n, blocks md i ((start : Int) + k) = -1) : Present md i start n := by
  refine ⟨fits, fun k first last empty => full ⟨k.val - start, by omega, ?_⟩⟩
  rwa [← Nat.cast_add, Nat.add_sub_cancel' first]

theorem Consistent.located {sb md : Block} {i : Inode} {start n : Nat} (con : Consistent d sb md) (used : Used md i)
    (present : Present md i start n) {j : Nat} (bound : j < n) :
    ∃ b : Nat, blocks md i ((start : Int) + j) = b ∧ b < d := by
  have fits := present.1
  have held := present.2 ⟨start + j, by omega⟩ (by simp) (by simp only; omega)
  have least := con.atLeast i ⟨start + j, by omega⟩ used
  rw [← Nat.cast_add]
  obtain ⟨b, block⟩ := Int.eq_ofNat_of_zero_le (a := blocks md i (start + j : Nat)) (by simp only at held least; omega)
  have owned : refers md (i, ⟨start + j, by omega⟩) = some b := refers_of_block used block
  exact ⟨b, block, (Finset.mem_Ico.mp (con.sound.inPool _ _ owned)).2⟩

def Delivered (fs : Fs) (env : Env) (i : Inode) (start n size : Nat) (data data' : Nat → UInt8) : Prop :=
  ∃ dec : Nat → UInt8,
    (∀ (k : Fin 4) (a : Fin 512) (block : Block), start ≤ k.val → k.val < start + n →
      fs.contents fs.metadata (i, k) = some block → dec (512 * (k.val - start) + a.val) = fs.toDevice block a) ∧
    data' = if fs.mp.fsNumber = 1 then fun a => if a < 512 * n then ~~~dec a else data a
      else copyString env dec data size

theorem eread_spec (mounted : Mounted d fs) (con : Consistent d fs.superblock fs.metadata)
    (used : Used fs.metadata file.inodeNumber) (low : 0 ≤ file.offset) (positive : 0 ≤ size)
    (call : fs.eread env file data size = some (fs', file', data', ret)) :
    Kept d fs fs' ∧
    ((ret = -1 ∧ file' = file ∧ ¬Present fs.metadata file.inodeNumber (file.offset.toNat / 512) (size.toNat / 512)) ∨
     (ret = size ∧ file' = eseek file (file.offset + size) ∧
      Present fs.metadata file.inodeNumber (file.offset.toNat / 512) (size.toNat / 512) ∧
      Delivered fs env file.inodeNumber (file.offset.toNat / 512) (size.toNat / 512) size.toNat data data')) := by
  simp only [Fs.eread, mounted.readSuperblock, (mounted.moved 1).readMetadata, tdiv_of_nonneg low,
    tdiv_of_nonneg positive, metadata_moved, Int.toNat_natCast] at call
  split at call
  next beyond =>
    simp only [Option.some.injEq, Prod.mk.injEq] at call
    obtain ⟨rfl, rfl, rfl, rfl⟩ := call
    exact ⟨Kept.moved mounted 2, Or.inl ⟨rfl, rfl, fun present => by have := present.1; omega⟩⟩
  next within =>
    split at call
    · cases call
    split at call
    next missing =>
      simp only [Option.some.injEq, Prod.mk.injEq] at call
      obtain ⟨rfl, rfl, rfl, rfl⟩ := call
      obtain ⟨k, bound, absent⟩ := missing
      refine ⟨Kept.moved mounted 2, Or.inl ⟨rfl, rfl, fun present => ?_⟩⟩
      exact present.2 ⟨file.offset.toNat / 512 + k, by omega⟩ (by simp) (by simpa using bound) (by simpa using absent)
    next full =>
      have present := present_of_full (by omega) full
      obtain ⟨pos, dec, done, -, read⟩ := readBlocks_done (n := size.toNat / 512) (k := 0) ((mounted.moved 1).moved 2)
        (fun j _ bound => con.located used present (by omega)) env.heap
      rw [done] at call
      dsimp only at call
      split at call
      · cases call
      have sane := ((mounted.moved 1).moved 2).moved pos
      simp only [sane.writeMetadata, (sane.put 1 _).writeSuperblock, Option.some.injEq, Prod.mk.injEq] at call
      obtain ⟨rfl, rfl, filled, rfl⟩ := call
      refine ⟨Kept.rewritten mounted con, Or.inr ⟨rfl, rfl, present, dec, ?_, filled.symm⟩⟩
      · intro k a block first last held
        obtain ⟨b, owned, stored⟩ := Option.map_eq_some_iff.mp held
        have index := (con.refers_eq_some_iff.mp owned).2
        have place : blocks fs.metadata file.inodeNumber
            (((file.offset.toNat / 512 : Nat) : Int) + (k.val - file.offset.toNat / 512 : Nat)) = b := by
          rw [← Nat.cast_add, Nat.add_sub_cancel' first, index]
        rw [read _ a b (by omega) (by omega) place, ← stored, toDevice_fromDevice]
        rfl

end Eread

section Eopen

variable {d : Nat} {fs fs' : Fs} {env : Env} {filename : CString}

theorem lookup_eq_some {md : Block} {i : Inode} (found : lookup md filename = some i) :
    Used md i ∧ name md i = filename :=
  of_decide_eq_true (Fin.eq_true_of_find?_eq_some found)

theorem lookup_eq_none {md : Block} (absent : lookup md filename = none) (j : Inode) (used : Used md j) :
    name md j ≠ filename :=
  fun same => of_decide_eq_false (Fin.eq_false_of_find?_eq_none absent j) ⟨used, same⟩

structure Opened (d : Nat) (filename : CString) (i : Inode) (fs fs' : Fs) : Prop where
  mounted : Mounted d fs'
  mp : fs'.mp = fs.mp
  con : Consistent d fs'.superblock fs'.metadata
  used : ∀ j : Inode, Used fs'.metadata j ↔ Used fs.metadata j ∨ j = i
  named : name fs'.metadata i = filename
  names : ∀ j : Inode, Used fs.metadata j → name fs'.metadata j = name fs.metadata j
  contents : fs'.contents fs'.metadata = fs.contents fs.metadata

structure Placed (d : Nat) (filename : CString) (i : Inode) (sb md md' : Block) : Prop where
  con : Consistent d sb md'
  used : ∀ j : Inode, Used md' j ↔ Used md j ∨ j = i
  named : name md' i = filename
  names : ∀ j : Inode, Used md j → name md' j = name md j
  refers : Metadata.refers md' = Metadata.refers md

theorem findInode_placed {sb md md' : Block} {i : Inode} (con : Consistent d sb md)
    (short : filename.val.length ≤ 9) (found : findInode env md filename = some (i, md')) :
    Placed d filename i sb md md' := by
  unfold findInode at found
  split at found
  next l present =>
    cases found
    obtain ⟨used, named⟩ := lookup_eq_some present
    exact ⟨con, fun j => ⟨Or.inl, fun either => either.elim id fun same => same ▸ used⟩, named, fun _ _ => rfl, rfl⟩
  next absent =>
    obtain ⟨l, available, same⟩ := Option.map_eq_some_iff.mp found
    cases same
    have unused : status md i = 0 := of_decide_eq_true (Fin.eq_true_of_find?_eq_some available)
    refine ⟨con.newInode env short unused (lookup_eq_none absent), fun j => ?_, name_newInode_self env short, ?_,
      refers_newInode env short unused⟩
    · rw [Used, status_newInode env short, Used]
      by_cases same : j = i <;> simp [same]
    · intro j used
      have other : j ≠ i := fun same => by rw [Used, same, unused] at used; omega
      exact name_newInode_of_ne env short other (con.short j used)

theorem eopen_spec (env : Env) (mounted : Mounted d fs) (con : Consistent d fs.superblock fs.metadata)
    (short : filename.val.length ≤ 9) :
    (∃ fs', fs.eopen env filename = (fs', none) ∧ Kept d fs fs') ∨
    (∃ fs' i, fs.eopen env filename = (fs', some { offset := 0, inodeNumber := i }) ∧ Opened d filename i fs fs') := by
  have sane := mounted.moved 2
  cases found : findInode env fs.metadata filename with
  | none =>
    refine Or.inl ⟨fs.moved 2, ?_, Kept.moved mounted 2⟩
    simp only [Fs.eopen, mounted.readMetadata, found]
  | some entry =>
    obtain ⟨i, md⟩ := entry
    have placed := findInode_placed con short found
    refine Or.inr ⟨(fs.moved 2).put 1 ((fs.moved 2).toDevice md), i, ?_, ?_⟩
    · simp only [Fs.eopen, mounted.readMetadata, found, sane.writeMetadata]
      rw [if_neg (by omega)]
    · have reread : ((fs.moved 2).put 1 ((fs.moved 2).toDevice md)).metadata = md := metadata_put_self _ _
      have header : ((fs.moved 2).put 1 ((fs.moved 2).toDevice md)).superblock = fs.superblock :=
        superblock_put_of_ne _ _ _ (by omega)
      refine ⟨sane.put 1 _, rfl, ?_, ?_, ?_, ?_, ?_⟩ <;> rw [reread]
      · rw [header]
        exact placed.con
      · exact placed.used
      · exact placed.named
      · exact placed.names
      · have same : fs.contents md = fs.contents fs.metadata := by
          rw [Fs.contents, placed.refers, Fs.contents]
        exact (contents_put_header placed.con (by omega) _).trans same

end Eopen

end OsLabs.Emufs
