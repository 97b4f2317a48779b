import OsLabs.Lib.Allocation
import OsLabs.Emufs.FileSystem

/-! The invariant that superblock and metadata keep between them, and what each
change the calls make to their copies does to it. -/

set_option autoImplicit false

namespace OsLabs.Emufs

open OsLabs.Lib
open Superblock Metadata Fs

structure Consistent (d : Nat) (sb md : Block) : Prop where
  size : diskSize sb = d
  header : bitmap sb 0 = allocated ∧ bitmap sb 1 = allocated
  marked : ∀ b, 2 ≤ b → b < d → bitmap sb b = free ∨ bitmap sb b = allocated
  beyond : ∀ b, d ≤ b → b < 42 → bitmap sb b = notExisting
  flagged : ∀ i : Inode, status md i = 0 ∨ status md i = 1
  atLeast : ∀ (i : Inode) (k : Fin 4), Used md i → -1 ≤ blocks md i k.val
  sound : Allocation.Sound (Finset.Ico 2 d) (freeBlocks sb) (refers md)
  short : ∀ i : Inode, Used md i → (name md i).val.length ≤ 9
  names : ∀ i j : Inode, Used md i → Used md j → name md i = name md j → i = j

section Reference

variable {md : Block} {s : Slot}

theorem refers_of_empty (empty : blocks md s.1 s.2.val = -1) : refers md s = none := by
  simp [refers, empty]

theorem refers_of_block {b : Nat} (used : Used md s.1) (block : blocks md s.1 s.2.val = b) :
    refers md s = some b := by
  rw [refers, if_pos ⟨used, by omega⟩, block, Int.toNat_natCast]

theorem refers_congr {md' : Block} (used : Used md' s.1 ↔ Used md s.1)
    (block : blocks md' s.1 s.2.val = blocks md s.1 s.2.val) : refers md' s = refers md s := by
  unfold refers
  rw [block]
  exact if_congr (and_congr used Iff.rfl) rfl rfl

theorem refers_of_unused (unused : ¬Used md s.1) : refers md s = none := by
  simp [refers, unused]

theorem Consistent.refers_eq_some_iff {d : Nat} {sb : Block} (con : Consistent d sb md) {b : Nat} :
    refers md s = some b ↔ Used md s.1 ∧ blocks md s.1 s.2.val = b := by
  constructor
  · intro owned
    unfold refers at owned
    split at owned
    next held =>
      have low := con.atLeast s.1 s.2 held.1
      rw [Option.some.injEq] at owned
      exact ⟨held.1, by omega⟩
    next => cases owned
  · rintro ⟨used, block⟩
    exact refers_of_block used block

end Reference

theorem mem_freeBlocks {d : Nat} {sb : Block} (size : diskSize sb = d) {b : Nat} :
    b ∈ freeBlocks sb ↔ (2 ≤ b ∧ b < d) ∧ bitmap sb b = free := by
  simp [freeBlocks, size]

/-! ## Changes that no reference, status or name notices -/

def KeepsNames (md md' : Block) : Prop :=
  ∀ i : Inode, (name md i).val.length ≤ 9 → name md' i = name md i

theorem KeepsNames.trans {md md' md'' : Block} (first : KeepsNames md md') (second : KeepsNames md' md'') :
    KeepsNames md md'' := by
  intro i short
  have carried := first i short
  rw [second i (by rwa [carried]), carried]

structure SameInodes (md md' : Block) : Prop where
  status : ∀ i : Inode, Metadata.status md' i = Metadata.status md i
  blocks : ∀ (i : Inode) (k : Fin 4), Metadata.blocks md' i k.val = Metadata.blocks md i k.val
  names : KeepsNames md md'

namespace SameInodes

variable {md md' md'' : Block}

theorem used_iff (same : SameInodes md md') (i : Inode) : Used md' i ↔ Used md i := by
  rw [Used, Used, same.status]

theorem refers_eq (same : SameInodes md md') : refers md' = refers md := by
  funext s
  exact refers_congr (same.used_iff s.1) (same.blocks s.1 s.2)

theorem trans (first : SameInodes md md') (second : SameInodes md' md'') : SameInodes md md'' where
  status i := (second.status i).trans (first.status i)
  blocks i k := (second.blocks i k).trans (first.blocks i k)
  names := first.names.trans second.names

end SameInodes

theorem sameInodes_setFileSize (md : Block) (i : Inode) (v : Int) : SameInodes md (setFileSize md i v) where
  status j := status_setFileSize md i j v
  blocks j k := blocks_setFileSize md i j v k
  names j short := name_setFileSize md i j v (by omega)

theorem sameInodes_setModtime (md : Block) (i : Inode) (t : Nat) : SameInodes md (setModtime md i t) where
  status j := status_setModtime md i j t
  blocks j k := blocks_setModtime md i j t k
  names j short := name_setModtime md i j t (by omega)

theorem sameInodes_setStatus {md : Block} {i : Inode} (used : Used md i) : SameInodes md (setStatus md i 1) where
  status j := by
    rw [status_setStatus md i j (by omega) (by omega)]
    split
    next same => rw [same, used]
    next => rfl
  blocks j k := blocks_setStatus md i j 1 k
  names j short := name_setStatus md i j 1 (by omega)

theorem Consistent.of_sameInodes {d : Nat} {sb md md' : Block} (con : Consistent d sb md)
    (same : SameInodes md md') : Consistent d sb md' where
  size := con.size
  header := con.header
  marked := con.marked
  beyond := con.beyond
  flagged i := by
    rw [same.status]
    exact con.flagged i
  atLeast i k used := by
    rw [same.blocks]
    exact con.atLeast i k ((same.used_iff i).mp used)
  sound := by
    rw [same.refers_eq]
    exact con.sound
  short i used := by
    have used := (same.used_iff i).mp used
    rw [same.names i (con.short i used)]
    exact con.short i used
  names i j first second equal := by
    have first := (same.used_iff i).mp first
    have second := (same.used_iff j).mp second
    rw [same.names i (con.short i first), same.names j (con.short j second)] at equal
    exact con.names i j first second equal

/-! ## Taking a block -/

section Allocate

variable {d : Nat} {sb md : Block}

theorem firstFree_eq_some {j : Fin (diskSize sb).toNat} (found : firstFree sb = some j) : j.val ∈ freeBlocks sb := by
  have marked := Fin.eq_true_of_find?_eq_some found
  rw [decide_eq_true_eq] at marked
  simp only [freeBlocks, Finset.mem_filter, Finset.mem_Ico]
  exact ⟨⟨marked.1, j.isLt⟩, marked.2⟩

theorem firstFree_isSome (some_free : (freeBlocks sb).Nonempty) : ∃ j, firstFree sb = some j := by
  obtain ⟨b, member⟩ := some_free
  simp only [freeBlocks, Finset.mem_filter, Finset.mem_Ico] at member
  apply Option.isSome_iff_exists.mp
  exact Fin.isSome_find?_iff.mpr ⟨⟨b, member.1.2⟩, by simp [member.1.1, member.2]⟩

theorem freeBlocks_setBitmap {j : Nat} (bound : diskSize sb ≤ 42) :
    freeBlocks (setBitmap sb j allocated) = (freeBlocks sb).erase j := by
  ext b
  simp only [freeBlocks, diskSize_setBitmap, Finset.mem_filter, Finset.mem_Ico, Finset.mem_erase]
  rw [and_left_comm]
  apply and_congr_right
  intro inside
  rw [bitmap_setBitmap sb allocated (by omega)]
  by_cases same : b = j
  · simp [same, allocated, free]
  · simp [same]

theorem refers_setBlock {i : Inode} {k : Fin 4} {j : Nat} (used : Used md i) (small : j < 42) :
    refers (setBlock md i k.val j) = Function.update (refers md) (i, k) (some j) := by
  funext s
  by_cases same : s = (i, k)
  · rw [same, Function.update_self]
    apply refers_of_block
    · simpa [Used] using used
    · rw [blocks_setBlock md i i k k (by omega) (by omega), if_pos ⟨rfl, rfl⟩]
  · have different : ¬(s.1 = i ∧ s.2 = k) := fun equal => same (Prod.ext equal.1 equal.2)
    rw [Function.update_of_ne same]
    have block := blocks_setBlock md i s.1 k s.2 (v := j) (by omega) (by omega)
    rw [if_neg different] at block
    exact refers_congr (by simp [Used]) block

theorem Consistent.setBlock (con : Consistent d sb md) (small : d ≤ 42) {i : Inode} {k : Fin 4} {j : Nat}
    (used : Used md i) (empty : Metadata.blocks md i k.val = -1) (available : j ∈ freeBlocks sb) :
    Consistent d (setBitmap sb j allocated) (Metadata.setBlock md i k.val j) := by
  have place := (mem_freeBlocks con.size).mp available
  have size := con.size
  have unchanged : ∀ l : Inode, Used (Metadata.setBlock md i k.val j) l ↔ Used md l := fun l => by
    simp [Used]
  have mark : ∀ b < 42, b ≠ j → bitmap (setBitmap sb j allocated) b = bitmap sb b := fun b bound different => by
    rw [bitmap_setBitmap sb allocated bound, if_neg different]
  refine
    { size := by rw [diskSize_setBitmap, size]
      header := by rw [mark 0 (by omega) (by omega), mark 1 (by omega) (by omega)]; exact con.header
      marked := ?_
      beyond := fun b low high => by rw [mark b high (by omega)]; exact con.beyond b low high
      flagged := fun l => by rw [status_setBlock]; exact con.flagged l
      atLeast := ?_
      sound := ?_
      short := ?_
      names := ?_ }
  · intro b low high
    rw [bitmap_setBitmap sb allocated (by omega)]
    split
    · exact Or.inr rfl
    · exact con.marked b low high
  · intro l m held
    rw [blocks_setBlock md i l k m (by omega) (by omega)]
    split
    · omega
    · exact con.atLeast l m ((unchanged l).mp held)
  · rw [freeBlocks_setBitmap (by omega), refers_setBlock used (by omega)]
    exact con.sound.allocate (refers_of_empty empty) available
  · intro l held
    have fits := con.short l ((unchanged l).mp held)
    rw [name_setBlock md i l k j (by omega)]
    exact fits
  · intro l m first second equal
    have first := (unchanged l).mp first
    have second := (unchanged m).mp second
    have left := con.short l first
    have right := con.short m second
    rw [name_setBlock md i l k j (by omega), name_setBlock md i m k j (by omega)] at equal
    exact con.names l m first second equal

end Allocate

/-! ## A new inode -/

section NewInode

variable {d : Nat} {sb md : Block} (env : Env) {i : Inode} {filename : CString}

theorem newInode_eq : newInode env md i filename =
    setName (setModtime (Metadata.setBlock (Metadata.setBlock (Metadata.setBlock (Metadata.setBlock
      (setFileSize (setStatus md i 1) i 0) i (0 : Fin 4).val (-1)) i (1 : Fin 4).val (-1)) i (2 : Fin 4).val (-1))
      i (3 : Fin 4).val (-1)) i env.now) i filename := rfl

theorem status_newInode (short : filename.val.length ≤ 9) (j : Inode) :
    status (newInode env md i filename) j = if j = i then 1 else status md j := by
  simp only [newInode_eq, status_setName _ _ _ short, status_setModtime, status_setBlock, status_setFileSize]
  exact status_setStatus md i j (by omega) (by omega)

theorem blocks_newInode (short : filename.val.length ≤ 9) (j : Inode) (k : Fin 4) :
    blocks (newInode env md i filename) j k.val = if j = i then -1 else blocks md j k.val := by
  simp only [newInode_eq, blocks_setName _ _ _ short, blocks_setModtime]
  rw [blocks_setBlock _ _ _ _ _ (by omega) (by omega), blocks_setBlock _ _ _ _ _ (by omega) (by omega),
    blocks_setBlock _ _ _ _ _ (by omega) (by omega), blocks_setBlock _ _ _ _ _ (by omega) (by omega),
    blocks_setFileSize, blocks_setStatus]
  -- four writes of -1, each to a field of its own: the last one to field k decides
  by_cases same : j = i
  · have index : k = 0 ∨ k = 1 ∨ k = 2 ∨ k = 3 := by omega
    rcases index with rfl | rfl | rfl | rfl <;> simp [same]
  · simp [same]

theorem refers_newInode (short : filename.val.length ≤ 9) (unused : status md i = 0) :
    refers (newInode env md i filename) = refers md := by
  funext s
  by_cases same : s.1 = i
  · rw [refers_of_empty (by rw [blocks_newInode env short, if_pos same])]
    exact (refers_of_unused (by rw [Used, same, unused]; omega)).symm
  · apply refers_congr
    · rw [Used, status_newInode env short, if_neg same, Used]
    · rw [blocks_newInode env short, if_neg same]

theorem name_newInode_self (short : filename.val.length ≤ 9) : name (newInode env md i filename) i = filename := by
  rw [newInode_eq, name_setName_self _ _ short]

theorem name_newInode_of_ne (short : filename.val.length ≤ 9) {j : Inode} (different : j ≠ i)
    (fits : (name md j).val.length ≤ 9) : name (newInode env md i filename) j = name md j := by
  have freed : ∀ (md : Block) (k : Fin 4), KeepsNames md (Metadata.setBlock md i k.val (-1)) :=
    fun md k j fits => name_setBlock md i j k (-1) (by omega)
  have flagged : KeepsNames md (setStatus md i 1) := fun j fits => name_setStatus md i j 1 (by omega)
  have before := (flagged.trans (sameInodes_setFileSize _ i 0).names).trans (((freed _ 0).trans (freed _ 1)).trans
    (((freed _ 2).trans (freed _ 3)).trans (sameInodes_setModtime _ i env.now).names))
  -- setName is the last write, so the ones before it are carried first
  rw [newInode_eq, name_setName_of_ne _ _ _ short different (by rw [before j fits]; omega), before j fits]

theorem Consistent.newInode (con : Consistent d sb md) (short : filename.val.length ≤ 9)
    (unused : status md i = 0) (absent : ∀ j : Inode, Used md j → name md j ≠ filename) :
    Consistent d sb (Fs.newInode env md i filename) where
  size := con.size
  header := con.header
  marked := con.marked
  beyond := con.beyond
  flagged j := by
    rw [status_newInode env short]
    split
    · exact Or.inr rfl
    · exact con.flagged j
  atLeast j k used := by
    rw [blocks_newInode env short]
    split
    · omega
    next different =>
      rw [Used, status_newInode env short, if_neg different] at used
      exact con.atLeast j k used
  sound := by
    rw [refers_newInode env short unused]
    exact con.sound
  short j used := by
    by_cases same : j = i
    · rw [same, name_newInode_self env short]
      exact short
    · rw [Used, status_newInode env short, if_neg same] at used
      rw [name_newInode_of_ne env short same (con.short j used)]
      exact con.short j used
  names j l first second equal := by
    rw [Used, status_newInode env short] at first second
    -- the new name is nobody else's, and the old ones were apart
    by_cases left : j = i <;> by_cases right : l = i
    · rw [left, right]
    · rw [if_neg right] at second
      rw [left, name_newInode_self env short, name_newInode_of_ne env short right (con.short l second)] at equal
      exact absurd equal.symm (absent l second)
    · rw [if_neg left] at first
      rw [right, name_newInode_self env short, name_newInode_of_ne env short left (con.short j first)] at equal
      exact absurd equal (absent j first)
    · rw [if_neg left] at first
      rw [if_neg right] at second
      rw [name_newInode_of_ne env short left (con.short j first),
        name_newInode_of_ne env short right (con.short l second)] at equal
      exact con.names j l first second equal

end NewInode

end OsLabs.Emufs
