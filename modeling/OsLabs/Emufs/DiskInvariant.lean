import Mathlib.Data.Fintype.Prod
import OsLabs.Emufs.Runs

/-! What superblock and metadata of a formatted device say about each other after
every call. -/

set_option autoImplicit false

namespace OsLabs.Emufs

open OsLabs.Lib
open Superblock Metadata

/-- The disk invariant, over the bytes of blocks 0 and 1. -/
structure OnDisk (d : Nat) (sb md : Block) : Prop where
  size : diskSize sb = d
  entries : ∀ (i : Inode) (k : Fin 4), Used md i → blocks md i k.val = -1 ∨
    ∃ b : Nat, blocks md i k.val = b ∧ 2 ≤ b ∧ b < d ∧ bitmap sb b = allocated
  unshared : ∀ s t : Slot, Used md s.1 → Used md t.1 → blocks md s.1 s.2.val = blocks md t.1 t.2.val →
    blocks md s.1 s.2.val ≠ -1 → s = t
  marks : ∀ b : Nat, 2 ≤ b → b < d →
    bitmap sb b = if ∃ s : Slot, Used md s.1 ∧ blocks md s.1 s.2.val = b then allocated else free
  header : bitmap sb 0 = allocated ∧ bitmap sb 1 = allocated
  past : ∀ b : Nat, d ≤ b → b < 42 → bitmap sb b = notExisting
  names : ∀ i j : Inode, Used md i → Used md j → name md i = name md j → i = j

namespace Consistent

variable {d : Nat} {sb md : Block}

theorem entry_cases (con : Consistent d sb md) (s : Slot) (used : Used md s.1) :
    blocks md s.1 s.2.val = -1 ∨ ∃ b : Nat, blocks md s.1 s.2.val = b ∧ refers md s = some b := by
  have low := con.atLeast s.1 s.2 used
  by_cases empty : blocks md s.1 s.2.val = -1
  · exact Or.inl empty
  · obtain ⟨b, block⟩ := Int.eq_ofNat_of_zero_le (a := blocks md s.1 s.2.val) (by omega)
    exact Or.inr ⟨b, block, refers_of_block used block⟩

theorem not_free_iff (con : Consistent d sb md) {b : Nat} (low : 2 ≤ b) (high : b < d) :
    b ∉ freeBlocks sb ↔ bitmap sb b = allocated := by
  rw [mem_freeBlocks con.size]
  constructor
  · intro taken
    rcases con.marked b low high with open_ | marked
    · exact absurd ⟨⟨low, high⟩, open_⟩ taken
    · exact marked
  · rintro marked ⟨-, open_⟩
    rw [marked] at open_
    cases open_

theorem onDisk (con : Consistent d sb md) : OnDisk d sb md where
  size := con.size
  header := con.header
  past := con.beyond
  names := con.names
  entries i k used := by
    rcases con.entry_cases (i, k) used with empty | ⟨b, block, owned⟩
    · exact Or.inl empty
    · have inside := Finset.mem_Ico.mp (con.sound.inPool _ _ owned)
      have taken := con.sound.not_free owned
      exact Or.inr ⟨b, block, inside.1, inside.2, (con.not_free_iff inside.1 inside.2).mp taken⟩
  unshared s t first second same held := by
    rcases con.entry_cases s first with empty | ⟨b, block, owned⟩
    · exact absurd empty held
    · exact con.sound.exclusive s t b owned (refers_of_block second (same ▸ block))
  marks b low high := by
    split
    next owned =>
      obtain ⟨s, used, block⟩ := owned
      exact (con.not_free_iff low high).mp (con.sound.not_free (refers_of_block used block))
    next unowned =>
      by_contra taken
      have kept : b ∉ freeBlocks sb := fun available => taken ((mem_freeBlocks con.size).mp available).2
      obtain ⟨s, owned⟩ := con.sound.owned_of_not_free (Finset.mem_Ico.mpr ⟨low, high⟩) kept
      exact unowned ⟨s, con.refers_eq_some_iff.mp owned⟩

end Consistent

/-- The disk invariant holds after every call of a program on a formatted device. -/
theorem onDisk_of_run {d : Nat} {n : Int} {fs : Fs} {env : Env} {calls : List Call} {w : World}
    (mounted : Mounted d fs) (size : diskSize fs.superblock = d)
    (documented : Machine.EveryStep World.step Documented (World.formatted env fs n) calls)
    (reached : Machine.run World.step (World.formatted env fs n) calls = some w) :
    OnDisk d w.fs.superblock w.fs.metadata :=
  (sane_run (sane_formatted env n mounted size) documented reached).con.onDisk

theorem onDisk_twoWritten :
    ∃ w, Machine.run World.step (World.formatted ⟨0, fun _ => 7, []⟩ (Fs.blank 42) 1) twoWritten = some w ∧
      blocks w.fs.metadata 0 1 = 3 ∧ blocks w.fs.metadata 1 0 = 4 ∧ OnDisk 42 w.fs.superblock w.fs.metadata := by
  have facts : (Machine.run World.step (World.formatted ⟨0, fun _ => 7, []⟩ (Fs.blank 42) 1) twoWritten).any
      (fun w => decide (blocks w.fs.metadata 0 1 = 3 ∧ blocks w.fs.metadata 1 0 = 4)) = true := by decide +kernel
  obtain ⟨w, reached, given⟩ := (Option.any_eq_true _ _).mp facts
  obtain ⟨first, second⟩ := of_decide_eq_true given
  have checked : Machine.checkRun World.step (fun w c => decide (Documented w c))
      (World.formatted ⟨0, fun _ => 7, []⟩ (Fs.blank 42) 1) twoWritten = true := by decide +kernel
  have documented := Machine.everyStep_of_checkRun (fun _ _ checked => of_decide_eq_true checked) checked
  exact ⟨w, reached, first, second, onDisk_of_run (mounted_blank (by decide) le_rfl) (diskSize_blank le_rfl) documented reached⟩

end OsLabs.Emufs
