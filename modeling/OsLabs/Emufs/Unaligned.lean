import OsLabs.Emufs.Inodes
import OsLabs.Emufs.ReadBack

/-! Requests that do not start or end with a block. `ewrite` and `eread` move the whole blocks
that `offset / BLOCKSIZE` and `size / BLOCKSIZE` come to, from the start of a block on, and
return the size they were asked for. -/

set_option autoImplicit false

namespace OsLabs.Emufs

open OsLabs.Lib
open Superblock Metadata Fs

def Fs.stored (fs : Fs) (i : Inode) (p : Nat) : Option UInt8 :=
  if h : p < 2048 then
    (fs.contents fs.metadata (i, ⟨p / 512, by omega⟩)).map fun block => block ⟨p % 512, by omega⟩
  else none

/-- `size` bytes at `offset` lie in a file and are not a number of its blocks. -/
def Ragged (offset size : Int) : Prop :=
  0 ≤ offset ∧ 1 ≤ size ∧ offset + size ≤ 2048 ∧ ¬(512 ∣ offset ∧ 512 ∣ size)

instance (offset size : Int) : Decidable (Ragged offset size) := inferInstanceAs (Decidable (_ ∧ _ ∧ _ ∧ ¬(_ ∧ _)))

def AsksRagged (w : World) : Call → Prop
  | .ewrite _ h _ size => ∃ file, w.handle h = some file ∧ Ragged file.offset size
  | .eread _ h _ size => ∃ file, w.handle h = some file ∧ Ragged file.offset size
  | _ => False

/-- A call reports a failure and changes nothing, or has done what it was asked for: the data
lies at its positions and what else was stored in the file stays, or the stored bytes have come. -/
def Honours (w : World) : Call → Prop
  | .ewrite env h data size => ∀ file, w.handle h = some file →
      ∃ w' reply, w.exec (.ewrite env h data size) = some (w', reply) ∧
        ((reply.ret = -1 ∧ w'.fs.dev.image = w.fs.dev.image ∧ w'.handle = w.handle) ∨
         (reply.ret = size ∧
          (∀ t : Nat, t < size → w'.fs.stored file.inodeNumber (file.offset.toNat + t) = some (data t)) ∧
          ∀ (p : Nat) (b : UInt8), ¬(file.offset ≤ p ∧ p < file.offset + size) →
            w.fs.stored file.inodeNumber p = some b → w'.fs.stored file.inodeNumber p = some b))
  | .eread env h data size => ∀ file, w.handle h = some file →
      ∃ w' reply, w.exec (.eread env h data size) = some (w', reply) ∧
        ((reply.ret = -1 ∧ w'.handle = w.handle) ∨
         (reply.ret = size ∧ ∃ data', reply.data = some data' ∧
          ∀ t : Nat, t < size → w.fs.stored file.inodeNumber (file.offset.toNat + t) = some (data' t)))
  | _ => True

/-- What `ewrite` puts at the start of a block instead of `o % 512` bytes into it, and what it
leaves of the rest, happens to be what was to be there. -/
structure WriteAgrees (fs : Fs) (i : Inode) (data : Nat → UInt8) (o n : Nat) : Prop where
  shifted : ∀ t, o % 512 + t < 512 * (n / 512) → data (o % 512 + t) = data t
  rest : ∀ t < n, 512 * (n / 512) ≤ o % 512 + t → fs.stored i (o + t) = some (data t)
  before : 0 < n / 512 → ∀ a < o % 512, ∀ b, fs.stored i (512 * (o / 512) + a) = some b → b = data a

/-- What is in `dec` before it goes to the caller: the blocks read, and behind them what the
fresh memory held. -/
def Fs.arrived (fs : Fs) (env : Env) (i : Inode) (o n t : Nat) : UInt8 :=
  if t < 512 * (n / 512) then (fs.stored i (512 * (o / 512) + t)).getD 0 else env.heap t

/-- The bytes asked for are those that have come from the start of a block, and where none have
come those the caller's buffer held: behind the blocks on an encrypted file system, behind the
first NUL on the other. -/
def ReadAgrees (fs : Fs) (env : Env) (i : Inode) (data : Nat → UInt8) (o n : Nat) : Prop :=
  ∀ t < n, fs.stored i (o + t) =
    some (if (fs.mp.fsNumber = 1 ∧ t < 512 * (n / 512)) ∨
        (fs.mp.fsNumber ≠ 1 ∧ ∀ z < t, fs.arrived env i o n z ≠ 0) then fs.arrived env i o n t
      else data t)

def Agrees (w : World) : Call → Prop
  | .ewrite _ h data size => ∀ file, w.handle h = some file → w.fs.Refused file size ∨
      WriteAgrees w.fs file.inodeNumber data file.offset.toNat size.toNat
  | .eread env h data size => ∀ file, w.handle h = some file →
      ¬Present w.fs.metadata file.inodeNumber (file.offset.toNat / 512) (size.toNat / 512) ∨
      ReadAgrees w.fs env file.inodeNumber data file.offset.toNat size.toNat
  | _ => True

/-! ## Positions -/

section Positions

variable {d : Nat} {fs fs' : Fs} {i : Inode} {lo hi : Nat} {data : Nat → UInt8}

theorem stored_overwrote (wrote : Overwrote d i lo hi (fun j => piece data (j - lo)) fs fs') (fits : hi ≤ 4) (p : Nat) :
    fs'.stored i p = if 512 * lo ≤ p ∧ p < 512 * hi then some (data (p - 512 * lo)) else fs.stored i p := by
  unfold Fs.stored
  by_cases bound : p < 2048
  · rw [dif_pos bound, dif_pos bound, wrote.contents]
    by_cases inside : 512 * lo ≤ p ∧ p < 512 * hi
    · rw [overwritten, if_pos ⟨rfl, by simp only; omega, by simp only; omega⟩, if_pos inside]
      simp only [Option.map_some, piece]
      congr 2
      omega
    · rw [overwritten, if_neg fun within => inside ⟨by simp only at within; omega, by simp only at within; omega⟩,
        if_neg inside]
  · rw [dif_neg bound, dif_neg bound, if_neg fun inside => bound (by omega)]

theorem readBlocks_behind (i : Inode) (start : Int) (md : Block) (n k : Nat) (fs : Fs) (dec : Nat → UInt8) {c : Nat}
    (behind : 512 * (k + n) ≤ c) : (readBlocks i start md n k fs dec).2.1 c = dec c := by
  induction n generalizing k fs dec with
  | zero => rfl
  | succ n ih =>
    have first : (readRound i start md k fs dec).2.1 c = dec c := dif_neg (by omega)
    rw [readBlocks]
    split
    · exact first
    · rw [ih (k + 1) _ _ (by omega), first]

theorem stored_eq_some (fs : Fs) {start t : Nat} {b : Nat} (bound : 512 * start + t < 2048)
    (used : Used fs.metadata i) (block : blocks fs.metadata i ((start + t / 512 : Nat) : Int) = b) :
    fs.stored i (512 * start + t) = some (fs.fromDevice (fs.dev.image b) ⟨t % 512, by omega⟩) := by
  have index : start + t / 512 < 4 := by omega
  have owned : refers fs.metadata (i, ⟨start + t / 512, index⟩) = some b := refers_of_block used block
  have slot : (⟨(512 * start + t) / 512, by omega⟩ : Fin 4) = ⟨start + t / 512, index⟩ := Fin.ext (by simp only; omega)
  have byte : (⟨(512 * start + t) % 512, by omega⟩ : Fin 512) = ⟨t % 512, by omega⟩ := Fin.ext (by simp only; omega)
  unfold Fs.stored
  rw [dif_pos bound, slot, byte, Fs.contents, Allocation.held, owned]
  rfl

end Positions

/-! ## The calls -/

section Calls

variable {d : Nat} {fs fs' : Fs} {env : Env} {file file' : File} {data data' : Nat → UInt8} {size ret : Int}

/-- What `ewrite` has made of the positions of its file against what it was to make of them. -/
theorem writeAgrees_iff {i : Inode} {o n : Nat} {after : Nat → Option UInt8} (whole : ∀ p, after p =
      if 512 * (o / 512) ≤ p ∧ p < 512 * (o / 512 + n / 512) then some (data (p - 512 * (o / 512))) else fs.stored i p) :
    ((∀ t < n, after (o + t) = some (data t)) ∧
        ∀ p b, ¬(o ≤ p ∧ p < o + n) → fs.stored i p = some b → after p = some b) ↔ WriteAgrees fs i data o n := by
  have split := Nat.div_add_mod o 512
  constructor
  · rintro ⟨inside, outside⟩
    refine ⟨fun t moved => ?_, fun t asked left => ?_, fun some_ a early b held => ?_⟩
    · have here := inside t (by omega)
      have place : o + t - 512 * (o / 512) = o % 512 + t := by omega
      rw [whole, if_pos (by omega), place] at here
      exact Option.some.inj here
    · have here := inside t asked
      rwa [whole, if_neg (by omega)] at here
    · have here := outside (512 * (o / 512) + a) b (by omega) held
      rw [whole, if_pos (by omega), Nat.add_sub_cancel_left] at here
      exact (Option.some.inj here).symm
  · intro agrees
    refine ⟨fun t asked => ?_, fun p b apart held => ?_⟩
    · rw [whole]
      split
      next moved =>
        have place : o + t - 512 * (o / 512) = o % 512 + t := by omega
        rw [place, agrees.shifted t (by omega)]
      next left => exact agrees.rest t asked (by omega)
    · rw [whole]
      split
      next moved =>
        have place : 512 * (o / 512) + (p - 512 * (o / 512)) = p := by omega
        rw [agrees.before (by omega) (p - 512 * (o / 512)) (by omega) b (by rw [place]; exact held)]
      next => exact held

theorem copyString_inside {dec : Nat → UInt8} {n t : Nat} (bound : t < n) :
    copyString env dec data n t = if ∀ z < t, dec z ≠ 0 then dec t else data t := by
  by_cases nul : ∃ z, z < n ∧ dec z = 0
  · obtain ⟨small, zero⟩ := Nat.find_spec nul
    generalize found : Nat.find nul = z at small zero
    have first : ∀ y < z, dec y ≠ 0 := fun y before same =>
      Nat.find_min nul (found ▸ before) ⟨before.trans small, same⟩
    rw [copyString_of_nul small zero first]
    refine if_congr ⟨fun low y before => first y (by omega), fun text => ?_⟩ rfl rfl
    by_contra later
    exact text z (by omega) zero
  · have no_nul : ∀ z < n, dec z ≠ 0 := fun z small same => nul ⟨z, small, same⟩
    rw [copyString_of_no_nul no_nul, if_pos bound, if_pos fun z before => no_nul z (before.trans bound)]

theorem eread_arrived (mounted : Mounted d fs) (con : Consistent d fs.superblock fs.metadata)
    (used : Used fs.metadata file.inodeNumber) (ragged : Ragged file.offset size)
    (present : Present fs.metadata file.inodeNumber (file.offset.toNat / 512) (size.toNat / 512))
    (call : fs.eread env file data size = some (fs', file', data', ret)) :
    ret = size ∧ ∀ t < size.toNat, data' t =
      if (fs.mp.fsNumber = 1 ∧ t < 512 * (size.toNat / 512)) ∨
          (fs.mp.fsNumber ≠ 1 ∧ ∀ z < t, fs.arrived env file.inodeNumber file.offset.toNat size.toNat z ≠ 0) then
        fs.arrived env file.inodeNumber file.offset.toNat size.toNat t
      else data t := by
  obtain ⟨low, positive, inside, -⟩ := ragged
  have fits := present.1
  have missing : ¬∃ k < size.toNat / 512, blocks fs.metadata file.inodeNumber
      (((file.offset.toNat / 512 : Nat) : Int) + k) = -1 := by
    rintro ⟨k, bound, absent⟩
    exact present.2 ⟨file.offset.toNat / 512 + k, by omega⟩ (by simp) (by simpa using bound) (by simpa using absent)
  obtain ⟨pos, dec, done, -, read⟩ := readBlocks_done (n := size.toNat / 512) (k := 0) (mounted.moved 2)
    (fun j _ bound => con.located used present (by omega)) env.heap
  have behind : ∀ c, 512 * (0 + size.toNat / 512) ≤ c → dec c = env.heap c := by
    intro c far
    have kept := readBlocks_behind file.inodeNumber ((file.offset.toNat / 512 : Nat) : Int) fs.metadata
      (size.toNat / 512) 0 (fs.moved 2) env.heap far
    rwa [done] at kept
  rw [eread_eq mounted, tdiv_of_nonneg low, tdiv_of_nonneg (show 0 ≤ size by omega), Int.toNat_natCast, if_neg (by omega),
    if_neg (not_not.mpr (accessible_of_fits _ (by omega))), if_neg missing, done] at call
  simp only [Bool.true_eq_false, if_false] at call
  rw [if_neg (not_not.mpr ⟨by omega, by omega⟩)] at call
  cases call
  refine ⟨rfl, fun t bound => ?_⟩
  -- what the loop leaves in `dec`, byte by byte, before it is decrypted or copied
  have arrived : ∀ t < size.toNat, fs.arrived env file.inodeNumber file.offset.toNat size.toNat t =
      if fs.mp.fsNumber = 1 ∧ t < 512 * (size.toNat / 512) then ~~~dec t else dec t := by
    intro t bound
    unfold Fs.arrived
    by_cases within : t < 512 * (size.toNat / 512)
    · obtain ⟨b, block, -⟩ := con.located used present (j := t / 512) (by omega)
      rw [← Nat.cast_add] at block
      have byte := read (t / 512) ⟨t % 512, by omega⟩ b (by omega) (by omega) (by rw [← Nat.cast_add]; exact block)
      have position : 512 * (t / 512) + t % 512 = t := Nat.div_add_mod t 512
      rw [position] at byte
      rw [if_pos within, stored_eq_some fs (by omega) used block, Option.getD_some, byte]
      by_cases encrypted : fs.mp.fsNumber = 1
      · rw [if_pos ⟨encrypted, within⟩, Fs.fromDevice, if_pos encrypted]
        rfl
      · rw [if_neg fun both => encrypted both.1, Fs.fromDevice, if_neg encrypted]
        rfl
    · rw [if_neg within, if_neg fun both => within both.2, behind t (by omega)]
  unfold Fs.handed
  by_cases encrypted : fs.mp.fsNumber = 1
  · rw [if_pos encrypted, toNat_tdiv]
    have arrived := arrived t bound
    by_cases within : t < 512 * (size.toNat / 512)
    · rw [if_pos within, if_pos (.inl ⟨encrypted, within⟩), arrived, if_pos ⟨encrypted, within⟩]
    · rw [if_neg within, if_neg fun either => either.elim (fun both => within both.2) fun both => both.1 encrypted]
  · have plain : ∀ z < size.toNat, fs.arrived env file.inodeNumber file.offset.toNat size.toNat z = dec z := by
      intro z small
      rw [arrived z small, if_neg fun both => encrypted both.1]
    rw [if_neg encrypted, copyString_inside bound]
    refine if_congr ?_ (plain t bound).symm rfl
    rw [or_iff_right fun both => encrypted both.1, and_iff_right encrypted]
    exact forall₂_congr fun z before => by rw [plain z (before.trans bound)]

end Calls

/-! ## In every state of a run -/

namespace Coherent

variable {d : Nat} {w : World} {env : Env} {h : Nat} {data : Nat → UInt8} {size : Int} {file : File}

theorem ewrite_ragged (env : Env) (data : Nat → UInt8) (coherent : Coherent d w) (opened : w.handle h = some file)
    (ragged : Ragged file.offset size) (through : ¬w.fs.Refused file size) :
    ∃ w' reply, w.exec (.ewrite env h data size) = some (w', reply) ∧ reply.ret = size ∧
      ∀ p, w'.fs.stored file.inodeNumber p =
        if 512 * (file.offset.toNat / 512) ≤ p ∧ p < 512 * (file.offset.toNat / 512 + size.toNat / 512) then
          some (data (p - 512 * (file.offset.toNat / 512)))
        else w.fs.stored file.inodeNumber p := by
  obtain ⟨low, positive, inside, -⟩ := ragged
  have inRange : InRange w (.ewrite env h data size) := by
    intro file' opened'
    rwa [← Option.some.inj (opened.symm.trans opened')]
  obtain ⟨⟨w', reply⟩, call⟩ := Option.isSome_iff_exists.mp
    (exec_isSome (c := .ewrite env h data size) coherent inRange ⟨file, opened, by omega, by omega⟩)
  obtain ⟨file₁, fs', file', ret, opened₁, written, rfl, rfl⟩ := World.exec_ewrite call
  obtain rfl := Option.some.inj (opened.symm.trans opened₁)
  have success := (ewrite_of_not_refused coherent.mounted through written).2.2.1
  rcases ewrite_spec coherent.mounted coherent.con (coherent.used h file opened) low written with
    ⟨failed, -⟩ | ⟨done, -, -, wrote⟩
  · omega
  · exact ⟨_, _, call, success, stored_overwrote wrote (by omega)⟩

theorem honours_ewrite_iff (coherent : Coherent d w) (opened : w.handle h = some file)
    (ragged : Ragged file.offset size) : Honours w (.ewrite env h data size) ↔ Agrees w (.ewrite env h data size) := by
  have ⟨low, positive, inside, _⟩ := ragged
  have only : ∀ file', w.handle h = some file' → file' = file := fun file' opened' =>
    Option.some.inj (opened'.symm.trans opened)
  by_cases refused : w.fs.Refused file size
  · refine iff_of_true (fun file' opened' => ?_) fun file' opened' => .inl (only file' opened' ▸ refused)
    obtain rfl := only file' opened'
    have inRange : InRange w (.ewrite env h data size) := by
      intro file' opened'
      rwa [only file' opened']
    obtain ⟨⟨w', reply⟩, call⟩ := Option.isSome_iff_exists.mp
      (exec_isSome (c := .ewrite env h data size) coherent inRange ⟨file', opened, by omega, by omega⟩)
    obtain ⟨file₁, fs', file₂, ret, opened₁, written, rfl, rfl⟩ := World.exec_ewrite call
    obtain rfl := only file₁ opened₁
    obtain ⟨failed, rfl, rfl⟩ := ewrite_of_refused coherent.mounted refused written
    exact ⟨_, _, call, .inl ⟨failed, rfl, w.handle_kept _ opened⟩⟩
  · obtain ⟨w', reply, call, success, whole⟩ := coherent.ewrite_ragged env data opened ragged refused
    have done := writeAgrees_iff (o := file.offset.toNat) (n := size.toNat) whole
    constructor
    · intro honours file' opened'
      obtain rfl := only file' opened'
      obtain ⟨w₁, reply₁, call₁, ⟨failed, -⟩ | ⟨-, asked, others⟩⟩ := honours file' opened'
      · cases call.symm.trans call₁
        omega
      · cases call.symm.trans call₁
        exact .inr (done.mp ⟨fun t bound => asked t (by omega), fun p b apart => others p b (by omega)⟩)
    · intro agrees file' opened'
      obtain rfl := only file' opened'
      obtain ⟨asked, others⟩ := done.mpr ((agrees file' opened').resolve_left refused)
      exact ⟨w', reply, call, .inr ⟨success, fun t bound => asked t (by omega), fun p b apart => others p b (by omega)⟩⟩

theorem honours_eread_iff (coherent : Coherent d w) (opened : w.handle h = some file)
    (ragged : Ragged file.offset size) : Honours w (.eread env h data size) ↔ Agrees w (.eread env h data size) := by
  have ⟨low, positive, inside, _⟩ := ragged
  have used := coherent.used h file opened
  have only : ∀ file', w.handle h = some file' → file' = file := fun file' opened' =>
    Option.some.inj (opened'.symm.trans opened)
  have inRange : InRange w (.eread env h data size) := by
    refine ⟨by omega, fun file' opened' => ?_⟩
    rwa [only file' opened']
  obtain ⟨⟨w', reply⟩, call⟩ := Option.isSome_iff_exists.mp
    (exec_isSome (c := .eread env h data size) coherent inRange ⟨file, opened, by omega, by omega⟩)
  obtain ⟨file₁, fs', file₂, data', ret, opened₁, read, rfl, rfl⟩ := World.exec_eread call
  obtain rfl := only file₁ opened₁
  by_cases present : Present w.fs.metadata file₁.inodeNumber (file₁.offset.toNat / 512) (size.toNat / 512)
  · obtain ⟨success, arrived⟩ := eread_arrived coherent.mounted coherent.con used ragged present read
    constructor
    · intro honours file' opened'
      obtain rfl := only file' opened'
      obtain ⟨w₁, reply₁, call₁, ⟨failed, -⟩ | ⟨-, data'', same, asked⟩⟩ := honours file' opened'
      · cases call.symm.trans call₁
        simp only at failed
        omega
      · cases call.symm.trans call₁
        obtain rfl := Option.some.inj same
        refine .inr fun t bound => ?_
        rw [asked t (by omega), arrived t bound]
    · intro agrees file' opened'
      obtain rfl := only file' opened'
      have agrees := (agrees file' opened').resolve_left (not_not.mpr present)
      refine ⟨_, _, call, .inr ⟨success, data', rfl, fun t bound => ?_⟩⟩
      rw [agrees t (by omega), arrived t (by omega)]
  · refine iff_of_true (fun file' opened' => ?_) fun file' opened' => .inl (only file' opened' ▸ present)
    rcases (eread_spec coherent.mounted coherent.con used low (by omega) read).2 with
      ⟨failed, rfl, -⟩ | ⟨-, -, found, -⟩
    · exact ⟨_, _, call, .inl ⟨failed, w.handle_kept _ opened⟩⟩
    · exact absurd found present

end Coherent

/-- Wherever a program has taken a formatted device, a ragged request is honoured or refused
exactly when it is refused or asks for what the whole blocks come to. -/
theorem honours_iff_agrees {d : Nat} {n : Int} {fs : Fs} {env : Env} {calls : List Call} {w : World} {c : Call}
    (mounted : Mounted d fs) (size : diskSize fs.superblock = d)
    (inRange : Machine.EveryStep World.step InRange (World.formatted env fs n) calls)
    (reached : Machine.run World.step (World.formatted env fs n) calls = some w) (asked : AsksRagged w c) :
    Honours w c ↔ Agrees w c := by
  have coherent := coherent_run (sane_formatted env n mounted size).coherent inRange reached
  cases c with
  | ewrite env h data size =>
    obtain ⟨file, opened, ragged⟩ := asked
    exact coherent.honours_ewrite_iff opened ragged
  | eread env h data size =>
    obtain ⟨file, opened, ragged⟩ := asked
    exact coherent.honours_eread_iff opened ragged
  | eopen env filename => exact asked.elim
  | eseek h offset => exact asked.elim
  | eclose h => exact asked.elim

/-! ## Less than a block -/

def sevens : List Call :=
  [.eopen clockEnv firstName, .ewrite clockEnv 0 (fun _ => 7) 512, .eseek 0 0]

theorem honours_sevens : ∃ w, Machine.run World.step (World.formatted clockEnv (Fs.blank 42) 0) sevens = some w ∧
    Honours w (.ewrite clockEnv 0 (fun _ => 7) 100) := by
  have seen : (Machine.run World.step (World.formatted clockEnv (Fs.blank 42) 0) sevens).any (fun w =>
      (w.handle 0).any fun file => decide (file.offset = 0) &&
        (List.range 100).all fun t => w.fs.stored file.inodeNumber t == some 7) = true := by decide +kernel
  simp only [Option.any_eq_true, Bool.and_eq_true, decide_eq_true_eq, List.all_eq_true, List.mem_range,
    beq_iff_eq] at seen
  obtain ⟨w, reached, file, opened, start, stored⟩ := seen
  refine ⟨w, reached, (honours_iff_agrees (mounted_blank (by decide) le_rfl) (diskSize_blank le_rfl) ?_ reached ?_).mpr ?_⟩
  · have inRange : Machine.checkRun World.step (fun w c => decide (InRange w c))
        (World.formatted clockEnv (Fs.blank 42) 0) sevens = true := by decide +kernel
    exact Machine.everyStep_of_checkRun (fun _ _ checked => of_decide_eq_true checked) inRange
  · exact ⟨file, opened, by rw [start]; decide⟩
  · intro file' opened'
    obtain rfl := Option.some.inj (opened.symm.trans opened')
    rw [start]
    exact .inr ⟨fun t moved => absurd moved (by simp), fun t bound _ => by simpa using stored t bound,
      fun some_ => absurd some_ (by decide)⟩

/-- An `ewrite` of two bytes says it has written them. -/
theorem not_honours_two : ¬∀ (d : Nat) (n : Int) (fs : Fs) (env : Env) (calls : List Call) (w : World) (c : Call),
    n = 0 ∨ n = 1 → Mounted d fs → diskSize fs.superblock = d →
    Machine.EveryStep World.step InRange (World.formatted env fs n) calls →
    Machine.run World.step (World.formatted env fs n) calls = some w → AsksRagged w c → Honours w c := by
  intro claimed
  have seen : (Machine.run World.step (World.formatted clockEnv (Fs.blank 42) 0)
      [.eopen clockEnv ⟨[97], by decide⟩]).any (fun w =>
        (w.handle 0).any fun file => decide (file.offset = 0) &&
          (w.exec (.ewrite clockEnv 0 (fun _ => 8) 2)).any fun result =>
            decide (result.2.ret = 2) && (result.1.fs.stored file.inodeNumber 0).isNone) = true := by decide +kernel
  simp only [Option.any_eq_true, Bool.and_eq_true, decide_eq_true_eq, Option.isNone_iff_eq_none] at seen
  obtain ⟨w, reached, file, opened, start, result, call, success, nothing⟩ := seen
  have honours := claimed 42 0 (Fs.blank 42) clockEnv [.eopen clockEnv ⟨[97], by decide⟩] w
    (.ewrite clockEnv 0 (fun _ => 8) 2) (.inl rfl) (mounted_blank (by decide) le_rfl) (diskSize_blank le_rfl)
    ⟨by decide, fun _ _ => trivial⟩ reached ⟨file, opened, by rw [start]; decide⟩
  obtain ⟨w', reply, call', ⟨failed, -⟩ | ⟨-, asked, -⟩⟩ := honours file opened
  · cases call.symm.trans call'
    exact absurd (failed.symm.trans success) (by decide)
  · cases call.symm.trans call'
    have held := asked 0 (by decide)
    rw [start] at held
    cases nothing.symm.trans held

end OsLabs.Emufs
