import Mathlib.Data.List.GetD
import OsLabs.Emufs.Refinement

/-! What `eread` brings back, against the bytes a program has written. An encrypted file
system copies whole blocks; the other ends its copy at the first NUL. -/

set_option autoImplicit false

namespace OsLabs.Emufs

open OsLabs.Lib
open Superblock Metadata Fs

/-- What a program knows of its files: the byte it has written last at each position, and
the file and offset of each open handle. -/
structure Ledger where
  bytes : CString → Nat → Option UInt8
  handles : Nat → Option (CString × Int)

namespace Ledger

def empty : Ledger := { bytes := fun _ _ => none, handles := fun _ => none }

def move (l : Ledger) (h : Nat) (entry : Option (CString × Int)) : Ledger :=
  { l with handles := Function.update l.handles h entry }

def enter (l : Ledger) (filename : CString) (o size : Int) (data : Nat → UInt8) : Ledger :=
  { l with bytes := Function.update l.bytes filename fun p =>
      if o ≤ p ∧ p < o + size then some (data (p - o).toNat) else l.bytes filename p }

def note (l : Ledger) : Call → Reply → Ledger
  | .eopen _ filename, reply => if reply.ret = -1 then l else l.move reply.ret.toNat (some (filename, 0))
  | .eseek h offset, _ => l.move h ((l.handles h).map fun (filename, _) => (filename, offset))
  | .ewrite _ h data size, reply =>
    match l.handles h with
    | some (filename, o) =>
      if reply.ret = -1 then l else (l.enter filename o size data).move h (some (filename, o + size))
    | none => l
  | .eread _ h _ size, reply =>
    if reply.ret = -1 then l else l.move h ((l.handles h).map fun (filename, o) => (filename, o + size))
  | .eclose h, _ => l.move h none

end Ledger

abbrev Told := World × Ledger

def Told.step : Machine Told Call := fun t c => (t.1.exec c).map fun (w, reply) => (w, t.2.note c reply)

/-- Calls in range that move whole blocks at the places of whole blocks. -/
def Blockwise (t : Told) (c : Call) : Prop :=
  InRange t.1 c ∧ match c with
    | .eseek _ offset => 512 ∣ offset
    | .ewrite _ _ _ size | .eread _ _ _ size => 512 ∣ size
    | _ => True

/-- A successful `eread` fills the buffer with the bytes written last at its positions and
leaves the rest of it alone. -/
def ReadsBack (t : Told) : Call → Prop
  | .eread env h data size => ∀ w reply filename o, t.1.exec (.eread env h data size) = some (w, reply) →
      t.2.handles h = some (filename, o) → 512 ≤ size → reply.ret = size →
      ∃ data', reply.data = some data' ∧
        (∀ a : Nat, a < size → t.2.bytes filename (o + a).toNat = some (data' a)) ∧
        ∀ a : Nat, size ≤ a → data' a = data a
  | _ => True

/-- The buffer already holds what `strcpy` leaves out or adds: the stored bytes behind the
first NUL, or, with no NUL among them, the text that follows in memory. -/
def StringSafe (env : Env) (stored data : Nat → UInt8) (size : Nat) : Prop :=
  (∀ a < size, (∃ z < a, stored z = 0) → data a = stored a) ∧
  ((∀ z < size, stored z ≠ 0) →
    ∀ j ≤ (env.beyond.takeWhile (· ≠ 0)).length, data (size + j) = (env.beyond.takeWhile (· ≠ 0)).getD j 0)

def Intact (t : Told) : Call → Prop
  | .eread env h data size => t.1.fs.mp.fsNumber = 1 ∨ ∀ filename o (stored : Nat → UInt8),
      t.2.handles h = some (filename, o) → 512 ≤ size →
      (∀ a : Nat, a < size → t.2.bytes filename (o + a).toNat = some (stored a)) →
      StringSafe env stored data size.toNat
  | _ => True

/-! ## strcpy -/

section CopyString

variable {env : Env} {dec stored data : Nat → UInt8} {size : Nat}

theorem copyString_congr (same : ∀ a < size, dec a = stored a) :
    copyString env dec data size = copyString env stored data size := by
  have text : (List.range size).map dec = (List.range size).map stored :=
    List.map_congr_left fun a member => same a (List.mem_range.mp member)
  simp only [copyString, text]

theorem copyString_of_nul {z : Nat} (bound : z < size) (nul : stored z = 0) (first : ∀ y < z, stored y ≠ 0) (a : Nat) :
    copyString env stored data size a = if a ≤ z then stored a else data a := by
  have text : ((List.range size).map stored ++ env.beyond).takeWhile (· ≠ 0) = (List.range z).map stored := by
    obtain ⟨m, rfl⟩ : ∃ m, size = z + (m + 1) := ⟨size - z - 1, by omega⟩
    rw [List.range_add, List.range_succ_eq_map, List.map_append, List.append_assoc, List.takeWhile_append_of_pos]
    · simp [nul]
    · simp only [List.mem_map, List.mem_range]
      rintro _ ⟨y, before, rfl⟩
      simpa using first y before
  simp only [copyString, text, List.length_map, List.length_range]
  by_cases inside : a ≤ z
  · rw [if_pos inside, if_pos inside]
    rcases inside.lt_or_eq with before | rfl
    · simp [before]
    · simp [nul]
  · rw [if_neg inside, if_neg inside]

theorem copyString_of_no_nul (no_nul : ∀ z < size, stored z ≠ 0) (a : Nat) :
    copyString env stored data size a =
      if a < size then stored a
      else if a - size ≤ (env.beyond.takeWhile (· ≠ 0)).length then (env.beyond.takeWhile (· ≠ 0)).getD (a - size) 0
      else data a := by
  have text : ((List.range size).map stored ++ env.beyond).takeWhile (· ≠ 0) =
      (List.range size).map stored ++ env.beyond.takeWhile (· ≠ 0) := by
    apply List.takeWhile_append_of_pos
    simp only [List.mem_map, List.mem_range]
    rintro _ ⟨z, bound, rfl⟩
    simpa using no_nul z bound
  simp only [copyString, text, List.length_append, List.length_map, List.length_range]
  by_cases inside : a < size
  · rw [if_pos (by omega), if_pos inside, List.getD_append _ _ _ _ (by simpa using inside)]
    simp [inside]
  · rw [if_neg inside, List.getD_append_right _ _ _ _ (by simpa using inside)]
    simp only [List.length_map, List.length_range]
    exact if_congr (by omega) rfl rfl

/-- The buffer after `strcpy` is what a copy of the bytes would have made of it exactly
where it held that before. -/
theorem copyString_exact_iff :
    (∀ a < size, copyString env stored data size a = stored a) ∧
        (∀ a, size ≤ a → copyString env stored data size a = data a) ↔
      StringSafe env stored data size := by
  by_cases nul : ∃ z, z < size ∧ stored z = 0
  · obtain ⟨bound, zero⟩ := Nat.find_spec nul
    generalize found : Nat.find nul = z at bound zero
    have first : ∀ y < z, stored y ≠ 0 := fun y before same =>
      Nat.find_min nul (found ▸ before) ⟨before.trans bound, same⟩
    simp only [copyString_of_nul bound zero first]
    constructor
    · rintro ⟨inside, -⟩
      refine ⟨fun a small ⟨y, before, same⟩ => ?_, fun none_zero => absurd zero (none_zero z bound)⟩
      have behind : ¬a ≤ z := fun low => first y (by omega) same
      simpa [behind] using inside a small
    · rintro ⟨behind, -⟩
      refine ⟨fun a small => ?_, fun a large => if_neg (by omega)⟩
      split
      next => rfl
      next later => exact behind a small ⟨z, by omega, zero⟩
  · have no_nul : ∀ z < size, stored z ≠ 0 := fun z bound same => nul ⟨z, bound, same⟩
    simp only [copyString_of_no_nul no_nul]
    constructor
    · rintro ⟨-, outside⟩
      refine ⟨fun a small ⟨y, before, same⟩ => absurd same (no_nul y (before.trans small)), fun _ j within => ?_⟩
      have here := outside (size + j) (by omega)
      rw [if_neg (by omega), Nat.add_sub_cancel_left, if_pos within] at here
      exact here.symm
    · rintro ⟨-, tail⟩
      refine ⟨fun a small => if_pos small, fun a large => ?_⟩
      rw [if_neg (by omega)]
      split
      next within =>
        rw [← tail no_nul _ within, Nat.add_sub_cancel' large]
      next => rfl

end CopyString

/-! ## The ledger and the disk -/

structure Faithful (d : Nat) (w : World) (l : Ledger) : Prop where
  coherent : Coherent d w
  handles : ∀ h, l.handles h = (w.handle h).map fun file => (name w.fs.metadata file.inodeNumber, file.offset)
  whole : ∀ h file, w.handle h = some file → 512 ∣ file.offset
  bytes : ∀ filename (k : Fin 4) (a : Fin 512),
    l.bytes filename (512 * k.val + a.val) = ((w.fs.mapped filename).bind (· k)).map (· a)
  past : ∀ filename p, 2048 ≤ p → l.bytes filename p = none

namespace Faithful

variable {d : Nat} {w w' : World} {l : Ledger}

theorem handle_eq (faithful : Faithful d w l) {h : Nat} {file : File} (opened : w.handle h = some file) :
    l.handles h = some (name w.fs.metadata file.inodeNumber, file.offset) := by
  rw [faithful.handles, opened]
  rfl

theorem opened_of_entry (faithful : Faithful d w l) {h : Nat} {filename : CString} {o : Int}
    (entry : l.handles h = some (filename, o)) :
    ∃ file, w.handle h = some file ∧ name w.fs.metadata file.inodeNumber = filename ∧ file.offset = o := by
  rw [faithful.handles, Option.map_eq_some_iff] at entry
  obtain ⟨file, opened, same⟩ := entry
  cases same
  exact ⟨file, opened, rfl, rfl⟩

theorem of_kept (faithful : Faithful d w l) (coherent : Coherent d w') (kept : Kept d w.fs w'.fs)
    (handles : w'.handle = w.handle) : Faithful d w' l where
  coherent := coherent
  handles h := by rw [faithful.handles, handles, kept.metadata]
  whole h file opened := faithful.whole h file (by rwa [handles] at opened)
  bytes filename k a := by rw [faithful.bytes, kept.mapped_eq]
  past := faithful.past

theorem move (faithful : Faithful d w l) (coherent : Coherent d w') {g : Nat} {file : File}
    (opened : w.handle g = some file)
    (names : ∀ i : Inode, Used w.fs.metadata i → name w'.fs.metadata i = name w.fs.metadata i)
    (offset : Option Int) (whole : ∀ o, offset = some o → 512 ∣ o)
    (handles : ∀ h, w'.handle h = if h = g then offset.map (eseek file) else w.handle h)
    {bytes : CString → Nat → Option UInt8}
    (stored : ∀ filename (k : Fin 4) (a : Fin 512),
      bytes filename (512 * k.val + a.val) = ((w'.fs.mapped filename).bind (· k)).map (· a))
    (past : ∀ filename p, 2048 ≤ p → bytes filename p = none) :
    Faithful d w' (Ledger.move { l with bytes } g (offset.map fun o => (name w.fs.metadata file.inodeNumber, o))) where
  coherent := coherent
  handles h := by
    have noted := noted_move Prod.mk faithful.coherent opened names offset handles
    have before : l.handles = w.noted Prod.mk := funext faithful.handles
    rw [Ledger.move, before]
    exact (congrFun noted h).symm
  whole h file' after := by
    rw [handles] at after
    split at after
    · obtain ⟨o, moved, rfl⟩ := Option.map_eq_some_iff.mp after
      exact whole o moved
    · exact faithful.whole h file' after
  bytes := stored
  past := past

theorem enter_bytes (faithful : Faithful d w l) {g : Nat} {file : File} {size : Int} {data : Nat → UInt8}
    (opened : w.handle g = some file) (low : 0 ≤ file.offset) (blocks : 512 ∣ size)
    (wrote : Overwrote d file.inodeNumber (file.offset.toNat / 512) (file.offset.toNat / 512 + size.toNat / 512)
      (fun j => piece data (j - file.offset.toNat / 512)) w.fs w'.fs) (filename : CString) (k : Fin 4) (a : Fin 512) :
    (l.enter (name w.fs.metadata file.inodeNumber) file.offset size data).bytes filename (512 * k.val + a.val) =
      ((w'.fs.mapped filename).bind (· k)).map (· a) := by
  have start := faithful.whole g file opened
  have used := faithful.coherent.used g file opened
  rw [wrote.mapped_eq (f := piece data) faithful.coherent.con used]
  by_cases same : filename = name w.fs.metadata file.inodeNumber
  · subst same
    have before := faithful.bytes (name w.fs.metadata file.inodeNumber) k a
    rw [faithful.coherent.con.mapped_name used] at before
    simp only [Ledger.enter, Function.update_self, Option.bind_some, Store.overwrite] at before ⊢
    by_cases inside : file.offset.toNat / 512 ≤ k.val ∧ k.val < file.offset.toNat / 512 + size.toNat / 512
    · rw [if_pos (by omega), if_pos inside]
      simp only [Option.map_some, piece, Option.some.injEq]
      exact congrArg data (by omega)
    · rw [if_neg (by omega), if_neg inside]
      exact before
  · simp only [Ledger.enter, Function.update_of_ne same]
    exact faithful.bytes filename k a

theorem create_bytes (files : CString → Option (Fin 4 → Option Block)) (filename g : CString) (k : Fin 4) :
    (Store.create files filename g).bind (· k) = (files g).bind (· k) := by
  unfold Store.create
  split
  · rfl
  next absent =>
    by_cases same : g = filename
    · subst same
      rw [Function.update_self, Option.not_isSome_iff_eq_none.mp absent]
      rfl
    · rw [Function.update_of_ne same]

theorem eopen (faithful : Faithful d w l) (coherent : Coherent d w') {filename : CString} {i : Inode}
    (opened : Opened d filename i w.fs w'.fs)
    (handles : ∀ h, w'.handle h =
      if h = w.files.length then some { offset := 0, inodeNumber := i } else w.handle h) :
    Faithful d w' (l.move w.files.length (some (filename, 0))) where
  coherent := coherent
  handles h := by
    have noted := noted_open Prod.mk faithful.coherent opened handles
    have before : l.handles = w.noted Prod.mk := funext faithful.handles
    rw [Ledger.move, before]
    exact (congrFun noted h).symm
  whole h file after := by
    rw [handles] at after
    split at after
    · cases after
      exact Int.dvd_zero 512
    · exact faithful.whole h file after
  bytes g k a := by
    rw [opened.mapped_eq faithful.coherent.con, create_bytes]
    exact faithful.bytes g k a
  past := faithful.past

theorem step {c : Call} {reply : Reply} (faithful : Faithful d w l) (blockwise : Blockwise (w, l) c)
    (call : w.exec c = some (w', reply)) : Faithful d w' (l.note c reply) := by
  have outcome := exec_outcome faithful.coherent blockwise.1 call
  have coherent' := faithful.coherent.of_outcome outcome
  cases c with
  | eopen env filename =>
    rcases outcome with ⟨failed, kept, handles⟩ | ⟨i, done, opened, handles⟩
    · have noted : l.note (.eopen env filename) reply = l := if_pos failed
      rw [noted]
      exact faithful.of_kept coherent' kept handles
    · have noted : l.note (.eopen env filename) reply = l.move w.files.length (some (filename, 0)) := by
        rw [Ledger.note, done, if_neg (by omega), Int.toNat_natCast]
      rw [noted]
      exact faithful.eopen coherent' opened handles
  | eseek g offset =>
    obtain ⟨file, opened, equal, handles⟩ := outcome
    have noted : l.note (.eseek g offset) reply = l.move g (some (name w.fs.metadata file.inodeNumber, offset)) := by
      rw [Ledger.note, faithful.handle_eq opened]
      rfl
    rw [noted]
    exact faithful.move coherent' opened (fun _ _ => by rw [equal]) (some offset)
      (by rintro o ⟨⟩; exact blockwise.2) handles (by rw [equal]; exact faithful.bytes) faithful.past
  | ewrite env g data size =>
    obtain ⟨file, opened, ⟨failed, kept, handles⟩ | ⟨done, fits, wrote, handles⟩⟩ := outcome
    · have noted : l.note (.ewrite env g data size) reply = l := by
        simp only [Ledger.note, faithful.handle_eq opened, if_pos failed]
      rw [noted]
      exact faithful.of_kept coherent' kept handles
    · have blocks : 512 ∣ size := blockwise.2
      have low : 0 ≤ file.offset := blockwise.1 file opened
      have noted : l.note (.ewrite env g data size) reply =
          (l.enter (name w.fs.metadata file.inodeNumber) file.offset size data).move g
            (some (name w.fs.metadata file.inodeNumber, file.offset + size)) := by
        simp only [Ledger.note, faithful.handle_eq opened]
        rw [if_neg (by omega)]
      rw [noted]
      refine faithful.move coherent' opened (fun i used => wrote.names i (faithful.coherent.con.short i used))
        (some (file.offset + size)) ?_ handles (faithful.enter_bytes opened low blocks wrote) fun filename p large => ?_
      · rintro o ⟨⟩
        exact Int.dvd_add (faithful.whole g file opened) blocks
      · by_cases same : filename = name w.fs.metadata file.inodeNumber
        · subst same
          simp only [Function.update_self]
          rw [if_neg (by omega)]
          exact faithful.past _ p large
        · simp only [Function.update_of_ne same]
          exact faithful.past _ p large
  | eread env g data size =>
    obtain ⟨file, opened, kept, ⟨failed, handles, -⟩ | ⟨done, -, handles⟩⟩ := outcome
    · have noted : l.note (.eread env g data size) reply = l := if_pos failed
      rw [noted]
      exact faithful.of_kept coherent' kept handles
    · have positive : 0 ≤ size := blockwise.1.1
      have noted : l.note (.eread env g data size) reply =
          l.move g (some (name w.fs.metadata file.inodeNumber, file.offset + size)) := by
        rw [Ledger.note, if_neg (by omega), faithful.handle_eq opened]
        rfl
      rw [noted]
      refine faithful.move coherent' opened (fun _ _ => by rw [kept.metadata]) (some (file.offset + size)) ?_ handles
        (by rw [kept.mapped_eq]; exact faithful.bytes) faithful.past
      rintro o ⟨⟩
      exact Int.dvd_add (faithful.whole g file opened) blockwise.2
  | eclose g =>
    obtain ⟨file, opened, equal, handles⟩ := outcome
    exact faithful.move coherent' opened (fun _ _ => by rw [equal]) none nofun handles
      (by rw [equal]; exact faithful.bytes) faithful.past

end Faithful

/-! ## Reading back -/

section Read

variable {d : Nat} {w w' : World} {l : Ledger} {env : Env} {g : Nat} {data : Nat → UInt8} {size : Int} {reply : Reply}

theorem Faithful.block_bytes (faithful : Faithful d w l) {file : File} (opened : w.handle g = some file)
    (low : 0 ≤ file.offset) {n : Nat} (present : Present w.fs.metadata file.inodeNumber (file.offset.toNat / 512) n)
    {a : Nat} (inside : a < 512 * n) :
    ∃ (k : Fin 4) (block : Block), k.val = file.offset.toNat / 512 + a / 512 ∧
      w.fs.contents w.fs.metadata (file.inodeNumber, k) = some block ∧
      l.bytes (name w.fs.metadata file.inodeNumber) (file.offset + a).toNat =
        some (block ⟨a % 512, Nat.mod_lt a (by decide)⟩) := by
  have used := faithful.coherent.used g file opened
  have start := faithful.whole g file opened
  have near := present.1
  obtain ⟨k, place, some_⟩ := (readable_iff_present used (by omega)).mpr present (a / 512) (by omega)
  obtain ⟨block, held⟩ := Option.isSome_iff_exists.mp some_
  have position : (file.offset + a).toNat = 512 * k.val + (⟨a % 512, Nat.mod_lt a (by decide)⟩ : Fin 512).val := by
    simp only
    omega
  refine ⟨k, block, place, held, ?_⟩
  rw [position, faithful.bytes, faithful.coherent.con.mapped_name used, Option.bind_some, held]
  rfl

theorem Faithful.eread_data (faithful : Faithful d w l) (blockwise : Blockwise (w, l) (.eread env g data size))
    {filename : CString} {o : Int} (entry : l.handles g = some (filename, o))
    (call : w.exec (.eread env g data size) = some (w', reply)) (done : reply.ret = size) :
    ∃ stored : Nat → UInt8, (∀ a : Nat, a < size → l.bytes filename (o + a).toNat = some (stored a)) ∧
      reply.data = some (if w.fs.mp.fsNumber = 1 then fun a => if a < size.toNat then stored a else data a
        else copyString env stored data size.toNat) := by
  obtain ⟨⟨positive, inRange⟩, blocks⟩ := blockwise
  obtain ⟨file, opened, rfl, rfl⟩ := faithful.opened_of_entry entry
  obtain ⟨file', fs', file'', data', ret, opened', read, rfl, rfl⟩ := World.exec_eread call
  cases Option.some.inj (opened.symm.trans opened')
  have low : 0 ≤ file.offset := inRange file opened
  obtain ⟨-, ⟨failed, -⟩ | ⟨-, -, present, dec, filled, same⟩⟩ := eread_spec faithful.coherent.mounted
    faithful.coherent.con (faithful.coherent.used g file opened) low positive read
  · have impossible : size = -1 := done.symm.trans failed
    omega
  -- `dec` holds the blocks as they lie on the device
  have whole : 512 * (size.toNat / 512) = size.toNat := by omega
  have bytes : ∀ a : Nat, a < size.toNat → ∃ block : Block,
      l.bytes (name w.fs.metadata file.inodeNumber) (file.offset + a).toNat =
        some (block ⟨a % 512, Nat.mod_lt a (by decide)⟩) ∧
      dec a = w.fs.toDevice block ⟨a % 512, Nat.mod_lt a (by decide)⟩ := by
    intro a inside
    obtain ⟨k, block, place, held, byte⟩ := faithful.block_bytes opened low present (whole.symm ▸ inside)
    refine ⟨block, byte, ?_⟩
    rw [← filled k ⟨a % 512, Nat.mod_lt a (by decide)⟩ block (by omega) (by omega) held]
    exact congrArg dec (by simp only; omega)
  refine ⟨fun a => (l.bytes (name w.fs.metadata file.inodeNumber) (file.offset + a).toNat).getD 0, ?_, ?_⟩
  · intro a inside
    obtain ⟨block, byte, -⟩ := bytes a (by omega)
    simp only [byte, Option.getD_some]
  · rw [same, whole]
    by_cases encrypted : w.fs.mp.fsNumber = 1
    · simp only [if_pos encrypted, Option.some.injEq]
      funext a
      split
      next inside =>
        obtain ⟨block, byte, raw⟩ := bytes a inside
        simp [byte, raw, toDevice, encrypted, encrypt]
      next => rfl
    · simp only [if_neg encrypted, Option.some.injEq]
      apply copyString_congr
      intro a inside
      obtain ⟨block, byte, raw⟩ := bytes a inside
      simp [byte, raw, toDevice, encrypted]

theorem Faithful.eread_succeeds (faithful : Faithful d w l) (blockwise : Blockwise (w, l) (.eread env g data size))
    {filename : CString} {o : Int} (entry : l.handles g = some (filename, o)) (large : 512 ≤ size)
    (written : ∀ a : Nat, a < size → (l.bytes filename (o + a).toNat).isSome) :
    ∃ w' reply, w.exec (.eread env g data size) = some (w', reply) ∧ reply.ret = size := by
  obtain ⟨file, opened, rfl, rfl⟩ := faithful.opened_of_entry entry
  obtain ⟨inRange, blocks⟩ := blockwise
  have low : 0 ≤ file.offset := inRange.2 file opened
  have start := faithful.whole g file opened
  have used := faithful.coherent.used g file opened
  have fits : file.offset + size ≤ 2048 := by
    by_contra beyond
    have last := written (size.toNat - 1) (by omega)
    rw [faithful.past _ _ (by omega)] at last
    cases last
  have present : Present w.fs.metadata file.inodeNumber (file.offset.toNat / 512) (size.toNat / 512) := by
    refine (readable_iff_present used (by omega)).mp fun k bound => ?_
    have byte := written (512 * k) (by omega)
    have position : (file.offset + (512 * k : Nat)).toNat =
        512 * (⟨file.offset.toNat / 512 + k, by omega⟩ : Fin 4).val + (0 : Fin 512).val := by
      simp only [Fin.val_zero]
      omega
    rw [position, faithful.bytes, faithful.coherent.con.mapped_name used, Option.isSome_map, Option.bind_some] at byte
    exact ⟨_, rfl, byte⟩
  obtain ⟨⟨w', reply⟩, call⟩ := Option.isSome_iff_exists.mp
    (exec_isSome (c := .eread env g data size) faithful.coherent inRange ⟨file, opened, by constructor <;> omega⟩)
  refine ⟨w', reply, call, ?_⟩
  obtain ⟨file', opened', -, ⟨-, -, absent⟩ | ⟨done, -⟩⟩ := exec_outcome faithful.coherent inRange call
  · cases Option.some.inj (opened.symm.trans opened')
    exact absurd present absent
  · exact done

theorem Faithful.readsBack_iff {c : Call} (faithful : Faithful d w l) (blockwise : Blockwise (w, l) c) :
    ReadsBack (w, l) c ↔ Intact (w, l) c := by
  cases c with
  | eread env g data size =>
    have positive : 0 ≤ size := blockwise.1.1
    constructor
    · intro reads
      by_cases encrypted : w.fs.mp.fsNumber = 1
      · exact Or.inl encrypted
      · refine Or.inr fun filename o stored entry large written => ?_
        obtain ⟨w', reply, call, done⟩ := faithful.eread_succeeds blockwise entry large
          fun a inside => Option.isSome_iff_exists.mpr ⟨_, written a inside⟩
        obtain ⟨data', result, exact_, rest⟩ := reads w' reply filename o call entry large done
        obtain ⟨stored', written', result'⟩ := faithful.eread_data blockwise entry call done
        rw [if_neg encrypted] at result'
        have same : ∀ a < size.toNat, stored' a = stored a := fun a inside =>
          Option.some.inj ((written' a (by omega)).symm.trans (written a (by omega)))
        rw [copyString_congr same] at result'
        cases Option.some.inj (result.symm.trans result')
        refine copyString_exact_iff.mp ⟨fun a inside => ?_, fun a outside => rest a (by omega)⟩
        exact Option.some.inj ((exact_ a (by omega)).symm.trans (written a (by omega)))
    · intro intact w' reply filename o call entry large done
      obtain ⟨stored, written, result⟩ := faithful.eread_data blockwise entry call done
      refine ⟨_, result, ?_⟩
      by_cases encrypted : w.fs.mp.fsNumber = 1
      · simp only [if_pos encrypted]
        refine ⟨fun a inside => ?_, fun a outside => if_neg (by omega)⟩
        rw [if_pos (by omega)]
        exact written a inside
      · simp only [if_neg encrypted]
        have safe := (intact.resolve_left encrypted) filename o stored entry large written
        obtain ⟨exact_, rest⟩ := copyString_exact_iff.mpr safe
        refine ⟨fun a inside => ?_, fun a outside => rest a (by omega)⟩
        rw [exact_ a (by omega)]
        exact written a inside
  | _ => exact iff_of_true trivial trivial

end Read

theorem faithful_formatted {d : Nat} {fs : Fs} (env : Env) (n : Int) (mounted : Mounted d fs)
    (size : diskSize fs.superblock = d) : Faithful d (World.formatted env fs n) Ledger.empty where
  coherent := (sane_formatted env n mounted size).coherent
  handles h := rfl
  whole h file opened := by cases opened
  bytes filename k a := by
    rw [(represents_formatted env n mounted size).files]
    rfl
  past filename p large := rfl

/-- From a formatted device on, every `eread` brings back what is stored exactly when each
is through an encrypted file system or safe for `strcpy`. -/
theorem reads_back_iff {d : Nat} {n : Int} {fs : Fs} {env : Env} {calls : List Call} (mounted : Mounted d fs)
    (size : diskSize fs.superblock = d)
    (blockwise : Machine.EveryStep Told.step Blockwise (World.formatted env fs n, Ledger.empty) calls) :
    Machine.EveryStep Told.step ReadsBack (World.formatted env fs n, Ledger.empty) calls ↔
      Machine.EveryStep Told.step Intact (World.formatted env fs n, Ledger.empty) calls := by
  have start := faithful_formatted env n mounted size
  have next : ∀ t c t', Faithful d t.1 t.2 → Blockwise t c → Told.step t c = some t' → Faithful d t'.1 t'.2 := by
    intro t c t' faithful blockwise step
    obtain ⟨⟨w, reply⟩, call, same⟩ := Option.map_eq_some_iff.mp step
    cases same
    exact faithful.step blockwise call
  apply Machine.everyStep_iff_of_invariant (I := fun t => Faithful d t.1 t.2) _ _ start blockwise
  · exact fun t c faithful blockwise => faithful.readsBack_iff blockwise
  · exact fun t c t' faithful blockwise _ => next t c t' faithful blockwise

/-! ## Zeros written and read -/

instance (w : World) (c : Call) : Decidable (InRange w c) :=
  match c with
  | .eopen _ _ => inferInstanceAs (Decidable (_ ≤ _))
  | .eseek _ _ | .eclose _ => isTrue trivial
  | .ewrite _ h _ _ => inferInstanceAs (Decidable (∀ file ∈ w.handle h, 0 ≤ file.offset))
  | .eread _ h _ _ => inferInstanceAs (Decidable (_ ∧ ∀ file ∈ w.handle h, 0 ≤ file.offset))

instance (t : Told) (c : Call) : Decidable (Blockwise t c) :=
  match c with
  | .eopen _ _ | .eclose _ => inferInstanceAs (Decidable (_ ∧ True))
  | .eseek _ _ | .ewrite _ _ _ _ | .eread _ _ _ _ => inferInstanceAs (Decidable (_ ∧ _ ∣ _))

def plainEnv : Env := ⟨1, fun _ => 0, []⟩

def writeZeros : List Call :=
  [.eopen plainEnv fileName, .ewrite plainEnv 0 (fun _ => 0) 512, .eseek 0 0]

def readZeros : Call := .eread plainEnv 0 (fun _ => 7) 512

theorem blockwise_zeros (n : Int) (either : n = 0 ∨ n = 1) : Machine.EveryStep Told.step Blockwise
    (World.formatted plainEnv (Fs.blank 42) n, Ledger.empty) (writeZeros ++ [readZeros]) := by
  have met : Machine.checkRun Told.step (fun t c => decide (Blockwise t c))
      (World.formatted plainEnv (Fs.blank 42) n, Ledger.empty) (writeZeros ++ [readZeros]) = true := by
    rcases either with rfl | rfl <;> decide +kernel
  exact Machine.everyStep_of_checkRun (fun t c checked => of_decide_eq_true checked) met

theorem reads_back_zeros_encrypted : Machine.EveryStep Told.step ReadsBack
    (World.formatted plainEnv (Fs.blank 42) 1, Ledger.empty) (writeZeros ++ [readZeros]) := by
  have encrypted : Machine.checkRun Told.step (fun t _ => decide (t.1.fs.mp.fsNumber = 1))
      (World.formatted plainEnv (Fs.blank 42) 1, Ledger.empty) (writeZeros ++ [readZeros]) = true := by decide +kernel
  refine (reads_back_iff (mounted_blank (by decide) le_rfl) (diskSize_blank le_rfl)
    (blockwise_zeros 1 (Or.inr rfl))).mpr ?_
  refine Machine.everyStep_of_checkRun (fun t c checked => ?_) encrypted
  cases c with
  | eread env h data size => exact Or.inl (of_decide_eq_true checked)
  | _ => trivial

/-- On the other file system the copy ends at the first zero. -/
theorem not_reads_back_zeros : ¬∀ (d : Nat) (n : Int) (fs : Fs) (env : Env) (calls : List Call), n = 0 ∨ n = 1 →
    Mounted d fs → diskSize fs.superblock = d →
    Machine.EveryStep Told.step Blockwise (World.formatted env fs n, Ledger.empty) calls →
    Machine.EveryStep Told.step ReadsBack (World.formatted env fs n, Ledger.empty) calls := by
  intro claimed
  have reads := claimed 42 0 (Fs.blank 42) plainEnv (writeZeros ++ [readZeros]) (Or.inl rfl)
    (mounted_blank (by decide) le_rfl) (diskSize_blank le_rfl) (blockwise_zeros 0 (Or.inl rfl))
  have seen : (Machine.run Told.step (World.formatted plainEnv (Fs.blank 42) 0, Ledger.empty) writeZeros).any (fun t =>
      (t.1.exec readZeros).any fun r => (t.2.handles 0).any fun entry =>
        decide (r.2.ret = 512) && (r.2.data.map (· 1) == some 7) &&
          (t.2.bytes entry.1 (entry.2 + ((1 : Nat) : Int)).toNat == some 0)) = true := by decide +kernel
  simp only [Option.any_eq_true, Bool.and_eq_true, decide_eq_true_eq, beq_iff_eq] at seen
  obtain ⟨t, reached, ⟨w, reply⟩, call, ⟨filename, o⟩, entry, ⟨done, second⟩, byte⟩ := seen
  obtain ⟨data', result, stored, -⟩ := (Machine.everyStep_iff.mp reads) writeZeros readZeros [] t rfl reached
    w reply filename o call entry (by decide) done
  rw [result] at second
  have wrong := stored 1 (by decide)
  have value : data' 1 = 7 := Option.some.inj second
  rw [byte, value] at wrong
  cases wrong

end OsLabs.Emufs
