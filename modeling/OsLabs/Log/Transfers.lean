import Mathlib.Data.List.GetD
import OsLabs.Log.Coherence
import OsLabs.Log.Kernel

/-! What the functions of log.c that transfer blocks leave in the cache and on the disk. -/

set_option autoImplicit false

namespace OsLabs.Log

theorem LogHeader.read_write {lh : List Nat} (d : Data) (short : lh.length ≤ LOGSIZE) (small : ∀ b ∈ lh, b < FSSIZE) :
    LogHeader.read (LogHeader.write lh d) = some lh := by
  have short' : lh.length ≤ 30 := short
  have count : (LogHeader.write lh d (Fin.ofNat 128 0)).toInt = lh.length := by
    change (BitVec.ofNat 32 lh.length).toInt = lh.length
    rw [BitVec.toInt_ofNat']
    exact Int.bmod_eq_of_le (by omega) (by omega)
  rw [LogHeader.read, count, if_neg (by omega), Int.toNat_natCast]
  congr 1
  apply List.ext_getElem
  · simp
  · intro i _ within
    have near := small lh[i] (List.getElem_mem within)
    have place : (Fin.ofNat 128 (i + 1)).val = i + 1 := Nat.mod_eq_of_lt (by omega)
    rw [List.getElem_map, List.getElem_range, LogHeader.write, place, if_neg (Nat.succ_ne_zero i), Nat.add_sub_cancel,
      if_pos within, List.getD_eq_getElem _ _ within, BitVec.toNat_ofNat]
    exact Nat.mod_eq_of_lt (by unfold FSSIZE at near; omega)

namespace Store

variable {Pid : Type*} {s t u : Store Pid} {view : Nat → Data} {pins : Set Nat} {i j : Slot} {p : Pid} {a b : Nat}
  {x : Data}

/-- A transfer: block `b` gets `x` in the cache and on the disk, and no buffer stays in use. -/
structure Transfer (s t : Store Pid) (b : Nat) (x : Data) : Prop where
  disk : t.disk = Function.update s.disk b x
  refcnt : ∀ j, (t.buf j).refcnt = (s.buf j).refcnt

theorem Shows.copy (h : s.Shows view pins) (src : s.Holds i p a) (dst : s.Holds j p b)
    (copied : s.copy i j = some t) :
    t.Shows (Function.update view b (view a)) (pins \ {b}) ∧ t.disk = Function.update s.disk b (view a) ∧
      ∀ k, (t.buf k).refcnt = (s.buf k).refcnt - (if k = i then 1 else 0) - if k = j then 1 else 0 := by
  obtain ⟨u, written, rest⟩ := Option.bind_eq_some_iff.mp copied
  obtain ⟨v, left, last⟩ := Option.bind_eq_some_iff.mp rest
  rw [src.data h] at written
  obtain ⟨hu, effect⟩ := h.bwrite dst written
  obtain ⟨hv, first⟩ := hu.brelse left
  obtain ⟨ht, second⟩ := hv.brelse last
  refine ⟨ht, ?_, fun k => ?_⟩
  · rw [second.disk, first.disk, effect.disk]
  · rw [second.refcnt, first.refcnt, effect.refcnt]

theorem Shows.exists_copy (h : s.Shows view pins) (src : s.Holds i p a) (dst : s.Holds j p b) (apart : a ≠ b) :
    ∃ t, s.copy i j = some t := by
  obtain ⟨u, written⟩ := dst.exists_bwrite (x := (s.buf i).data) (dst.near h)
  have written' := written
  rw [src.data h] at written'
  obtain ⟨hu, effect⟩ := h.bwrite dst written'
  obtain ⟨v, left⟩ := (effect.others i p a src).exists_brelse
  obtain ⟨hv, first⟩ := hu.brelse left
  have other : j ≠ i := by
    intro same
    exact apart ((src.inj dst h.toSound).mp same.symm)
  obtain ⟨t, last⟩ := (first.others j p b other (effect.others j p b dst)).exists_brelse
  exact ⟨t, by rw [Store.copy, written, Option.bind_some, left, Option.bind_some, last]⟩

theorem Shows.clean (h : s.Shows view ∅) (k : Slot) : (s.buf k).dirty = false := by
  by_contra pin
  exact (h.dirty k (Bool.eq_true_of_not_eq_false pin)).2.2

section Reads

variable [DecidableEq Pid]

theorem Shows.transfer {c d : Nat} (h : s.Shows view pins) (first : s.bread ROOTDEV c p = some (i, t))
    (second : t.bread ROOTDEV d p = some (j, u)) :
    u.Shows view pins ∧ u.Holds i p c ∧ u.Holds j p d ∧ u.disk = s.disk ∧
      ∀ k, (u.buf k).refcnt = (s.buf k).refcnt + (if k = i then 1 else 0) + if k = j then 1 else 0 := by
  obtain ⟨ht, one⟩ := h.bread first
  obtain ⟨hu, two⟩ := ht.bread second
  refine ⟨hu, two.others i p c one.mine, two.mine, by rw [two.disk, one.disk], fun k => ?_⟩
  rw [two.refcnt, one.refcnt]

theorem Shows.exists_transfer {c d : Nat} (h : s.Shows view ∅) (idle : ∀ k, (s.buf k).refcnt = 0) (p : Pid)
    (near : c < FSSIZE) (near' : d < FSSIZE) (apart : c ≠ d) :
    ∃ i t j u, s.bread ROOTDEV c p = some (i, t) ∧ t.bread ROOTDEV d p = some (j, u) := by
  obtain ⟨i, t, first⟩ := h.exists_bread p near (fun k _ _ => (h.free (idle k)).1) ⟨⟨0, by decide⟩, idle _, h.clean _⟩
  obtain ⟨ht, one⟩ := h.bread first
  have unused : ∀ k, k ≠ i → (t.buf k).refcnt = 0 := by
    intro k other
    rw [one.refcnt, idle, if_neg other]
  have another : ∃ k : Slot, k ≠ i := by
    by_cases same : i = ⟨0, by decide⟩
    · refine ⟨⟨1, by decide⟩, ?_⟩
      rw [same]
      decide
    · exact ⟨_, Ne.symm same⟩
  obtain ⟨k, other⟩ := another
  have free : ∀ l, (t.buf l).dev = ROOTDEV → (t.buf l).blockno = d → (t.buf l).holder = none := by
    intro l _ number
    refine (ht.free (unused l ?_)).1
    rintro rfl
    exact apart (one.mine.blockno.symm.trans number)
  obtain ⟨j, u, second⟩ := ht.exists_bread p near' free ⟨k, unused k other, ht.clean k⟩
  exact ⟨i, t, j, u, first, second⟩

end Reads

end Store

namespace Kernel

variable {Pid : Type*} [DecidableEq Pid] {k k' : Kernel Pid} {view : Nat → Data} {pins : Set Nat} {p : Pid}
  {tail b : Nat}

theorem writeLogBlock_eq_some (h : k.store.Shows view pins)
    (moved : k.writeLogBlock p tail b = some k') : ∃ store, k' = { k with store } ∧
      store.Shows (Function.update view (k.start + tail + 1) (view b)) (pins \ {k.start + tail + 1}) ∧
      k.store.Transfer store (k.start + tail + 1) (view b) := by
  obtain ⟨⟨j, t⟩, first, rest⟩ := Option.bind_eq_some_iff.mp moved
  obtain ⟨⟨i, u⟩, second, rest⟩ := Option.bind_eq_some_iff.mp rest
  obtain ⟨v, copied, rfl⟩ := Option.map_eq_some_iff.mp rest
  obtain ⟨hu, dst, src, disk, used⟩ := h.transfer first second
  obtain ⟨hv, disk', used'⟩ := hu.copy src dst copied
  refine ⟨v, rfl, hv, by rw [disk', disk], fun l => ?_⟩
  rw [used', used]
  omega

theorem installBlock_eq_some (h : k.store.Shows view pins)
    (moved : k.installBlock p tail b = some k') : ∃ store, k' = { k with store } ∧
      store.Shows (Function.update view b (view (k.start + tail + 1))) (pins \ {b}) ∧
      k.store.Transfer store b (view (k.start + tail + 1)) := by
  obtain ⟨⟨i, t⟩, first, rest⟩ := Option.bind_eq_some_iff.mp moved
  obtain ⟨⟨j, u⟩, second, rest⟩ := Option.bind_eq_some_iff.mp rest
  obtain ⟨v, copied, rfl⟩ := Option.map_eq_some_iff.mp rest
  obtain ⟨hu, src, dst, disk, used⟩ := h.transfer first second
  obtain ⟨hv, disk', used'⟩ := hu.copy src dst copied
  refine ⟨v, rfl, hv, by rw [disk', disk], fun l => ?_⟩
  rw [used', used]
  omega

theorem readHead_eq_some (h : k.store.Shows view pins) (read : k.readHead p = some k') :
    ∃ store lh, k' = { k with store, lh } ∧ store.Shows view pins ∧ LogHeader.read (view k.start) = some lh ∧
      store.disk = k.store.disk ∧ ∀ j, (store.buf j).refcnt = (k.store.buf j).refcnt := by
  obtain ⟨⟨i, t⟩, first, rest⟩ := Option.bind_eq_some_iff.mp read
  obtain ⟨lh, header, rest⟩ := Option.bind_eq_some_iff.mp rest
  obtain ⟨u, released, rfl⟩ := Option.map_eq_some_iff.mp rest
  obtain ⟨ht, one⟩ := h.bread first
  obtain ⟨hu, two⟩ := ht.brelse released
  rw [one.mine.data ht] at header
  refine ⟨u, lh, rfl, hu, header, by rw [two.disk, one.disk], fun j => ?_⟩
  rw [two.refcnt, one.refcnt, Nat.add_sub_cancel]

theorem writeHead_eq_some (h : k.store.Shows view pins) (written : k.writeHead p = some k') :
    ∃ store, k' = { k with store } ∧
      store.Shows (Function.update view k.start (LogHeader.write k.lh (view k.start))) (pins \ {k.start}) ∧
      k.store.Transfer store k.start (LogHeader.write k.lh (view k.start)) := by
  obtain ⟨⟨i, t⟩, first, rest⟩ := Option.bind_eq_some_iff.mp written
  obtain ⟨u, wrote, rest⟩ := Option.bind_eq_some_iff.mp rest
  obtain ⟨v, released, rfl⟩ := Option.map_eq_some_iff.mp rest
  obtain ⟨ht, one⟩ := h.bread first
  dsimp only at wrote
  rw [one.mine.data ht] at wrote
  obtain ⟨hu, effect⟩ := ht.bwrite one.mine wrote
  obtain ⟨hv, two⟩ := hu.brelse released
  refine ⟨v, rfl, hv, by rw [two.disk, effect.disk, one.disk], fun j => ?_⟩
  rw [two.refcnt, effect.refcnt, one.refcnt, Nat.add_sub_cancel]

theorem exists_readHead {lh : List Nat} (h : k.store.Shows view ∅) (idle : ∀ j, (k.store.buf j).refcnt = 0) (p : Pid)
    (near : k.start < FSSIZE) (header : LogHeader.read (view k.start) = some lh) : ∃ k', k.readHead p = some k' := by
  obtain ⟨i, t, read⟩ := h.exists_bread p near (fun j _ _ => (h.free (idle j)).1) ⟨⟨0, by decide⟩, idle _, h.clean _⟩
  obtain ⟨ht, one⟩ := h.bread read
  obtain ⟨u, released⟩ := one.mine.exists_brelse
  refine ⟨{ k with store := u, lh }, ?_⟩
  rw [readHead, read, Option.bind_some]
  dsimp only
  rw [one.mine.data ht, header, Option.bind_some, released]
  rfl

theorem exists_writeHead (h : k.store.Shows view ∅) (idle : ∀ j, (k.store.buf j).refcnt = 0) (p : Pid)
    (near : k.start < FSSIZE) : ∃ k', k.writeHead p = some k' := by
  obtain ⟨i, t, read⟩ := h.exists_bread p near (fun j _ _ => (h.free (idle j)).1) ⟨⟨0, by decide⟩, idle _, h.clean _⟩
  obtain ⟨ht, one⟩ := h.bread read
  obtain ⟨u, written⟩ := one.mine.exists_bwrite (x := LogHeader.write k.lh (t.buf i).data) near
  have written' := written
  rw [one.mine.data ht] at written'
  obtain ⟨hu, effect⟩ := ht.bwrite one.mine written'
  obtain ⟨v, released⟩ := (effect.others i p _ one.mine).exists_brelse
  refine ⟨{ k with store := v }, ?_⟩
  rw [writeHead, read, Option.bind_some, written, Option.bind_some, released]
  rfl

theorem exists_installBlock (h : k.store.Shows view ∅) (idle : ∀ j, (k.store.buf j).refcnt = 0) (p : Pid)
    (near : k.start + tail + 1 < FSSIZE) (near' : b < FSSIZE) (apart : k.start + tail + 1 ≠ b) :
    ∃ k', k.installBlock p tail b = some k' := by
  obtain ⟨i, t, j, u, first, second⟩ := h.exists_transfer idle p near near' apart
  obtain ⟨hu, src, dst, -, -⟩ := h.transfer first second
  obtain ⟨v, copied⟩ := hu.exists_copy src dst apart
  refine ⟨{ k with store := v }, ?_⟩
  rw [installBlock, first, Option.bind_some, second, Option.bind_some, copied]
  rfl

end Kernel

end OsLabs.Log
