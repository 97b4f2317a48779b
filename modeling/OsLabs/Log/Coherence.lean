import Mathlib.Data.List.Nodup
import Mathlib.Tactic.Common
import OsLabs.Log.Cache

/-! The cache over a disk shows one block at each number, whatever is cached and whatever has
been recycled, as long as what differs from the disk stays pinned. -/

set_option autoImplicit false

namespace OsLabs.Log.Store

variable {Pid : Type*}

/-- No block has two buffers, and a buffer's count tells who uses it. -/
structure Sound (s : Store Pid) : Prop where
  listed : ∀ i, i ∈ s.order
  single : ∀ i j, (s.buf i).dev = ROOTDEV → (s.buf j).dev = ROOTDEV → (s.buf i).blockno = (s.buf j).blockno → i = j
  counted : ∀ i, (s.buf i).refcnt = (s.buf i).waiters.length + if (s.buf i).holder = none then 0 else 1
  named : ∀ i, (s.buf i).refcnt ≠ 0 → (s.buf i).dev = ROOTDEV

/-- The cache and the disk together show `view`, and differ at most at `pins`. -/
structure Shows (s : Store Pid) (view : Nat → Data) (pins : Set Nat) : Prop extends Sound s where
  held : ∀ i, (s.buf i).holder ≠ none → (s.buf i).valid = true
  near : ∀ i, (s.buf i).valid = true → (s.buf i).blockno < FSSIZE
  shown : ∀ i, (s.buf i).dev = ROOTDEV → (s.buf i).valid = true → (s.buf i).data = view (s.buf i).blockno
  pinned : ∀ b ∈ pins, ∃ i, (s.buf i).dev = ROOTDEV ∧ (s.buf i).blockno = b ∧ (s.buf i).dirty = true
  dirty : ∀ i, (s.buf i).dirty = true → (s.buf i).dev = ROOTDEV ∧ (s.buf i).valid = true ∧ (s.buf i).blockno ∈ pins
  disk : ∀ b, b ∉ pins → s.disk b = view b

structure Holds (s : Store Pid) (i : Slot) (p : Pid) (b : Nat) : Prop where
  holder : (s.buf i).holder = some p
  dev : (s.buf i).dev = ROOTDEV
  blockno : (s.buf i).blockno = b

@[simp] theorem put_buf_self (s : Store Pid) (i : Slot) (b : Buf Pid) : (s.put i b).buf i = b := Function.update_self ..

theorem put_buf_of_ne (s : Store Pid) {i j : Slot} (b : Buf Pid) (other : j ≠ i) : (s.put i b).buf j = s.buf j :=
  Function.update_of_ne other ..

@[simp] theorem put_order (s : Store Pid) (i : Slot) (b : Buf Pid) : (s.put i b).order = s.order := rfl

@[simp] theorem put_disk (s : Store Pid) (i : Slot) (b : Buf Pid) : (s.put i b).disk = s.disk := rfl

variable {s t : Store Pid} {view : Nat → Data} {pins : Set Nat} {i j : Slot} {p q : Pid} {b c : Nat}

theorem forall_put {C : Slot → Buf Pid → Prop} {x : Buf Pid} (here : C i x) (others : ∀ j, j ≠ i → C j (s.buf j))
    (j : Slot) :
    C j ((s.put i x).buf j) := by
  by_cases same : j = i
  · subst same
    rwa [put_buf_self]
  · rw [put_buf_of_ne s x same]
    exact others j same

theorem Sound.put {x : Buf Pid} (h : s.Sound)
    (alone : x.dev = ROOTDEV → ∀ j, j ≠ i → (s.buf j).dev = ROOTDEV → (s.buf j).blockno ≠ x.blockno)
    (counted : x.refcnt = x.waiters.length + if x.holder = none then 0 else 1) (named : x.refcnt ≠ 0 →
    x.dev = ROOTDEV) :
    (s.put i x).Sound where
  listed := h.listed
  single := by
    refine forall_put (C := fun j y => ∀ k, y.dev = ROOTDEV → ((s.put i x).buf k).dev = ROOTDEV →
      y.blockno = ((s.put i x).buf k).blockno → j = k) ?_ fun j other => ?_
    · refine forall_put (C := fun k z => x.dev = ROOTDEV → z.dev = ROOTDEV → x.blockno = z.blockno → i = k)
        (fun _ _ _ => rfl) fun k other mine its same => ?_
      exact absurd same.symm (alone mine k other its)
    · refine forall_put (C := fun k z => (s.buf j).dev = ROOTDEV → z.dev = ROOTDEV → (s.buf j).blockno = z.blockno →
        j = k)
        (fun its mine same => ?_) fun k _ => h.single j k
      exact absurd same (alone mine j other its)
  counted := forall_put (C := fun _ y => y.refcnt = y.waiters.length + if y.holder = none then 0 else 1) counted
    fun j _ => h.counted j
  named := forall_put (C := fun _ y => y.refcnt ≠ 0 → y.dev = ROOTDEV) named fun j _ => h.named j

theorem Shows.put {x : Buf Pid} (h : s.Shows view pins) (dev : x.dev = (s.buf i).dev) (blockno : x.blockno =
    (s.buf i).blockno)
    (valid : x.valid = (s.buf i).valid) (dirty : x.dirty = (s.buf i).dirty) (data : x.data = (s.buf i).data)
    (counted : x.refcnt = x.waiters.length + if x.holder = none then 0 else 1) (named : x.refcnt ≠ 0 → x.dev = ROOTDEV)
    (held : x.holder ≠ none → x.valid = true) : (s.put i x).Shows view pins where
  toSound := by
    refine h.toSound.put (fun mine j other its same => other ?_) counted named
    exact h.single j i its (dev ▸ mine) (same.trans blockno)
  held := forall_put (C := fun _ y => y.holder ≠ none → y.valid = true) held fun j _ => h.held j
  near := by
    refine forall_put (C := fun _ y => y.valid = true → y.blockno < FSSIZE) ?_ fun j _ => h.near j
    rw [valid, blockno]
    exact h.near i
  shown := by
    refine forall_put (C := fun _ y => y.dev = ROOTDEV → y.valid = true → y.data = view y.blockno) ?_ fun j _ =>
      h.shown j
    rw [dev, valid, data, blockno]
    exact h.shown i
  pinned c member := by
    obtain ⟨j, its, number, pin⟩ := h.pinned c member
    refine ⟨j, ?_⟩
    by_cases same : j = i
    · subst same
      rw [put_buf_self, dev, blockno, dirty]
      exact ⟨its, number, pin⟩
    · rw [put_buf_of_ne s x same]
      exact ⟨its, number, pin⟩
  dirty := by
    refine forall_put (C := fun _ y => y.dirty = true → y.dev = ROOTDEV ∧ y.valid = true ∧ y.blockno ∈ pins) ?_
      fun j _ => h.dirty j
    rw [dirty, dev, valid, blockno]
    exact h.dirty i
  disk := h.disk

theorem Shows.congr {view' : Nat → Data} {pins' : Set Nat} (h : s.Shows view pins) (same : ∀ b, view b = view' b)
    (same' : ∀ b, b ∈ pins ↔ b ∈ pins') : s.Shows view' pins' := by
  obtain rfl : view = view' := funext same
  obtain rfl : pins = pins' := Set.ext same'
  exact h

theorem shows_binit (disk : Nat → Data) : (binit disk : Store Pid).Shows disk ∅ where
  listed i := by simp [binit]
  single i j here := by simp [binit, ROOTDEV] at here
  counted i := by simp [binit]
  named i used := by simp [binit] at used
  held i used := by simp [binit] at used
  near i valid := by simp [binit] at valid
  shown i here := by simp [binit, ROOTDEV] at here
  pinned b member := absurd member (Set.notMem_empty b)
  dirty i pin := by simp [binit] at pin
  disk b _ := rfl

theorem bget_eq_some (found : s.bget ROOTDEV b p = some (i, t)) :
    ((s.buf i).dev = ROOTDEV ∧ (s.buf i).blockno = b ∧
      t = s.put i { s.buf i with refcnt := (s.buf i).refcnt + 1, waiters := p :: (s.buf i).waiters }) ∨
    ((∀ j ∈ s.order, (s.buf j).dev = ROOTDEV → (s.buf j).blockno ≠ b) ∧ (s.buf i).refcnt = 0 ∧ (s.buf i).dirty = false ∧
      t = s.put i { s.buf i with
        dev := ROOTDEV, blockno := b, valid := false, dirty := false, refcnt := 1, waiters :=
        p :: (s.buf i).waiters }) := by
  unfold bget at found
  cases hit : s.cached ROOTDEV b with
  | some j =>
    rw [hit] at found
    cases found
    have here := List.find?_some hit
    simp only [Bool.and_eq_true, beq_iff_eq] at here
    exact .inl ⟨here.1, here.2, rfl⟩
  | none =>
    rw [hit] at found
    obtain ⟨j, free, same⟩ := Option.map_eq_some_iff.mp found
    cases same
    have idle := List.find?_some free
    simp only [Bool.and_eq_true, beq_iff_eq, Bool.not_eq_true'] at idle
    refine .inr ⟨fun k member dev number => ?_, idle.1, idle.2, rfl⟩
    have missed := List.find?_eq_none.mp hit k member
    simp [dev, number] at missed

theorem Sound.free (h : s.Sound) (unused : (s.buf i).refcnt = 0) : (s.buf i).holder = none ∧
    (s.buf i).waiters = [] := by
  have count := h.counted i
  split at count
  · refine ⟨‹_›, List.eq_nil_of_length_eq_zero ?_⟩
    omega
  · omega

theorem Shows.bget (h : s.Shows view pins) (found : s.bget ROOTDEV b p = some (i, t)) : t.Shows view pins := by
  rcases bget_eq_some found with ⟨dev, number, rfl⟩ | ⟨missed, unused, clean, rfl⟩
  · refine h.put rfl rfl rfl rfl rfl ?_ (fun _ => dev) (h.held i)
    simp only [List.length_cons, h.counted i]
    omega
  · obtain ⟨free, nobody⟩ := h.free unused
    have sound : (s.put i { s.buf i with
        dev := ROOTDEV, blockno := b, valid := false, dirty := false, refcnt := 1, waiters :=
        p :: (s.buf i).waiters }).Sound := by
      refine h.toSound.put (fun _ j _ => missed j (h.listed j)) ?_ fun _ => rfl
      simp [free, nobody]
    refine { sound with held := ?_, near := ?_, shown := ?_, pinned := ?_, dirty := ?_, disk := h.disk }
    · exact forall_put (C := fun _ y => y.holder ≠ none → y.valid = true) (absurd free) fun j _ => h.held j
    · exact forall_put (C := fun _ y => y.valid = true → y.blockno < FSSIZE) (by simp) fun j _ => h.near j
    · refine forall_put (C := fun _ y => y.dev = ROOTDEV → y.valid = true → y.data = view y.blockno) ?_ fun j _ =>
        h.shown j
      simp
    · intro c member
      obtain ⟨j, its, number, pin⟩ := h.pinned c member
      have other : j ≠ i := by
        rintro rfl
        simp [clean] at pin
      refine ⟨j, ?_⟩
      rw [put_buf_of_ne s _ other]
      exact ⟨its, number, pin⟩
    · refine forall_put (C := fun _ y => y.dirty = true → y.dev = ROOTDEV ∧ y.valid = true ∧ y.blockno ∈ pins) ?_
        fun j _ => h.dirty j
      simp

theorem Holds.bget (mine : s.Holds j q c) (h : s.Sound) (found : s.bget ROOTDEV b p = some (i, t)) : t.Holds j q c := by
  rcases bget_eq_some found with ⟨dev, number, rfl⟩ | ⟨missed, unused, clean, rfl⟩
  · by_cases same : j = i
    · subst same
      exact ⟨by rw [put_buf_self]; exact mine.holder, by rw [put_buf_self]; exact dev,
        by rw [put_buf_self]; exact mine.blockno⟩
    · exact ⟨by rw [put_buf_of_ne s _ same]; exact mine.holder, by rw [put_buf_of_ne s _ same]; exact mine.dev,
        by rw [put_buf_of_ne s _ same]; exact mine.blockno⟩
  · have other : j ≠ i := by
      rintro rfl
      exact absurd (h.free unused).1 (by simp [mine.holder])
    exact ⟨by rw [put_buf_of_ne s _ other]; exact mine.holder, by rw [put_buf_of_ne s _ other]; exact mine.dev,
      by rw [put_buf_of_ne s _ other]; exact mine.blockno⟩

theorem bget_disk (found : s.bget ROOTDEV b p = some (i, t)) : t.disk = s.disk := by
  rcases bget_eq_some found with ⟨-, -, rfl⟩ | ⟨-, -, -, rfl⟩ <;> rfl

theorem bget_names (found : s.bget ROOTDEV b p = some (i, t)) : (t.buf i).dev = ROOTDEV ∧ (t.buf i).blockno = b := by
  rcases bget_eq_some found with ⟨dev, number, rfl⟩ | ⟨-, -, -, rfl⟩
  · rw [put_buf_self]
    exact ⟨dev, number⟩
  · rw [put_buf_self]
    exact ⟨rfl, rfl⟩

theorem bget_refcnt (found : s.bget ROOTDEV b p = some (i, t)) (j : Slot) :
    (t.buf j).refcnt = (s.buf j).refcnt + if j = i then 1 else 0 := by
  by_cases same : j = i
  · subst same
    rcases bget_eq_some found with ⟨-, -, rfl⟩ | ⟨-, unused, -, rfl⟩ <;> simp_all
  · rcases bget_eq_some found with ⟨-, -, rfl⟩ | ⟨-, -, -, rfl⟩ <;> simp [put_buf_of_ne s _ same, same]

theorem iderw_eq_some (moved : s.iderw i = some t) :
    (s.buf i).holder ≠ none ∧ (s.buf i).blockno < FSSIZE ∧
      (((s.buf i).dirty = true ∧ t = { s.put i { s.buf i with valid := true, dirty := false } with
          disk := Function.update s.disk (s.buf i).blockno (s.buf i).data }) ∨
        ((s.buf i).dirty = false ∧ (s.buf i).valid = false ∧
          t = s.put i { s.buf i with valid := true, data := s.disk (s.buf i).blockno })) := by
  unfold iderw at moved
  split at moved
  · cases moved
  rename_i locked
  split at moved
  · cases moved
  rename_i needed
  split at moved
  · cases moved
  rename_i near
  refine ⟨locked, Nat.lt_of_not_le near, ?_⟩
  split at moved
  · rename_i pin
    exact .inl ⟨pin, (Option.some.inj moved).symm⟩
  · rename_i clean
    have clean := Bool.eq_false_iff.mpr clean
    refine .inr ⟨clean, Bool.eq_false_iff.mpr fun valid => needed ⟨valid, by simp [clean]⟩,
      (Option.some.inj moved).symm⟩

section Acquire

variable [DecidableEq Pid]

theorem acquiresleep_eq_some (locked : s.acquiresleep i p = some t) :
    p ∈ (s.buf i).waiters ∧ (s.buf i).holder = none ∧
      t = s.put i { s.buf i with holder := some p, waiters := (s.buf i).waiters.erase p } := by
  unfold acquiresleep at locked
  split at locked
  · rename_i free
    exact ⟨free.1, free.2, (Option.some.inj locked).symm⟩
  · cases locked

theorem Shows.fill_eq_some (h : s.Shows view pins) (filled : s.fill i p = some t) :
    p ∈ (s.buf i).waiters ∧ (s.buf i).holder = none ∧
      (((s.buf i).valid = true ∧ t = s.put i { s.buf i with holder := some p, waiters := (s.buf i).waiters.erase p }) ∨
        ((s.buf i).blockno < FSSIZE ∧ (s.buf i).dirty = false ∧ t = s.put i { s.buf i with
          holder := some p, waiters := (s.buf i).waiters.erase p, valid := true, data :=
          s.disk (s.buf i).blockno })) := by
  obtain ⟨u, locked, rest⟩ := Option.bind_eq_some_iff.mp filled
  obtain ⟨waits, free, rfl⟩ := acquiresleep_eq_some locked
  refine ⟨waits, free, ?_⟩
  rw [put_buf_self] at rest
  split at rest
  · rename_i valid
    exact .inl ⟨valid, (Option.some.inj rest).symm⟩
  · rename_i invalid
    have invalid := Bool.eq_false_iff.mpr invalid
    obtain ⟨-, near, ⟨pin, -⟩ | ⟨clean, -, rfl⟩⟩ := iderw_eq_some rest
    · rw [put_buf_self] at pin
      simp [(h.dirty i pin).2.1] at invalid
    · rw [put_buf_self] at near clean
      refine .inr ⟨near, clean, ?_⟩
      simp [Store.put]

theorem Shows.fill (h : s.Shows view pins) (filled : s.fill i p = some t) : t.Shows view pins := by
  obtain ⟨waits, free, next⟩ := h.fill_eq_some filled
  have count := h.counted i
  rw [if_pos free] at count
  have some_of := List.length_pos_of_mem waits
  have dev : (s.buf i).dev = ROOTDEV := h.named i (by omega)
  have counted : (s.buf i).refcnt = ((s.buf i).waiters.erase p).length + if some p = none then 0 else 1 := by
    rw [List.length_erase_of_mem waits, if_neg (Option.some_ne_none p)]
    omega
  obtain ⟨valid, rfl⟩ | ⟨near, clean, rfl⟩ := next
  · exact h.put rfl rfl rfl rfl rfl counted (fun _ => dev) fun _ => valid
  · have unpinned : (s.buf i).blockno ∉ pins := by
      intro member
      obtain ⟨j, its, number, pin⟩ := h.pinned _ member
      obtain rfl := h.single j i its dev number
      simp [clean] at pin
    have sound := h.toSound.put (i := i) (x := { s.buf i with
      holder := some p, waiters := (s.buf i).waiters.erase p, valid := true, data := s.disk (s.buf i).blockno })
      (fun _ j other its same => other (h.single j i its dev same)) counted fun _ => dev
    refine { sound with held := ?_, near := ?_, shown := ?_, pinned := ?_, dirty := ?_, disk := h.disk }
    · exact forall_put (C := fun _ y => y.holder ≠ none → y.valid = true) (fun _ => rfl) fun j _ => h.held j
    · exact forall_put (C := fun _ y => y.valid = true → y.blockno < FSSIZE) (fun _ => near) fun j _ => h.near j
    · refine forall_put (C := fun _ y => y.dev = ROOTDEV → y.valid = true → y.data = view y.blockno) ?_ fun j _ =>
        h.shown j
      exact fun _ _ => h.disk _ unpinned
    · intro c member
      obtain ⟨j, its, number, pin⟩ := h.pinned c member
      have other : j ≠ i := by
        rintro rfl
        simp [clean] at pin
      refine ⟨j, ?_⟩
      rw [put_buf_of_ne s _ other]
      exact ⟨its, number, pin⟩
    · refine forall_put (C := fun _ y => y.dirty = true → y.dev = ROOTDEV ∧ y.valid = true ∧ y.blockno ∈ pins) ?_
        fun j _ => h.dirty j
      simp [clean]

theorem Shows.fill_buf_of_ne (h : s.Shows view pins) (filled : s.fill i p = some t)
    (other : j ≠ i) : t.buf j = s.buf j := by
  obtain ⟨-, -, ⟨-, rfl⟩ | ⟨-, -, rfl⟩⟩ := h.fill_eq_some filled <;> exact put_buf_of_ne s _ other

theorem Shows.fill_disk (h : s.Shows view pins) (filled : s.fill i p = some t) : t.disk = s.disk := by
  obtain ⟨-, -, ⟨-, rfl⟩ | ⟨-, -, rfl⟩⟩ := h.fill_eq_some filled <;> rfl

theorem Shows.fill_refcnt (h : s.Shows view pins) (filled : s.fill i p = some t) (j : Slot) :
    (t.buf j).refcnt = (s.buf j).refcnt := by
  by_cases same : j = i
  · subst same
    obtain ⟨-, -, ⟨-, rfl⟩ | ⟨-, -, rfl⟩⟩ := h.fill_eq_some filled <;> rw [put_buf_self]
  · rw [h.fill_buf_of_ne filled same]

theorem Shows.holds_fill (h : s.Shows view pins) (filled : s.fill i p = some t) (dev : (s.buf i).dev = ROOTDEV)
    (blockno : (s.buf i).blockno = b) : t.Holds i p b := by
  obtain ⟨-, -, ⟨-, rfl⟩ | ⟨-, -, rfl⟩⟩ := h.fill_eq_some filled <;>
    exact ⟨by rw [put_buf_self], by rw [put_buf_self, dev], by rw [put_buf_self, blockno]⟩

theorem Holds.fill (mine : s.Holds j q c) (h : s.Shows view pins) (filled : s.fill i p = some t) : t.Holds j q c := by
  have other : j ≠ i := by
    rintro rfl
    exact absurd (h.fill_eq_some filled).2.1 (by simp [mine.holder])
  have same := h.fill_buf_of_ne filled other
  exact ⟨by rw [same, mine.holder], by rw [same, mine.dev], by rw [same, mine.blockno]⟩

structure Read (s t : Store Pid) (i : Slot) (p : Pid) (b : Nat) : Prop where
  mine : t.Holds i p b
  others : ∀ j q c, s.Holds j q c → t.Holds j q c
  disk : t.disk = s.disk
  refcnt : ∀ j, (t.buf j).refcnt = (s.buf j).refcnt + if j = i then 1 else 0

theorem Shows.bread (h : s.Shows view pins) (read : s.bread ROOTDEV b p = some (i, t)) :
    t.Shows view pins ∧ Read s t i p b := by
  obtain ⟨⟨j, u⟩, found, rest⟩ := Option.bind_eq_some_iff.mp read
  obtain ⟨v, filled, same⟩ := Option.map_eq_some_iff.mp rest
  cases same
  have h' := h.bget found
  obtain ⟨dev, number⟩ := bget_names found
  refine ⟨h'.fill filled, h'.holds_fill filled dev number, fun k q c theirs => ?_, ?_, fun k => ?_⟩
  · exact (theirs.bget h.toSound found).fill h' filled
  · rw [h'.fill_disk filled, bget_disk found]
  · rw [h'.fill_refcnt filled, bget_refcnt found]

end Acquire

theorem Holds.data (mine : s.Holds i p b) (h : s.Shows view pins) : (s.buf i).data = view b := by
  rw [h.shown i mine.dev (h.held i (by simp [mine.holder])), mine.blockno]

theorem Holds.inj (mine : s.Holds i p b) (theirs : s.Holds j q c) (h : s.Sound) : i = j ↔ b = c := by
  constructor
  · rintro rfl
    rw [← mine.blockno, theirs.blockno]
  · intro same
    exact h.single i j mine.dev theirs.dev (by rw [mine.blockno, theirs.blockno, same])

theorem Holds.near (mine : s.Holds i p b) (h : s.Shows view pins) : b < FSSIZE := by
  rw [← mine.blockno]
  exact h.near i (h.held i (by simp [mine.holder]))

theorem Shows.change {x : Data} (h : s.Shows view pins) (mine : s.Holds i p b) :
    (s.put i { s.buf i with data := x, dirty := true }).Shows (Function.update view b x) (insert b pins) := by
  have valid := h.held i (by simp [mine.holder])
  have sound := h.toSound.put (i := i) (x := { s.buf i with data := x, dirty := true })
    (fun _ j other its same => other (h.single j i its mine.dev same)) (h.counted i) fun _ => mine.dev
  refine { sound with held := ?_, near := ?_, shown := ?_, pinned := ?_, dirty := ?_, disk := fun c apart => ?_ }
  · exact forall_put (C := fun _ y => y.holder ≠ none → y.valid = true) (fun _ => valid) fun j _ => h.held j
  · exact forall_put (C := fun _ y => y.valid = true → y.blockno < FSSIZE) (h.near i) fun j _ => h.near j
  · refine forall_put (C := fun _ y => y.dev = ROOTDEV → y.valid = true → y.data = Function.update view b x y.blockno)
      (fun _ _ => ?_) fun j other its cached => ?_
    · rw [mine.blockno, Function.update_self]
    · have apart : (s.buf j).blockno ≠ b := by
        intro same
        exact other (h.single j i its mine.dev (same.trans mine.blockno.symm))
      rw [Function.update_of_ne apart, h.shown j its cached]
  · intro c member
    by_cases same : c = b
    · refine ⟨i, ?_⟩
      rw [put_buf_self]
      exact ⟨mine.dev, mine.blockno.trans same.symm, rfl⟩
    · obtain ⟨j, its, number, pin⟩ := h.pinned c (member.resolve_left same)
      have other : j ≠ i := by
        rintro rfl
        exact same (number.symm.trans mine.blockno)
      refine ⟨j, ?_⟩
      rw [put_buf_of_ne s _ other]
      exact ⟨its, number, pin⟩
  · refine forall_put (C := fun _ y => y.dirty = true → y.dev = ROOTDEV ∧ y.valid = true ∧ y.blockno ∈ insert b pins)
      (fun _ => ⟨mine.dev, valid, .inl mine.blockno⟩) fun j _ pin => ?_
    obtain ⟨its, cached, member⟩ := h.dirty j pin
    exact ⟨its, cached, .inr member⟩
  · rw [Set.mem_insert_iff, not_or] at apart
    rw [put_disk, Function.update_of_ne apart.1, h.disk c apart.2]

theorem Shows.iderw (h : s.Shows view pins) (mine : s.Holds i p b) (moved : s.iderw i = some t) :
    t.Shows view (pins \ {b}) ∧ t.disk = Function.update s.disk b (view b) := by
  have data := mine.data h
  have valid := h.held i (by simp [mine.holder])
  obtain ⟨-, -, ⟨pin, rfl⟩ | ⟨-, invalid, -⟩⟩ := iderw_eq_some moved
  · have number := mine.blockno
    refine ⟨?_, by rw [number, data]⟩
    have sound := h.toSound.put (i := i) (x := { s.buf i with valid := true, dirty := false })
      (fun _ j other its same => other (h.single j i its mine.dev same)) (h.counted i) fun _ => mine.dev
    refine ⟨⟨sound.listed, sound.single, sound.counted, sound.named⟩, ?_, ?_, ?_, ?_, ?_, fun c apart => ?_⟩
    · exact forall_put (C := fun _ y => y.holder ≠ none → y.valid = true) (fun _ => rfl) fun j _ => h.held j
    · exact forall_put (C := fun _ y => y.valid = true → y.blockno < FSSIZE) (fun _ => h.near i valid) fun j _ =>
        h.near j
    · exact forall_put (C := fun _ y => y.dev = ROOTDEV → y.valid = true → y.data = view y.blockno)
        (fun its _ => h.shown i its valid) fun j _ => h.shown j
    · intro c member
      obtain ⟨j, its, name, pin⟩ := h.pinned c member.1
      have other : j ≠ i := by
        rintro rfl
        exact member.2 (name.symm.trans number)
      refine ⟨j, ?_⟩
      rw [show ({ s.put i { s.buf i with valid := true, dirty := false } with
        disk := Function.update s.disk (s.buf i).blockno (s.buf i).data } : Store Pid).buf j = s.buf j from
          put_buf_of_ne s _ other]
      exact ⟨its, name, pin⟩
    · refine forall_put (C := fun _ y => y.dirty = true → y.dev = ROOTDEV ∧ y.valid = true ∧ y.blockno ∈ pins \ {b})
        (by simp) fun j other pin => ?_
      obtain ⟨its, cached, member⟩ := h.dirty j pin
      exact ⟨its, cached, member, fun same => other (h.single j i its mine.dev (same.trans number.symm))⟩
    · change Function.update s.disk (s.buf i).blockno (s.buf i).data c = view c
      by_cases same : c = b
      · rw [same, number, Function.update_self, data]
      · rw [number, Function.update_of_ne same]
        exact h.disk c fun member => apart ⟨member, same⟩
  · simp [valid] at invalid

structure Written (s t : Store Pid) (b : Nat) (x : Data) : Prop where
  others : ∀ j q c, s.Holds j q c → t.Holds j q c
  disk : t.disk = Function.update s.disk b x
  refcnt : ∀ j, (t.buf j).refcnt = (s.buf j).refcnt

theorem Shows.bwrite {x : Data} (h : s.Shows view pins) (mine : s.Holds i p b)
    (written : (s.put i { s.buf i with data := x }).bwrite i = some t) :
    t.Shows (Function.update view b x) (pins \ {b}) ∧ Written s t b x := by
  rw [Store.bwrite, put_buf_self] at written
  split at written
  · cases written
  have twice : (s.put i { s.buf i with data := x }).put i { s.buf i with data := x, dirty := true } =
      s.put i { s.buf i with data := x, dirty := true } := by
    simp only [Store.put, Function.update_idem]
  have moved : (s.put i { s.buf i with data := x, dirty := true }).iderw i = some t := by
    rw [← twice]
    exact written
  have mine' : (s.put i { s.buf i with data := x, dirty := true }).Holds i p b := by
    exact ⟨by rw [put_buf_self, mine.holder], by rw [put_buf_self, mine.dev], by rw [put_buf_self, mine.blockno]⟩
  obtain ⟨shows, disk⟩ := (h.change mine).iderw mine' moved
  have changed : ∀ j, ((t.buf j).holder, (t.buf j).dev, (t.buf j).blockno, (t.buf j).refcnt) =
      ((s.buf j).holder, (s.buf j).dev, (s.buf j).blockno, (s.buf j).refcnt) := by
    intro j
    obtain ⟨-, -, ⟨-, rfl⟩ | ⟨clean, -, -⟩⟩ := iderw_eq_some moved
    · by_cases same : j = i
      · subst same
        simp [Store.put]
      · simp [Store.put, same]
    · simp at clean
  simp only [Prod.mk.injEq] at changed
  refine ⟨shows.congr (fun _ => rfl) (by simp), fun j q c theirs => ?_, ?_, fun j => (changed j).2.2.2⟩
  · exact ⟨by rw [(changed j).1, theirs.holder], by rw [(changed j).2.1, theirs.dev], by rw [(changed j).2.2.1,
      theirs.blockno]⟩
  · rw [disk, Function.update_self, put_disk]

structure Released (s t : Store Pid) (i : Slot) : Prop where
  others : ∀ j q c, j ≠ i → s.Holds j q c → t.Holds j q c
  disk : t.disk = s.disk
  refcnt : ∀ j, (t.buf j).refcnt = (s.buf j).refcnt - if j = i then 1 else 0

theorem Shows.brelse (h : s.Shows view pins) (released : s.brelse i = some t) : t.Shows view pins ∧ Released s t i := by
  unfold Store.brelse at released
  split at released
  · cases released
  rename_i locked
  cases released
  have count := h.counted i
  rw [if_neg locked] at count
  have h' := h.put (i := i) (x := { s.buf i with holder := none, refcnt := (s.buf i).refcnt - 1 }) rfl rfl rfl rfl rfl
    (by simp only [count, if_pos]; omega) (fun _ => h.named i (by omega)) (fun none => absurd rfl none)
  refine ⟨⟨⟨fun j => ?_, h'.single, h'.counted, h'.named⟩, h'.held, h'.near, h'.shown, h'.pinned, h'.dirty, h'.disk⟩,
    fun j q c other theirs => ?_, rfl, fun j => ?_⟩
  · dsimp only
    split
    · by_cases same : j = i
      · exact same ▸ List.mem_cons_self
      · exact List.mem_cons_of_mem i ((List.mem_erase_of_ne same).mpr (h.listed j))
    · exact h.listed j
  · have same := put_buf_of_ne s { s.buf i with holder := none, refcnt := (s.buf i).refcnt - 1 } other
    exact ⟨(congrArg Buf.holder same).trans theirs.holder, (congrArg Buf.dev same).trans theirs.dev,
      (congrArg Buf.blockno same).trans theirs.blockno⟩
  · by_cases same : j = i
    · subst same
      simp [Store.put]
    · simp [Store.put, same]

section Progress

variable [DecidableEq Pid]

theorem Shows.exists_bread (h : s.Shows view pins) (p : Pid) (near : b < FSSIZE)
    (free : ∀ i, (s.buf i).dev = ROOTDEV → (s.buf i).blockno = b → (s.buf i).holder = none)
    (some_unused : ∃ i, (s.buf i).refcnt = 0 ∧ (s.buf i).dirty = false) : ∃ i t, s.bread ROOTDEV b p = some (i, t) := by
  have found : ∃ i t, s.bget ROOTDEV b p = some (i, t) := by
    unfold Store.bget
    split
    · exact ⟨_, _, rfl⟩
    · obtain ⟨i, unused, clean⟩ := some_unused
      cases none : s.unused with
      | some j => exact ⟨_, _, rfl⟩
      | none =>
        have missed := List.find?_eq_none.mp none i (List.mem_reverse.mpr (h.listed i))
        simp [unused, clean] at missed
  obtain ⟨i, t, found⟩ := found
  have waits : p ∈ (t.buf i).waiters ∧ (t.buf i).holder = none := by
    rcases bget_eq_some found with ⟨dev, number, rfl⟩ | ⟨-, unused, -, rfl⟩
    · rw [put_buf_self]
      exact ⟨List.mem_cons_self, free i dev number⟩
    · rw [put_buf_self]
      exact ⟨List.mem_cons_self, (h.free unused).1⟩
  have filled : ∃ u, t.fill i p = some u := by
    rw [Store.fill, acquiresleep, if_pos waits, Option.bind_some, put_buf_self]
    split
    · exact ⟨_, rfl⟩
    · rename_i invalid
      rw [Store.iderw, put_buf_self, if_neg (by simp), if_neg (fun both => invalid both.1),
        if_neg (by rw [show (t.buf i).blockno = b from (bget_names found).2]; exact Nat.not_le_of_lt near)]
      split
      · exact ⟨_, rfl⟩
      · exact ⟨_, rfl⟩
  obtain ⟨u, filled⟩ := filled
  exact ⟨i, u, by rw [Store.bread, found, Option.bind_some, filled]; rfl⟩

end Progress

theorem Holds.exists_bwrite {x : Data} (mine : s.Holds i p b) (near : b < FSSIZE) :
    ∃ t, (s.put i { s.buf i with data := x }).bwrite i = some t := by
  have locked : (s.buf i).holder ≠ none := by simp [mine.holder]
  rw [Store.bwrite, put_buf_self, if_neg locked, Store.iderw, put_buf_self, if_neg locked, if_neg (by simp),
    if_neg (by rw [show (s.buf i).blockno = b from mine.blockno]; exact Nat.not_le_of_lt near), if_pos rfl]
  exact ⟨_, rfl⟩

theorem Holds.exists_brelse (mine : s.Holds i p b) : ∃ t, s.brelse i = some t := by
  rw [Store.brelse, if_neg (by simp [mine.holder])]
  exact ⟨_, rfl⟩

end OsLabs.Log.Store
