import OsLabs.Log.Recovery

/-! Runs of the log from a fresh disk, with crashes anywhere. -/

set_option autoImplicit false

namespace OsLabs.Log.Kernel

open OsLabs.Lib

variable {Pid : Type*} [DecidableEq Pid] {k k' : Kernel Pid} {h : History Pid} {p : Pid} {e : Event Pid}

abbrev Watched (Pid : Type*) := Kernel Pid × History Pid

/-- No operation has writes in two parts of the history, and one that runs has none that are settled. -/
structure Numbered (k : Kernel Pid) (h : History Pid) : Prop where
  old : ∀ w ∈ h.durable ++ h.pending ++ h.lost, w.op < h.next
  current : ∀ p, k.procs p = .running → h.op p < h.next
  unsettled : ∀ p, k.procs p = .running → ∀ w ∈ h.durable ++ h.lost, w.op ≠ h.op p
  kept : ∀ w ∈ h.durable, ∀ v ∈ h.pending ++ h.lost, w.op ≠ v.op
  open_or_lost : ∀ w ∈ h.pending, ∀ v ∈ h.lost, w.op ≠ v.op

omit [DecidableEq Pid] in
theorem Numbered.mono (n : Numbered k h) (fewer : ∀ p, k'.procs p = .running → k.procs p = .running) : Numbered k' h :=
  ⟨n.old, fun p inside => n.current p (fewer p inside), fun p inside => n.unsettled p (fewer p inside), n.kept,
  n.open_or_lost⟩

omit [DecidableEq Pid] in
theorem Numbered.settle {durable lost : List Record} (n : Numbered k h) (nobody : ∀ p, k'.procs p ≠ .running)
    (parts : (durable = h.durable ++ h.pending ∧ lost = h.lost) ∨ (durable = h.durable ∧ lost = h.lost ++ h.pending)) :
    Numbered k' { h with durable, pending := [], lost } := by
  have old := n.old
  have kept := n.kept
  have apart := n.open_or_lost
  simp only [List.mem_append] at old kept
  refine ⟨fun w member => ?_, fun p inside => absurd inside (nobody p), fun p inside => absurd inside (nobody p),
    fun w member v other => ?_, by simp⟩
  · simp only [List.append_nil, List.mem_append] at member
    obtain ⟨rfl, rfl⟩ | ⟨rfl, rfl⟩ := parts <;> simp only [List.mem_append] at member <;> exact old w (by tauto)
  · simp only [List.nil_append] at other
    obtain ⟨rfl, rfl⟩ | ⟨rfl, rfl⟩ := parts
    · rcases List.mem_append.mp member with settled | fresh
      · exact kept w settled v (.inr other)
      · exact apart w fresh v other
    · exact kept w member v (List.mem_append.mp other).symm

theorem Numbered.beginOp (n : Numbered k h) : Numbered (k.beginOp p) (note k (.beginOp p) h) := by
  have old := n.old
  unfold Kernel.beginOp note
  split
  · refine n.mono fun q inside => ?_
    by_cases same : q = p
    · simp [setProc, same] at inside
    · simpa [setProc, same] using inside
  · refine ⟨fun w member => Nat.lt_succ_of_lt (old w member), fun q inside => ?_, fun q inside w member => ?_,
      n.kept, n.open_or_lost⟩
    · by_cases same : q = p
      · simp [same]
      · simp only [setProc, Function.update_of_ne same] at inside ⊢
        exact Nat.lt_succ_of_lt (n.current q inside)
    · by_cases same : q = p
      · subst same
        have earlier := old w (by
          simp only [List.mem_append] at member ⊢
          tauto)
        simp only [Function.update_self]
        omega
      · simp only [setProc, Function.update_of_ne same] at inside ⊢
        exact n.unsettled q inside w member

omit [DecidableEq Pid] in
theorem Numbered.logWrite {blockno : Nat} {data : Data} (n : Numbered k h) (inside : k.procs p = .running)
    (procs : k'.procs = k.procs) : Numbered k' { h with pending := h.pending ++ [⟨h.op p, blockno, data⟩] } := by
  have unsettled := n.unsettled p inside
  have old := n.old
  have kept := n.kept
  simp only [List.mem_append] at unsettled old kept
  refine ⟨fun w member => ?_, fun q running => n.current q (procs ▸ running), fun q running => n.unsettled q
    (procs ▸ running),
    fun w member v other => ?_, fun w member v other => ?_⟩
  · simp only [List.mem_append, List.mem_singleton] at member
    rcases member with (settled | pending | rfl) | lost
    · exact old w (by tauto)
    · exact old w (by tauto)
    · exact n.current p inside
    · exact old w (by tauto)
  · simp only [List.mem_append, List.mem_singleton] at other
    rcases other with (pending | rfl) | lost
    · exact kept w member v (.inl pending)
    · exact unsettled w (.inl member)
    · exact kept w member v (.inr lost)
  · rcases List.mem_append.mp member with pending | here
    · exact n.open_or_lost w pending v other
    · rw [List.mem_singleton] at here
      subst here
      exact (unsettled v (.inr other)).symm

theorem note_go (k : Kernel Pid) (p : Pid) (h : History Pid) : note k (.go p) h = h ∨
    note k (.go p) h = { h with durable := h.durable ++ h.pending, pending := [] } := by
  cases stage : k.stage with
  | writeLog tail =>
    by_cases past : k.lh.length ≤ tail
    · exact .inr (by simp only [note, stage, if_pos past])
    · exact .inl (by simp only [note, stage, if_neg past])
  | _ => exact .inl (by simp only [note, stage])

theorem Numbered.taken (n : Numbered k h) (c : k.Control) (taken : k.Taken e k') : Numbered k' (note k e h) := by
  cases taken with
  | beginOp up place => exact n.beginOp
  | bget up found => exact n.mono fun _ => id
  | fill up filled => exact n.mono fun _ => id
  | logWrite up inside mine home logged =>
    obtain ⟨-, -, rfl⟩ := logWrite_eq_some logged
    exact n.logWrite inside rfl
  | brelse up released => exact n.mono fun _ => id
  | @endOp p k' up inside ended =>
    refine n.mono fun q running => ?_
    unfold Kernel.endOp at ended
    split at ended
    · cases ended
    have apart : ∀ x : Proc, x ≠ .running → (k.setProc p x).procs q = .running → k.procs q = .running := by
      intro x stopped running
      by_cases same : q = p
      · exact absurd running (by simp [setProc, same, stopped])
      · simpa [setProc, same] using running
    split at ended
    · cases ended
      exact apart .committing (by simp) running
    · cases ended
      exact apart .outside (by simp) ((wakeup_running _ q).mp running)
  | @go p k' mine advance =>
    have nobody := advance_running advance c
    rcases note_go k p h with same | committed
    · rw [same]
      exact n.mono fun q inside => absurd inside (nobody q)
    · rw [committed]
      exact n.settle nobody (.inl ⟨rfl, rfl⟩)
  | crash => exact n.settle (by simp [powerOn]) (.inr ⟨rfl, rfl⟩)

section Runs

variable {start size : Nat} {disk : Nat → Data} {es : List (Event Pid)}

omit [DecidableEq Pid] in
theorem consistent_powerOn (fresh : LogHeader.read (disk start) = some []) (some_of : 0 < size)
    (near : start + size ≤ FSSIZE) :
    Consistent disk (powerOn start size disk : Kernel Pid) .start :=
  ⟨control_powerOn _ _ _, near, some_of, wellFormed_nil _ _, ⟨[], wellFormed_nil _ _, ⟨fresh, by simp⟩,
  fun _ _ _ => rfl⟩,
    fun up => absurd up (by simp [powerOn]), fun _ => ⟨Store.shows_binit _, fun _ => rfl⟩, rfl⟩

theorem consistent_of_run (fresh : LogHeader.read (disk start) = some []) (some_of : 0 < size)
    (near : start + size ≤ FSSIZE)
    (reached : Machine.run (Machine.watch note step) (powerOn start size disk, .start) es = some (k, h)) :
    Consistent disk k h ∧ Numbered k h := by
  refine Machine.invariant (I := fun x : Watched Pid => Consistent disk x.1 x.2 ∧ Numbered x.1 x.2)
    (fun x e y both taken => ?_)
    ⟨consistent_powerOn fresh some_of near, by constructor <;> simp [powerOn, History.start]⟩ reached
  obtain ⟨moved, noted⟩ := Machine.watch_eq_some.mp taken
  have moved := taken_of_step moved
  rw [noted]
  exact ⟨both.1.taken moved, both.2.taken both.1.control moved⟩

theorem Consistent.exists_go {base : Nat → Data} (c : Consistent base k h) (down : k.up = false) (p : Pid) : ∃ k',
    k.go p = some k' := by
  obtain ⟨shows, idle⟩ := c.down down
  obtain ⟨notIdle, notLog, -, -⟩ := c.control.down down
  have near : k.start < FSSIZE := Nat.lt_of_lt_of_le (Nat.lt_add_of_pos_right c.some_of) c.near
  have onDisk := c.onDisk
  cases stage : k.stage with
  | boot =>
    simp only [OnDisk, stage] at onDisk
    obtain ⟨lh, -, committed, -⟩ := onDisk
    obtain ⟨k', read⟩ := exists_readHead shows idle p near committed.header
    exact ⟨_, by simp only [go, stage, read, Option.map_some]; rfl⟩
  | idle => exact absurd stage notIdle
  | writeLog tail => exact absurd stage (notLog tail)
  | installTrans tail =>
    cases block : k.lh[tail]? with
    | some b =>
      have inside := c.wellFormed.inside block
      obtain ⟨home, far⟩ := c.wellFormed.home b (List.mem_of_getElem? block)
      obtain ⟨k', moved⟩ := exists_installBlock shows idle p (Nat.lt_of_lt_of_le inside.2 c.near) far
        (c.wellFormed.apart block b home).symm
      exact ⟨_, by simp only [go, stage, block, moved, Option.map_some]; rfl⟩
    | none =>
      obtain ⟨k', written⟩ := exists_writeHead (k := { k with lh := [] }) shows idle p near
      simp only [stage] at written
      exact ⟨_, by simp only [go, stage, block, written, Option.map_some]; rfl⟩
  | finish => exact ⟨_, by simp only [go, stage]; rfl⟩

/-- The turns a recovery has left, and the step out of each stage. -/
def left (k : Kernel Pid) : Nat :=
  match k.stage with
  | .boot => LOGSIZE + 3
  | .installTrans tail => k.lh.length - tail + 2
  | .finish => 1
  | _ => 0

theorem left_lt {k' : Kernel Pid} (short : k'.lh.length ≤ LOGSIZE) (down : k.stage ≠ .idle ∧ ∀ t, k.stage ≠ .writeLog t)
    (advance : k.Advance p k') : k'.left < k.left := by
  cases advance with
  | header boot read =>
    simp only [left, boot] at short ⊢
    omega
  | logged stage block moved => exact absurd stage (down.2 _)
  | commit stage past written => exact absurd stage (down.2 _)
  | @installed k' tail b stage block moved =>
    have within := (List.getElem?_eq_some_iff.mp block).1
    have same := (same_of_installBlock moved).2
    simp only [left, stage, same]
    omega
  | erase stage past written =>
    simp only [left, stage]
    omega
  | finish stage => simp [left, stage]

/-- A recovery runs to its end, and changes nothing that is durable. -/
theorem Consistent.exists_recovery {base : Nat → Data} {k : Kernel Pid} (c : Consistent base k h)
    (down : k.up = false) (p : Pid) :
    ∃ n k', Machine.run step k (List.replicate n (.go p)) = some k' ∧ k'.up = true ∧ k'.stage = .idle ∧
    Consistent base k' h := by
  obtain ⟨k', went⟩ := c.exists_go down p
  have advance := advance_of_go went
  have first : step k (.go p) = some k' := by
    rw [step, if_pos (fun up => absurd (down.symm.trans up) (by simp)), went]
  obtain ⟨notIdle, notLog, -, -⟩ := c.control.down down
  have c' := c.advance advance
  have same : note k (.go p) h = h := by
    cases stage : k.stage with
    | writeLog tail => exact absurd stage (notLog tail)
    | _ => simp only [note, stage]
  rw [same] at c'
  by_cases up : k'.up = true
  · refine ⟨1, k', ?_, up, ?_, c'⟩
    · exact Machine.run_cons_eq_some.mpr ⟨k', first, rfl⟩
    · cases advance with
      | finish stage => rfl
      | header boot read => exact absurd (down.symm.trans ((same_of_readHead read).up.symm.trans up)) (by simp)
      | logged stage block moved => exact absurd stage (notLog _)
      | commit stage past written => exact absurd stage (notLog _)
      | installed stage block moved =>
        exact absurd (down.symm.trans ((same_of_installBlock moved).1.up.symm.trans up)) (by simp)
      | erase stage past written =>
        exact absurd (down.symm.trans ((same_of_writeHead written).1.up.symm.trans up)) (by simp)
  · have down' := Bool.eq_false_iff.mpr up
    have fewer := left_lt c'.wellFormed.short ⟨notIdle, notLog⟩ advance
    obtain ⟨n, k'', rest, up', idle, c''⟩ := exists_recovery c' down' p
    exact ⟨n + 1, k'', Machine.run_cons_eq_some.mpr ⟨k', first, rest⟩, up', idle, c''⟩
termination_by k.left

/-- Whatever the operations do and wherever they are cut off, each of them has all its writes
among the durable ones or none, what is pending ends with the last operation outstanding, and
after a crash the recovery comes to its end with the durable writes on the disk and no others. -/
theorem crash_atomic (fresh : LogHeader.read (disk start) = some []) (some_of : 0 < size) (near : start + size ≤ FSSIZE)
    (reached : Machine.run (Machine.watch note step) (powerOn start size disk, .start) es = some (k, h)) :
    (∀ w ∈ h.durable, ∀ v ∈ h.pending ++ h.lost, w.op ≠ v.op) ∧
      (k.up = true → k.stage = .idle → k.outstanding = 0 → h.pending = []) ∧
      ∀ p, ∃ n k', Machine.run step k (.crash :: List.replicate n (.go p)) = some k' ∧ k'.up = true ∧ k'.stage = .idle ∧
        ∀ b, k'.Home b → k'.store.disk b = replay h.durable disk b := by
  obtain ⟨c, n⟩ := consistent_of_run fresh some_of near reached
  refine ⟨n.kept, fun up idle none => ?_, fun p => ?_⟩
  · have empty := c.control.empty idle none
    have pending := c.pending
    simp only [Pending, idle] at pending
    refine List.eq_nil_iff_forall_not_mem.mpr fun w member => ?_
    have logged := (pending w.blockno).mpr ⟨w, member, rfl⟩
    simp [empty] at logged
  · obtain ⟨n, k', rest, up, idle, c'⟩ := c.crash.exists_recovery rfl p
    refine ⟨n, k', Machine.run_cons_eq_some.mpr ⟨_, rfl, rest⟩, up, idle, fun b home => ?_⟩
    have onDisk := c'.onDisk
    simp only [OnDisk, idle] at onDisk
    exact onDisk.2 b home List.not_mem_nil

/-- One operation, cut off when its header is on the disk and its block is not. -/
def cutOff : List (Event Nat) :=
  [.go 0, .go 0, .go 0, .beginOp 1, .bget 1 50, .fill 1 1, .logWrite 1 1 fun _ => 7, .brelse 1 1, .endOp 1, .go 1,
  .go 1]

theorem crash_atomic_cutOff : ∃ k : Kernel Nat × History Nat, k.2.durable.length = 1 ∧
    ∃ n k', Machine.run step k.1 (.crash :: List.replicate n (.go 0)) = some k' ∧ k'.up = true ∧ k'.stage = .idle ∧
      ∀ b, k'.Home b → k'.store.disk b = replay k.2.durable (fun _ _ => 0) b := by
  have ends : (Machine.run (Machine.watch note step) (powerOn 2 30 fun _ _ => 0, .start) cutOff).any
      (fun x => x.2.durable.length == 1) = true := by
    decide +kernel
  obtain ⟨x, reached, durable⟩ := (Option.any_eq_true _ _).mp ends
  exact ⟨x, beq_iff_eq.mp durable, (crash_atomic (by decide) (by decide) (by decide) reached).2.2 0⟩

/-- No block has two buffers, and what the holder of one finds in it is the last write logged
to the block, whether it is durable, pending or installed, and however often the buffer was
recycled. -/
theorem bread_current (fresh : LogHeader.read (disk start) = some []) (some_of : 0 < size)
    (near : start + size ≤ FSSIZE)
    (reached : Machine.run (Machine.watch note step) (powerOn start size disk, .start) es = some (k, h))
    (up : k.up = true) :
    (∀ i j, (k.store.buf i).refcnt ≠ 0 → (k.store.buf j).refcnt ≠ 0 → (k.store.buf i).blockno =
    (k.store.buf j).blockno → i = j) ∧
      ∀ i p, (k.store.buf i).holder = some p → k.Home (k.store.buf i).blockno →
        (k.store.buf i).data = replay (h.durable ++ h.pending) disk (k.store.buf i).blockno := by
  have shows := (consistent_of_run fresh some_of near reached).1.up up
  refine ⟨fun i j used used' => shows.single i j (shows.named i used) (shows.named j used'), fun i p mine home => ?_⟩
  have count := shows.counted i
  rw [mine, if_neg (Option.some_ne_none p)] at count
  have holds : k.store.Holds i p (k.store.buf i).blockno := ⟨mine, shows.named i (by omega), rfl⟩
  exact (holds.data shows).trans (shown_home home)

def readAgain : List (Event Nat) :=
  cutOff ++ .crash :: List.replicate 4 (.go 0) ++ [.beginOp 2, .bget 2 50, .fill 2 2, .logWrite 2 2 fun _ => 8]

theorem bread_current_readAgain : ∃ k : Kernel Nat × History Nat, (k.1.store.buf 2).holder = some 2 ∧
    (k.1.store.buf 2).data 0 = 8 ∧ k.2.durable.length = 1 ∧
    (k.1.store.buf 2).data = replay (k.2.durable ++ k.2.pending) (fun _ _ => 0) 50 := by
  have ends : (Machine.run (Machine.watch note step) (powerOn 2 30 fun _ _ => 0, .start) readAgain).any (fun x =>
      x.1.up && decide ((x.1.store.buf 2).holder = some 2 ∧ (x.1.store.buf 2).data 0 = 8 ∧ x.2.durable.length = 1 ∧
        x.1.Home 50 ∧ (x.1.store.buf 2).blockno = 50)) = true := by
    decide +kernel
  obtain ⟨⟨k, h⟩, reached, last⟩ := (Option.any_eq_true _ _).mp ends
  obtain ⟨up, facts⟩ := Bool.and_eq_true_iff.mp last
  obtain ⟨holder, logged, durable, home, block⟩ := of_decide_eq_true facts
  have current := (bread_current (by decide) (by decide) (by decide) reached up).2 2 2 holder (block ▸ home)
  exact ⟨(k, h), holder, logged, durable, by rw [← block]; exact current⟩

end Runs

end OsLabs.Log.Kernel
