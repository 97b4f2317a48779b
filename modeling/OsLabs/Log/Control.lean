import OsLabs.Log.Transfers

/-! Who is inside an operation, and where a commit stands, in every state of the log. -/

set_option autoImplicit false

namespace OsLabs.Log.Kernel

open OsLabs.Lib

variable {Pid : Type*} [DecidableEq Pid]

inductive Advance (k : Kernel Pid) (p : Pid) : Kernel Pid → Prop where
  | header {k' : Kernel Pid} (boot : k.stage = .boot) (read : k.readHead p = some k') :
      Advance k p { k' with stage := .installTrans 0 }
  | logged {k' : Kernel Pid} {tail b : Nat} (stage : k.stage = .writeLog tail) (block : k.lh[tail]? = some b)
      (moved : k.writeLogBlock p tail b = some k') : Advance k p { k' with stage := .writeLog (tail + 1) }
  | commit {k' : Kernel Pid} {tail : Nat} (stage : k.stage = .writeLog tail) (past : k.lh.length ≤ tail)
      (written : k.writeHead p = some k') : Advance k p { k' with stage := .installTrans 0 }
  | installed {k' : Kernel Pid} {tail b : Nat} (stage : k.stage = .installTrans tail) (block : k.lh[tail]? = some b)
      (moved : k.installBlock p tail b = some k') : Advance k p { k' with stage := .installTrans (tail + 1) }
  | erase {k' : Kernel Pid} {tail : Nat} (stage : k.stage = .installTrans tail) (past : k.lh.length ≤ tail)
      (written : ({ k with lh := [] } : Kernel Pid).writeHead p = some k') : Advance k p { k' with stage := .finish }
  | finish (stage : k.stage = .finish) :
      Advance k p { (k.setProc p .outside).wakeup with committing := false, stage := .idle, up := true }

theorem advance_of_go {k k' : Kernel Pid} {p : Pid} (went : k.go p = some k') : k.Advance p k' := by
  unfold go at went
  split at went
  · rename_i boot
    obtain ⟨u, read, rfl⟩ := Option.map_eq_some_iff.mp went
    exact .header boot read
  · cases went
  · rename_i tail stage
    split at went
    · rename_i b block
      obtain ⟨u, moved, rfl⟩ := Option.map_eq_some_iff.mp went
      exact .logged stage block moved
    · rename_i past
      obtain ⟨u, written, rfl⟩ := Option.map_eq_some_iff.mp went
      exact .commit stage (List.getElem?_eq_none_iff.mp past) written
  · rename_i tail stage
    split at went
    · rename_i b block
      obtain ⟨u, moved, rfl⟩ := Option.map_eq_some_iff.mp went
      exact .installed stage block moved
    · rename_i past
      obtain ⟨u, written, rfl⟩ := Option.map_eq_some_iff.mp went
      exact .erase stage (List.getElem?_eq_none_iff.mp past) written
  · rename_i stage
    cases went
    exact .finish stage

/-- Every step, with what its caller promises. -/
inductive Taken (k : Kernel Pid) : Event Pid → Kernel Pid → Prop where
  | beginOp {p : Pid} (up : k.up = true) (place : k.procs p = .outside ∨ k.procs p = .woken) : Taken k (.beginOp p)
      (k.beginOp p)
  | bget {p : Pid} {b : Nat} {i : Slot} {store : Store Pid} (up : k.up = true)
      (found : k.store.bget ROOTDEV b p = some (i, store)) :
      Taken k (.bget p b) { k with store }
  | fill {p : Pid} {i : Slot} {store : Store Pid} (up : k.up = true) (filled : k.store.fill i p = some store) :
      Taken k (.fill p i) { k with store }
  | logWrite {p : Pid} {i : Slot} {data : Data} {k' : Kernel Pid} (up : k.up = true) (inside : k.procs p = .running)
      (mine : (k.store.buf i).holder = some p) (home : k.Home (k.store.buf i).blockno)
      (logged : k.logWrite i data = some k') :
      Taken k (.logWrite p i data) k'
  | brelse {p : Pid} {i : Slot} {store : Store Pid} (up : k.up = true) (released : k.store.brelse i = some store) :
      Taken k (.brelse p i) { k with store }
  | endOp {p : Pid} {k' : Kernel Pid} (up : k.up = true) (inside : k.procs p = .running) (ended : k.endOp p = some k') :
      Taken k (.endOp p) k'
  | go {p : Pid} {k' : Kernel Pid} (mine : k.up = true → k.procs p = .committing)
      (advance : k.Advance p k') : Taken k (.go p) k'
  | crash : Taken k .crash (powerOn k.start k.size k.store.disk)

theorem taken_of_step {k k' : Kernel Pid} {e : Event Pid} (taken : step k e = some k') : k.Taken e k' := by
  cases e with
  | beginOp p =>
    obtain ⟨allowed, same⟩ := Option.ite_none_right_eq_some.mp taken
    cases same
    exact .beginOp allowed.1 allowed.2.1
  | bget p b =>
    obtain ⟨free, found⟩ := Option.ite_none_right_eq_some.mp taken
    obtain ⟨⟨i, store⟩, hit, rfl⟩ := Option.map_eq_some_iff.mp found
    exact .bget free.1 hit
  | fill p i =>
    obtain ⟨up, filled⟩ := Option.ite_none_right_eq_some.mp taken
    obtain ⟨store, full, rfl⟩ := Option.map_eq_some_iff.mp filled
    exact .fill up full
  | logWrite p i data =>
    obtain ⟨⟨free, inside, mine, home⟩, logged⟩ := Option.ite_none_right_eq_some.mp taken
    exact .logWrite free.1 inside mine home logged
  | brelse p i =>
    obtain ⟨allowed, released⟩ := Option.ite_none_right_eq_some.mp taken
    obtain ⟨store, left, rfl⟩ := Option.map_eq_some_iff.mp released
    exact .brelse allowed.1.1 left
  | endOp p =>
    obtain ⟨allowed, ended⟩ := Option.ite_none_right_eq_some.mp taken
    exact .endOp allowed.1.1 allowed.2.1 ended
  | go p =>
    obtain ⟨mine, went⟩ := Option.ite_none_right_eq_some.mp taken
    exact .go mine (advance_of_go went)
  | crash =>
    cases taken
    exact .crash

/-- What `begin_op`, `end_op` and `commit` know of each other. -/
structure Control (k : Kernel Pid) : Prop where
  active : ∃ ops : List Pid, ops.Nodup ∧ (∀ p, p ∈ ops ↔ k.procs p = .running) ∧ k.outstanding = ops.length
  quiet : k.stage ≠ .idle → k.outstanding = 0
  committing : k.up = true → (k.committing = true ↔ k.stage ≠ .idle)
  down : k.up = false → k.stage ≠ .idle ∧ (∀ t, k.stage ≠ .writeLog t) ∧ k.committing = false ∧ ∀ p,
    k.procs p = .outside
  boot : k.stage = .boot → k.lh = [] ∧ k.up = false
  finish : k.stage = .finish → k.lh = []
  empty : k.stage = .idle → k.outstanding = 0 → k.lh = []

structure Same (k k' : Kernel Pid) : Prop where
  outstanding : k'.outstanding = k.outstanding
  committing : k'.committing = k.committing
  up : k'.up = k.up
  procs : k'.procs = k.procs
  start : k'.start = k.start
  size : k'.size = k.size

section

variable {k k' : Kernel Pid} {p : Pid} {tail b : Nat}

theorem same_of_readHead (read : k.readHead p = some k') : k.Same k' := by
  obtain ⟨_, -, rest⟩ := Option.bind_eq_some_iff.mp read
  obtain ⟨_, -, rest⟩ := Option.bind_eq_some_iff.mp rest
  obtain ⟨_, -, rfl⟩ := Option.map_eq_some_iff.mp rest
  exact ⟨rfl, rfl, rfl, rfl, rfl, rfl⟩

theorem same_of_writeHead (written : k.writeHead p = some k') : k.Same k' ∧ k'.lh = k.lh := by
  obtain ⟨_, -, rest⟩ := Option.bind_eq_some_iff.mp written
  obtain ⟨_, -, rest⟩ := Option.bind_eq_some_iff.mp rest
  obtain ⟨_, -, rfl⟩ := Option.map_eq_some_iff.mp rest
  exact ⟨⟨rfl, rfl, rfl, rfl, rfl, rfl⟩, rfl⟩

theorem same_of_writeLogBlock (moved : k.writeLogBlock p tail b = some k') : k.Same k' := by
  obtain ⟨_, -, rest⟩ := Option.bind_eq_some_iff.mp moved
  obtain ⟨_, -, rest⟩ := Option.bind_eq_some_iff.mp rest
  obtain ⟨_, -, rfl⟩ := Option.map_eq_some_iff.mp rest
  exact ⟨rfl, rfl, rfl, rfl, rfl, rfl⟩

theorem same_of_installBlock (moved : k.installBlock p tail b = some k') : k.Same k' ∧ k'.lh = k.lh := by
  obtain ⟨_, -, rest⟩ := Option.bind_eq_some_iff.mp moved
  obtain ⟨_, -, rest⟩ := Option.bind_eq_some_iff.mp rest
  obtain ⟨_, -, rfl⟩ := Option.map_eq_some_iff.mp rest
  exact ⟨⟨rfl, rfl, rfl, rfl, rfl, rfl⟩, rfl⟩

omit [DecidableEq Pid] in
theorem Control.transfer (h : k.Control) {k'' : Kernel Pid} (same : k.Same k'') (busy : k.stage ≠ .idle) {stage : Stage}
    (busy' : stage ≠ .idle) (later : stage ≠ .boot) (write : ∀ t, stage = .writeLog t → ∃ t', k.stage = .writeLog t')
    (empty : stage = .finish → k''.lh = []) : ({ k'' with stage := stage } : Kernel Pid).Control where
  active := by
    simp only [same.procs, same.outstanding]
    exact h.active
  quiet _ := same.outstanding.trans (h.quiet busy)
  committing up := by
    simp only [same.up] at up
    have both := h.committing up
    simp only [same.committing]
    exact iff_of_true (both.mpr busy) busy'
  down down := by
    simp only [same.up] at down
    obtain ⟨-, before, free, alone⟩ := h.down down
    refine ⟨busy', fun t same => ?_, same.committing.trans free, fun p => by simp only [same.procs, alone]⟩
    obtain ⟨t', stage⟩ := write t same
    exact before t' stage
  boot boot := absurd boot later
  finish := empty
  empty idle := absurd idle busy'

theorem Control.advance (h : k.Control) (advance : k.Advance p k') : k'.Control := by
  cases advance with
  | header boot read =>
    exact h.transfer (same_of_readHead read) (by simp [boot]) (by simp) (by simp) (by simp) (by simp)
  | logged stage block moved =>
    exact h.transfer (same_of_writeLogBlock moved) (by simp [stage]) (by simp) (by simp) (fun _ _ => ⟨_, stage⟩)
      (by simp)
  | commit stage past written =>
    exact h.transfer (same_of_writeHead written).1 (by simp [stage]) (by simp) (by simp) (by simp) (by simp)
  | installed stage block moved =>
    exact h.transfer (same_of_installBlock moved).1 (by simp [stage]) (by simp) (by simp) (by simp) (by simp)
  | erase stage past written =>
    obtain ⟨same, empty⟩ := same_of_writeHead written
    exact h.transfer ⟨same.outstanding, same.committing, same.up, same.procs, same.start, same.size⟩
      (by simp [stage]) (by simp) (by simp) (by simp)
      fun _ => empty
  | finish stage =>
    obtain ⟨ops, nodup, role, count⟩ := h.active
    have quiet := h.quiet (by simp [stage])
    have nobody : ops = [] := by
      apply List.eq_nil_of_length_eq_zero
      omega
    have stopped : ∀ q, k.procs q ≠ .running := by
      intro q running
      have member := (role q).mpr running
      simp [nobody] at member
    refine ⟨⟨[], List.nodup_nil, fun q => iff_of_false (by simp) ?_, by simpa [wakeup, setProc] using quiet⟩,
      by simp, by simp,
      by simp, by simp, by simp, fun _ _ => h.finish stage⟩
    simp only [wakeup, setProc, Function.update_apply]
    split
    · simp
    · split
      · simp
      · exact stopped q

omit [DecidableEq Pid] in
theorem wakeup_running (k : Kernel Pid) (p : Pid) : k.wakeup.procs p = .running ↔ k.procs p = .running := by
  unfold wakeup
  dsimp only
  split
  · simp_all
  · rfl

omit [DecidableEq Pid] in
theorem control_powerOn (start size : Nat) (disk : Nat → Data) : (powerOn start size disk : Kernel Pid).Control where
  active := ⟨[], List.nodup_nil, by simp [powerOn], rfl⟩
  quiet _ := rfl
  committing up := by simp [powerOn] at up
  down _ := by simp [powerOn]
  boot _ := ⟨rfl, rfl⟩
  finish _ := rfl
  empty _ _ := rfl

omit [DecidableEq Pid] in
theorem Control.store (h : k.Control) (store : Store Pid) : ({ k with store } : Kernel Pid).Control :=
  ⟨h.active, h.quiet, h.committing, h.down, h.boot, h.finish, h.empty⟩

omit [DecidableEq Pid] in
theorem Control.idle_of_running (h : k.Control) (up : k.up = true) (inside : k.procs p = .running) :
    k.stage = .idle ∧ k.committing = false ∧ 1 ≤ k.outstanding := by
  obtain ⟨ops, nodup, role, count⟩ := h.active
  have some_of := List.length_pos_of_mem ((role p).mpr inside)
  have idle : k.stage = .idle := by
    by_contra busy
    have := h.quiet busy
    omega
  refine ⟨idle, Bool.eq_false_iff.mpr fun committing => ?_, by omega⟩
  exact (h.committing up).mp committing idle

theorem Control.beginOp (h : k.Control) (up : k.up = true) (place : k.procs p = .outside ∨ k.procs p = .woken) :
    (k.beginOp p).Control := by
  have stopped : k.procs p ≠ .running := by
    rcases place with place | place <;> simp [place]
  obtain ⟨ops, nodup, role, count⟩ := h.active
  unfold Kernel.beginOp
  split
  · refine ⟨⟨ops, nodup, fun q => ?_, count⟩, h.quiet, h.committing, fun down => absurd up
      (by simpa [setProc] using down),
      h.boot, h.finish, h.empty⟩
    by_cases same : q = p
    · subst same
      simp [setProc, role, stopped]
    · simp [setProc, role, same]
  · rename_i room
    have waits : k.committing = false := by
      simp only [full, Bool.or_eq_true, not_or, Bool.not_eq_true] at room
      exact room.1
    have idle : k.stage = .idle := by
      by_contra busy
      simp [(h.committing up).mpr busy] at waits
    refine ⟨⟨p :: ops, List.nodup_cons.mpr ⟨fun member => stopped ((role p).mp member), nodup⟩, fun q => ?_, ?_⟩,
      fun busy => absurd idle busy, h.committing, fun down => absurd up (by simpa [setProc] using down),
      fun boot => absurd (idle.symm.trans boot) (by simp), h.finish, fun _ none => ?_⟩
    · by_cases same : q = p
      · subst same
        simp [setProc]
      · simp [setProc, role, same]
    · simp [count]
    · dsimp only at none
      omega

theorem Control.endOp (h : k.Control) (up : k.up = true) (inside : k.procs p = .running) (ended : k.endOp p = some k') :
    k'.Control := by
  obtain ⟨ops, nodup, role, count⟩ := h.active
  have member := (role p).mpr inside
  have erased := List.length_erase_of_mem member
  have some_of := List.length_pos_of_mem member
  have mem_erase : ∀ q, q ∈ ops.erase p ↔ q ≠ p ∧ k.procs q = .running := by
    intro q
    rw [nodup.mem_erase_iff, role]
  unfold Kernel.endOp at ended
  split at ended
  · cases ended
  split at ended
  · rename_i last
    cases ended
    have nobody : ops.erase p = [] := by
      apply List.eq_nil_of_length_eq_zero
      omega
    refine ⟨⟨[], List.nodup_nil, fun q => ?_, rfl⟩, fun _ => rfl, fun _ => ?_, fun down => absurd up
      (by simpa [setProc] using down),
      fun boot => ?_, fun finish => ?_, fun idle => ?_⟩
    · rw [← nobody, mem_erase]
      by_cases same : q = p
      · subst same
        simp [setProc]
      · simp [setProc, same]
    · dsimp only
      split <;> simp
    · dsimp only at boot
      split at boot <;> cases boot
    · dsimp only at finish ⊢
      split at finish
      · assumption
      · cases finish
    · dsimp only at idle
      split at idle <;> cases idle
  · rename_i more
    cases ended
    refine ⟨⟨ops.erase p, nodup.erase p, fun q => ?_, by simp only [erased]; omega⟩, fun busy => ?_, h.committing,
      fun down => absurd up (by simpa [setProc, wakeup] using down), h.boot, h.finish, fun _ none => absurd none more⟩
    · change q ∈ ops.erase p ↔ (k.setProc p .outside).wakeup.procs q = .running
      rw [wakeup_running, mem_erase]
      by_cases same : q = p
      · subst same
        simp [setProc]
      · simp [setProc, same]
    · exact absurd (h.idle_of_running up inside).1 busy

omit [DecidableEq Pid] in
theorem logWrite_eq_some {i : Slot} {data : Data} (logged : k.logWrite i data = some k') :
    k.lh.length < LOGSIZE ∧ (k.lh.length : Int) < k.size - 1 ∧ k' = { k with
      store := k.store.put i { k.store.buf i with data, dirty := true }
      lh := if (k.store.buf i).blockno ∈ k.lh then k.lh else k.lh ++ [(k.store.buf i).blockno] } := by
  unfold Kernel.logWrite at logged
  split at logged
  · cases logged
  rename_i room
  split at logged
  · cases logged
  obtain ⟨room, room'⟩ := not_or.mp room
  exact ⟨Nat.lt_of_not_le room, lt_of_not_ge room', (Option.some.inj logged).symm⟩

omit [DecidableEq Pid] in
theorem Control.logWrite {i : Slot} {data : Data} (h : k.Control) (up : k.up = true) (inside : k.procs p = .running)
    (logged : k.logWrite i data = some k') : k'.Control := by
  obtain ⟨idle, -, some_of⟩ := h.idle_of_running up inside
  obtain ⟨-, -, rfl⟩ := logWrite_eq_some logged
  refine ⟨h.active, h.quiet, h.committing, h.down, fun boot => ?_, fun finish => ?_, fun _ none => ?_⟩
  · exact absurd (idle.symm.trans boot) (by simp)
  · exact absurd (idle.symm.trans finish) (by simp)
  · exact absurd none (by dsimp only; omega)

theorem Control.taken {e : Event Pid} (h : k.Control) (taken : k.Taken e k') : k'.Control := by
  cases taken with
  | beginOp up place => exact h.beginOp up place
  | bget up found => exact h.store _
  | fill up filled => exact h.store _
  | logWrite up inside mine home logged => exact h.logWrite up inside logged
  | brelse up released => exact h.store _
  | endOp up inside ended => exact h.endOp up inside ended
  | go mine advance => exact h.advance advance
  | crash => exact control_powerOn _ _ _

omit [DecidableEq Pid] in
theorem Control.nobody (c : k.Control) (busy : k.stage ≠ .idle) (p : Pid) : k.procs p ≠ .running := by
  intro inside
  obtain ⟨ops, -, role, count⟩ := c.active
  have some_of := List.length_pos_of_mem ((role p).mpr inside)
  have quiet := c.quiet busy
  omega

theorem advance_running (advance : k.Advance p k') (c : k.Control) (q : Pid) : k'.procs q ≠ .running := by
  have busy : k.stage ≠ .idle := by
    cases advance <;> simp_all
  have nobody := c.nobody busy q
  cases advance with
  | header boot read => rwa [← (same_of_readHead read).procs] at nobody
  | logged stage block moved => rwa [← (same_of_writeLogBlock moved).procs] at nobody
  | commit stage past written => rwa [← (same_of_writeHead written).1.procs] at nobody
  | installed stage block moved => rwa [← (same_of_installBlock moved).1.procs] at nobody
  | erase stage past written =>
    have same := (same_of_writeHead written).1.procs
    exact fun inside => nobody ((congrFun same q).symm.trans inside)
  | finish stage =>
    intro inside
    have inside := (wakeup_running _ q).mp inside
    by_cases same : q = p
    · simp [setProc, same] at inside
    · exact nobody (by simpa [setProc, same] using inside)

theorem advance_layout (advance : k.Advance p k') : k'.start = k.start ∧ k'.size = k.size := by
  cases advance with
  | header boot read => exact ⟨(same_of_readHead read).start, (same_of_readHead read).size⟩
  | logged stage block moved => exact ⟨(same_of_writeLogBlock moved).start, (same_of_writeLogBlock moved).size⟩
  | commit stage past written => exact ⟨(same_of_writeHead written).1.start, (same_of_writeHead written).1.size⟩
  | installed stage block moved => exact ⟨(same_of_installBlock moved).1.start, (same_of_installBlock moved).1.size⟩
  | erase stage past written =>
    have same := (same_of_writeHead written).1
    exact ⟨same.start, same.size⟩
  | finish stage => exact ⟨rfl, rfl⟩

theorem taken_layout {e : Event Pid} (taken : k.Taken e k') : k'.start = k.start ∧ k'.size = k.size := by
  cases taken with
  | beginOp up place =>
    unfold Kernel.beginOp
    split <;> exact ⟨rfl, rfl⟩
  | bget up found => exact ⟨rfl, rfl⟩
  | fill up filled => exact ⟨rfl, rfl⟩
  | logWrite up inside mine home logged =>
    obtain ⟨-, -, rfl⟩ := logWrite_eq_some logged
    exact ⟨rfl, rfl⟩
  | brelse up released => exact ⟨rfl, rfl⟩
  | endOp up inside ended =>
    unfold Kernel.endOp at ended
    split at ended
    · cases ended
    split at ended <;> cases ended <;> exact ⟨rfl, rfl⟩
  | go mine advance => exact advance_layout advance
  | crash => exact ⟨rfl, rfl⟩

end

end OsLabs.Log.Kernel
