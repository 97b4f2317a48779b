import OsLabs.Log.Control

/-! What a crash leaves of the operations of the file system: the log makes each of them durable
as a whole, or not at all. -/

set_option autoImplicit false

namespace OsLabs.Log

open OsLabs.Lib

structure Record where
  op : Nat
  blockno : Nat
  data : Data

/-- The operations are numbered as `begin_op` admits them. What they logged is durable once the
header with their blocks is on the disk; what a crash finds in memory only is lost. -/
structure History (Pid : Type*) where
  next : Nat
  op : Pid → Nat
  durable : List Record
  pending : List Record
  lost : List Record

def History.start {Pid : Type*} : History Pid where
  next := 0
  op _ := 0
  durable := []
  pending := []
  lost := []

/-- The blocks of a disk after some writes, oldest first. -/
def replay (ws : List Record) (view : Nat → Data) : Nat → Data :=
  ws.foldl (fun v w => Function.update v w.blockno w.data) view

theorem replay_append (ws : List Record) (w : Record) (view : Nat → Data) :
    replay (ws ++ [w]) view = Function.update (replay ws view) w.blockno w.data := List.foldl_append ..

theorem replay_of_not_logged {ws : List Record} {view : Nat → Data} {b : Nat} (absent : ∀ w ∈ ws, w.blockno ≠ b) :
    replay ws view b = view b := by
  induction ws using List.reverseRecOn with
  | nil => rfl
  | append_singleton ws w ih =>
    rw [replay_append, Function.update_of_ne (absent w (by simp)).symm]
    exact ih fun v member => absent v (List.mem_append_left _ member)

namespace Kernel

variable {Pid : Type*} [DecidableEq Pid]

def note (k : Kernel Pid) (e : Event Pid) (h : History Pid) : History Pid :=
  match e with
  | .beginOp p => if k.full then h else { h with next := h.next + 1, op := Function.update h.op p h.next }
  | .logWrite p i data => { h with pending := h.pending ++ [⟨h.op p, (k.store.buf i).blockno, data⟩] }
  | .go _ =>
    match k.stage with
    | .writeLog tail => if k.lh.length ≤ tail then { h with durable := h.durable ++ h.pending, pending := [] } else h
    | _ => h
  | .crash => { h with pending := [], lost := h.lost ++ h.pending }
  | _ => h

structure WellFormed (start size : Nat) (lh : List Nat) : Prop where
  short : lh.length ≤ LOGSIZE
  fits : lh ≠ [] → lh.length < size
  nodup : lh.Nodup
  home : ∀ b ∈ lh, ¬(start ≤ b ∧ b < start + size) ∧ b < FSSIZE

/-- The header on the disk lists `lh`, and the log has the block of `view` at each of them. -/
structure Committed (start : Nat) (disk view : Nat → Data) (lh : List Nat) : Prop where
  header : LogHeader.read (disk start) = some lh
  copies : ∀ i b, lh[i]? = some b → disk (start + i + 1) = view b

/-- The blocks outside the log that the disk has as in `view`, all but those of `lh`. -/
def Installed (start size : Nat) (disk view : Nat → Data) (lh : List Nat) : Prop :=
  ∀ b, ¬(start ≤ b ∧ b < start + size) → b ∉ lh → disk b = view b

def Recoverable (start size : Nat) (disk view : Nat → Data) : Prop :=
  ∃ lh, WellFormed start size lh ∧ Committed start disk view lh ∧ Installed start size disk view lh

def pins (k : Kernel Pid) : List Nat :=
  match k.stage with
  | .installTrans tail => k.lh.drop tail
  | _ => k.lh

/-- What the disk has at each stage of a commit, where `old` is durable and `new` is not yet. -/
def OnDisk (k : Kernel Pid) (old new : Nat → Data) : Prop :=
  match k.stage with
  | .boot => Recoverable k.start k.size k.store.disk old
  | .idle | .finish => Committed k.start k.store.disk old [] ∧ Installed k.start k.size k.store.disk old []
  | .writeLog tail =>
    Committed k.start k.store.disk old [] ∧ Installed k.start k.size k.store.disk old [] ∧
      ∀ i b, i < tail → k.lh[i]? = some b → k.store.disk (k.start + i + 1) = new b
  | .installTrans tail =>
    Committed k.start k.store.disk old k.lh ∧ Installed k.start k.size k.store.disk old (k.lh.drop tail)

def shown (k : Kernel Pid) (new : Nat → Data) : Nat → Data := fun b => if k.Home b then new b else k.store.disk b

def Pending (k : Kernel Pid) (pending : List Record) : Prop :=
  match k.stage with
  | .idle | .writeLog _ => ∀ b, b ∈ k.lh ↔ ∃ w ∈ pending, w.blockno = b
  | _ => pending = []

structure Consistent (base : Nat → Data) (k : Kernel Pid) (h : History Pid) : Prop where
  control : k.Control
  near : k.start + k.size ≤ FSSIZE
  some_of : 0 < k.size
  wellFormed : WellFormed k.start k.size k.lh
  onDisk : k.OnDisk (replay h.durable base) (replay (h.durable ++ h.pending) base)
  up : k.up = true → k.store.Shows (k.shown (replay (h.durable ++ h.pending) base)) {b | b ∈ k.pins}
  down : k.up = false → k.store.Shows k.store.disk ∅ ∧ ∀ i, (k.store.buf i).refcnt = 0
  pending : k.Pending h.pending

section

variable {start size x : Nat} {disk view base : Nat → Data} {d : Data} {lh : List Nat} {k k' : Kernel Pid}
  {h : History Pid} {p : Pid} {e : Event Pid}

theorem Committed.update (c : Committed start disk view lh) (apart : x ≠ start) (apart' : ∀ i b, lh[i]? = some b →
    x ≠ start + i + 1) :
    Committed start (Function.update disk x d) view lh where
  header := by
    rw [Function.update_of_ne apart.symm]
    exact c.header
  copies i b block := by
    rw [Function.update_of_ne (apart' i b block).symm]
    exact c.copies i b block

theorem Installed.update (c : Installed start size disk view lh) (inside : start ≤ x ∧ x < start + size) :
    Installed start size (Function.update disk x d) view lh := by
  intro b home absent
  have apart : b ≠ x := by
    rintro rfl
    exact home inside
  rw [Function.update_of_ne apart]
  exact c b home absent

theorem WellFormed.inside (w : WellFormed start size lh) {i b : Nat} (block : lh[i]? = some b) :
    start ≤ start + i + 1 ∧ start + i + 1 < start + size := by
  obtain ⟨within, -⟩ := List.getElem?_eq_some_iff.mp block
  have := w.fits (List.ne_nil_of_length_pos (Nat.zero_lt_of_lt within))
  omega

theorem WellFormed.apart (w : WellFormed start size lh) {i b : Nat} (block : lh[i]? = some b) :
    ∀ c, ¬(start ≤ c ∧ c < start + size) → c ≠ start + i + 1 := by
  rintro c home rfl
  exact home (w.inside block)

theorem wellFormed_nil (start size : Nat) : WellFormed start size [] :=
  ⟨by simp, fun some_of => absurd rfl some_of, List.nodup_nil, by simp⟩

omit [DecidableEq Pid] in
/-- A crash at any stage loses nothing that is durable. -/
theorem OnDisk.recoverable {old new : Nat → Data} (w : WellFormed k.start k.size k.lh) (c : k.OnDisk old new) :
    Recoverable k.start k.size k.store.disk old := by
  unfold OnDisk at c
  split at c
  · exact c
  · exact ⟨[], wellFormed_nil _ _, c⟩
  · exact ⟨[], wellFormed_nil _ _, c⟩
  · exact ⟨[], wellFormed_nil _ _, c.1, c.2.1⟩
  · rename_i tail _
    exact ⟨k.lh, w, c.1, fun b home absent => c.2 b home fun member => absent (List.mem_of_mem_drop member)⟩

theorem Committed.cleared (some_of : lh.length ≤ LOGSIZE) (near : ∀ b ∈ lh, b < FSSIZE)
    (copies : ∀ i b, lh[i]? = some b → disk (start + i + 1) = view b) :
    Committed start (Function.update disk start (LogHeader.write lh d)) view lh where
  header := by
    rw [Function.update_self]
    exact LogHeader.read_write d some_of near
  copies i b block := by
    rw [Function.update_of_ne (by omega)]
    exact copies i b block

omit [DecidableEq Pid] in
theorem shown_home {k : Kernel Pid} {new : Nat → Data} {b : Nat} (home : k.Home b) : k.shown new b = new b :=
    if_pos home

omit [DecidableEq Pid] in
theorem shown_log {k : Kernel Pid} {new : Nat → Data} {b : Nat} (inside : k.start ≤ b ∧ b < k.start + k.size) :
    k.shown new b = k.store.disk b := if_neg (not_not_intro inside)

omit [DecidableEq Pid] in
theorem shown_update {k : Kernel Pid} {store : Store Pid} {stage : Stage} {new : Nat → Data}
    (disk : store.disk = Function.update k.store.disk x d) (inside : k.start ≤ x ∧ x < k.start + k.size) (b : Nat) :
    Function.update (k.shown new) x d b = ({ k with store, stage } : Kernel Pid).shown new b := by
  by_cases same : b = x
  · subst same
    rw [Function.update_self, shown_log (k := { k with store, stage }) inside]
    dsimp only
    rw [disk, Function.update_self]
  · unfold shown
    rw [Function.update_of_ne same, disk, Function.update_of_ne same]
    rfl

theorem Consistent.header (c : Consistent base k h) (boot : k.stage = .boot) (read : k.readHead p = some k') :
    Consistent base { k' with stage := .installTrans 0 } h := by
  have control := c.control.advance (.header boot read)
  have down := (c.control.boot boot).2
  obtain ⟨shows, idle⟩ := c.down down
  obtain ⟨store, lh, rfl, shows', header, disk, used⟩ := readHead_eq_some shows read
  have pending := c.pending
  have onDisk := c.onDisk
  rw [Pending, boot] at pending
  rw [OnDisk, boot] at onDisk
  obtain ⟨hd, wellFormed, committed, installed⟩ := onDisk
  obtain rfl : lh = hd := Option.some.inj (header.symm.trans committed.header)
  refine ⟨control, c.near, c.some_of, wellFormed, ?_, fun up => absurd (down.symm.trans up) (by simp),
    fun _ => ⟨?_, fun i => ?_⟩,
    pending⟩
  · exact ⟨by rwa [disk], by rwa [disk]⟩
  · exact shows'.congr (fun b => by rw [disk]) fun b => Iff.rfl
  · exact (used i).trans (idle i)

theorem Consistent.logged {tail b : Nat} (c : Consistent base k h) (stage : k.stage = .writeLog tail)
    (block : k.lh[tail]? = some b) (moved : k.writeLogBlock p tail b = some k') :
    Consistent base { k' with stage := .writeLog (tail + 1) } h := by
  have control := c.control.advance (.logged stage block moved)
  have up : k.up = true := by
    by_contra down
    exact (c.control.down (Bool.eq_false_iff.mpr down)).2.1 tail stage
  have inside := c.wellFormed.inside block
  have home := (c.wellFormed.home b (List.mem_of_getElem? block)).1
  obtain ⟨store, rfl, shows, transfer⟩ := writeLogBlock_eq_some (c.up up) moved
  have disk := transfer.disk
  rw [shown_home home] at shows disk
  have onDisk := c.onDisk
  have pending := c.pending
  rw [OnDisk, stage] at onDisk
  rw [Pending, stage] at pending
  obtain ⟨committed, installed, copies⟩ := onDisk
  refine ⟨control, c.near, c.some_of, c.wellFormed, ⟨?_, ?_, fun i a earlier there => ?_⟩, fun _ => ?_,
    fun down => absurd up (by simpa using down), pending⟩
  · dsimp only
    rw [disk]
    exact committed.update (by omega) (by simp)
  · dsimp only
    rw [disk]
    exact installed.update inside
  · dsimp only
    rw [disk]
    by_cases same : i = tail
    · subst same
      rw [Function.update_self, Option.some.inj (there.symm.trans block)]
    · rw [Function.update_of_ne (by omega)]
      exact copies i a (by omega) there
  · refine shows.congr (shown_update disk inside) fun a => ?_
    simp only [pins, stage, Set.mem_sdiff, Set.mem_ofPred_eq, Set.mem_singleton_iff, and_iff_left_iff_imp]
    exact fun member => c.wellFormed.apart block a (c.wellFormed.home a member).1

theorem Consistent.commit {tail : Nat} (c : Consistent base k h) (stage : k.stage = .writeLog tail)
    (past : k.lh.length ≤ tail) (written : k.writeHead p = some k') :
    Consistent base { k' with stage := .installTrans 0 }
      { h with durable := h.durable ++ h.pending, pending := [] } := by
  have control := c.control.advance (.commit stage past written)
  have up : k.up = true := by
    by_contra down
    exact (c.control.down (Bool.eq_false_iff.mpr down)).2.1 tail stage
  obtain ⟨store, rfl, shows, transfer⟩ := writeHead_eq_some (c.up up) written
  have disk := transfer.disk
  have inside : k.start ≤ k.start ∧ k.start < k.start + k.size := ⟨Nat.le_refl _, Nat.lt_add_of_pos_right c.some_of⟩
  have onDisk := c.onDisk
  have pending := c.pending
  rw [OnDisk, stage] at onDisk
  rw [Pending, stage] at pending
  obtain ⟨committed, installed, copies⟩ := onDisk
  refine ⟨control, c.near, c.some_of, c.wellFormed, ⟨?_, ?_⟩, fun _ => ?_, fun down => absurd up
    (by simpa using down), rfl⟩
  · dsimp only
    rw [disk]
    refine Committed.cleared c.wellFormed.short (fun b member => (c.wellFormed.home b member).2) fun i b block => ?_
    have within := (List.getElem?_eq_some_iff.mp block).1
    exact copies i b (by omega) block
  · dsimp only
    rw [disk, List.drop_zero]
    refine Installed.update (fun b home absent => ?_) inside
    -- what is pending is logged
    have others : replay (h.durable ++ h.pending) base b = replay h.durable base b := by
      rw [replay, List.foldl_append]
      refine replay_of_not_logged fun w member same => ?_
      exact absent ((pending b).mpr ⟨w, member, same⟩)
    rw [others]
    exact installed b home List.not_mem_nil
  · rw [List.append_nil]
    refine shows.congr (shown_update disk inside) fun a => ?_
    simp only [pins, stage, List.drop_zero, Set.mem_sdiff, Set.mem_ofPred_eq, Set.mem_singleton_iff,
      and_iff_left_iff_imp]
    rintro member rfl
    exact (c.wellFormed.home _ member).1 inside

theorem Consistent.installed {tail b : Nat} (c : Consistent base k h) (stage : k.stage = .installTrans tail)
    (block : k.lh[tail]? = some b) (moved : k.installBlock p tail b = some k') :
    Consistent base { k' with stage := .installTrans (tail + 1) } h := by
  have control := c.control.advance (.installed stage block moved)
  have inside := c.wellFormed.inside block
  have home := (c.wellFormed.home b (List.mem_of_getElem? block)).1
  have onDisk := c.onDisk
  have pending := c.pending
  rw [OnDisk, stage] at onDisk
  rw [Pending, stage] at pending
  obtain ⟨committed, installed⟩ := onDisk
  have copy := committed.copies tail b block
  have drop : k.lh.drop tail = b :: k.lh.drop (tail + 1) := by
    obtain ⟨within, here⟩ := List.getElem?_eq_some_iff.mp block
    rw [List.drop_eq_getElem_cons within, here]
  have once : b ∉ k.lh.drop (tail + 1) := by
    have nodup := c.wellFormed.nodup.sublist (List.drop_sublist tail k.lh)
    rw [drop] at nodup
    exact (List.nodup_cons.mp nodup).1
  have onDisk' : ∀ store : Store Pid, store.disk = Function.update k.store.disk b (replay h.durable base b) →
      OnDisk { k with store, stage := .installTrans (tail + 1) } (replay h.durable base)
      (replay (h.durable ++ h.pending) base) := by
    intro store disk
    refine ⟨?_, fun a home' absent => ?_⟩
    · dsimp only
      rw [disk]
      refine committed.update (fun same => home ?_) fun i a there => c.wellFormed.apart there b home
      rw [same]
      exact ⟨Nat.le_refl _, Nat.lt_add_of_pos_right c.some_of⟩
    · dsimp only at absent ⊢
      rw [disk]
      by_cases same : a = b
      · rw [same, Function.update_self]
      · rw [Function.update_of_ne same]
        refine installed a home' ?_
        rw [drop]
        exact List.not_mem_cons_of_ne_of_not_mem same absent
  by_cases up : k.up = true
  · obtain ⟨store, rfl, shows, transfer⟩ := installBlock_eq_some (c.up up) moved
    have disk := transfer.disk
    have shown : k.shown (replay (h.durable ++ h.pending) base) (k.start + tail + 1) = replay h.durable base b := by
      rw [shown_log inside, copy]
    rw [shown] at shows disk
    refine ⟨control, c.near, c.some_of, c.wellFormed, onDisk' store disk, fun _ => ?_, fun down => absurd up
      (by simpa using down),
      pending⟩
    refine shows.congr (fun a => ?_) fun a => ?_
    · by_cases same : a = b
      · rw [same, Function.update_self, shown_home (k := { k with store, stage := .installTrans (tail + 1) }) home,
          pending,
          List.append_nil]
      · unfold Kernel.shown
        rw [Function.update_of_ne same, disk, Function.update_of_ne same]
        rfl
    · simp only [pins, stage, drop, Set.mem_sdiff, Set.mem_ofPred_eq, List.mem_cons, Set.mem_singleton_iff]
      constructor
      · rintro ⟨same | later, other⟩
        · exact absurd same other
        · exact later
      · intro later
        refine ⟨.inr later, ?_⟩
        rintro rfl
        exact once later
  · have down := Bool.eq_false_iff.mpr up
    obtain ⟨shows, idle⟩ := c.down down
    obtain ⟨store, rfl, shows', transfer⟩ := installBlock_eq_some shows moved
    have disk := transfer.disk
    rw [copy] at shows' disk
    refine ⟨control, c.near, c.some_of, c.wellFormed, onDisk' store disk, fun alive => absurd alive up,
      fun _ => ⟨?_, fun i => ?_⟩,
      pending⟩
    · exact shows'.congr (fun a => by rw [disk]) (by simp)
    · exact (transfer.refcnt i).trans (idle i)

theorem Consistent.erase {tail : Nat} (c : Consistent base k h) (stage : k.stage = .installTrans tail)
    (past : k.lh.length ≤ tail) (written : ({ k with lh := [] } : Kernel Pid).writeHead p = some k') :
    Consistent base { k' with stage := .finish } h := by
  have control := c.control.advance (.erase stage past written)
  have inside : k.start ≤ k.start ∧ k.start < k.start + k.size := ⟨Nat.le_refl _, Nat.lt_add_of_pos_right c.some_of⟩
  have onDisk := c.onDisk
  have pending := c.pending
  rw [OnDisk, stage] at onDisk
  rw [Pending, stage] at pending
  obtain ⟨committed, installed⟩ := onDisk
  rw [List.drop_eq_nil_of_le past] at installed
  have onDisk' : ∀ store : Store Pid, ∀ d, store.disk = Function.update k.store.disk k.start (LogHeader.write [] d) →
      OnDisk { k with store, lh := [], stage := .finish } (replay h.durable base)
      (replay (h.durable ++ h.pending) base) := by
    intro store d disk
    refine ⟨?_, ?_⟩
    · dsimp only
      rw [disk]
      exact Committed.cleared (by simp) (by simp) (by simp)
    · dsimp only
      rw [disk]
      exact installed.update inside
  by_cases up : k.up = true
  · obtain ⟨store, rfl, shows, transfer⟩ := writeHead_eq_some (k := { k with lh := [] }) (c.up up) written
    refine ⟨control, c.near, c.some_of, wellFormed_nil _ _, onDisk' store _ transfer.disk, fun _ => ?_,
      fun down => absurd up (by simpa using down), pending⟩
    refine shows.congr (shown_update (k := { k with lh := [] }) transfer.disk inside) fun a => ?_
    simp [pins, stage, List.drop_eq_nil_of_le past]
  · have down := Bool.eq_false_iff.mpr up
    obtain ⟨shows, idle⟩ := c.down down
    obtain ⟨store, rfl, shows', transfer⟩ := writeHead_eq_some (k := { k with lh := [] }) shows written
    refine ⟨control, c.near, c.some_of, wellFormed_nil _ _, onDisk' store _ transfer.disk, fun alive => absurd alive up,
      fun _ => ⟨?_, fun i => ?_⟩, pending⟩
    · exact shows'.congr (fun a => by rw [show
        ({ k with store, lh := [], stage := .finish } : Kernel Pid).store.disk = _ from transfer.disk]) (by simp)
    · exact (transfer.refcnt i).trans (idle i)

theorem Consistent.finish (c : Consistent base k h) (stage : k.stage = .finish) :
    Consistent base { (k.setProc p .outside).wakeup with committing := false, stage := .idle, up := true } h := by
  have control := c.control.advance (.finish (p := p) stage)
  have onDisk := c.onDisk
  have pending := c.pending
  have empty := c.control.finish stage
  rw [OnDisk, stage] at onDisk
  rw [Pending, stage] at pending
  refine ⟨control, c.near, c.some_of, c.wellFormed, onDisk, fun _ => ?_, fun down => absurd down (by simp), fun b => ?_⟩
  · by_cases up : k.up = true
    · refine (c.up up).congr (fun _ => rfl) fun b => ?_
      simp only [pins, stage]
      rfl
    · refine (c.down (Bool.eq_false_iff.mpr up)).1.congr (fun b => ?_) fun b => ?_
      · unfold shown
        split
        · rename_i home
          rw [pending, List.append_nil]
          exact onDisk.2 b home List.not_mem_nil
        · rfl
      · change b ∈ (∅ : Set Nat) ↔ b ∈ k.lh
        simp [empty]
  · change b ∈ k.lh ↔ _
    simp [empty, pending]

theorem Consistent.advance (c : Consistent base k h) (advance : k.Advance p k') :
    Consistent base k' (note k (.go p) h) := by
  cases advance with
  | header boot read =>
    simp only [note, boot]
    exact c.header boot read
  | logged stage block moved =>
    have within := (List.getElem?_eq_some_iff.mp block).1
    simp only [note, stage, if_neg (Nat.not_le_of_lt within)]
    exact c.logged stage block moved
  | commit stage past written =>
    simp only [note, stage, if_pos past]
    exact c.commit stage past written
  | installed stage block moved =>
    simp only [note, stage]
    exact c.installed stage block moved
  | erase stage past written =>
    simp only [note, stage]
    exact c.erase stage past written
  | finish stage =>
    simp only [note, stage]
    exact c.finish stage

omit [DecidableEq Pid] in
theorem Consistent.store {store : Store Pid} (c : Consistent base k h) (up : k.up = true)
    (disk : store.disk = k.store.disk)
    (shows : store.Shows (k.shown (replay (h.durable ++ h.pending) base)) {b | b ∈ k.pins}) :
    Consistent base { k with store } h := by
  refine ⟨c.control.store store, c.near, c.some_of, c.wellFormed, ?_, fun _ => ?_, fun down => absurd up
    (by simpa using down),
    c.pending⟩
  · have onDisk := c.onDisk
    unfold OnDisk at onDisk ⊢
    dsimp only
    rw [disk]
    exact onDisk
  · refine shows.congr (fun b => ?_) fun b => Iff.rfl
    unfold shown
    rw [disk]
    rfl

omit [DecidableEq Pid] in
theorem Consistent.logWrite {i : Slot} {data : Data} (c : Consistent base k h) (up : k.up = true)
    (inside : k.procs p = .running) (mine : (k.store.buf i).holder = some p) (home : k.Home (k.store.buf i).blockno)
    (logged : k.logWrite i data = some k') :
    Consistent base k' { h with pending := h.pending ++ [⟨h.op p, (k.store.buf i).blockno, data⟩] } := by
  have control := c.control.logWrite up inside logged
  have idle := (c.control.idle_of_running up inside).1
  have shows := c.up up
  have count := shows.counted i
  rw [mine, if_neg (Option.some_ne_none p)] at count
  have holds : k.store.Holds i p (k.store.buf i).blockno := ⟨mine, shows.named i (by omega), rfl⟩
  have near := holds.near shows
  obtain ⟨room, room', rfl⟩ := logWrite_eq_some logged
  have onDisk := c.onDisk
  have pending := c.pending
  simp only [OnDisk, idle] at onDisk
  simp only [Pending, idle] at pending
  have mem : ∀ b, b ∈ (if (k.store.buf i).blockno ∈ k.lh then k.lh else k.lh ++ [(k.store.buf i).blockno]) ↔
      b = (k.store.buf i).blockno ∨ b ∈ k.lh := by
    intro b
    split
    · rename_i absorbed
      refine ⟨.inr, fun member => member.elim (fun same => ?_) id⟩
      rwa [same]
    · rw [List.mem_append, List.mem_singleton, or_comm]
  refine ⟨control, c.near, c.some_of, ?_, ?_, fun _ => ?_, fun down => absurd (up.symm.trans down) (by simp), ?_⟩
  · dsimp only
    split
    · exact c.wellFormed
    · rename_i fresh
      refine ⟨?_, fun _ => ?_, ?_, fun b member => ?_⟩
      · rw [List.length_append]
        exact room
      · rw [List.length_append, List.length_singleton]
        omega
      · exact List.nodup_append.mpr ⟨c.wellFormed.nodup, List.nodup_singleton _, fun a there b here => by
          rintro rfl
          rw [List.mem_singleton] at here
          exact fresh (here ▸ there)⟩
      · rcases List.mem_append.mp member with there | here
        · exact c.wellFormed.home b there
        · rw [List.mem_singleton.mp here]
          exact ⟨home, near⟩
  · simp only [OnDisk, idle]
    exact onDisk
  · refine (shows.change holds).congr (fun b => ?_) fun b => ?_
    · rw [← List.append_assoc, replay_append]
      unfold shown
      by_cases same : b = (k.store.buf i).blockno
      · rw [same, Function.update_self]
        refine ((if_pos home).trans ?_).symm
        exact Function.update_self ..
      · rw [Function.update_of_ne same, Function.update_of_ne same]
        rfl
    · simp only [pins, idle, Set.mem_insert_iff, Set.mem_ofPred_eq, mem]
  · simp only [Pending, idle]
    intro b
    rw [mem, pending]
    constructor
    · rintro (same | ⟨w, member, same⟩)
      · exact ⟨_, List.mem_append_right _ List.mem_cons_self, same.symm⟩
      · exact ⟨w, List.mem_append_left _ member, same⟩
    · rintro ⟨w, member, same⟩
      rcases List.mem_append.mp member with there | here
      · exact .inr ⟨w, there, same⟩
      · rw [List.mem_singleton] at here
        subst here
        exact .inl same.symm

theorem Consistent.beginOp (c : Consistent base k h) (up : k.up = true) (place : k.procs p = .outside ∨
    k.procs p = .woken) :
    Consistent base (k.beginOp p) (note k (.beginOp p) h) := by
  have control := c.control.beginOp up place
  unfold Kernel.beginOp note at *
  split at control <;> rename_i room
  · simp only [if_pos room]
    exact ⟨control, c.near, c.some_of, c.wellFormed, c.onDisk, c.up, c.down, c.pending⟩
  · simp only [if_neg room]
    exact ⟨control, c.near, c.some_of, c.wellFormed, c.onDisk, c.up, c.down, c.pending⟩

theorem Consistent.endOp (c : Consistent base k h) (up : k.up = true) (inside : k.procs p = .running)
    (ended : k.endOp p = some k') : Consistent base k' h := by
  have control := c.control.endOp up inside ended
  have idle := (c.control.idle_of_running up inside).1
  have onDisk := c.onDisk
  have pending := c.pending
  have shows := c.up up
  simp only [OnDisk, idle] at onDisk
  simp only [Pending, idle] at pending
  simp only [pins, idle] at shows
  unfold Kernel.endOp at ended
  split at ended
  · cases ended
  split at ended
  · cases ended
    by_cases empty : k.lh = []
    · simp only [if_pos empty] at control ⊢
      have nothing : h.pending = [] := by
        refine List.eq_nil_iff_forall_not_mem.mpr fun w member => ?_
        have logged := (pending w.blockno).mpr ⟨w, member, rfl⟩
        simp [empty] at logged
      exact ⟨control, c.near, c.some_of, c.wellFormed, onDisk, fun _ => shows, fun down => absurd
        (up.symm.trans down) (by simp), nothing⟩
    · simp only [if_neg empty] at control ⊢
      exact ⟨control, c.near, c.some_of, c.wellFormed, ⟨onDisk.1, onDisk.2, fun _ _ earlier => absurd earlier
        (Nat.not_lt_zero _)⟩,
        fun _ => shows, fun down => absurd (up.symm.trans down) (by simp), pending⟩
  · cases ended
    refine ⟨control, c.near, c.some_of, c.wellFormed, ?_, fun _ => ?_, fun down => absurd (up.symm.trans down)
      (by simp), ?_⟩
    · exact c.onDisk
    · exact c.up up
    · exact c.pending

omit [DecidableEq Pid] in
theorem Consistent.crash (c : Consistent base k h) :
    Consistent base
    (powerOn k.start k.size k.store.disk : Kernel Pid) { h with pending := [], lost := h.lost ++ h.pending } := by
  have recoverable := c.onDisk.recoverable c.wellFormed
  exact ⟨control_powerOn _ _ _, c.near, c.some_of, wellFormed_nil _ _, recoverable, fun up => absurd up
    (by simp [powerOn]),
    fun _ => ⟨Store.shows_binit _, fun _ => rfl⟩, rfl⟩

theorem Consistent.taken (c : Consistent base k h) (taken : k.Taken e k') : Consistent base k' (note k e h) := by
  cases taken with
  | beginOp up place => exact c.beginOp up place
  | bget up found => exact c.store up (Store.bget_disk found) ((c.up up).bget found)
  | fill up filled => exact c.store up ((c.up up).fill_disk filled) ((c.up up).fill filled)
  | logWrite up inside mine home logged => exact c.logWrite up inside mine home logged
  | brelse up released =>
    obtain ⟨shows, left⟩ := (c.up up).brelse released
    exact c.store up left.disk shows
  | endOp up inside ended => exact c.endOp up inside ended
  | go mine advance => exact c.advance advance
  | crash => exact c.crash

end

end Kernel

end OsLabs.Log
