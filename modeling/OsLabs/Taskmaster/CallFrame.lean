import OsLabs.Taskmaster.System

/-! The call frame that `wait_for_task` builds for a task it hands out. The kernel stores it
through the caller's `esp`, which is whatever the caller has made it, and looks at `sz`
nowhere. -/

set_option autoImplicit false

namespace OsLabs.Taskmaster

abbrev KERNBASE : Nat := 0x80000000

abbrev Size := { sz : Word // sz.toNat ≤ KERNBASE }

structure Caller where
  tasks : Table
  tf : TrapFrame
  oldtf : TrapFrame
  memory : Memory

/-- What becomes of a store that is not to user memory: it may overwrite anything the kernel
works on, the table and the trap frames too, and with `none` it is a fault in the kernel. -/
abbrev Stray := Caller → Word → Word → Option Caller

structure Reply where
  caller : Caller
  ret : Option Word
  /-- The addresses of the words stored, in order. -/
  stores : List Word

section Call

variable (stray : Stray) (sz : Size)

/-- `*((int *) a) = v`. All pages below `sz` are there. -/
def Caller.store (x : Caller) (a v : Word) : Option Caller :=
  if a.toNat + 4 ≤ sz.val.toNat then some { x with memory := x.memory.storeWord a v } else stray x a v

/-- `p->tf->esp -= 4; *((int *) p->tf->esp) = v;` with `v` read from the table. -/
def Reply.push (r : Reply) (v : Caller → Word) : Option Reply :=
  let x := { r.caller with tf := { r.caller.tf with esp := r.caller.tf.esp - 4 } }
  (x.store stray sz x.tf.esp (v x)).map fun caller => { r with caller, stores := r.stores ++ [x.tf.esp] }

def Caller.handOut (x : Caller) (i : Slot) : Option Reply := do
  let r : Reply :=
    { caller := { x with tasks := x.tasks.setStatus i .allocated, oldtf := x.tf }, ret := none, stores := [] }
  let r ← r.push stray sz fun x => (x.tasks i).arg2
  let r ← r.push stray sz fun x => (x.tasks i).arg1
  let r ← r.push stray sz fun x => (x.tasks i).taskId
  -- room for the return address, which is not stored
  let tf := { r.caller.tf with esp := r.caller.tf.esp - 4, eip := (r.caller.tasks i).fptr }
  pure { r with caller := { r.caller with tf }, ret := some 1 }

/-- `wait_for_task` up to the point where it returns or sleeps. -/
def Caller.waitForTask (x : Caller) : Option Reply :=
  match x.tasks.firstPending with
  | some i => x.handOut stray sz i
  | none => some { caller := x, ret := none, stores := [] }

end Call

def Covers (a : Word) (n : Nat) (b : Word) : Prop := (b - a).toNat < n

instance (a : Word) (n : Nat) (b : Word) : Decidable (Covers a n b) := inferInstanceAs (Decidable (_ < _))

/-- The call fails and has done nothing, or the frame of the task is all it has written, in
the 12 bytes below `esp`, and these are user memory. -/
def Framed (sz : Size) (x : Caller) (i : Slot) (r : Reply) : Prop :=
  (r.ret = some (-1) ∧ (r.caller.tasks i).status = .pending ∧ r.stores = [] ∧ r.caller.memory = x.memory) ∨
    ((∀ b, (∃ a ∈ r.stores, Covers a 4 b) ↔ Covers (x.tf.esp - 12) 12 b) ∧
      (∀ b, Covers (x.tf.esp - 12) 12 b → b.toNat < sz.val.toNat) ∧
      (∀ b, ¬Covers (x.tf.esp - 12) 12 b → r.caller.memory b = x.memory b) ∧
      r.caller.tf.esp = x.tf.esp - 16 ∧ r.caller.tf.eip = (x.tasks i).fptr ∧
      r.caller.memory.loadWord (r.caller.tf.esp + 4) = (x.tasks i).taskId ∧
      r.caller.memory.loadWord (r.caller.tf.esp + 8) = (x.tasks i).arg1 ∧
      r.caller.memory.loadWord (r.caller.tf.esp + 12) = (x.tasks i).arg2)

/-! ## The frame inside user memory -/

section Inside

variable {sz : Size} {esp : Word}

theorem covered_iff : (∀ b, Covers (esp - 12) 12 b → b.toNat < sz.val.toNat) ↔
    12 ≤ esp.toNat ∧ esp.toNat ≤ sz.val.toNat := by
  have bound := sz.property
  unfold Covers
  constructor
  · intro inside
    have low : 12 ≤ esp.toNat := by
      by_contra wraps
      -- the frame goes through the last byte of the address space
      have last := inside (-1) (by bv_omega)
      revert last
      bv_omega
    have high := inside (esp - 1) (by bv_omega)
    refine ⟨low, ?_⟩
    revert high
    bv_omega
  · rintro ⟨low, high⟩ b covered
    bv_omega

variable {stray : Stray} {x : Caller} {i : Slot}

def Reply.pushed (r : Reply) (v : Caller → Word) : Reply :=
  let x := { r.caller with tf := { r.caller.tf with esp := r.caller.tf.esp - 4 } }
  { r with
    caller := { x with memory := x.memory.storeWord x.tf.esp (v x) }
    stores := r.stores ++ [x.tf.esp] }

theorem push_inside {r : Reply} {v : Caller → Word} (inside : (r.caller.tf.esp - 4).toNat + 4 ≤ sz.val.toNat) :
    r.push stray sz v = some (r.pushed v) := by
  simp only [Reply.push, Caller.store, if_pos inside, Option.map_some, Reply.pushed]

def Caller.framed (x : Caller) (i : Slot) : Caller :=
  let proc := Proc.enter { tf := x.tf, oldtf := x.oldtf, memory := x.memory, place := .user } (x.tasks i).toIssue
  { tasks := x.tasks.setStatus i .allocated, tf := proc.tf, oldtf := proc.oldtf, memory := proc.memory }

theorem pushes_fit (low : 12 ≤ esp.toNat) (high : esp.toNat ≤ sz.val.toNat) :
    (esp - 4).toNat + 4 ≤ sz.val.toNat ∧ (esp - 8).toNat + 4 ≤ sz.val.toNat ∧ (esp - 12).toNat + 4 ≤ sz.val.toNat := by
  refine ⟨?_, ?_, ?_⟩ <;> bv_omega

theorem pushes_at (esp : Word) : esp - 4 - 4 = esp - 8 ∧ esp - 8 - 4 = esp - 12 ∧ esp - 12 - 4 = esp - 16 := by
  refine ⟨?_, ?_, ?_⟩ <;> bv_omega

theorem handOut_inside (low : 12 ≤ x.tf.esp.toNat) (high : x.tf.esp.toNat ≤ sz.val.toNat) :
    x.handOut stray sz i = some
      { caller := x.framed i, ret := some 1, stores := [x.tf.esp - 4, x.tf.esp - 8, x.tf.esp - 12] } := by
  have ⟨first, second, third⟩ := pushes_fit low high
  obtain ⟨below, next, last⟩ := pushes_at x.tf.esp
  have issue := Table.toIssue_setStatus x.tasks i i .allocated
  simp only [Caller.handOut, Option.bind_eq_bind, Option.pure_def]
  rw [push_inside, Option.bind_some, push_inside, Option.bind_some, push_inside, Option.bind_some]
  · simp only [Reply.pushed, below, next, last, Caller.framed, Proc.enter, ← issue]
    rfl
  · simp only [Reply.pushed, below, next]
    exact third
  · simp only [Reply.pushed, below]
    exact second
  · exact first

theorem framed_inside (low : 12 ≤ x.tf.esp.toNat) (high : x.tf.esp.toNat ≤ sz.val.toNat) : Framed sz x i
    { caller := x.framed i, ret := some 1, stores := [x.tf.esp - 4, x.tf.esp - 8, x.tf.esp - 12] } := by
  refine Or.inr ⟨fun b => ?_, covered_iff.mpr ⟨low, high⟩, fun b outside => ?_, rfl, rfl, ?_⟩
  · simp only [List.mem_cons, List.not_mem_nil, or_false, exists_eq_or_imp, exists_eq_left, Covers]
    bv_omega
  · unfold Covers at outside
    simp only [Caller.framed, Proc.enter, Memory.storeWord]
    rw [if_neg, if_neg, if_neg]
    all_goals bv_omega
  · have entered := Proc.entered_enter { tf := x.tf, oldtf := x.oldtf, memory := x.memory, place := .user }
      (x.tasks i).toIssue
    have id := congrArg Issue.taskId entered
    have first := congrArg Issue.arg1 entered
    have second := congrArg Issue.arg2 entered
    simp only [Proc.entered] at id first second
    exact ⟨id, first, second⟩

end Inside

/-! ## Every esp -/

section Every

variable {stray : Stray} {sz : Size} {x : Caller} {i : Slot} {r : Reply}

theorem waitForTask_pending (found : x.tasks.firstPending = some i) :
    x.waitForTask stray sz = x.handOut stray sz i := by
  unfold Caller.waitForTask
  rw [found]

theorem waitForTask_ret (found : x.tasks.firstPending = some i) (handed : x.waitForTask stray sz = some r) :
    r.ret = some 1 := by
  rw [waitForTask_pending found] at handed
  simp only [Caller.handOut, Option.bind_eq_bind, Option.bind_eq_some_iff, Option.pure_def, Option.some.injEq] at handed
  obtain ⟨_, -, _, -, _, -, rfl⟩ := handed
  rfl

/-- The frame of a task handed out is all that the kernel writes, and is user memory,
exactly when the caller's `esp` lies in its memory with 12 bytes of it below. -/
theorem framed_iff (found : x.tasks.firstPending = some i) :
    (∃ r, x.waitForTask stray sz = some r ∧ Framed sz x i r) ↔ 12 ≤ x.tf.esp.toNat ∧ x.tf.esp.toNat ≤ sz.val.toNat := by
  constructor
  · rintro ⟨r, handed, ⟨failed, -⟩ | ⟨-, inside, -⟩⟩
    · rw [waitForTask_ret found handed] at failed
      cases failed
    · exact covered_iff.mp inside
  · rintro ⟨low, high⟩
    exact ⟨_, (waitForTask_pending found).trans (handOut_inside low high), framed_inside low high⟩

/-- Inside user memory this is the step of the task queue. -/
theorem waitForTask_agrees {Pid : Type*} [DecidableEq Pid] {s : System Pid} {p : Pid} {proc : Proc}
    (low : 12 ≤ proc.tf.esp.toNat) (high : proc.tf.esp.toNat ≤ sz.val.toNat) (found : s.tasks.firstPending = some i) :
    ∃ r, Caller.waitForTask stray sz ⟨s.tasks, proc.tf, proc.oldtf, proc.memory⟩ = some r ∧
      r.caller.tasks = (s.waitForTask p proc).1.tasks ∧
      r.caller.memory = ((s.waitForTask p proc).1.procs p).memory ∧
      { r.caller.tf with eax := 1 } = ((s.waitForTask p proc).1.procs p).tf ∧
      r.caller.oldtf = ((s.waitForTask p proc).1.procs p).oldtf := by
  refine ⟨_, (waitForTask_pending (x := ⟨s.tasks, proc.tf, proc.oldtf, proc.memory⟩) found).trans
    (handOut_inside (x := ⟨s.tasks, proc.tf, proc.oldtf, proc.memory⟩) low high), ?_⟩
  unfold System.waitForTask
  rw [found]
  simp only [System.settle, Outcome.ret, Function.update_self]
  exact ⟨rfl, rfl, rfl, rfl⟩

end Every

def onePending : Table :=
  Table.fill (fun _ => ⟨⟨0, 0, 0, 0⟩, .free, 0⟩) 0 ⟨64, 5, 3, 4⟩

def worker (esp : Word) : Caller where
  tasks := onePending
  tf := { TrapFrame.start with esp }
  oldtf := .start
  memory _ := 0

theorem framed_worker : ∃ r, (worker 12288).waitForTask (fun _ _ _ => none) ⟨12288, by decide⟩ = some r ∧
    Framed ⟨12288, by decide⟩ (worker 12288) 0 r :=
  (framed_iff (by decide +kernel)).mpr (by decide +kernel)

def elsewhere : Stray := fun x a v => some { x with memory := x.memory.storeWord a v }

/-- A worker points `esp` into the kernel before it calls. -/
theorem not_framed_kernel : ¬∃ r, (worker 0x80110000).waitForTask elsewhere ⟨12288, by decide⟩ = some r ∧
    Framed ⟨12288, by decide⟩ (worker 0x80110000) 0 r := by
  rintro ⟨r, handed, ⟨failed, -⟩ | ⟨-, inside, -⟩⟩
  · rw [waitForTask_ret (i := 0) (by decide +kernel) handed] at failed
    cases failed
  · have high := (covered_iff.mp inside).2
    revert high
    decide

end OsLabs.Taskmaster
