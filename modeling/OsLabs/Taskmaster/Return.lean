import OsLabs.Taskmaster.System

/-! Entering a task and returning from it. `wait_for_task` saves the trap frame in the one
page `oldtf` of the process, and `task_ret` copies it back, whichever task it names. -/

set_option autoImplicit false

namespace OsLabs.Taskmaster

open OsLabs.Lib

/-! ## What the calls do to the saved frame -/

def Outcome.saves : Outcome → Bool
  | .handed _ _ => true
  | _ => false

def Outcome.restores : Outcome → Bool
  | .completed _ _ _ => true
  | _ => false

/-- Equal but for `eax`, which every system call overwrites when it returns. -/
def TrapFrame.SameButEax (a b : TrapFrame) : Prop := a.eip = b.eip ∧ a.esp = b.esp ∧ a.others = b.others

instance (a b : TrapFrame) : Decidable (a.SameButEax b) := inferInstanceAs (Decidable (_ ∧ _ ∧ _))

theorem TrapFrame.sameButEax_iff {a b : TrapFrame} {v : Word} :
    a.SameButEax b ↔ { a with eax := v } = { b with eax := v } := by
  rw [TrapFrame.mk.injEq]
  constructor
  · rintro ⟨eip, esp, others⟩
    exact ⟨eip, esp, rfl, others⟩
  · rintro ⟨eip, esp, -, others⟩
    exact ⟨eip, esp, others⟩

namespace System

variable {Pid : Type*} [DecidableEq Pid] {s s' : System Pid} {p : Pid} {proc : Proc} {e : Entry Pid}

structure Saves (s s' : System Pid) (p : Pid) (tf : TrapFrame) (e : Entry Pid) : Prop where
  pid : e.pid = p
  oldtf : ∀ q, (s'.procs q).oldtf = if q = p ∧ e.outcome.saves then tf else (s.procs q).oldtf

theorem settle_saves {t : System Pid} {outcome : Outcome} {tf : TrapFrame} (call : t.settle p proc outcome = (s', e))
    (others : ∀ q, (t.procs q).oldtf = (s.procs q).oldtf)
    (own : proc.oldtf = if outcome.saves then tf else (s.procs p).oldtf) : Saves s s' p tf e := by
  cases call
  refine ⟨rfl, fun q => ?_⟩
  by_cases same : q = p
  · subst same
    simp only [Function.update_self, true_and]
    rw [← own]
    split <;> rfl
  · simp only [Function.update_of_ne same, same, false_and]
    exact others q

theorem waitForTask_saves (call : s.waitForTask p proc = (s', e)) (own : proc.oldtf = (s.procs p).oldtf) :
    Saves s s' p proc.tf e := by
  unfold waitForTask at call
  split at call
  · exact settle_saves call (fun _ => rfl) rfl
  · exact settle_saves call (fun _ => rfl) own

theorem complete_saves {taskId result : Word} {next : Nat} (call : s.complete p proc taskId result next = (s', e))
    (own : proc.oldtf = (s.procs p).oldtf) : Saves s s' p proc.tf e := by
  unfold complete at call
  split at call
  · exact settle_saves call (fun _ => rfl) own
  · split at call
    · exact settle_saves call (fun _ => rfl) own
    · exact settle_saves call (fun _ => rfl) own

theorem call_saves {request : Request} (call : s.call p proc request = (s', e))
    (own : proc.oldtf = (s.procs p).oldtf) : Saves s s' p proc.tf e := by
  cases request with
  | initTaskmaster =>
    unfold System.call at call
    exact settle_saves call (fun _ => rfl) own
  | doTask issue =>
    unfold System.call doTask at call
    dsimp only at call
    split at call
    · exact settle_saves call (fun _ => rfl) own
    · split at call
      · exact settle_saves call (fun _ => rfl) own
      · exact settle_saves call (fun _ => rfl) own
  | waitForTask => exact waitForTask_saves call own
  | waitForTaskToComplete taskId result =>
    unfold System.call at call
    dsimp only at call
    split at call
    · exact settle_saves call (fun _ => rfl) own
    · exact complete_saves call own
  | taskRet taskId result =>
    unfold System.call taskRet at call
    dsimp only at call
    split at call
    · exact settle_saves call (fun _ => rfl) own
    · exact settle_saves call (fun _ => rfl) own

def frame (s : System Pid) : Label Pid → TrapFrame
  | .syscall _ tf _ => tf
  | .resume p => (s.procs p).tf

theorem exec_saves {l : Label Pid} (call : s.exec l = some (s', e)) : Saves s s' e.pid (s.frame l) e := by
  have caller : ∀ {p tf}, Saves s s' p tf e → Saves s s' e.pid tf e := fun saves => saves.pid ▸ saves
  cases l with
  | syscall p tf request =>
    simp only [exec] at call
    split at call
    · rw [Option.some.injEq] at call
      exact caller (call_saves call rfl)
    · cases call
  | resume p =>
    simp only [exec] at call
    split at call
    · rw [Option.some.injEq] at call
      exact caller (waitForTask_saves call rfl)
    · rw [Option.some.injEq] at call
      exact caller (complete_saves call rfl)
    · cases call

/-- `task_ret` copies the saved frame back exactly when some slot, in use or not, has the identifier. -/
theorem exec_taskRet {tf : TrapFrame} {taskId result : Word}
    (call : s.exec (.syscall p tf (.taskRet taskId result)) = some (s', e)) :
    (∃ i, (s.tasks i).taskId = taskId) ∧ e.outcome.restores ∧ e.outcome.ret = some taskId ∧
        (s'.procs p).tf = { (s.procs p).oldtf with eax := taskId } ∨
      (∀ i, (s.tasks i).taskId ≠ taskId) ∧ ¬e.outcome.restores ∧ e.outcome.ret = some (-1) ∧
        (s'.procs p).tf = { tf with eax := -1 } := by
  simp only [exec] at call
  split at call
  · rw [Option.some.injEq] at call
    unfold System.call taskRet at call
    dsimp only at call
    split at call
    next i found =>
      cases call
      refine Or.inl ⟨⟨i, (Table.firstWith_eq_some.mp found).1⟩, rfl, rfl, ?_⟩
      simp [Outcome.ret]
    next absent =>
      cases call
      refine Or.inr ⟨Table.firstWith_eq_none.mp absent, Bool.false_ne_true, rfl, ?_⟩
      simp [Outcome.ret]
  · cases call

end System

/-! ## Histories -/

inductive Activity (Pid : Type*) where
  | task (l : Label Pid)
  | other (p : Pid) (tf : TrapFrame) (memory : Memory)

/-- The frames saved for the tasks that a process was handed and has not returned from,
the latest first, and the frame saved last. -/
structure Frames where
  outstanding : List TrapFrame
  latest : Option TrapFrame

namespace Frames

def none : Frames := ⟨[], .none⟩

def after (f : Frames) (frame : TrapFrame) : Outcome → Frames
  | .handed _ _ => { outstanding := frame :: f.outstanding, latest := some frame }
  | .completed _ _ _ => { f with outstanding := f.outstanding.tail }
  | _ => f

def Permit (f : Frames) (t : Table) (taskId : Word) : Prop :=
  match f.outstanding with
  | frame :: _ => (∃ i, (t i).taskId = taskId) ∧ ∃ saved ∈ f.latest, saved.SameButEax frame
  | [] => ∀ i, (t i).taskId ≠ taskId

instance (f : Frames) (t : Table) (taskId : Word) : Decidable (f.Permit t taskId) := by
  unfold Permit
  split <;> infer_instance

/-- The call ended with these registers as a return from the latest outstanding task, or
as a refusal where there is none. -/
def Matches (f : Frames) (tf : TrapFrame) (taskId : Word) (outcome : Outcome) (tf' : TrapFrame) : Prop :=
  match f.outstanding with
  | frame :: _ => outcome.restores ∧ outcome.ret = some taskId ∧ tf' = { frame with eax := taskId }
  | [] => ¬outcome.restores ∧ outcome.ret = some (-1) ∧ tf' = { tf with eax := -1 }

theorem latest_after (f : Frames) (frame : TrapFrame) (o : Outcome) :
    (f.after frame o).latest = if o.saves then some frame else f.latest := by
  cases o <;> rfl

theorem outstanding_after {f : Frames} {frame : TrapFrame} {o : Outcome} (more : (f.after frame o).outstanding ≠ []) :
    o.saves ∨ f.outstanding ≠ [] := by
  cases o with
  | handed i task => exact Or.inl rfl
  | completed i taskId result =>
    refine Or.inr fun empty => more ?_
    simp [after, empty]
  | _ => exact Or.inr more

end Frames

section Runs

variable {Pid : Type*} [DecidableEq Pid]

namespace System

def act : Machine (System Pid) (Activity Pid)
  | s, .task l => (s.exec l).map Prod.fst
  | s, .other p tf memory =>
    match (s.procs p).place with
    | .user => some { s with procs := Function.update s.procs p { s.procs p with tf, memory } }
    | _ => none

def note (s : System Pid) : Activity Pid → (Pid → Frames) → Pid → Frames
  | .task l, f =>
    match s.exec l with
    | some (_, e) => Function.update f e.pid ((f e.pid).after (s.frame l) e.outcome)
    | none => f
  | .other _ _ _, f => f

def framed : Machine (System Pid × (Pid → Frames)) (Activity Pid) := Machine.watch note act

end System

/-- A `task_ret` of the process restores the frame of its latest outstanding task, with the
identifier in `eax`, or, where there is none, returns -1 and restores nothing. -/
def Unwinds (p : Pid) (x : System Pid × (Pid → Frames)) (a : Activity Pid) : Prop :=
  ∀ tf taskId result s' e, a = .task (.syscall p tf (.taskRet taskId result)) →
    x.1.exec (.syscall p tf (.taskRet taskId result)) = some (s', e) →
    (x.2 p).Matches tf taskId e.outcome (s'.procs p).tf

/-- A `task_ret` of the process finds its identifier in the table exactly when the process
has a task to return from, and then the frame saved last is that of this task. -/
def Matched (p : Pid) (x : System Pid × (Pid → Frames)) (a : Activity Pid) : Prop :=
  ∀ tf taskId result, a = .task (.syscall p tf (.taskRet taskId result)) → (x.2 p).Permit x.1.tasks taskId

structure Recorded (p : Pid) (x : System Pid × (Pid → Frames)) : Prop where
  latest : ∀ saved ∈ (x.2 p).latest, (x.1.procs p).oldtf = saved
  outstanding : (x.2 p).outstanding ≠ [] → ∃ saved, saved ∈ (x.2 p).latest

namespace Recorded

variable {p : Pid} {x y : System Pid × (Pid → Frames)} {a : Activity Pid}

omit [DecidableEq Pid] in
theorem start (s : System Pid) (p : Pid) : Recorded p (s, fun _ => .none) where
  latest saved member := by cases member
  outstanding more := absurd rfl more

omit [DecidableEq Pid] in
theorem of_after (inv : Recorded p x) {frame : TrapFrame} {o : Outcome}
    (page : (y.1.procs p).oldtf = if o.saves then frame else (x.1.procs p).oldtf)
    (frames : y.2 p = (x.2 p).after frame o) : Recorded p y where
  latest saved member := by
    rw [frames, Frames.latest_after] at member
    rw [page]
    split at member
    next saves =>
      rw [if_pos saves]
      exact Option.mem_some_iff.mp member
    next silent =>
      rw [if_neg silent]
      exact inv.latest saved member
  outstanding more := by
    rw [frames] at more ⊢
    rw [Frames.latest_after]
    split
    · exact ⟨frame, rfl⟩
    next silent => exact inv.outstanding ((Frames.outstanding_after more).resolve_left silent)

theorem step (inv : Recorded p x) (taken : System.framed x a = some y) : Recorded p y := by
  obtain ⟨acted, noted⟩ := Machine.watch_eq_some.mp taken
  cases a with
  | task l =>
    obtain ⟨⟨s', e⟩, call, same⟩ := Option.map_eq_some_iff.mp acted
    have saves := System.exec_saves call
    simp only [System.note, call] at noted
    by_cases own : p = e.pid
    · have page : (y.1.procs p).oldtf = if e.outcome.saves then x.1.frame l else (x.1.procs p).oldtf := by
        rw [← same, saves.oldtf]
        simp [own]
      have frames : y.2 p = (x.2 p).after (x.1.frame l) e.outcome := by
        rw [noted, ← own, Function.update_self]
      exact inv.of_after page frames
    · have page : (y.1.procs p).oldtf = (x.1.procs p).oldtf := by
        rw [← same, saves.oldtf]
        simp [own]
      have frames : y.2 p = x.2 p := by rw [noted, Function.update_of_ne own]
      exact ⟨by rw [page, frames]; exact inv.latest, by rw [frames]; exact inv.outstanding⟩
  -- no other system call writes oldtf
  | other q tf memory =>
    have frames : y.2 p = x.2 p := congrFun noted p
    have page : (y.1.procs p).oldtf = (x.1.procs p).oldtf := by
      simp only [System.act] at acted
      split at acted
      · rw [← Option.some.inj acted]
        by_cases own : p = q
        · subst own
          simp
        · simp [own]
      · cases acted
    exact ⟨by rw [page, frames]; exact inv.latest, by rw [frames]; exact inv.outstanding⟩

theorem matches_iff (inv : Recorded p x) {tf : TrapFrame} {taskId result : Word} {s' : System Pid} {e : Entry Pid}
    (call : x.1.exec (.syscall p tf (.taskRet taskId result)) = some (s', e)) :
    (x.2 p).Matches tf taskId e.outcome (s'.procs p).tf ↔ (x.2 p).Permit x.1.tasks taskId := by
  have ended := System.exec_taskRet call
  have latest := inv.latest
  have more := inv.outstanding
  generalize x.2 p = f at latest more
  obtain ⟨outstanding, saved⟩ := f
  cases outstanding with
  | nil =>
    -- with nothing to return from the call is right just when it is refused
    rcases ended with ⟨found, restores, -⟩ | ⟨absent, ended⟩
    · refine iff_of_false (fun ⟨silent, _⟩ => silent restores) fun absent => ?_
      obtain ⟨i, named⟩ := found
      exact absent i named
    · exact iff_of_true ended absent
  | cons frame rest =>
    obtain ⟨saved', here⟩ := more (List.cons_ne_nil _ _)
    have page := latest saved' here
    rcases ended with ⟨found, restores, ret, registers⟩ | ⟨absent, silent, -⟩
    -- the page is the caller's, so what is restored is the frame saved last for it
    · rw [page] at registers
      constructor
      · rintro ⟨-, -, same⟩
        exact ⟨found, saved', here, TrapFrame.sameButEax_iff.mpr (registers.symm.trans same)⟩
      · rintro ⟨-, kept, there, same⟩
        cases here.symm.trans there
        exact ⟨restores, ret, registers.trans (TrapFrame.sameButEax_iff.mp same)⟩
    · refine iff_of_false (fun ⟨restores, _⟩ => silent restores) fun ⟨⟨i, named⟩, _⟩ => ?_
      exact absent i named

theorem unwinds_iff (inv : Recorded p x) (taken : ∃ y, System.framed x a = some y) :
    Unwinds p x a ↔ Matched p x a := by
  constructor
  · rintro unwinds tf taskId result rfl
    obtain ⟨y, taken⟩ := taken
    obtain ⟨⟨s', e⟩, call, -⟩ := Option.map_eq_some_iff.mp (Machine.watch_eq_some.mp taken).1
    exact (inv.matches_iff call).mp (unwinds tf taskId result s' e rfl call)
  · rintro matched tf taskId result s' e rfl call
    exact (inv.matches_iff call).mpr (matched tf taskId result rfl)

end Recorded

/-- Call and return of tasks is balanced along a run exactly when every `task_ret` of the
process is matched. The run starts with any table, any registers and any bytes in the pages. -/
theorem unwinds_iff_matched {s : System Pid} {as : List (Activity Pid)} {y : System Pid × (Pid → Frames)} (p : Pid)
    (reached : Machine.run System.framed (s, fun _ => .none) as = some y) :
    Machine.EveryStep System.framed (Unwinds p) (s, fun _ => .none) as ↔
      Machine.EveryStep System.framed (Matched p) (s, fun _ => .none) as :=
  Machine.everyStep_iff_of_invariant (I := Recorded p) (fun _ _ inv taken => inv.unwinds_iff taken)
    (fun _ _ _ inv _ _ taken => inv.step taken) (.start s p) (Machine.everyStep_taken reached)

end Runs

def enteredAndLeft : List (Activity Bool) :=
  [.task (.syscall false .start (.doTask ⟨64, 5, 3, 4⟩)),
    .task (.syscall true { TrapFrame.start with eip := 100 } .waitForTask),
    .other true { TrapFrame.start with eip := 70, eax := 9 } fun _ => 0,
    .task (.syscall true { TrapFrame.start with eip := 72 } (.taskRet 5 49))]

def checkMatched (x : System Bool × (Bool → Frames)) : Activity Bool → Bool
  | .task (.syscall true _ (.taskRet taskId _)) => decide ((x.2 true).Permit x.1.tasks taskId)
  | _ => true

theorem unwinds_enteredAndLeft : ∃ y, Machine.run System.framed (System.idle Bool, fun _ => .none) enteredAndLeft = some y ∧
    (y.1.procs true).tf = { TrapFrame.start with eip := 100, eax := 5 } ∧
    Machine.EveryStep System.framed (Unwinds true) (System.idle Bool, fun _ => .none) enteredAndLeft := by
  have last : (Machine.run System.framed (System.idle Bool, fun _ => .none) enteredAndLeft).any
      (fun y => decide ((y.1.procs true).tf = { TrapFrame.start with eip := 100, eax := 5 })) = true := by decide +kernel
  have permitted : Machine.checkRun System.framed checkMatched (System.idle Bool, fun _ => .none) enteredAndLeft = true := by
    decide +kernel
  obtain ⟨y, reached, registers⟩ := (Option.any_eq_true _ _).mp last
  refine ⟨y, reached, of_decide_eq_true registers, (unwinds_iff_matched true reached).mpr ?_⟩
  refine Machine.everyStep_of_checkRun (fun x a checked => ?_) permitted
  rintro tf taskId result rfl
  exact of_decide_eq_true checked

/-- The zeroed table has a slot for task 0, and a process that was never handed a task names it. -/
theorem not_unwinds_unhanded : ∃ y, Machine.run System.framed (System.idle Bool, fun _ => .none)
      [.task (.syscall true { TrapFrame.start with eip := 100 } (.taskRet 0 7))] = some y ∧
    (y.1.procs true).tf = ((System.idle Bool).procs true).oldtf ∧
    ¬Machine.EveryStep System.framed (Unwinds true) (System.idle Bool, fun _ => .none)
      [.task (.syscall true { TrapFrame.start with eip := 100 } (.taskRet 0 7))] := by
  have called : ((System.idle Bool).exec (.syscall true { TrapFrame.start with eip := 100 } (.taskRet 0 7))).any
      (fun x => decide ((x.1.procs true).tf = ((System.idle Bool).procs true).oldtf ∧ x.2.outcome.restores)) = true := by
    decide +kernel
  obtain ⟨⟨s', e⟩, call, facts⟩ := (Option.any_eq_true _ _).mp called
  obtain ⟨registers, restores⟩ := of_decide_eq_true facts
  have acted : System.act (System.idle Bool) (.task (.syscall true { TrapFrame.start with eip := 100 } (.taskRet 0 7))) =
      some s' := Option.map_eq_some_iff.mpr ⟨_, call, rfl⟩
  obtain ⟨y, taken⟩ : ∃ y, System.framed (System.idle Bool, fun _ => .none)
      (.task (.syscall true { TrapFrame.start with eip := 100 } (.taskRet 0 7))) = some y := Machine.exists_watch acted
  have same : y.1 = s' := Option.some.inj ((Machine.watch_eq_some.mp taken).1.symm.trans acted)
  refine ⟨y, Machine.run_cons_eq_some.mpr ⟨y, taken, rfl⟩, by rw [same]; exact registers, fun all => ?_⟩
  exact (all.1 _ _ _ s' e rfl call).1 restores

end OsLabs.Taskmaster
