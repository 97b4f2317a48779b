import OsLabs.Taskmaster.System

/-! Who may complete a task: the `task_ret` calls of a run against the processes the tasks
were handed to. -/

set_option autoImplicit false

namespace OsLabs.Taskmaster

open OsLabs.Lib

variable {Pid : Type*}

/-- The process the current issue of the slot was handed to. -/
def holder (log : List (Entry Pid)) (i : Slot) : Option Pid :=
  log.foldl (fun held e => match e.outcome with
    | .initialised => none
    | .stored j _ => if j = i then none else held
    | .handed j _ => if j = i then some e.pid else held
    | _ => held) none

section

variable [DecidableEq Pid]

def refusal (s : System Pid) (p : Pid) (tf : TrapFrame) : System Pid :=
  { s with procs := Function.update s.procs p { s.procs p with tf := { tf with eax := -1 } } }

/-- A slot becomes COMPLETED only from ALLOCATED, by a `task_ret` of the process its issue
was handed to; every other `task_ret` is refused; and a result that stands stays. -/
structure Rightful (x : System Pid × List (Entry Pid)) (l : Label Pid) : Prop where
  completes : ∀ s' e i, x.1.exec l = some (s', e) → (x.1.tasks i).status ≠ .completed →
    (s'.tasks i).status = .completed → (x.1.tasks i).status = .allocated ∧ holder x.2 i = some e.pid ∧
      ∃ tf taskId result, l = .syscall e.pid tf (.taskRet taskId result)
  refuses : ∀ p tf taskId result s' e, l = .syscall p tf (.taskRet taskId result) → x.1.exec l = some (s', e) →
    (∃ i, e.outcome = .completed i taskId result ∧ (x.1.tasks i).status = .allocated ∧ holder x.2 i = some p) ∨
      e.outcome.ret = some (-1) ∧ s' = refusal x.1 p tf
  published : ∀ s' e i, x.1.exec l = some (s', e) → (x.1.tasks i).status = .completed →
    (s'.tasks i).result = (x.1.tasks i).result

/-- Completing the slot once more leaves everything as it is: the identifier and the value
returned are -1, the result is the one that stands, nobody sleeps, and the caller calls with
the registers it gets back. -/
structure Futile (s : System Pid) (p : Pid) (tf : TrapFrame) (i : Slot) (taskId result : Word) : Prop where
  returned : taskId = -1
  completed : (s.tasks i).status = .completed
  same : (s.tasks i).result = result
  awake : ∀ q ≠ p, (s.procs q).place ≠ .waiting false ∧ ∀ id r next, (s.procs q).place ≠ .completing id r next false
  registers : { (s.procs p).oldtf with eax := -1 } = { tf with eax := -1 }

/-- A `task_ret` finds no slot with its identifier, or the lowest one is ALLOCATED and was
handed to the caller, or the call is futile. -/
def Entitled (x : System Pid × List (Entry Pid)) : Label Pid → Prop
  | .syscall p tf (.taskRet taskId result) => ∀ i, x.1.tasks.firstWith taskId = some i →
    (x.1.tasks i).status = .allocated ∧ holder x.2 i = some p ∨ Futile x.1 p tf i taskId result
  | _ => True

omit [DecidableEq Pid] in
theorem wake_eq_self {proc : Proc} :
    proc.wake = proc ↔ proc.place ≠ .waiting false ∧ ∀ id r next, proc.place ≠ .completing id r next false := by
  obtain ⟨tf, oldtf, memory, place⟩ := proc
  cases place with
  | user => simp [Proc.wake]
  | waiting awake => cases awake <;> simp [Proc.wake]
  | completing taskId result next awake => cases awake <;> simp [Proc.wake]

theorem complete_eq_self {t : Table} {i : Slot} {result : Word} :
    t.complete i result = t ↔ (t i).status = .completed ∧ (t i).result = result := by
  constructor
  · intro same
    have here := congrFun same i
    rw [Table.complete_apply, if_pos rfl] at here
    rw [← here]
    exact ⟨rfl, rfl⟩
  · rintro ⟨status, same⟩
    rw [Table.complete, ← status, ← same]
    exact Function.update_eq_self i t

theorem update_eq_update_iff {f g : Pid → Proc} {p : Pid} {a b : Proc} :
    Function.update f p a = Function.update g p b ↔ a = b ∧ ∀ q ≠ p, f q = g q := by
  rw [Function.update_eq_iff, Function.update_self]
  refine and_congr_right fun _ => forall_congr' fun q => imp_congr_right fun other => ?_
  rw [Function.update_of_ne other]

theorem taskRet_found {s s' : System Pid} {p : Pid} {tf : TrapFrame} {taskId result : Word} {i : Slot} {e : Entry Pid}
    (found : s.tasks.firstWith taskId = some i) (call : s.exec (.syscall p tf (.taskRet taskId result)) = some (s', e)) :
    e = ⟨p, .completed i taskId result⟩ ∧
      (e.outcome.ret = some (-1) ∧ s' = refusal s p tf ↔ Futile s p tf i taskId result) := by
  simp only [System.exec] at call
  split at call
  next user =>
    rw [Option.some.injEq] at call
    unfold System.call System.taskRet at call
    dsimp only at call
    rw [found] at call
    cases call
    refine ⟨rfl, ?_⟩
    simp only [Outcome.ret, System.wakeup, refusal, System.mk.injEq, Option.some.injEq]
    rw [update_eq_update_iff, complete_eq_self]
    constructor
    · rintro ⟨rfl, ⟨completed, same⟩, registers, awake⟩
      exact ⟨rfl, completed, same, fun q other => wake_eq_self.mp (awake q other), (Proc.mk.inj registers).1⟩
    · rintro ⟨rfl, completed, same, awake, registers⟩
      refine ⟨rfl, ⟨completed, same⟩, ?_, fun q other => wake_eq_self.mpr (awake q other)⟩
      rw [registers, user]
  next => cases call

theorem taskRet_notFound {s s' : System Pid} {p : Pid} {tf : TrapFrame} {taskId result : Word} {e : Entry Pid}
    (absent : s.tasks.firstWith taskId = none)
    (call : s.exec (.syscall p tf (.taskRet taskId result)) = some (s', e)) :
    e.outcome.ret = some (-1) ∧ s' = refusal s p tf := by
  simp only [System.exec] at call
  split at call
  next user =>
    rw [Option.some.injEq] at call
    unfold System.call System.taskRet at call
    dsimp only at call
    rw [absent] at call
    cases call
    refine ⟨rfl, ?_⟩
    simp only [Outcome.ret, refusal, user]
  next => cases call

theorem Effect.slot {t t' : Table} {outcome : Outcome} (effect : Effect t outcome t') (i : Slot) :
    t' i = t i ∨ (t' i).status ≠ .completed ∧ (t' i).result = (t i).result ∧
        ((t i).status = .completed → outcome = .initialised) ∨
      ∃ taskId result, outcome = .completed i taskId result ∧ t.firstWith taskId = some i ∧
        (t' i).status = .completed ∧ (t' i).result = result := by
  cases effect with
  | initialised => exact Or.inr (Or.inl ⟨TaskStatus.noConfusion, rfl, fun _ => rfl⟩)
  | @stored j issue found =>
    by_cases here : i = j
    · have free := (Table.firstFree_eq_some.mp found).1
      rw [here, Table.fill_apply, if_pos rfl, free]
      exact Or.inr (Or.inl ⟨TaskStatus.noConfusion, rfl, TaskStatus.noConfusion⟩)
    · exact Or.inl (by rw [Table.fill_apply, if_neg here])
  | @handed j found =>
    by_cases here : i = j
    · have pending := (Table.firstPending_eq_some.mp found).1
      rw [here, Table.setStatus_apply, if_pos rfl, pending]
      exact Or.inr (Or.inl ⟨TaskStatus.noConfusion, rfl, TaskStatus.noConfusion⟩)
    · exact Or.inl (by rw [Table.setStatus_apply, if_neg here])
  | @completed j taskId result found =>
    by_cases here : i = j
    · subst here
      rw [Table.complete_apply, if_pos rfl]
      exact Or.inr (Or.inr ⟨taskId, result, rfl, found, rfl, rfl⟩)
    · exact Or.inl (by rw [Table.complete_apply, if_neg here])
  | _ => exact Or.inl rfl

theorem rightful_iff {x y : System Pid × List (Entry Pid)} {l : Label Pid} (taken : System.step x l = some y) :
    Rightful x l ↔ Entitled x l := by
  obtain ⟨s, log⟩ := x
  obtain ⟨⟨s₁, e₁⟩, call, -⟩ := Option.map_eq_some_iff.mp taken
  constructor
  · intro rightful
    match l, rightful, call with
    | .syscall p tf (.taskRet taskId result), rightful, call =>
      intro i found
      obtain ⟨same, futile⟩ := taskRet_found found call
      rcases rightful.refuses p tf taskId result s₁ e₁ rfl call with ⟨j, outcome, allocated, held⟩ | refused
      · rw [same, Outcome.completed.injEq] at outcome
        exact Or.inl (outcome.1 ▸ ⟨allocated, held⟩)
      · exact Or.inr (futile.mp refused)
    | .syscall _ _ .initTaskmaster, _, _ | .syscall _ _ (.doTask _), _, _ | .syscall _ _ .waitForTask, _, _
    | .syscall _ _ (.waitForTaskToComplete ..), _, _ | .resume _, _, _ => trivial
  · intro entitled
    -- a completion is always the task_ret of this step, so that the label says who makes it
    have completing : ∀ i taskId result, e₁.outcome = .completed i taskId result → s.tasks.firstWith taskId = some i →
        ∃ tf, l = .syscall e₁.pid tf (.taskRet taskId result) ∧
          ((s.tasks i).status = .allocated ∧ holder log i = some e₁.pid ∨ Futile s e₁.pid tf i taskId result) := by
      intro i taskId result outcome found
      obtain ⟨tf, same⟩ := System.exec_origin (r := .taskRet taskId result) call (by rw [outcome]; rfl)
      rw [same] at entitled
      exact ⟨tf, same, entitled i found⟩
    have effect := System.exec_effect call
    refine ⟨?_, ?_, ?_⟩
    · intro s' e i again before after
      obtain ⟨rfl, rfl⟩ := Prod.mk.inj (Option.some.inj (call.symm.trans again))
      rcases effect.slot i with same | ⟨other, -⟩ | ⟨taskId, result, outcome, found, -⟩
      · exact absurd (same ▸ after) before
      · exact absurd after other
      · obtain ⟨tf, label, ⟨allocated, held⟩ | futile⟩ := completing i taskId result outcome found
        · exact ⟨allocated, held, tf, taskId, result, label⟩
        · exact absurd futile.completed before
    · intro p tf taskId result s' e label again
      obtain ⟨rfl, rfl⟩ := Prod.mk.inj (Option.some.inj (call.symm.trans again))
      subst label
      cases found : s.tasks.firstWith taskId with
      | none => exact Or.inr (taskRet_notFound found call)
      | some i =>
        obtain ⟨same, futile⟩ := taskRet_found found call
        rcases entitled i found with ⟨allocated, held⟩ | once_more
        · exact Or.inl ⟨i, by rw [same], allocated, held⟩
        · exact Or.inr (futile.mpr once_more)
    · intro s' e i again stands
      obtain ⟨rfl, rfl⟩ := Prod.mk.inj (Option.some.inj (call.symm.trans again))
      rcases effect.slot i with same | ⟨-, kept, -⟩ | ⟨taskId, result, outcome, found, -, new⟩
      · rw [same]
      · exact kept
      · obtain ⟨tf, label, ⟨allocated, -⟩ | futile⟩ := completing i taskId result outcome found
        · rw [allocated] at stands
          cases stands
        · exact new.trans futile.same.symm

/-! ## Runs -/

def Completes (i : Slot) (x : System Pid × List (Entry Pid)) (l : Label Pid) : Prop :=
  (x.1.tasks i).status ≠ .completed ∧ ∃ y, System.step x l = some y ∧ (y.1.tasks i).status = .completed

/-- Between two steps of the run that make a slot COMPLETED it is filled with a new issue. -/
def OncePerIssue (start : System Pid × List (Entry Pid)) (ls : List (Label Pid)) : Prop :=
  ∀ before l between l' after x y z i, ls = before ++ l :: (between ++ l' :: after) →
    Machine.run System.step start before = some x → Completes i x l → System.step x l = some y →
    Machine.run System.step y between = some z → Completes i z l' →
    ∃ e ∈ z.2.drop y.2.length, ∃ issue, e.outcome = .stored i issue

structure Settled (n : Nat) (i : Slot) (x : System Pid × List (Entry Pid)) : Prop where
  longer : n ≤ x.2.length
  since : (∃ e ∈ x.2.drop n, ∃ issue, e.outcome = .stored i issue) ∨
    (x.1.tasks i).status = .completed ∨ (x.1.tasks i).status = .free

theorem Effect.rests {t t' : Table} {outcome : Outcome} (effect : Effect t outcome t') {i : Slot}
    (rests : (t i).status = .completed ∨ (t i).status = .free) :
    (∃ issue, outcome = .stored i issue) ∨ (t' i).status = .completed ∨ (t' i).status = .free := by
  cases effect with
  | initialised => exact Or.inr (Or.inr rfl)
  | @stored j issue found =>
    by_cases here : i = j
    · exact Or.inl ⟨issue, by rw [here]⟩
    · rw [Table.fill_apply, if_neg here]
      exact Or.inr rests
  | @handed j found =>
    have apart : i ≠ j := by
      rintro rfl
      rw [(Table.firstPending_eq_some.mp found).1] at rests
      rcases rests with same | same <;> cases same
    rw [Table.setStatus_apply, if_neg apart]
    exact Or.inr rests
  | @completed j taskId result found =>
    rw [Table.complete_apply]
    split
    · exact Or.inr (Or.inl rfl)
    · exact Or.inr rests
  | _ => exact Or.inr rests

theorem Settled.step {n : Nat} {i : Slot} {x y : System Pid × List (Entry Pid)} {l : Label Pid} (settled : Settled n i x)
    (taken : System.step x l = some y) : Settled n i y := by
  obtain ⟨s, log⟩ := x
  obtain ⟨s', log'⟩ := y
  obtain ⟨e, call, rfl⟩ := Machine.record_eq_some.mp taken
  have longer : n ≤ log.length := settled.longer
  refine ⟨Nat.le_trans longer (by simp), ?_⟩
  rw [List.drop_append_of_le_length longer]
  rcases settled.since with ⟨e', member, stored⟩ | rests
  · exact Or.inl ⟨e', List.mem_append_left _ member, stored⟩
  · rcases (System.exec_effect call).rests rests with stored | rests
    · exact Or.inl ⟨e, List.mem_append_right _ (List.mem_singleton_self e), stored⟩
    · exact Or.inr rests

/-- Every completion of a run is by the process the task was handed to and happens once for
each issue, every other `task_ret` is refused and results stand, just when no `task_ret` of
the run finds a slot that is not its caller's, unless to no effect. -/
theorem completion_exclusive_iff (tf : Pid → TrapFrame) (memory : Pid → Memory) (ls : List (Label Pid))
    (final : System Pid × List (Entry Pid)) (reached : Machine.run System.step (System.boot tf memory, []) ls = some final) :
    Machine.EveryStep System.step Rightful (System.boot tf memory, []) ls ∧
        OncePerIssue (System.boot tf memory, []) ls ↔
      Machine.EveryStep System.step Entitled (System.boot tf memory, []) ls := by
  have same := Machine.everyStep_congr (fun _ _ _ taken => rightful_iff taken) reached
  rw [same]
  refine and_iff_left_of_imp fun entitled => ?_
  intro before l between l' after x y z i split upto first taken further second
  subst split
  obtain ⟨-, here, later⟩ := (Machine.everyStep_append upto).mp entitled
  obtain ⟨-, entitled', -⟩ := (Machine.everyStep_append further).mp (later y taken)
  obtain ⟨-, y', taken', completed⟩ := first
  obtain rfl := Option.some.inj (taken.symm.trans taken')
  -- the record has only grown since the first completion: what is stored in it is stored after
  have settled : Settled y.2.length i z := Machine.invariant (I := Settled y.2.length i)
    (fun _ _ _ settled taken => settled.step taken) ⟨Nat.le_refl _, Or.inr (Or.inl completed)⟩ further
  rcases settled.since with stored | completed | free
  · exact stored
  · exact absurd completed second.1
  -- a slot freed meanwhile is not completed again: the caller would need it allocated
  · obtain ⟨before, y', taken', after⟩ := second
    have rightful := (rightful_iff taken').mpr entitled'
    obtain ⟨e, call, -⟩ := Machine.record_eq_some.mp (show Machine.record System.exec (z.1, z.2) l' = some (y'.1, y'.2) from taken')
    have allocated := (rightful.completes y'.1 e i call before after).1
    rw [free] at allocated
    cases allocated

end

def checkEntitled (x : System Bool × List (Entry Bool)) : Label Bool → Bool
  | .syscall p _ (.taskRet taskId _) => (x.1.tasks.firstWith taskId).all fun i =>
    decide ((x.1.tasks i).status = .allocated ∧ holder x.2 i = some p)
  | _ => true

theorem entitled_of_check {x : System Bool × List (Entry Bool)} {l : Label Bool} (checked : checkEntitled x l = true) :
    Entitled x l := by
  cases l with
  | resume p => trivial
  | syscall p tf request =>
    cases request with
    | taskRet taskId result =>
      intro i found
      simp only [checkEntitled, found, Option.all_some, decide_eq_true_eq] at checked
      exact Or.inl checked
    | _ => trivial

def handedOver : List (Label Bool) :=
  [.syscall false .start (.doTask ⟨64, 5, 3, 4⟩), .syscall true .start .waitForTask, .syscall true .start (.taskRet 5 9)]

theorem completion_exclusive_handedOver :
    Machine.EveryStep System.step Rightful (System.idle Bool, []) handedOver ∧
      OncePerIssue (System.idle Bool, []) handedOver := by
  have ran : (Machine.run System.step (System.idle Bool, []) handedOver).isSome = true := by decide +kernel
  have checked : Machine.checkRun System.step checkEntitled (System.idle Bool, []) handedOver = true := by decide +kernel
  obtain ⟨final, reached⟩ := Option.isSome_iff_exists.mp ran
  exact (completion_exclusive_iff (fun _ => .start) (fun _ _ => 0) handedOver final reached).mpr
    (Machine.everyStep_of_checkRun (fun _ _ => entitled_of_check) checked)

/-- `task_ret(0, 9)` on the zeroed table completes its first slot, which is free. -/
theorem completion_of_free_slot :
    ¬Machine.EveryStep System.step Rightful (System.idle Bool, []) [.syscall false .start (.taskRet 0 9)] := by
  have facts : ((System.idle Bool).exec (.syscall false .start (.taskRet 0 9))).any fun r =>
      decide ((r.1.tasks 0).status = .completed) := by decide +kernel
  obtain ⟨⟨s', e⟩, call, completed⟩ := (Option.any_eq_true _ _).mp facts
  intro ⟨rightful, _⟩
  cases (rightful.completes s' e 0 call TaskStatus.noConfusion (of_decide_eq_true completed)).1

end OsLabs.Taskmaster
