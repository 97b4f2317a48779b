import Mathlib.Data.List.Dedup
import OsLabs.Taskmaster.Routing

/-! The balance of slots: what `do_task` fills and what consuming a result gives back. -/

set_option autoImplicit false

namespace OsLabs.Taskmaster

open OsLabs.Lib

def nonFree (t : Table) : Nat := (Finset.univ.filter fun i => t.used i).card

def Outcome.stores : Outcome → Bool
  | .stored .. => true
  | _ => false

def Outcome.consumedId : Outcome → Option Word
  | .consumed _ taskId _ => some taskId
  | _ => none

variable {Pid : Type*}

def storedCount (log : List (Entry Pid)) : Nat := log.countP fun e => e.outcome.stores

def consumedCount (log : List (Entry Pid)) : Nat := (log.filterMap fun e => e.outcome.consumedId).dedup.length

/-- The slots in use are those of the tasks stored and not yet consumed. -/
def Recycled (s : System Pid × List (Entry Pid)) : Prop :=
  (nonFree s.1.tasks : Int) = storedCount s.2 - consumedCount s.2

section Count

variable {Q : Issue → Word → Prop} {t t' : Table} {log : List (Entry Pid)} {p : Pid}

theorem nonFree_congr (same : ∀ j, t'.used j ↔ t.used j) : nonFree t' = nonFree t := by
  unfold nonFree
  congr 1
  exact Finset.filter_congr fun j _ => by rw [same]

theorem nonFree_fill {i : Slot} (issue : Issue) (free : (t i).status = .free) :
    nonFree (t.fill i issue) = nonFree t + 1 := by
  have insert : (Finset.univ.filter fun j => (t.fill i issue).used j) =
      insert i (Finset.univ.filter fun j => t.used j) := by
    ext j
    simp only [Finset.mem_filter, Finset.mem_univ, true_and, Finset.mem_insert]
    exact t.used_fill i j issue
  rw [nonFree, insert, Finset.card_insert_of_notMem, nonFree]
  simp [Table.used, free]

theorem nonFree_of_full (full : t.firstFree = none) : nonFree t = 100 := by
  have all : (Finset.univ.filter fun j => t.used j) = Finset.univ :=
    Finset.filter_true_of_mem fun j _ => Table.used_iff.mpr (Table.firstFree_eq_none.mp full j)
  rw [nonFree, all, Finset.card_univ, Fintype.card_fin]

theorem Effect.stores {o : Outcome} {issue : Issue} (effect : Effect t o t')
    (request : o.request = some (.doTask issue)) (room : t.firstFree ≠ none) : ∃ i, o = .stored i issue := by
  cases effect with
  | @stored i _ found =>
    cases request
    exact ⟨i, rfl⟩
  | dropped full => exact absurd full room
  | refused full => exact absurd full room
  | _ => cases request

/-- No call of a disciplined run frees a slot. -/
theorem Tracked.counted (tr : Tracked Q t log) (count : nonFree t = storedCount log) {o : Outcome}
    (effect : Effect t o t') (allowed : ∀ r, o.request = some r → Allowed Q log p r) :
    nonFree t' = storedCount (log ++ [⟨p, o⟩]) := by
  rw [storedCount, List.countP_append, List.countP_singleton, ← storedCount, ← count]
  by_cases stores : ∃ i issue, o = .stored i issue
  · obtain ⟨i, issue, rfl⟩ := stores
    obtain ⟨found, rfl⟩ := effect.of_stored
    exact nonFree_fill issue (Table.firstFree_eq_some.mp found).1
  · have not_stored : ∀ i issue, o ≠ .stored i issue := fun i issue same => stores ⟨i, issue, same⟩
    have silent : o.stores = false := by
      cases o with
      | stored i issue => exact absurd rfl (not_stored i issue)
      | _ => rfl
    rw [nonFree_congr (tr.used_iff effect allowed not_stored)]
    simp [silent]

end Count

/-! ## Consuming -/

section Consume

variable {s s' : System Pid} {l : Label Pid} {e : Entry Pid}

/-- A scan of `wait_for_task_to_complete` is about to stop at a completed slot. -/
def Consuming (s : System Pid) : Label Pid → Prop
  | .syscall _ _ (.waitForTaskToComplete taskId _) =>
    ∃ i, s.tasks.scan taskId 0 = some i ∧ (s.tasks i).status = .completed
  | .resume p =>
    match (s.procs p).place with
    | .completing taskId _ next _ => ∃ i, s.tasks.scan taskId next = some i ∧ (s.tasks i).status = .completed
    | _ => False
  | _ => False

variable [DecidableEq Pid]

theorem complete_consumed_iff {p : Pid} {proc : Proc} {taskId result : Word} {next : Nat}
    (call : s.complete p proc taskId result next = (s', e)) :
    e.outcome.consumedId.isSome ↔ ∃ i, s.tasks.scan taskId next = some i ∧ (s.tasks i).status = .completed := by
  unfold System.complete at call
  split at call
  next absent =>
    cases call
    simp [Outcome.consumedId, absent]
  next i found =>
    split at call
    next done =>
      cases call
      simp [Outcome.consumedId, found, done]
    next waiting =>
      cases call
      simp [Outcome.consumedId, found, waiting]

theorem waitForTask_consumes_nothing {p : Pid} {proc : Proc} (call : s.waitForTask p proc = (s', e)) :
    ¬e.outcome.consumedId.isSome := by
  unfold System.waitForTask at call
  split at call <;>
    · cases call
      simp [Outcome.consumedId]

theorem call_consumed_iff {p : Pid} {proc : Proc} {request : Request} (tf : TrapFrame)
    (call : s.call p proc request = (s', e)) : e.outcome.consumedId.isSome ↔ Consuming s (.syscall p tf request) := by
  cases request with
  | initTaskmaster =>
    cases call
    simp [Outcome.consumedId, Consuming]
  | doTask issue =>
    unfold System.call System.doTask at call
    refine iff_of_false ?_ id
    dsimp only at call
    split at call
    · cases call
      simp [Outcome.consumedId]
    · split at call <;>
      · cases call
        simp [Outcome.consumedId]
  | waitForTask =>
    unfold System.call at call
    exact iff_of_false (waitForTask_consumes_nothing call) id
  | waitForTaskToComplete taskId result =>
    unfold System.call at call
    dsimp only at call
    split at call
    next absent =>
      cases call
      refine iff_of_false (by simp [Outcome.consumedId]) ?_
      rintro ⟨i, found, -⟩
      exact Table.firstWith_eq_none.mp absent i (Table.taskId_of_scan found)
    next => exact complete_consumed_iff call
  | taskRet taskId result =>
    unfold System.call System.taskRet at call
    refine iff_of_false ?_ id
    dsimp only at call
    split at call <;>
    · cases call
      simp [Outcome.consumedId]

theorem exec_consumed_iff (call : s.exec l = some (s', e)) : e.outcome.consumedId.isSome ↔ Consuming s l := by
  cases l with
  | syscall p tf request =>
    simp only [System.exec] at call
    split at call
    · rw [Option.some.injEq] at call
      exact call_consumed_iff tf call
    · cases call
  | resume p =>
    simp only [System.exec] at call
    split at call
    next place =>
      rw [Option.some.injEq] at call
      simpa [Consuming, place] using waitForTask_consumes_nothing call
    next place =>
      rw [Option.some.injEq] at call
      simpa only [Consuming, place] using complete_consumed_iff call
    next => cases call

end Consume

/-! ## The balance along a run -/

section Run

variable [DecidableEq Pid] {Q : Issue → Word → Prop} {s₀ s₁ : System Pid} {m : Pid} {tf : TrapFrame}
  {e₀ : Entry Pid}

theorem counted_run {ls : List (Label Pid)} {s : System Pid} {log : List (Entry Pid)}
    (init : s₀.exec (.syscall m tf .initTaskmaster) = some (s₁, e₀))
    (disciplined : Machine.EveryStep System.step (Disciplined Q) (s₁, []) ls)
    (reached : Machine.run System.step (s₁, []) ls = some (s, log)) : nonFree s.tasks = storedCount log := by
  have start : nonFree s₁.tasks = storedCount ([] : List (Entry Pid)) := by
    rw [System.exec_initTaskmaster init]
    simp [nonFree, Table.used, Table.initTaskmaster, storedCount]
  have tracked : Tracked Q s₁.tasks ([] : List (Entry Pid)) := by
    rw [System.exec_initTaskmaster init]
    exact Tracked.initTaskmaster _
  refine (Machine.invariant_of_everyStep
    (I := fun x : System Pid × List (Entry Pid) => Tracked Q x.1.tasks x.2 ∧ nonFree x.1.tasks = storedCount x.2)
    ?_ ⟨tracked, start⟩ disciplined reached).2
  intro x l y ⟨tr, count⟩ allowed step
  refine ⟨tracked_step tr allowed step, ?_⟩
  obtain ⟨⟨p, o⟩, call, same⟩ := Machine.record_eq_some.mp step
  rw [same]
  apply tr.counted count (System.exec_effect call)
  intro r request
  obtain ⟨tf, from_⟩ := System.exec_origin call request
  exact allowed p tf r from_

theorem consumedCount_run {ls : List (Label Pid)} {s : System Pid} {log : List (Entry Pid)}
    (idle : Machine.EveryStep System.step (fun x l => ¬Consuming x.1 l) (s₁, []) ls)
    (reached : Machine.run System.step (s₁, []) ls = some (s, log)) : consumedCount log = 0 := by
  have none_consumed : (log.filterMap fun e => e.outcome.consumedId) = [] := by
    refine Machine.invariant_of_everyStep
      (I := fun x : System Pid × List (Entry Pid) => (x.2.filterMap fun e => e.outcome.consumedId) = [])
      ?_ (by rfl) idle reached
    intro x l y before resting step
    obtain ⟨e, call, same⟩ := Machine.record_eq_some.mp step
    have nothing := mt (exec_consumed_iff call).mp resting
    rw [Option.not_isSome_iff_eq_none] at nothing
    rw [same, List.filterMap_append, before, List.filterMap_cons, nothing]
    rfl
  rw [consumedCount, none_consumed]
  rfl

omit [DecidableEq Pid] in
theorem consumedCount_pos (log : List (Entry Pid)) {e : Entry Pid} (consumed : e.outcome.consumedId.isSome) :
    0 < consumedCount (log ++ [e]) := by
  obtain ⟨taskId, same⟩ := Option.isSome_iff_exists.mp consumed
  apply List.length_pos_of_mem (a := taskId)
  rw [List.mem_dedup, List.mem_filterMap]
  exact ⟨e, by simp, same⟩

/-- Every state of the run balances stored against consumed tasks, and a `do_task`
with fewer than a hundred tasks not yet consumed stores its own. -/
def Balanced (start : System Pid) (ls : List (Label Pid)) : Prop :=
  ∀ before after s log, ls = before ++ after → Machine.run System.step (start, []) before = some (s, log) →
    Recycled (s, log) ∧
    ∀ p tf issue rest s' e, after = .syscall p tf (.doTask issue) :: rest →
      s.exec (.syscall p tf (.doTask issue)) = some (s', e) →
      (storedCount log : Int) - consumedCount log < 100 → ∃ i, e.outcome = .stored i issue

/-- No slot is ever given back, so the balance holds exactly as long as no scan of
`wait_for_task_to_complete` meets a completed slot. -/
theorem balanced_iff {ls : List (Label Pid)} {final : System Pid × List (Entry Pid)}
    (init : s₀.exec (.syscall m tf .initTaskmaster) = some (s₁, e₀))
    (disciplined : Machine.EveryStep System.step (Disciplined Q) (s₁, []) ls)
    (reached : Machine.run System.step (s₁, []) ls = some final) :
    Balanced s₁ ls ↔ Machine.EveryStep System.step (fun x l => ¬Consuming x.1 l) (s₁, []) ls := by
  constructor
  · intro balanced
    rw [Machine.everyStep_iff]
    rintro before l after ⟨s, log⟩ rfl upto consuming
    rw [Machine.run_append, upto] at reached
    obtain ⟨⟨s', log'⟩, step, -⟩ := Machine.run_cons_eq_some.mp reached
    obtain ⟨e, call, same⟩ := Machine.record_eq_some.mp step
    have next : Machine.run System.step (s₁, []) (before ++ [l]) = some (s', log') :=
      Machine.run_snoc_eq_some.mpr ⟨_, upto, step⟩
    have part : Machine.EveryStep System.step (Disciplined Q) (s₁, []) (before ++ [l]) := by
      rw [Machine.everyStep_append upto] at disciplined ⊢
      exact ⟨disciplined.1, disciplined.2.1, fun _ _ => trivial⟩
    -- at the first consumption one more task is consumed than slots were given back
    have count := counted_run init part next
    obtain ⟨balance, -⟩ := balanced (before ++ [l]) after s' log' (List.append_cons before l after) next
    have consumed := consumedCount_pos log ((exec_consumed_iff call).mpr consuming)
    rw [← same] at consumed
    unfold Recycled at balance
    simp only at balance
    omega
  · intro resting before after s log split upto
    subst split
    have part := ((Machine.everyStep_append upto).mp disciplined).1
    have count := counted_run init part upto
    have consumed := consumedCount_run ((Machine.everyStep_append upto).mp resting).1 upto
    refine ⟨?_, ?_⟩
    · unfold Recycled
      simp only
      omega
    · intro p tf issue rest s' e _ call few
      -- a full table would count a hundred tasks stored
      have room : s.tasks.firstFree ≠ none := fun full => by
        have all := nonFree_of_full full
        omega
      exact (System.exec_effect call).stores (System.exec_doTask call) room

end Run

def checkDisciplined (s : System Bool × List (Entry Bool)) : Label Bool → Bool
  | .syscall _ _ .initTaskmaster => false
  | .syscall _ _ (.doTask issue) => s.2.all fun e =>
    match e.outcome.request with
    | some (.doTask earlier) => earlier.taskId != issue.taskId
    | _ => true
  | .syscall p _ (.taskRet taskId _) =>
    (s.2.any fun e =>
      match e.outcome with
      | .handed _ task => e.pid == p && task.taskId == taskId
      | _ => false) &&
    s.2.all fun e =>
      match e.outcome with
      | .completed _ id _ => e.pid != p || id != taskId
      | _ => true
  | _ => true

theorem disciplined_of_check {s : System Bool × List (Entry Bool)} {l : Label Bool}
    (checked : checkDisciplined s l = true) : Disciplined (fun _ _ => True) s l := by
  rintro p tf r rfl
  cases r with
  | initTaskmaster => cases checked
  | doTask issue =>
    intro e member earlier request
    have apart := List.all_eq_true.mp checked e member
    rw [request] at apart
    exact bne_iff_ne.mp apart
  | taskRet taskId result =>
    obtain ⟨handed, fresh⟩ := Bool.and_eq_true_iff.mp checked
    constructor
    · obtain ⟨⟨q, outcome⟩, member, same⟩ := List.any_eq_true.mp handed
      cases outcome with
      | handed i task =>
        obtain ⟨mine, id⟩ := Bool.and_eq_true_iff.mp same
        obtain rfl := beq_iff_eq.mp mine
        exact ⟨i, task, member, beq_iff_eq.mp id, trivial⟩
      | _ => cases same
    · intro i v member
      have other := List.all_eq_true.mp fresh _ member
      simp at other
  | waitForTask => trivial
  | waitForTaskToComplete taskId result => trivial

def checkResting (s : System Bool × List (Entry Bool)) : Label Bool → Bool
  | .syscall _ _ (.waitForTaskToComplete taskId _) =>
    (s.1.tasks.scan taskId 0).all fun i => decide ((s.1.tasks i).status ≠ .completed)
  | .resume p =>
    match (s.1.procs p).place with
    | .completing taskId _ next _ =>
      (s.1.tasks.scan taskId next).all fun i => decide ((s.1.tasks i).status ≠ .completed)
    | _ => true
  | _ => true

theorem resting_of_check {s : System Bool × List (Entry Bool)} {l : Label Bool} (checked : checkResting s l = true) :
    ¬Consuming s.1 l := by
  have resting : ∀ {taskId : Word} {next : Nat},
      ((s.1.tasks.scan taskId next).all fun i => decide ((s.1.tasks i).status ≠ .completed)) = true →
      ¬∃ i, s.1.tasks.scan taskId next = some i ∧ (s.1.tasks i).status = .completed := by
    rintro taskId next all ⟨i, scan, completed⟩
    rw [scan] at all
    exact of_decide_eq_true all completed
  cases l with
  | syscall p tf request =>
    cases request with
    | waitForTaskToComplete taskId result => exact resting checked
    | _ => exact id
  | resume p =>
    simp only [checkResting, Consuming] at checked ⊢
    split at checked
    · exact resting checked
    · exact id

/-- The master issues two tasks and sleeps waiting for the first; the worker completes both before it
runs again. -/
def sleepingMaster : List (Label Bool) :=
  [.syscall false .start (.doTask ⟨64, 5, 3, 4⟩), .syscall false .start (.doTask ⟨64, 6, 5, 6⟩),
    .syscall false .start (.waitForTaskToComplete 5 4096), .syscall true .start .waitForTask,
    .syscall true .start (.taskRet 5 7), .syscall true .start .waitForTask, .syscall true .start (.taskRet 6 11)]

theorem balanced_sleepingMaster :
    ∃ (s₁ : System Bool) (e₀ : Entry Bool),
      (System.idle Bool).exec (.syscall false .start .initTaskmaster) = some (s₁, e₀) ∧ Balanced s₁ sleepingMaster := by
  have facts : ((System.idle Bool).exec (.syscall false .start .initTaskmaster)).any (fun w =>
      (Machine.run System.step (w.1, []) sleepingMaster).isSome &&
        Machine.checkRun System.step checkDisciplined (w.1, []) sleepingMaster &&
        Machine.checkRun System.step checkResting (w.1, []) sleepingMaster) = true := by
    decide +kernel
  obtain ⟨⟨s₁, e₀⟩, init, facts⟩ := (Option.any_eq_true _ _).mp facts
  simp only [Bool.and_eq_true] at facts
  obtain ⟨⟨runs, allowed⟩, rests⟩ := facts
  obtain ⟨final, reached⟩ := Option.isSome_iff_exists.mp runs
  have disciplined := Machine.everyStep_of_checkRun (fun _ _ => disciplined_of_check) allowed
  have resting := Machine.everyStep_of_checkRun (fun _ _ => resting_of_check) rests
  exact ⟨s₁, e₀, init, (balanced_iff init disciplined reached).mpr resting⟩

/-- After the first result has been returned its slot is still in use. -/
theorem not_balanced_oneTask :
    ∃ (s₁ : System Bool) (e₀ : Entry Bool),
      (System.idle Bool).exec (.syscall false .start .initTaskmaster) = some (s₁, e₀) ∧
      Machine.EveryStep System.step (Disciplined fun _ _ => True) (s₁, []) oneTask ∧ ¬Balanced s₁ oneTask := by
  obtain ⟨s₁, s, e₀, init, disciplined, reached⟩ := oneTask_run (Q := fun _ _ => True) trivial
  refine ⟨s₁, e₀, init, disciplined, fun balanced => ?_⟩
  have count := counted_run init disciplined reached
  obtain ⟨balance, -⟩ := balanced oneTask [] s _ (List.append_nil _).symm reached
  rw [Recycled, count] at balance
  dsimp only at balance
  revert balance
  decide

end OsLabs.Taskmaster
