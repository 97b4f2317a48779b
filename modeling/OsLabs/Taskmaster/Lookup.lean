import OsLabs.Taskmaster.System

/-! When `wait_for_task_to_complete` finds the task it is asked for. It goes by the
identifiers of all slots, those that are FREE too, and returns the result of the task where
-1 means that there is no such task. -/

set_option autoImplicit false

namespace OsLabs.Taskmaster

open OsLabs.Lib

/-! ## The order of a scan -/

/-- A scan that goes on from `next`, around the table, comes to `j` before `i`. -/
def Before (next : Nat) (j i : Slot) : Prop :=
  next ≤ j.val ∧ i.val < next ∨ (next ≤ j.val ↔ next ≤ i.val) ∧ j < i

instance (next : Nat) (j i : Slot) : Decidable (Before next j i) := inferInstanceAs (Decidable (_ ∨ _))

namespace Table

variable {t : Table} {taskId : Word} {next : Nat} {i j : Slot}

def Sole (t : Table) (taskId : Word) (i : Slot) : Prop :=
  (t.used i ∧ (t i).taskId = taskId) ∧ ∀ j, t.used j → (t j).taskId = taskId → j = i

theorem scan_eq_some_iff :
    t.scan taskId next = some i ↔ (t i).taskId = taskId ∧ ∀ j, Before next j i → (t j).taskId ≠ taskId := by
  rw [scan, Option.or_eq_some_iff]
  simp only [first_eq_some, first_eq_none, firstWith_eq_some, decide_eq_true_eq, not_and]
  constructor
  · rintro (⟨⟨later, named⟩, lowest⟩ | ⟨none_later, named, lowest⟩)
    · refine ⟨named, fun j before => ?_⟩
      rcases before with ⟨-, below⟩ | ⟨side, below⟩
      · omega
      · exact lowest j below (side.mpr later)
    · have early : i.val < next := by
        by_contra later
        exact none_later i (not_lt.mp later) named
      refine ⟨named, fun j before => ?_⟩
      rcases before with ⟨later, -⟩ | ⟨-, below⟩
      · exact none_later j later
      · exact lowest j below
  · rintro ⟨named, lowest⟩
    by_cases later : next ≤ i.val
    · exact Or.inl ⟨⟨later, named⟩, fun j below side => lowest j (Or.inr ⟨iff_of_true side later, below⟩)⟩
    · refine Or.inr ⟨fun j side => lowest j (Or.inl ⟨side, not_le.mp later⟩), named, fun j below => ?_⟩
      have early : ¬next ≤ j.val := fun side => later (side.trans (Fin.le_def.mp below.le))
      exact lowest j (Or.inr ⟨iff_of_false early later, below⟩)

/-- The scan for the only task with its identifier stops at it unless a FREE slot with the
same identifier comes first. -/
theorem Sole.scan_iff (sole : t.Sole taskId i) :
    t.scan taskId next = some i ↔ ∀ j, (t j).status = .free → (t j).taskId = taskId → ¬Before next j i := by
  rw [scan_eq_some_iff]
  constructor
  · exact fun stops j _ named before => stops.2 j before named
  · intro unfree
    refine ⟨sole.1.2, fun j before named => ?_⟩
    by_cases free : (t j).status = .free
    · exact unfree j free named before
    · cases sole.2 j (used_iff.mpr free) named
      rcases before with ⟨later, early⟩ | ⟨-, below⟩
      · omega
      · exact lt_irrefl _ below

end Table

section Calls

variable {Pid : Type*}

def System.asks (s : System Pid) : Label Pid → Option (Pid × Word × Word × Nat)
  | .syscall p _ (.waitForTaskToComplete taskId result) => some (p, taskId, result, 0)
  | .resume p =>
    match (s.procs p).place with
    | .completing taskId result next _ => some (p, taskId, result, next)
    | _ => none
  | _ => none

variable [DecidableEq Pid]

/-- A call to wait for a task returns -1 at once exactly when no slot in use holds the
identifier, and a scan for the only task with it, which is COMPLETED, returns its result,
stored at the address given and different from -1. -/
structure Answers (s : System Pid) (l : Label Pid) : Prop where
  fails : ∀ p tf taskId result s' e, l = .syscall p tf (.waitForTaskToComplete taskId result) →
    s.exec l = some (s', e) → (e.outcome.ret = some (-1) ↔ ¬s.tasks.AlreadyUsed taskId)
  returns : ∀ p taskId result next s' e, s.asks l = some (p, taskId, result, next) → s.exec l = some (s', e) →
    ∀ i, s.tasks.Sole taskId i → (s.tasks i).status = .completed →
      e.outcome.ret = some (s.tasks i).result ∧ (s'.procs p).memory.loadWord result = (s.tasks i).result ∧
        (s.tasks i).result ≠ -1

/-- Where no slot in use holds the identifier no other does; the lowest slot with it is not
COMPLETED with the result -1; and the only task with it, when COMPLETED, has another result
and is met before any FREE slot with the identifier. -/
structure Clear (s : System Pid) (l : Label Pid) : Prop where
  absent : ∀ p tf taskId result, l = .syscall p tf (.waitForTaskToComplete taskId result) →
    ¬s.tasks.AlreadyUsed taskId → ∀ i, (s.tasks i).taskId ≠ taskId
  present : ∀ p tf taskId result, l = .syscall p tf (.waitForTaskToComplete taskId result) →
    ∀ i, (s.tasks i).taskId = taskId → (∀ j < i, (s.tasks j).taskId ≠ taskId) →
      (s.tasks i).status = .completed → (s.tasks i).result ≠ -1
  sole : ∀ p taskId result next, s.asks l = some (p, taskId, result, next) →
    ∀ i, s.tasks.Sole taskId i → (s.tasks i).status = .completed → (s.tasks i).result ≠ -1 ∧
      ∀ j, (s.tasks j).status = .free → (s.tasks j).taskId = taskId → ¬Before next j i

variable {s s' : System Pid} {p : Pid} {proc : Proc} {taskId result : Word} {next : Nat} {e : Entry Pid} {l : Label Pid}

def Stops (s s' : System Pid) (p : Pid) (taskId result : Word) (next : Nat) (e : Entry Pid) : Prop :=
  ∃ i, s.tasks.scan taskId next = some i ∧
    if (s.tasks i).status = .completed then
      e.outcome = .consumed i taskId (s.tasks i).result ∧ (s'.procs p).memory.loadWord result = (s.tasks i).result
    else e.outcome = .asleep

theorem complete_stops (call : s.complete p proc taskId result next = (s', e)) :
    (∀ i, (s.tasks i).taskId ≠ taskId) ∧ e.outcome = .spinning ∨ Stops s s' p taskId result next e := by
  have ended := call
  unfold System.complete at call
  split at call
  next nowhere =>
    cases call
    exact Or.inl ⟨Table.firstWith_eq_none.mp (Option.or_eq_none_iff.mp nowhere).2, rfl⟩
  next i stopped =>
    refine Or.inr ⟨i, stopped, ?_⟩
    split at call
    next done =>
      rw [if_pos done]
      obtain rfl := (congrArg Prod.snd call).symm
      exact ⟨rfl, System.complete_stored ended⟩
    next waits =>
      rw [if_neg waits]
      cases call
      rfl

theorem exec_enters {tf : TrapFrame} (call : s.exec (.syscall p tf (.waitForTaskToComplete taskId result)) = some (s', e)) :
    (∀ i, (s.tasks i).taskId ≠ taskId) ∧ e.outcome = .unknown taskId ∨ Stops s s' p taskId result 0 e := by
  simp only [System.exec] at call
  split at call
  · rw [Option.some.injEq] at call
    unfold System.call at call
    dsimp only at call
    split at call
    next nowhere =>
      cases call
      exact Or.inl ⟨Table.firstWith_eq_none.mp nowhere, rfl⟩
    next i found =>
      refine (complete_stops call).imp_left fun unnamed => ?_
      exact absurd (Table.firstWith_eq_some.mp found).1 (unnamed.1 i)
  · cases call

theorem exec_asks (asks : s.asks l = some (p, taskId, result, next)) (call : s.exec l = some (s', e)) :
    (∀ i, (s.tasks i).taskId ≠ taskId) ∨ Stops s s' p taskId result next e := by
  cases l with
  | syscall q tf request =>
    cases request with
    | waitForTaskToComplete id r =>
      cases asks
      exact (exec_enters call).imp_left And.left
    | _ => cases asks
  | resume q =>
    cases place : (s.procs q).place with
    | completing id r n awake =>
      simp only [System.asks, place, Option.some.injEq, Prod.mk.injEq] at asks
      obtain ⟨rfl, rfl, rfl, rfl⟩ := asks
      cases awake with
      | false => simp [System.exec, place] at call
      | true =>
        simp only [System.exec, place, Option.some.injEq] at call
        exact (complete_stops call).imp_left And.left
    | _ => simp [System.asks, place] at asks

omit [DecidableEq Pid] in
theorem Stops.ret_iff (stops : Stops s s' p taskId result next e) {v : Word} :
    e.outcome.ret = some v ↔
      ∃ i, s.tasks.scan taskId next = some i ∧ (s.tasks i).status = .completed ∧ (s.tasks i).result = v := by
  obtain ⟨i, stopped, ended⟩ := stops
  constructor
  · intro ret
    refine ⟨i, stopped, ?_⟩
    split at ended
    next done =>
      rw [ended.1] at ret
      exact ⟨done, Option.some.inj ret⟩
    next =>
      rw [ended] at ret
      cases ret
  · rintro ⟨j, stopped', done, rfl⟩
    obtain rfl := Option.some.inj (stopped.symm.trans stopped')
    rw [if_pos done] at ended
    rw [ended.1]
    rfl

theorem fails_iff {tf : TrapFrame} (call : s.exec (.syscall p tf (.waitForTaskToComplete taskId result)) = some (s', e)) :
    (e.outcome.ret = some (-1) ↔ ¬s.tasks.AlreadyUsed taskId) ↔
      (¬s.tasks.AlreadyUsed taskId → ∀ i, (s.tasks i).taskId ≠ taskId) ∧
        ∀ i, (s.tasks i).taskId = taskId → (∀ j < i, (s.tasks j).taskId ≠ taskId) → (s.tasks i).status = .completed →
          (s.tasks i).result ≠ -1 := by
  rcases exec_enters call with ⟨nowhere, outcome⟩ | stops
  · have unused : ¬s.tasks.AlreadyUsed taskId := fun ⟨i, _, named⟩ => nowhere i named
    rw [outcome]
    exact iff_of_true (iff_of_true rfl unused) ⟨fun _ => nowhere, fun i named => absurd named (nowhere i)⟩
  · obtain ⟨i, stopped, -⟩ := id stops
    obtain ⟨named, first⟩ := Table.scan_eq_some_iff.mp stopped
    have lowest : ∀ j < i, (s.tasks j).taskId ≠ taskId := fun j below =>
      first j (Or.inr ⟨iff_of_true (Nat.zero_le _) (Nat.zero_le _), below⟩)
    rw [stops.ret_iff]
    constructor
    · intro fails
      constructor
      · intro unused
        obtain ⟨j, stopped', done, -⟩ := fails.mpr unused
        obtain rfl := Option.some.inj (stopped.symm.trans stopped')
        exact absurd ⟨i, Table.used_iff.mpr (by rw [done]; exact TaskStatus.noConfusion), named⟩ unused
      · intro j named' lowest' done value
        -- the lowest slot with the identifier is in use, and the call returns its result
        obtain rfl : j = i := le_antisymm (not_lt.mp fun above => lowest' i above named)
          (not_lt.mp fun below => lowest j below named')
        exact fails.mp ⟨j, stopped, done, value⟩ ⟨j, Table.used_iff.mpr (by rw [done]; exact TaskStatus.noConfusion), named⟩
    · rintro ⟨absent, present⟩
      constructor
      · rintro ⟨j, stopped', done, value⟩
        obtain rfl := Option.some.inj (stopped.symm.trans stopped')
        exact absurd value (present i named lowest done)
      · exact fun unused => absurd named (absent unused i)

theorem returns_iff {i : Slot} (asks : s.asks l = some (p, taskId, result, next)) (call : s.exec l = some (s', e))
    (sole : s.tasks.Sole taskId i) (done : (s.tasks i).status = .completed) :
    e.outcome.ret = some (s.tasks i).result ∧ (s'.procs p).memory.loadWord result = (s.tasks i).result ∧
        (s.tasks i).result ≠ -1 ↔
      (s.tasks i).result ≠ -1 ∧ ∀ j, (s.tasks j).status = .free → (s.tasks j).taskId = taskId → ¬Before next j i := by
  rcases exec_asks asks call with nowhere | stops
  · exact absurd sole.1.2 (nowhere i)
  · rw [← sole.scan_iff]
    constructor
    · rintro ⟨ret, -, value⟩
      refine ⟨value, ?_⟩
      obtain ⟨j, stopped, done', -⟩ := stops.ret_iff.mp ret
      obtain rfl := sole.2 j (Table.used_iff.mpr (by rw [done']; exact TaskStatus.noConfusion)) (Table.taskId_of_scan stopped)
      exact stopped
    · rintro ⟨value, stopped⟩
      refine ⟨stops.ret_iff.mpr ⟨i, stopped, done, rfl⟩, ?_, value⟩
      obtain ⟨j, stopped', ended⟩ := stops
      obtain rfl := Option.some.inj (stopped.symm.trans stopped')
      rw [if_pos done] at ended
      exact ended.2

theorem answers_iff_clear (call : s.exec l = some (s', e)) : Answers s l ↔ Clear s l := by
  constructor
  · intro answers
    refine ⟨?_, ?_, ?_⟩
    · rintro p tf taskId result rfl
      exact ((fails_iff call).mp (answers.fails p tf taskId result s' e rfl call)).1
    · rintro p tf taskId result rfl
      exact ((fails_iff call).mp (answers.fails p tf taskId result s' e rfl call)).2
    · intro p taskId result next asks i sole done
      exact (returns_iff asks call sole done).mp (answers.returns p taskId result next s' e asks call i sole done)
  · intro clear
    refine ⟨?_, ?_⟩
    · rintro p tf taskId result s' e rfl call
      exact (fails_iff call).mpr ⟨clear.absent p tf taskId result rfl, clear.present p tf taskId result rfl⟩
    · intro p taskId result next s' e asks call i sole done
      exact (returns_iff asks call sole done).mpr (clear.sole p taskId result next asks i sole done)

/-- Every call of a run that waits for a task learns whether there is one, and what it came
to, exactly when the table is clear of stale identifiers and of the result -1 at each. -/
theorem waits_answered_iff (tf : Pid → TrapFrame) (memory : Pid → Memory) (ls : List (Label Pid))
    (final : System Pid × List (Entry Pid)) (reached : Machine.run System.step (System.boot tf memory, []) ls = some final) :
    Machine.EveryStep System.step (fun x l => Answers x.1 l) (System.boot tf memory, []) ls ↔
      Machine.EveryStep System.step (fun x l => Clear x.1 l) (System.boot tf memory, []) ls := by
  refine Machine.everyStep_congr (fun x l y taken => ?_) reached
  obtain ⟨⟨s', e⟩, call, -⟩ := Option.map_eq_some_iff.mp taken
  exact answers_iff_clear call

end Calls

def waitedFor : List (Label Bool) :=
  [.syscall false .start .initTaskmaster, .syscall false .start (.doTask ⟨64, 5, 3, 4⟩), .syscall true .start .waitForTask,
    .syscall false .start (.waitForTaskToComplete 5 4096), .syscall true .start (.taskRet 5 7), .resume false]

def checkClear (s : System Bool) (l : Label Bool) : Bool :=
  (s.asks l).all fun (_, taskId, _, _) => decide (s.tasks.AlreadyUsed taskId) &&
    decide (∀ i, (s.tasks i).taskId = taskId → (s.tasks i).status ≠ .free ∧ (s.tasks i).result ≠ -1)

theorem clear_of_check {s : System Bool} {l : Label Bool} (checked : checkClear s l = true) : Clear s l := by
  have slots : ∀ p taskId result next, s.asks l = some (p, taskId, result, next) → s.tasks.AlreadyUsed taskId ∧
      ∀ i, (s.tasks i).taskId = taskId → (s.tasks i).status ≠ .free ∧ (s.tasks i).result ≠ -1 := by
    intro p taskId result next asks
    rw [checkClear, asks] at checked
    simpa using checked
  refine ⟨?_, ?_, ?_⟩
  · rintro p tf taskId result rfl unused
    exact absurd (slots p taskId result 0 rfl).1 unused
  · rintro p tf taskId result rfl i named _ _
    exact ((slots p taskId result 0 rfl).2 i named).2
  · intro p taskId result next asks i sole _
    have named := (slots p taskId result next asks).2
    exact ⟨(named i sole.1.2).2, fun j free here => absurd free (named j here).1⟩

theorem waits_answered_waitedFor :
    Machine.EveryStep System.step (fun x l => Answers x.1 l) (System.idle Bool, []) waitedFor := by
  have ran : (Machine.run System.step (System.idle Bool, []) waitedFor).isSome = true := by decide +kernel
  have checked : Machine.checkRun System.step (fun x l => checkClear x.1 l) (System.idle Bool, []) waitedFor = true := by
    decide +kernel
  obtain ⟨final, reached⟩ := Option.isSome_iff_exists.mp ran
  exact (waits_answered_iff (fun _ => .start) (fun _ _ => 0) waitedFor final reached).mpr
    (Machine.everyStep_of_checkRun (fun _ _ => clear_of_check) checked)

/-- The table is initialised, and a task waited for that was never issued: its identifier is
the 0 that every FREE slot still holds, so the call goes to sleep. -/
theorem not_waits_answered_zero : ¬Machine.EveryStep System.step (fun x l => Answers x.1 l) (System.idle Bool, [])
    [.syscall false .start .initTaskmaster, .syscall false .start (.waitForTaskToComplete 0 4096)] := by
  have facts : (Machine.run System.step (System.idle Bool, []) [.syscall false .start .initTaskmaster]).any (fun x =>
      (x.1.exec (.syscall false .start (.waitForTaskToComplete 0 4096))).any fun r =>
        decide (r.2.outcome = .asleep ∧ ¬x.1.tasks.AlreadyUsed 0)) = true := by decide +kernel
  obtain ⟨x, reached, facts⟩ := (Option.any_eq_true _ _).mp facts
  obtain ⟨⟨s', e⟩, call, facts⟩ := (Option.any_eq_true _ _).mp facts
  obtain ⟨asleep, unused⟩ := of_decide_eq_true facts
  intro answered
  have last : Machine.EveryStep System.step (fun x l => Answers x.1 l) x [.syscall false .start (.waitForTaskToComplete 0 4096)] :=
    ((Machine.everyStep_append reached).mp answered).2
  have failed := (last.1.fails false .start 0 4096 s' e rfl call).mpr unused
  rw [asleep] at failed
  cases failed

end OsLabs.Taskmaster
