import OsLabs.Taskmaster.Dispatch

/-! `kill` against the waiting calls of the task queue: what a process killed inside
`wait_for_task` or `wait_for_task_to_complete` still does. -/

set_option autoImplicit false

namespace OsLabs.Taskmaster

open OsLabs.Lib

inductive Spot where
  | queue (x : Point)
  | killPtable (pid ret : Word)
  | killScan (pid ret : Word)
  | killUnlock (ret : Word)
  deriving DecidableEq

structure Mortal where
  pid : Word
  killed : Bool
  spot : Spot
  deriving DecidableEq

/-- A call of the queue; or of `kill`, with the value that the whole process table makes it
return. -/
inductive Action where
  | queue (c : Choice)
  | kill (pid ret : Word)

def Spot.map (f : Point → Point) : Spot → Spot
  | .queue x => .queue (f x)
  | spot => spot

def Mortal.kill (pid : Word) (x : Mortal) : Mortal :=
  if x.pid = pid then { x with killed := true, spot := x.spot.map Point.wake } else x

namespace Mortal

def lift (x : Mortal) (m : Move Shared Point) : Move Shared Mortal where
  shared := m.shared
  point := { x with spot := .queue m.point }
  others y := { y with spot := y.spot.map m.others }

/-- One access, or a call from user code: a killed process exits instead of making one. -/
def act : Action → Shared → Mortal → Option (Move Shared Mortal)
  | .queue (.call request), s, x =>
    match x.spot with
    | .queue y => if x.killed then none else (Shared.act (.call request) s y).map x.lift
    | _ => none
  | .kill pid ret, s, x =>
    match x.spot with
    | .queue (.user ..) =>
      if x.killed then none else some { shared := s, point := { x with spot := .killPtable pid ret }, others := id }
    | _ => none
  | .queue .go, s, x =>
    match x.spot with
    | .queue y => (Shared.act .go s y).map x.lift
    | .killPtable pid ret =>
      if s.ptable then none
      else some { shared := { s with ptable := true }, point := { x with spot := .killScan pid ret }, others := id }
    | .killScan pid ret =>
      some { shared := s, point := { x.kill pid with spot := .killUnlock ret }, others := Mortal.kill pid }
    | .killUnlock ret =>
      some { shared := { s with ptable := false }, point := { x with spot := .queue (.user ret none) }, others := id }

end Mortal

def mortals {Pid : Type*} (tasks : Table) (pid : Pid → Word) : Threads Pid Shared Mortal where
  shared := (initialised Pid tasks).shared
  points p := { pid := pid p, killed := false, spot := .queue (.user 0 none) }

def Point.inside : Point → Bool
  | .waitStatus _ | .claim .. | .takeArg2 _ | .takeArg1 .. | .takeTaskId .. | .takeFptr .. => true
  | .existsId .. | .completeId .. | .completeStatus .. | .completeResult .. => true
  | .lock _ | .sleepLock _ | .sleepUnlock _ | .doze _ | .resting _ | .asleep _ | .woken _ | .sleepRelease _
  | .relock _ | .unlock _ => true
  | _ => false

/-- Past the look at a status, on the way to claiming the slot or to becoming SLEEPING. -/
def Point.decided : Point → Bool
  | .claim .. | .lock _ | .sleepLock _ | .sleepUnlock _ | .doze _ => true
  | _ => false

def Spot.inside : Spot → Bool
  | .queue x => x.inside
  | _ => false

def Spot.decided : Spot → Bool
  | .queue x => x.decided
  | _ => false

section

variable {Pid : Type*} [DecidableEq Pid]

/-- The processes that `kill` has reached inside one of the waiting calls. -/
def strike (s : Threads Pid Shared Mortal) : Pid × Action → (Pid → Bool) → Pid → Bool
  | (q, .queue .go), struck => fun p => struck p ||
    match (s.points q).spot with
    | .killScan pid _ => decide ((s.points p).pid = pid) && (s.points p).spot.inside
    | _ => false
  | _, struck => struck

def struckStep : Machine (Threads Pid Shared Mortal × (Pid → Bool)) (Pid × Action) :=
  Machine.watch strike (Threads.step Mortal.act)

/-- A struck process does not become SLEEPING and does not make a PENDING slot ALLOCATED. -/
def GetsOut (x : Threads Pid Shared Mortal × (Pid → Bool)) (l : Pid × Action) : Prop :=
  x.2 l.1 = true → (∀ z, (x.1.points l.1).spot ≠ .queue (.doze z)) ∧
    ∀ i issue, (x.1.points l.1).spot = .queue (.claim i issue) → (x.1.shared.tasks i).status ≠ .pending

/-- What a struck process finds: no PENDING slot in a round of `wait_for_task` that is not its
last, the task completed in `wait_for_task_to_complete`. -/
def Finds (s : Shared) : Spot → Bool
  | .queue (.waitStatus i) => (s.tasks i).status ≠ .pending ∧ i.val + 1 < 100
  | .queue (.completeStatus _ _ i) => (s.tasks i).status = .completed
  | _ => true

/-- `kill` reaches nobody past its look at a status, and the looks of struck processes send
them neither to a claim nor to sleep. -/
def Spared (x : Threads Pid Shared Mortal × (Pid → Bool)) (l : Pid × Action) : Prop :=
  (x.2 l.1 = true → Finds x.1.shared (x.1.points l.1).spot = true) ∧
    ∀ pid ret, (x.1.points l.1).spot = .killScan pid ret →
      ∀ p, (x.1.points p).pid = pid → (x.1.points p).spot.decided = false

end

def Point.free : Point → Bool
  | .user .. => true
  | x => x.inside && !x.decided

theorem free_wake {y : Point} (free : y.free = true) : y.wake.free = true := by
  cases y <;> exact free

theorem free_of_inside {y : Point} (inside : y.inside = true) (undecided : y.decided = false) : y.free = true := by
  cases y <;> simp_all [Point.free, Point.inside, Point.decided]

theorem access_free {s : Shared} {y : Point} {m : Move Shared Point} (call : s.access y = some m)
    (free : y.free = true) (finds : Finds s (.queue y) = true) : m.point.free = true := by
  cases y with
  | user ret task => cases call
  | waitStatus i =>
    obtain ⟨status, more⟩ := of_decide_eq_true finds
    simp only [Shared.access, if_neg status] at call
    cases call
    rcases i.loop_cases .waitStatus (.lock .waiting) with ⟨j, -, same⟩ | ⟨last, -⟩
    · change (i.loop _ _).free = true
      rw [same]
      rfl
    · omega
  | completeStatus taskId result i =>
    simp only [Shared.access, if_pos (of_decide_eq_true finds)] at call
    cases call
    rfl
  | existsId taskId result i =>
    simp only [Shared.access] at call
    split at call <;> cases call
    · rfl
    · exact Slot.loop_view Point.free i (fun _ => rfl) rfl
  | completeId taskId result i =>
    simp only [Shared.access] at call
    split at call <;>
    · cases call
      rfl
  | woken z | relock z =>
    simp only [Shared.access] at call
    split at call <;> cases call
    rfl
  | unlock z =>
    cases call
    cases z <;> rfl
  | asleep z => cases call
  | takeArg2 i | takeArg1 i _ | takeTaskId i _ _ | takeFptr i _ _ _ | completeResult _ _ i | resting z | sleepRelease z =>
    cases call
    rfl
  | _ => cases free

def Mortal.Free (x : Mortal) : Prop := x.killed = true ∧ ∃ y, x.spot = .queue y ∧ y.free = true

theorem Mortal.Free.map {x : Mortal} (free : x.Free) {f : Point → Point} (other : f = id ∨ f = Point.wake) :
    Mortal.Free { x with spot := x.spot.map f } := by
  obtain ⟨killed, y, here, free⟩ := free
  refine ⟨killed, f y, by rw [here]; rfl, ?_⟩
  rcases other with rfl | rfl
  · exact free
  · exact free_wake free

theorem Mortal.Free.kill {x : Mortal} (free : x.Free) (pid : Word) : (x.kill pid).Free := by
  rw [Mortal.kill]
  split
  · exact ⟨rfl, (free.map (Or.inr rfl)).2⟩
  · exact free

/-- A struck process is moved on by others and by its own steps, never back to a decision. -/
theorem act_others_free {c : Action} {s : Shared} {x : Mortal} {m : Move Shared Mortal} (step : Mortal.act c s x = some m)
    {z : Mortal} (free : z.Free) : (m.others z).Free := by
  cases c with
  | kill pid ret =>
    simp only [Mortal.act] at step
    split at step
    · split at step <;> cases step
      exact free
    · cases step
  | queue c =>
    cases c with
    | call request =>
      simp only [Mortal.act] at step
      split at step
      · split at step
        · cases step
        · obtain ⟨m', call, rfl⟩ := Option.map_eq_some_iff.mp step
          exact free.map (Shared.act_others call)
      · cases step
    | go =>
      simp only [Mortal.act] at step
      split at step
      · obtain ⟨m', call, rfl⟩ := Option.map_eq_some_iff.mp step
        exact free.map (Shared.act_others call)
      · split at step <;> cases step
        exact free
      · cases step
        exact free.kill _
      · cases step
        exact free

theorem act_self_free {c : Action} {s : Shared} {x : Mortal} {m : Move Shared Mortal} (step : Mortal.act c s x = some m)
    (free : x.Free) (finds : Finds s x.spot = true) : m.point.Free := by
  obtain ⟨killed, y, here, free⟩ := free
  cases c with
  | kill pid ret =>
    simp only [Mortal.act, here, killed, if_true] at step
    split at step <;> cases step
  | queue c =>
    cases c with
    | call request =>
      simp only [Mortal.act, here, killed, if_true] at step
      cases step
    | go =>
      simp only [Mortal.act, here] at step
      obtain ⟨m', call, rfl⟩ := Option.map_eq_some_iff.mp step
      exact ⟨killed, m'.point, rfl, access_free call free (here ▸ finds)⟩

section

variable {Pid : Type*} [DecidableEq Pid]

theorem free_step {x y : Threads Pid Shared Mortal × (Pid → Bool)} {l : Pid × Action}
    (free : ∀ p, x.2 p = true → (x.1.points p).Free) (spared : Spared x l) (taken : struckStep x l = some y)
    (p : Pid) (struck : y.2 p = true) : (y.1.points p).Free := by
  obtain ⟨q, c⟩ := l
  obtain ⟨moved, noted⟩ := Machine.watch_eq_some.mp taken
  obtain ⟨m, step, after⟩ := Threads.step_eq_some.mp moved
  rw [← after]
  by_cases old : x.2 p = true
  -- reached by an earlier kill
  · by_cases mine : p = q
    · subst mine
      rw [Threads.after_self]
      exact act_self_free step (free p old) (spared.1 old)
    · rw [Threads.after_of_ne _ _ _ mine]
      exact act_others_free step (free p old)
  · -- `kill` has just reached it
    rw [noted] at struck
    cases c with
    | kill pid ret => exact absurd struck old
    | queue c =>
      cases c with
      | call request => exact absurd struck old
      | go =>
        simp only [strike, Bool.or_eq_true, old, Bool.false_eq_true, false_or] at struck
        cases here : (x.1.points q).spot with
        | killScan pid ret =>
          simp only [here, Bool.and_eq_true, decide_eq_true_eq] at struck
          have other : p ≠ q := by
            rintro rfl
            rw [here] at struck
            cases struck.2
          simp only [Mortal.act, here] at step
          cases step
          rw [Threads.after_of_ne _ _ _ other]
          simp only [Mortal.kill, struck.1, if_true]
          cases spot : (x.1.points p).spot with
          | queue z =>
            have undecided := spared.2 pid ret here p struck.1
            rw [spot] at struck undecided
            exact ⟨rfl, z.wake, rfl, free_wake (free_of_inside struck.2 undecided)⟩
          | _ =>
            rw [spot] at struck
            cases struck.2
        | _ => simp [here] at struck

/-- In a run whose looks and kills are `Spared` every process killed inside one of the two
calls gets out of it. -/
theorem struck_gets_out (tasks : Table) (pid : Pid → Word) (ls : List (Pid × Action))
    (spared : Machine.EveryStep struckStep Spared (mortals tasks pid, fun _ => false) ls) :
    Machine.EveryStep struckStep GetsOut (mortals tasks pid, fun _ => false) ls := by
  refine Machine.EveryStep.imp_of_invariant (I := fun x => ∀ p, x.2 p = true → (x.1.points p).Free) ?_
    (fun x l y free spared taken => free_step free spared taken) (fun p struck => by cases struck) spared
  intro x l free _ struck
  -- dozing and claiming are decisions, which a free process is not at
  obtain ⟨-, y, here, free⟩ := free l.1 struck
  rw [here]
  constructor
  · rintro z same
    cases same
    cases free
  · rintro i issue same
    cases same
    cases free

end

def goes (p : Bool) (n : Nat) : List (Bool × Action) := List.replicate n (p, .queue .go)

/-- The second process issues a task and the first sleeps waiting for it, where it is killed. The
second takes the task up and completes it, and the first finds it completed in its next round. -/
def killedAsleep : List (Bool × Action) :=
  (false, .queue (.call (.doTask ⟨64, 5, 3, 4⟩))) :: goes false 110 ++
    (true, .queue (.call (.waitForTaskToComplete 5 0))) :: goes true 8 ++ (false, .kill 4 0) :: goes false 3 ++
    (false, .queue (.call .waitForTask)) :: goes false 6 ++ (false, .queue (.call (.taskRet 5 7))) :: goes false 6 ++
    goes true 106

def pair : Threads Bool Shared Mortal := mortals (fun _ => .zero) fun p => if p then 4 else 3

def checkSpared (x : Threads Bool Shared Mortal × (Bool → Bool)) (l : Bool × Action) : Bool :=
  (!x.2 l.1 || Finds x.1.shared (x.1.points l.1).spot) &&
    match (x.1.points l.1).spot with
    | .killScan pid _ => decide (∀ p, (x.1.points p).pid = pid → (x.1.points p).spot.decided = false)
    | _ => true

theorem spared_of_check {x : Threads Bool Shared Mortal × (Bool → Bool)} {l : Bool × Action}
    (checked : checkSpared x l = true) : Spared x l := by
  obtain ⟨finds, kills⟩ := Bool.and_eq_true_iff.mp checked
  refine ⟨fun struck => ?_, fun pid ret here => ?_⟩
  · rw [struck] at finds
    exact finds
  · rw [here] at kills
    exact of_decide_eq_true kills

theorem struck_gets_out_asleep :
    ∃ x, Machine.run struckStep (pair, fun _ => false) killedAsleep = some x ∧ x.2 true = true ∧
      (x.1.points true).spot = .queue (.user 7 none) ∧
      Machine.EveryStep struckStep GetsOut (pair, fun _ => false) killedAsleep := by
  have facts : (Machine.run struckStep (pair, fun _ => false) killedAsleep).any
      (fun x => decide (x.2 true = true ∧ (x.1.points true).spot = .queue (.user 7 none))) = true := by
    decide +kernel
  obtain ⟨x, reached, back⟩ := (Option.any_eq_true _ _).mp facts
  obtain ⟨struck, returned⟩ := of_decide_eq_true back
  have checked : Machine.checkRun struckStep checkSpared (pair, fun _ => false) killedAsleep = true := by decide +kernel
  have spared := Machine.everyStep_of_checkRun (fun _ _ => spared_of_check) checked
  rw [pair] at spared reached ⊢
  exact ⟨x, reached, struck, returned, struck_gets_out _ _ killedAsleep spared⟩

/-- The first process waits for task 0 of the zeroed table, is killed in its sleep and finds the next
slot with the identifier not completed either. -/
def againAsleep : List (Bool × Action) :=
  (true, .queue (.call (.waitForTaskToComplete 0 0))) :: goes true 8 ++ (false, .kill 4 0) :: goes false 3 ++ goes true 9

/-- The killed process goes back to sleep. -/
theorem struck_sleeps_again :
    ¬Machine.EveryStep struckStep GetsOut (pair, fun _ => false) (againAsleep ++ [(true, .queue .go)]) := by
  have facts : (Machine.run struckStep (pair, fun _ => false) againAsleep).any
      (fun x => decide (x.2 true = true ∧ (x.1.points true).spot = .queue (.doze (.completing 0 0 1)))) = true := by
    decide +kernel
  obtain ⟨x, reached, stands⟩ := (Option.any_eq_true _ _).mp facts
  obtain ⟨struck, doze⟩ := of_decide_eq_true stands
  intro gets_out
  have last := ((Machine.everyStep_append reached).mp gets_out).2.1
  exact (last struck).1 _ doze

end OsLabs.Taskmaster
