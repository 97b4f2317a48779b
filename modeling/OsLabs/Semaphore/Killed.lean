import OsLabs.Semaphore.Safety

/-! What a process killed in `sem_down` still does to the semaphore. -/

set_option autoImplicit false

namespace OsLabs.Semaphore

open OsLabs.Lib

/-- In `sem_down`, SLEEPING or on the way back to the spinlock. -/
def Point.blocked : Point → Bool
  | .asleep _ | .woken _ | .tidy _ | .reacquire _ => true
  | _ => false

def Point.late : Point → Bool
  | .woken _ | .tidy _ | .reacquire _ => true
  | _ => false

def Point.back : Point → Bool
  | .downTest _ | .sleepPtable _ | .sleepRelease _ | .doze _ | .downUpdate _ => true
  | _ => false

variable {Pid : Type*} [DecidableEq Pid]

/-- The processes that `kill` has reached while they were blocked. -/
def strike (s : Threads Pid Shared Proc) : Pid × Choice → (Pid → Bool) → Pid → Bool
  | (q, .go), struck => fun p => struck p ||
    match (s.points q).point with
    | .killScan pid _ => decide ((s.points p).pid = pid) && (s.points p).point.blocked
    | _ => false
  | (_, .call _), struck => struck

def struckStep : Machine (Threads Pid Shared Proc × (Pid → Bool)) (Pid × Choice) :=
  Machine.watch strike (Threads.step act)

/-- A struck process does not make itself SLEEPING and does not take a unit. -/
def LeavesAlone (x : Threads Pid Shared Proc × (Pid → Bool)) (l : Pid × Choice) : Prop :=
  x.2 l.1 = true → ∀ i, (x.1.points l.1).point ≠ .doze i ∧ (x.1.points l.1).point ≠ .downUpdate i

/-- A struck process does not take the spinlock back. -/
def StaysOut (x : Threads Pid Shared Proc × (Pid → Bool)) (l : Pid × Choice) : Prop :=
  x.2 l.1 = true → ∀ i, (x.1.points l.1).point ≠ .reacquire i

instance (x : Threads Pid Shared Proc × (Pid → Bool)) (l : Pid × Choice) : Decidable (StaysOut x l) :=
  inferInstanceAs (Decidable (_ → ∀ _, _))

theorem late_of_blocked {z : Point} (blocked : z.blocked = true) : z.wake.late = true := by
  cases z with
  | asleep i => rfl
  | woken i | tidy i | reacquire i => rfl
  | _ => cases blocked

theorem access_of_late {s t : Shared} {z z' : Point} (call : s.access z = some (t, z')) (late : z.late = true) :
    z'.late = true ∨ (∃ i, z = .reacquire i) ∧ z'.back = true := by
  cases z with
  | woken i =>
    obtain ⟨-, -, rfl⟩ := acquirePtable_eq_some.mp call
    exact Or.inl rfl
  | tidy i =>
    cases call
    exact Or.inl rfl
  | reacquire i =>
    obtain ⟨-, -, rfl⟩ := acquire_eq_some.mp call
    exact Or.inr ⟨⟨i, rfl⟩, rfl⟩
  | _ => cases late

theorem access_of_back {s t : Shared} {z z' : Point} (call : s.access z = some (t, z')) (back : z.back = true) :
    z'.back = true ∨ ∃ i, z = .doze i ∨ z = .downUpdate i := by
  cases z with
  | downTest i =>
    simp only [Shared.access] at call
    split at call <;>
    · cases call
      exact Or.inl rfl
  | sleepPtable i =>
    obtain ⟨-, -, rfl⟩ := acquirePtable_eq_some.mp call
    exact Or.inl rfl
  | sleepRelease i =>
    cases call
    exact Or.inl rfl
  | doze i => exact Or.inr ⟨i, Or.inl rfl⟩
  | downUpdate i => exact Or.inr ⟨i, Or.inr rfl⟩
  | _ => cases back

theorem struck_step {x y : Threads Pid Shared Proc × (Pid → Bool)} {l : Pid × Choice} (taken : struckStep x l = some y)
    {p : Pid} (struck : y.2 p = true) :
    (y.1.points p).point.late = true ∨
      x.2 p = true ∧ ((y.1.points p).point = (x.1.points p).point ∨
        (∃ i, (x.1.points p).point = .asleep i) ∨ (∃ ret, (x.1.points p).point = .user ret) ∨
        p = l.1 ∧ ∃ t, x.1.shared.access (x.1.points p).point = some (t, (y.1.points p).point)) := by
  obtain ⟨q, c⟩ := l
  obtain ⟨moved, noted⟩ := Machine.watch_eq_some.mp taken
  obtain ⟨m, step, after⟩ := Threads.step_eq_some.mp moved
  rw [← after]
  by_cases old : x.2 p = true
  · refine Or.inr ⟨old, ?_⟩
    by_cases mine : p = q
    · subst mine
      rw [Threads.after_self]
      rcases act_cases step with ⟨request, ret, -, here, -⟩ | ⟨-, call, -⟩
      · exact Or.inr (Or.inr (Or.inl ⟨ret, here⟩))
      · exact Or.inr (Or.inr (Or.inr ⟨rfl, _, call⟩))
    · rw [Threads.after_of_ne _ _ _ mine]
      rcases act_others step (x.1.points p) with same | ⟨i, asleep, -⟩
      · exact Or.inl same
      · exact Or.inr (Or.inl ⟨i, asleep⟩)
  · -- `kill` has just reached it
    refine Or.inl ?_
    rw [noted] at struck
    cases c with
    | call request => exact absurd struck old
    | go =>
      simp only [strike, Bool.or_eq_true, old, Bool.false_eq_true, false_or] at struck
      cases here : (x.1.points q).point with
      | killScan pid ret =>
        simp only [here, Bool.and_eq_true, decide_eq_true_eq] at struck
        have other : p ≠ q := by
          rintro rfl
          rw [here] at struck
          cases struck.2
        rcases act_cases step with ⟨_, _, c_call, -⟩ | ⟨-, -, others⟩
        · cases c_call
        · rw [Threads.after_of_ne _ _ _ other, others, here]
          simp only [Point.scan, Proc.kill, struck.1, if_true]
          exact late_of_blocked struck.2
      | _ => simp [here] at struck

/-- Where no struck process takes the spinlock back, each stays on its way to it. -/
theorem late_step {x y : Threads Pid Shared Proc × (Pid → Bool)} {l : Pid × Choice}
    (late : ∀ p, x.2 p = true → (x.1.points p).point.late = true) (out : StaysOut x l) (taken : struckStep x l = some y)
    (p : Pid) (struck : y.2 p = true) : (y.1.points p).point.late = true := by
  rcases struck_step taken struck with now | ⟨old, same | ⟨i, asleep⟩ | ⟨ret, user⟩ | ⟨rfl, t, call⟩⟩
  · exact now
  · rw [same]
    exact late p old
  · cases asleep ▸ late p old
  · cases user ▸ late p old
  · rcases access_of_late call (late _ old) with now | ⟨⟨i, reacquire⟩, -⟩
    · exact now
    · exact absurd reacquire (out old i)

/-- Where every struck process leaves the semaphore alone, none comes back from its call. -/
theorem inside_step {x y : Threads Pid Shared Proc × (Pid → Bool)} {l : Pid × Choice}
    (inside : ∀ p, x.2 p = true → (x.1.points p).point.late = true ∨ (x.1.points p).point.back = true)
    (alone : LeavesAlone x l) (taken : struckStep x l = some y) (p : Pid) (struck : y.2 p = true) :
    (y.1.points p).point.late = true ∨ (y.1.points p).point.back = true := by
  rcases struck_step taken struck with now | ⟨old, same | ⟨i, asleep⟩ | ⟨ret, user⟩ | ⟨rfl, t, call⟩⟩
  · exact Or.inl now
  · rw [same]
    exact inside p old
  · rcases asleep ▸ inside p old with now | now <;> cases now
  · rcases user ▸ inside p old with now | now <;> cases now
  · rcases inside _ old with late | back
    · exact (access_of_late call late).imp_right And.right
    · rcases access_of_back call back with now | ⟨i, doze | update⟩
      · exact Or.inr now
      · exact absurd doze (alone old i).1
      · exact absurd update (alone old i).2

/-- In a run in which no struck process takes the spinlock back all of them leave the
semaphore alone; in a run in which they do, none of them gets out of its call. -/
theorem struck_leaves_alone (semaphores : Index → Cell) (pid : Pid → Word) (ls : List (Pid × Choice)) :
    (Machine.EveryStep struckStep StaysOut (boot semaphores pid, fun _ => false) ls →
      Machine.EveryStep struckStep LeavesAlone (boot semaphores pid, fun _ => false) ls) ∧
    (Machine.EveryStep struckStep LeavesAlone (boot semaphores pid, fun _ => false) ls → ∀ s struck,
      Machine.run struckStep (boot semaphores pid, fun _ => false) ls = some (s, struck) →
      ∀ p, struck p = true → ∀ ret, (s.points p).point ≠ .user ret) := by
  constructor
  · intro out
    refine Machine.EveryStep.imp_of_invariant
      (I := fun x => ∀ p, x.2 p = true → (x.1.points p).point.late = true) ?_
      (fun x l y late out taken => late_step late out taken) (fun p struck => by cases struck) out
    intro x l late _ struck i
    have here := late l.1 struck
    constructor
    · intro doze
      rw [doze] at here
      cases here
    · intro update
      rw [update] at here
      cases here
  · intro alone s struck reached p was ret user
    have inside := Machine.invariant_of_everyStep
      (I := fun x => ∀ p, x.2 p = true → (x.1.points p).point.late = true ∨ (x.1.points p).point.back = true)
      (fun x l y inside alone taken => inside_step inside alone taken) (fun p struck => by cases struck) alone reached
    rcases inside p was with now | now <;>
    · rw [user] at now
      cases now

def struckAsleep : List (Bool × Choice) :=
  let go (p : Bool) (n : Nat) : List (Bool × Choice) := List.replicate n (p, .go)
  (true, .call (.semDown 0)) :: go true 6 ++ (false, .call (.kill 4 0)) :: go false 3 ++ go true 2

theorem struck_leaves_alone_asleep :
    Machine.EveryStep struckStep LeavesAlone (fresh, fun _ => false) struckAsleep := by
  have checked : Machine.checkRun struckStep (fun x l => decide (StaysOut x l)) (fresh, fun _ => false) struckAsleep = true := by
    decide +kernel
  have out : Machine.EveryStep struckStep StaysOut (fresh, fun _ => false) struckAsleep :=
    Machine.everyStep_of_checkRun (fun _ _ => of_decide_eq_true) checked
  rw [fresh] at out ⊢
  exact (struck_leaves_alone _ _ struckAsleep).1 out

def unitFound : List (Bool × Choice) :=
  struckAsleep ++ (false, .call (.semUp 0)) :: List.replicate 6 (false, .go) ++ List.replicate 2 (true, .go)

/-- The killed process takes the unit. -/
theorem struck_takes_unit :
    ¬Machine.EveryStep struckStep LeavesAlone (fresh, fun _ => false) (unitFound ++ [(true, .go)]) := by
  have facts : (Machine.run struckStep (fresh, fun _ => false) unitFound).any
      (fun x => decide (x.2 true = true ∧ (x.1.points true).point = .downUpdate 0)) = true := by decide +kernel
  obtain ⟨x, reached, stands⟩ := (Option.any_eq_true _ _).mp facts
  obtain ⟨struck, update⟩ := of_decide_eq_true stands
  intro alone
  have last := ((Machine.everyStep_append reached).mp alone).2.1
  exact (last struck 0).2 update

end OsLabs.Semaphore
