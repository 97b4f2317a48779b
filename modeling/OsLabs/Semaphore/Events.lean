import OsLabs.Semaphore.Kernel

/-! What one step of a process does to one semaphore. -/

set_option autoImplicit false

namespace OsLabs.Semaphore

open OsLabs.Lib OsLabs.Lib.Threads

theorem acquire_eq_some {s t : Shared} {i : Index} {x y : Point} :
    s.acquire i x = some (t, y) ↔ (s.semaphores i).locked = false ∧ s.setLocked i true = t ∧ x = y := by
  cases free : (s.semaphores i).locked <;> simp [Shared.acquire, free]

theorem acquirePtable_eq_some {s t : Shared} {x y : Point} :
    s.acquirePtable x = some (t, y) ↔ s.ptable = false ∧ { s with ptable := true } = t ∧ x = y := by
  cases free : s.ptable <;> simp [Shared.acquirePtable, free]

structure Same (i : Index) (s t : Shared) : Prop where
  cell : t.semaphores i = s.semaphores i
  given : t.given i = s.given i
  used : t.used i = s.used i
  calls : t.calls i = s.calls i
  ups : t.ups i = s.ups i
  downs : t.downs i = s.downs i

structure Kept (i : Index) (s t : Shared) : Prop where
  value : (t.semaphores i).semValue = (s.semaphores i).semValue
  given : t.given i = s.given i
  used : t.used i = s.used i
  calls : t.calls i = s.calls i
  ups : t.ups i = s.ups i
  downs : t.downs i = s.downs i

structure Calm (i : Index) (x y : Point) : Prop where
  uses : y.uses = some i → x.uses = some i
  initialises : y.initialises ≠ some i
  takes : y.takes ≠ some i
  sleeps : y.sleeps = some i → x.sleeps = some i
  owes : x.owes = some i → y.owes = some i
  raises : y.raises = some i → x.raises = some i

structure Quiet (i : Index) (s t : Shared) (x y : Point) : Prop where
  kept : Kept i s t
  calm : Calm i x y
  spin : LockStep (s.semaphores i).locked (t.semaphores i).locked (x.holdsSpin = some i) (y.holdsSpin = some i)

/-- The steps as one semaphore sees them. -/
inductive Event (i : Index) (c : Choice) (s : Shared) : Point → Shared → Point → Prop where
  | quiet {x : Point} {t : Shared} {y : Point} (still : Quiet i s t x y) : Event i c s x t y
  | initCall {ret index value : Word} (call : c = .call (.semInit index value)) (found : lookup index = some i) :
      Event i c s (.user ret) s (.initValue i value)
  | initValue {value : Word} : Event i c s (.initValue i value)
      { s.setValue i value with given := Function.update s.given i (some value) } (.initLocked i)
  | initLocked : Event i c s (.initLocked i) (s.setLocked i false) (.user 1)
  | downCall {ret index : Word} (call : c = .call (.semDown index)) (found : lookup index = some i) :
      Event i c s (.user ret) (s.use i) (.downAcquire i)
  | upCall {ret index : Word} (call : c = .call (.semUp index)) (found : lookup index = some i) :
      Event i c s (.user ret) { s.use i with calls := Function.update s.calls i (s.calls i + 1) } (.upAcquire i)
  | sleep (empty : (s.semaphores i).semValue = 0) : Event i c s (.downTest i) s (.sleepPtable i)
  | find (units : (s.semaphores i).semValue ≠ 0) : Event i c s (.downTest i) s (.downUpdate i)
  | take : Event i c s (.downUpdate i)
      { s.setValue i ((s.semaphores i).semValue - 1) with downs := Function.update s.downs i (s.downs i + 1) }
      (.downRelease i)
  | put : Event i c s (.upUpdate i)
      { s.setValue i ((s.semaphores i).semValue + 1) with ups := Function.update s.ups i (s.ups i + 1) } (.wakePtable i)
  | wake : Event i c s (.wakeScan i) s (.wakeUnlock i)

section Frame

variable {i j : Index} {s t : Shared} {x y : Point}

theorem views_of_index_ne (other : x.index ≠ some i) :
    x.uses ≠ some i ∧ x.initialises ≠ some i ∧ x.holdsSpin ≠ some i ∧ x.takes ≠ some i ∧ x.sleeps ≠ some i ∧
      x.owes ≠ some i ∧ x.raises ≠ some i := by
  cases x <;>
    simp_all [Point.index, Point.uses, Point.initialises, Point.holdsSpin, Point.takes, Point.sleeps, Point.owes,
      Point.raises]

theorem Same.kept (same : Same i s t) : Kept i s t where
  value := congrArg Cell.semValue same.cell
  given := same.given
  used := same.used
  calls := same.calls
  ups := same.ups
  downs := same.downs

theorem Same.refl : Same i s s := ⟨rfl, rfl, rfl, rfl, rfl, rfl⟩

theorem Same.ptable (locked : Bool) : Same i s { s with ptable := locked } := ⟨rfl, rfl, rfl, rfl, rfl, rfl⟩

theorem Same.setLocked (other : j ≠ i) (locked : Bool) : Same i s (s.setLocked j locked) := by
  constructor <;> simp [Shared.setLocked, other.symm]

theorem Kept.setLocked (locked : Bool) : Kept i s (s.setLocked i locked) := by
  constructor <;> simp [Shared.setLocked]

theorem Quiet.of_same (same : Same i s t) (here : x.index ≠ some i) (now : y.index ≠ some i) : Quiet i s t x y := by
  obtain ⟨uses, initialises, holds, takes, sleeps, -, raises⟩ := views_of_index_ne now
  obtain ⟨-, -, -, -, -, owes, -⟩ := views_of_index_ne here
  refine ⟨same.kept, ⟨?_, initialises, takes, ?_, ?_, ?_⟩, .keep (congrArg Cell.locked same.cell) ?_⟩
  · exact fun held => absurd held uses
  · exact fun held => absurd held sleeps
  · exact fun held => absurd held owes
  · exact fun held => absurd held raises
  · exact fun held => absurd held holds

theorem Quiet.of_cells (same : Same i s t) (calm : Calm i x y) (holds : y.holdsSpin = some i → x.holdsSpin = some i) :
    Quiet i s t x y :=
  ⟨same.kept, calm, .keep (congrArg Cell.locked same.cell) holds⟩

theorem Quiet.acquire (calm : Calm i x y) (free : (s.semaphores i).locked = false) :
    Quiet i s (s.setLocked i true) x y :=
  ⟨.setLocked true, calm, .acquire free (by simp [Shared.setLocked])⟩

theorem Quiet.release (calm : Calm i x y) (had : x.holdsSpin = some i) (left : y.holdsSpin ≠ some i) :
    Quiet i s (s.setLocked i false) x y :=
  ⟨.setLocked false, calm, .release had left⟩

theorem access_same (call : s.access x = some (t, y)) (other : x.index ≠ some i) : Same i s t ∧ y.index ≠ some i := by
  have apart : ∀ j, x.index = some j → j ≠ i := fun j here same => other (same ▸ here)
  cases x <;>
    simp only [Shared.access, acquire_eq_some, acquirePtable_eq_some, Option.some.injEq, Prod.mk.injEq] at call
  case user | asleep => cases call
  case killPtable =>
    obtain ⟨-, rfl, rfl⟩ := call
    exact ⟨.ptable true, nofun⟩
  case killScan =>
    obtain ⟨rfl, rfl⟩ := call
    exact ⟨.refl, nofun⟩
  case killUnlock =>
    obtain ⟨rfl, rfl⟩ := call
    exact ⟨.ptable false, nofun⟩
  case downAcquire j | reacquire j | upAcquire j =>
    obtain ⟨-, rfl, rfl⟩ := call
    exact ⟨.setLocked (apart j rfl) true, other⟩
  case sleepPtable | woken | wakePtable =>
    obtain ⟨-, rfl, rfl⟩ := call
    exact ⟨.ptable true, other⟩
  case initLocked j | downRelease j | upRelease j =>
    obtain ⟨rfl, rfl⟩ := call
    exact ⟨.setLocked (apart j rfl) false, nofun⟩
  case sleepRelease j =>
    obtain ⟨rfl, rfl⟩ := call
    exact ⟨.setLocked (apart j rfl) false, other⟩
  case resting | tidy | wakeUnlock =>
    obtain ⟨rfl, rfl⟩ := call
    exact ⟨.ptable false, other⟩
  case doze | wakeScan =>
    obtain ⟨rfl, rfl⟩ := call
    exact ⟨.refl, other⟩
  case downTest =>
    split at call <;>
    · cases call
      exact ⟨.refl, other⟩
  case initValue j value =>
    obtain ⟨rfl, rfl⟩ := call
    refine ⟨?_, other⟩
    constructor <;> simp [Shared.setValue, (apart j rfl).symm]
  case downUpdate j | upUpdate j =>
    obtain ⟨rfl, rfl⟩ := call
    refine ⟨?_, other⟩
    constructor <;> simp [Shared.setValue, (apart j rfl).symm]

theorem access_event (call : s.access x = some (t, y)) : Event i .go s x t y := by
  by_cases here : x.index = some i
  · cases x <;> simp only [Point.index, Option.some.injEq, reduceCtorEq] at here <;> subst here <;>
      simp only [Shared.access, acquire_eq_some, acquirePtable_eq_some, Option.some.injEq, Prod.mk.injEq] at call
    case initValue =>
      obtain ⟨rfl, rfl⟩ := call
      exact .initValue
    case initLocked =>
      obtain ⟨rfl, rfl⟩ := call
      exact .initLocked
    case downUpdate =>
      obtain ⟨rfl, rfl⟩ := call
      exact .take
    case upUpdate =>
      obtain ⟨rfl, rfl⟩ := call
      exact .put
    case wakeScan =>
      obtain ⟨rfl, rfl⟩ := call
      exact .wake
    case downTest =>
      split at call
      next empty =>
        cases call
        exact .sleep empty
      next units =>
        cases call
        exact .find units
    case downAcquire | reacquire | upAcquire =>
      obtain ⟨free, rfl, rfl⟩ := call
      exact .quiet (.acquire ⟨fun _ => rfl, nofun, nofun, nofun, nofun, by simp [Point.raises]⟩ free)
    case downRelease | upRelease =>
      obtain ⟨rfl, rfl⟩ := call
      exact .quiet (.release ⟨nofun, nofun, nofun, nofun, nofun, nofun⟩ rfl nofun)
    case sleepRelease =>
      obtain ⟨rfl, rfl⟩ := call
      exact .quiet (.release ⟨id, nofun, nofun, id, nofun, nofun⟩ rfl nofun)
    case sleepPtable =>
      obtain ⟨-, rfl, rfl⟩ := call
      exact .quiet (.of_cells (.ptable true) ⟨id, nofun, nofun, id, nofun, nofun⟩ id)
    case woken =>
      obtain ⟨-, rfl, rfl⟩ := call
      exact .quiet (.of_cells (.ptable true) ⟨id, nofun, nofun, nofun, nofun, nofun⟩ nofun)
    case wakePtable =>
      obtain ⟨-, rfl, rfl⟩ := call
      exact .quiet (.of_cells (.ptable true) ⟨id, nofun, nofun, nofun, id, nofun⟩ id)
    case doze =>
      obtain ⟨rfl, rfl⟩ := call
      exact .quiet (.of_cells .refl ⟨id, nofun, nofun, id, nofun, nofun⟩ nofun)
    case resting =>
      obtain ⟨rfl, rfl⟩ := call
      exact .quiet (.of_cells (.ptable false) ⟨id, nofun, nofun, id, nofun, nofun⟩ nofun)
    case tidy | wakeUnlock =>
      obtain ⟨rfl, rfl⟩ := call
      exact .quiet (.of_cells (.ptable false) ⟨id, nofun, nofun, nofun, nofun, nofun⟩ id)
    case asleep => cases call
  · obtain ⟨same, now⟩ := access_same call here
    exact .quiet (.of_same same here now)

theorem enter_event (request : Request) (ret : Word) :
    Event i (.call request) s (.user ret) (s.enter request).1 (s.enter request).2 := by
  cases request with
  | kill pid ret => exact .quiet (.of_same .refl nofun nofun)
  | semInit index value =>
    simp only [Shared.enter]
    cases found : lookup index with
    | none => exact .quiet (.of_same .refl nofun nofun)
    | some j =>
      by_cases here : j = i
      · subst here
        exact .initCall rfl found
      · exact .quiet (.of_same .refl nofun fun same => here (Option.some.inj same))
  | semDown index =>
    simp only [Shared.enter]
    cases found : lookup index with
    | none => exact .quiet (.of_same .refl nofun nofun)
    | some j =>
      by_cases here : j = i
      · subst here
        exact .downCall rfl found
      · refine .quiet (.of_same ?_ nofun fun same => here (Option.some.inj same))
        constructor <;> simp [Shared.use, Ne.symm here]
  | semUp index =>
    simp only [Shared.enter]
    cases found : lookup index with
    | none => exact .quiet (.of_same .refl nofun nofun)
    | some j =>
      by_cases here : j = i
      · subst here
        exact .upCall rfl found
      · refine .quiet (.of_same ?_ nofun fun same => here (Option.some.inj same))
        constructor <;> simp [Shared.use, Ne.symm here]

end Frame

section Step

variable {c : Choice} {s : Shared} {x : Proc} {m : Move Shared Proc}

/-- A step is a call or an access, and the scans reach the other processes. -/
theorem act_cases (step : act c s x = some m) :
    (∃ request ret, c = .call request ∧ x.point = .user ret ∧ m.shared = (s.enter request).1 ∧
      m.point.point = (s.enter request).2 ∧ m.others = id) ∨
    (c = .go ∧ s.access x.point = some (m.shared, m.point.point) ∧ m.others = x.point.scan) := by
  cases c with
  | call request =>
    cases here : x.point with
    | user ret =>
      simp only [act, here] at step
      split at step <;> cases step
      exact Or.inl ⟨request, ret, rfl, rfl, rfl, rfl, rfl⟩
    | _ =>
      simp only [act, here] at step
      cases step
  | go =>
    simp only [act, Option.map_eq_some_iff] at step
    obtain ⟨⟨t, y⟩, call, rfl⟩ := step
    exact Or.inr ⟨rfl, call, rfl⟩

theorem act_event (step : act c s x = some m) (i : Index) : Event i c s x.point m.shared m.point.point := by
  rcases act_cases step with ⟨request, ret, rfl, here, shared, point, -⟩ | ⟨rfl, call, -⟩
  · rw [here, shared, point]
    exact enter_event request ret
  · exact access_event call

theorem enter_ptable (request : Request) :
    (s.enter request).1.ptable = s.ptable ∧ ¬(s.enter request).2.HoldsPtable := by
  cases request with
  | kill pid ret => exact ⟨rfl, id⟩
  | semInit index value | semDown index | semUp index =>
    simp only [Shared.enter]
    cases lookup index <;> exact ⟨rfl, id⟩

theorem access_ptable {t : Shared} {x y : Point} (call : s.access x = some (t, y)) :
    LockStep s.ptable t.ptable x.HoldsPtable y.HoldsPtable := by
  cases x <;>
    simp only [Shared.access, acquire_eq_some, acquirePtable_eq_some, Option.some.injEq, Prod.mk.injEq] at call
  case user | asleep => cases call
  case sleepPtable | woken | wakePtable | killPtable =>
    obtain ⟨free, rfl, rfl⟩ := call
    exact .acquire free rfl
  case resting | tidy | wakeUnlock | killUnlock =>
    obtain ⟨rfl, rfl⟩ := call
    exact .release trivial id
  case sleepRelease | doze | wakeScan | killScan =>
    obtain ⟨rfl, rfl⟩ := call
    exact .keep rfl id
  case downAcquire | reacquire | upAcquire =>
    obtain ⟨-, rfl, rfl⟩ := call
    exact .keep rfl id
  case downTest =>
    split at call <;>
    · cases call
      exact .keep rfl id
  all_goals
    obtain ⟨rfl, rfl⟩ := call
    exact .keep rfl id

theorem act_ptable (step : act c s x = some m) :
    LockStep s.ptable m.shared.ptable x.point.HoldsPtable m.point.point.HoldsPtable := by
  rcases act_cases step with ⟨request, ret, -, here, shared, point, -⟩ | ⟨-, call, -⟩
  · rw [shared, point]
    exact .keep (enter_ptable request).1 fun holds => absurd holds (enter_ptable request).2
  · exact access_ptable call

/-- A scan leaves a process where it is, or finds it asleep and makes it runnable. -/
theorem act_others (step : act c s x = some m) (y : Proc) :
    (m.others y).point = y.point ∨ ∃ i, y.point = .asleep i ∧ (m.others y).point = .woken i := by
  have wake : ∀ z : Point, z.wake = z ∨ ∃ i, z = .asleep i ∧ z.wake = .woken i := by
    intro z
    cases z with
    | asleep i => exact Or.inr ⟨i, rfl, rfl⟩
    | _ => exact Or.inl rfl
  rcases act_cases step with ⟨-, -, -, -, -, -, others⟩ | ⟨-, -, others⟩ <;> rw [others]
  · exact Or.inl rfl
  · cases x.point with
    | wakeScan i =>
      simp only [Point.scan, Proc.wakeup]
      split
      · exact wake y.point
      · exact Or.inl rfl
    | killScan pid ret =>
      simp only [Point.scan, Proc.kill]
      split
      · exact wake y.point
      · exact Or.inl rfl
    | _ => exact Or.inl rfl

end Step

end OsLabs.Semaphore
