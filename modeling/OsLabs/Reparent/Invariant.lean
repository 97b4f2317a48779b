import OsLabs.Reparent.Family
import OsLabs.Reparent.Kernel

/-! What every step of the kernel keeps: who holds `ptable.lock`, what the process table says
of the family, and what an exiting process and a waiting one have made sure of under the lock. -/

set_option autoImplicit false

namespace OsLabs.Reparent

open OsLabs.Lib

section Views

def ProcState.life : ProcState → Life
  | .unused => .free
  | .embryo => .claimed
  | .sleeping | .runnable | .running => .live
  | .zombie => .dead

theorem ProcState.life_eq_claimed {x : ProcState} : x.life = .claimed ↔ x = .embryo := by
  cases x <;> simp [ProcState.life]

theorem ProcState.life_eq_dead {x : ProcState} : x.life = .dead ↔ x = .zombie := by
  cases x <;> simp [ProcState.life]

def Point.builds : Point → Option (Slot × Bool)
  | .allocRelease np | .allocStack np | .forkCopy np | .forkLink np => some (np, false)
  | .forkAcquire np _ | .forkPublish np _ => some (np, true)
  | _ => none

def Point.holds : Point → Bool
  | .allocScan _ | .allocRelease _ | .forkPublish _ _ | .exitWake | .exitSearch | .exitPass _ | .exitZombie | .waitScan
  | .waitSleep | .killScan _ | .signalScan _ _ | .pauseScan _ _ | .release _ => true
  | _ => false

def Point.inKernel : Point → Bool
  | .user _ => false
  | _ => true

def Point.exits : Point → Bool
  | .exitAcquire | .exitWake | .exitSearch | .exitPass _ | .exitZombie => true
  | _ => false

def Point.hasWoken : Point → Bool
  | .exitSearch | .exitPass _ | .exitZombie => true
  | _ => false

theorem Point.holds_eq_false {x : Point} (outside : x.inKernel = false) : x.holds = false := by
  cases x <;> simp_all [Point.inKernel, Point.holds]

theorem Point.exits_eq_false {x : Point} (outside : x.inKernel = false) : x.exits = false := by
  cases x <;> simp_all [Point.inKernel, Point.exits]

theorem Point.hasWoken_eq_false {x : Point} (outside : x.inKernel = false) : x.hasWoken = false := by
  cases x <;> simp_all [Point.inKernel, Point.hasWoken]

theorem Point.holds_of_hasWoken {x : Point} (woken : x.hasWoken = true) : x.holds = true := by
  cases x <;> simp_all [Point.hasWoken, Point.holds]

def Kernel.family (s : Kernel) : Family Slot where
  life q := (s.proc q).state.life
  pid q := (s.proc q).pid
  parent q := (s.proc q).parent
  builds q := (s.proc q).point.builds
  next := s.nextpid

end Views

/-- Of a state: which process holds the lock and which may sleep, and what one that exits
or waits has made sure of before it lets go of the lock. -/
structure Kernel.Guarded (s : Kernel) : Prop where
  holder : ∀ p, (s.proc p).point.holds = true ↔ s.lock = some p
  runs : ∀ p, (s.proc p).point.holds = true → (s.proc p).state = .running
  inKernel : ∀ p, (s.proc p).point.inKernel = true → (s.proc p).state.life = .live
  asleep : ∀ p, (s.proc p).state = .sleeping → (s.proc p).point = .waitAsleep ∧ (s.proc p).chan = some p
  mortal : ∀ p, (s.proc p).point.exits = true → p ≠ initproc
  woken : ∀ p r, (s.proc p).point.hasWoken = true → (s.proc p).parent = some r → (s.proc r).state ≠ .sleeping
  found : ∀ p temp, (s.proc p).point = .exitPass temp → temp = (s.proc p).parent
  childless : ∀ p q, (s.proc p).point = .exitZombie → (s.proc q).parent ≠ some p
  watched : ∀ p q, (s.proc p).point = .waitSleep ∨ (s.proc p).state = .sleeping → (s.proc q).parent = some p →
    (s.proc q).state ≠ .zombie

namespace Kernel

section Projections

variable (s : Kernel) (p q r : Slot) (x : Proc) (y : Point) (chan : Option Slot)

@[simp, grind =] theorem set_proc : (s.set q x).proc r = if r = q then x else s.proc r :=
  Function.update_apply ..

@[simp, grind =] theorem set_lock : (s.set q x).lock = s.lock := rfl

@[simp, grind =] theorem set_nextpid : (s.set q x).nextpid = s.nextpid := rfl

@[simp, grind =] theorem goto_proc : (s.goto p y).proc r = if r = p then { s.proc p with point := y } else s.proc r :=
  set_proc ..

@[simp, grind =] theorem goto_lock : (s.goto p y).lock = s.lock := rfl

@[simp, grind =] theorem goto_nextpid : (s.goto p y).nextpid = s.nextpid := rfl

@[simp, grind =] theorem wakeup1_proc :
    (s.wakeup1 chan).proc r =
      if (s.proc r).state = .sleeping ∧ (s.proc r).chan = chan then { s.proc r with state := .runnable } else s.proc r := rfl

@[simp, grind =] theorem wakeup1_lock : (s.wakeup1 chan).lock = s.lock := rfl

@[simp, grind =] theorem wakeup1_nextpid : (s.wakeup1 chan).nextpid = s.nextpid := rfl

end Projections

namespace Guarded

variable {s : Kernel} {p q : Slot}

theorem congr {t : Kernel} (guarded : s.Guarded) (proc : t.proc = s.proc) (lock : t.lock = s.lock) : t.Guarded := by
  obtain ⟨holder, runs, inKernel, asleep, mortal, woken, found, childless, watched⟩ := guarded
  constructor <;> simpa only [proc, lock]

theorem alone (guarded : s.Guarded) (holds : (s.proc p).point.holds = true) (other : (s.proc q).point.holds = true) :
    q = p := by
  have first := (guarded.holder p).mp holds
  have second := (guarded.holder q).mp other
  exact Option.some.inj (second.symm.trans first)

theorem idle (guarded : s.Guarded) (dormant : (s.proc q).state.life ≠ .live) : ∃ ret, (s.proc q).point = .user ret := by
  have outside := mt (guarded.inKernel q) dormant
  cases point : (s.proc q).point with
  | user ret => exact ⟨ret, rfl⟩
  | _ => simp [point, Point.inKernel] at outside

theorem goto (guarded : s.Guarded) {y : Point} {lock : Option Slot} (running : (s.proc p).state = .running)
    (lock_eq : lock = if y.holds then some p else if (s.proc p).point.holds then none else s.lock)
    (takes : y.holds = true → (s.proc p).point.holds = true ∨ s.lock = none)
    (mortal : y.exits = true → p ≠ initproc)
    (woken : y.hasWoken = true → ∀ r, (s.proc p).parent = some r → (s.proc r).state ≠ .sleeping)
    (found : ∀ temp, y = .exitPass temp → temp = (s.proc p).parent)
    (childless : y = .exitZombie → ∀ q, (s.proc q).parent ≠ some p)
    (watched : y = .waitSleep → ∀ q, (s.proc q).parent = some p → (s.proc q).state ≠ .zombie) :
    Guarded { s.goto p y with lock } where
  holder r := by
    have here := guarded.holder p
    have there := guarded.holder r
    grind
  runs r := by
    have there := guarded.runs r
    grind
  inKernel r := by
    have there := guarded.inKernel r
    grind [ProcState.life]
  asleep r := by
    have there := guarded.asleep r
    grind
  mortal := by grind [guarded.mortal]
  woken := by grind [guarded.woken]
  found := by grind [guarded.found]
  childless := by grind [guarded.childless]
  watched := by grind [guarded.watched]

theorem goto_plain (guarded : s.Guarded) {y : Point} {lock : Option Slot} (running : (s.proc p).state = .running)
    (lock_eq : lock = if y.holds then some p else if (s.proc p).point.holds then none else s.lock)
    (takes : y.holds = true → (s.proc p).point.holds = true ∨ s.lock = none) (stays : y.exits = false)
    (waits : y ≠ .waitSleep) : Guarded { s.goto p y with lock } := by
  apply guarded.goto running lock_eq takes
  · grind
  · cases y <;> simp_all [Point.exits, Point.hasWoken]
  · rintro temp rfl
    simp [Point.exits] at stays
  · rintro rfl
    simp [Point.exits] at stays
  · exact fun sleeps => absurd sleeps waits

theorem set (guarded : s.Guarded) {x : Proc}
    (point : x.point = (s.proc q).point ∨ (s.proc q).point.inKernel = false ∧ x.point.inKernel = false)
    (runs : x.point.holds = true → x.state = .running) (alive : x.point.inKernel = true → x.state.life = .live)
    (asleep : x.state = .sleeping → (s.proc q).state = .sleeping ∧ x.chan = (s.proc q).chan ∧ x.point = (s.proc q).point)
    (zombie : x.state = .zombie → (s.proc q).state = .zombie)
    (parent : x.parent = (s.proc q).parent ∨
      x.point.inKernel = false ∧ x.state ≠ .zombie ∧ ∀ r, x.parent = some r → (s.proc r).point ≠ .exitZombie) :
    Guarded (s.set q x) where
  holder r := by
    have there := guarded.holder r
    grind [Point.holds_eq_false]
  runs r := by
    have there := guarded.runs r
    grind
  inKernel r := by
    have there := guarded.inKernel r
    grind
  asleep r := by
    have there := guarded.asleep r
    grind
  mortal r := by
    have there := guarded.mortal r
    grind [Point.exits_eq_false]
  woken p r := by
    have there := guarded.woken p r
    grind [Point.hasWoken_eq_false]
  found p temp := by
    have there := guarded.found p temp
    grind [Point.inKernel]
  childless p r := by
    have there := guarded.childless p r
    grind [Point.inKernel]
  watched p r := by
    have there := guarded.watched p r
    grind [Point.inKernel]

theorem wakeup1 (guarded : s.Guarded) (chan : Option Slot) : Guarded (s.wakeup1 chan) where
  holder r := by
    have there := guarded.holder r
    grind
  runs r := by
    have there := guarded.runs r
    grind
  inKernel r := by
    have there := guarded.inKernel r
    grind [ProcState.life]
  asleep r := by
    have there := guarded.asleep r
    grind
  mortal := by grind [guarded.mortal]
  woken := by grind [guarded.woken]
  found := by grind [guarded.found]
  childless := by grind [guarded.childless]
  watched := by grind [guarded.watched]

/-- The children of an exiting process go to its parent, which it has woken. -/
theorem handOver (guarded : s.Guarded) {t : Slot} (point : (s.proc p).point = .exitPass (some t)) :
    Guarded
      { s with
        proc := fun q => if (s.proc q).parent = some p then { s.proc q with parent := some t } else s.proc q } := by
  have parent := guarded.found p _ point
  -- t was woken under the lock that p still holds, so it cannot sleep over a zombie child
  have awake := guarded.woken p t (by rw [point]; rfl) parent.symm
  have alone : ∀ q, (s.proc q).point.holds = true → q = p := fun q => guarded.alone (by rw [point]; rfl)
  constructor
  · have holder := guarded.holder
    grind
  · have runs := guarded.runs
    grind
  · have inKernel := guarded.inKernel
    grind
  · have asleep := guarded.asleep
    grind
  · have mortal := guarded.mortal
    grind
  · intro q r
    have woken := guarded.woken q
    have holds : (s.proc q).point.hasWoken = true → q = p := fun woken => alone q (Point.holds_of_hasWoken woken)
    grind
  · intro q temp
    have found := guarded.found q temp
    have holds : (s.proc q).point.hasWoken = true → q = p := fun woken => alone q (Point.holds_of_hasWoken woken)
    grind [Point.hasWoken]
  · intro q r zombie
    have same := alone q (by grind [Point.holds])
    grind
  · intro q r waits
    have watched := guarded.watched q r
    have holds : (s.proc q).point = .waitSleep → q = p := fun sleeps => alone q (by rw [sleeps]; rfl)
    grind

theorem die (guarded : s.Guarded) (point : (s.proc p).point = .exitZombie) :
    Guarded { s.set p { s.proc p with state := .zombie, point := .user 0 } with lock := none } := by
  have alone : ∀ q, (s.proc q).point.holds = true → q = p := fun q => guarded.alone (by rw [point]; rfl)
  -- the parent is awake and will scan again: the new zombie is not missed
  have woken := guarded.woken p
  have childless := guarded.childless p
  constructor
  · intro q
    have same := alone q
    grind [Point.holds]
  · have runs := guarded.runs
    grind [Point.holds]
  · have inKernel := guarded.inKernel
    grind [Point.inKernel]
  · have asleep := guarded.asleep
    grind
  · have mortal := guarded.mortal
    grind [Point.exits]
  · have woken := guarded.woken
    grind [Point.hasWoken]
  · have found := guarded.found
    grind
  · have childless := guarded.childless
    grind
  · intro q r waits
    have watched := guarded.watched q r
    have holds : (s.proc q).point = .waitSleep → q = p := fun sleeps => alone q (by rw [sleeps]; rfl)
    grind [Point.hasWoken]

theorem sleep (guarded : s.Guarded) (running : (s.proc p).state = .running) (point : (s.proc p).point = .waitSleep) :
    Guarded { s.set p { s.proc p with chan := some p, state := .sleeping, point := .waitAsleep } with lock := none } := by
  have alone : ∀ q, (s.proc q).point.holds = true → q = p := fun q => guarded.alone (by rw [point]; rfl)
  have watched := guarded.watched p
  constructor
  · intro q
    have same := alone q
    grind [Point.holds]
  · have runs := guarded.runs
    grind [Point.holds]
  · have inKernel := guarded.inKernel
    grind [ProcState.life]
  · have asleep := guarded.asleep
    grind
  · have mortal := guarded.mortal
    grind [Point.exits]
  · intro q r woken
    have holds : (s.proc q).point.hasWoken = true → q = p := fun woken => alone q (Point.holds_of_hasWoken woken)
    grind [Point.hasWoken]
  · have found := guarded.found
    grind
  · have childless := guarded.childless
    grind
  · have watched := guarded.watched
    grind

end Guarded

end Kernel

end OsLabs.Reparent
