import OsLabs.Lib.Totals
import OsLabs.Prodcon.Program

/-! The buffer of prodcon.c stays within its bounds. Every unit of the three semaphores
is either in a semaphore or with one process, so sums over the processes are kept. -/

set_option autoImplicit false

namespace OsLabs.Prodcon

open OsLabs.Lib OsLabs.Lib.Threads OsLabs.Semaphore

/-! ## What each process has in hand -/

/-- A unit taken first in the round and not yet given on. -/
def Point.inFlight : Point → Int
  | .downLock _ | .getVar _ | .setVar _ _ | .getShown _ | .print _ _ | .upLock _ | .upUnit _ => 1
  | _ => 0

def Point.holdsLock : Point → Int
  | .getVar _ | .setVar _ _ | .getShown _ | .print _ _ | .upLock _ => 1
  | _ => 0

/-- An item that is in the counter and not in semaphore 1: just produced, or about to be
consumed. -/
def Point.carries : Point → Int
  | .downLock ⟨.consumer, _, _⟩ | .getVar ⟨.consumer, _, _⟩ | .setVar ⟨.consumer, _, _⟩ _ => 1
  | .getShown ⟨.producer, _, _⟩ | .print ⟨.producer, _, _⟩ _ | .upLock ⟨.producer, _, _⟩ | .upUnit ⟨.producer, _, _⟩ => 1
  | _ => 0

/-- What a call that has not returned has added to the counter. -/
def Point.unsettled : Point → Int
  | .getShown w | .print w _ => w.side.change
  | _ => 0

def Point.returned (side : Side) : Point → Int
  | .unborn w | .loop w | .downUnit w | .downLock w | .getVar w | .setVar w _ | .getShown w | .print w _
  | .exited w => if w.side = side then w.j else 0
  | .upLock w | .upUnit w => if w.side = side then w.j + 1 else 0
  | _ => 0

def Point.Inside : Point → Prop
  | .getVar _ | .setVar _ _ | .getShown _ | .print _ _ => True
  | _ => False

def Point.Placed (args : Args) : Point → Prop
  | .loop w => w.j ≤ args.items w.side
  | .downUnit w | .downLock w | .getVar w | .setVar w _ | .getShown w | .print w _ | .upLock w | .upUnit w =>
    w.j < args.items w.side
  | .unborn w => w.j = 0
  | .exited w => w.j = args.items w.side
  | _ => True

def Point.side : Point → Option Side
  | .fork _ _ | .wait _ | .done => none
  | .unborn w | .loop w | .downUnit w | .downLock w | .getVar w | .setVar w _ | .getShown w | .print w _ | .upLock w
  | .upUnit w | .exited w => some w.side

def Point.Exited : Point → Prop
  | .exited _ => True
  | _ => False

section Weights

variable (x : Point)

theorem carries_bounds : 0 ≤ x.carries ∧ x.carries ≤ x.inFlight := by
  cases x with
  | downLock w | getVar w | setVar w value | getShown w | print w shown | upLock w | upUnit w =>
    obtain ⟨side, i, j⟩ := w
    cases side <;> simp [Point.carries, Point.inFlight]
  | _ => simp [Point.carries, Point.inFlight]

theorem unsettled_bounds : -x.holdsLock ≤ x.unsettled ∧ x.unsettled ≤ x.holdsLock := by
  cases x with
  | getShown w | print w shown => cases side : w.side <;> simp [Point.unsettled, Point.holdsLock, Side.change, side]
  | _ => simp [Point.unsettled, Point.holdsLock]

theorem holdsLock_nonneg : 0 ≤ x.holdsLock := by
  cases x <;> simp [Point.holdsLock]

variable {x}

theorem holdsLock_of_exited (exited : x.Exited) : x.holdsLock = 0 := by
  cases x <;> first | rfl | exact False.elim exited

theorem holdsLock_of_inside (inside : x.Inside) : x.holdsLock = 1 := by
  cases x <;> first | rfl | exact False.elim inside

end Weights

/-! ## One step -/

/-- What a step adds to the semaphores and counters it takes from the process, and the
other way round. -/
structure Conserves (s t : Shared) (x y : Point) : Prop where
  slots : t.semaphores 0 + t.semaphores 1 + y.inFlight = s.semaphores 0 + s.semaphores 1 + x.inFlight
  mutex : t.semaphores 2 + y.holdsLock = s.semaphores 2 + x.holdsLock
  stock : t.counters 0 - t.semaphores 1 - y.carries = s.counters 0 - s.semaphores 1 - x.carries
  tally : t.counters 0 - t.finished .producer + t.finished .consumer - y.unsettled =
    s.counters 0 - s.finished .producer + s.finished .consumer - x.unsettled
  returned : ∀ side, t.finished side - y.returned side = s.finished side - x.returned side

theorem semDown_eq_some {s t : Shared} {i : Index} :
    s.semDown i = some t ↔ 0 < s.semaphores i ∧
      { s with semaphores := Function.update s.semaphores i (s.semaphores i - 1) } = t := by
  by_cases units : 0 < s.semaphores i <;> simp [Shared.semDown, units]

inductive Taken (args : Args) (s : Shared) : Point → Shared → Point → Prop where
  | fork {side : Side} {i : Nat} (more : i < args.count side) :
    Taken args s (.fork side i) { s with forked := Function.update s.forked side (i + 1) } (.fork side (i + 1))
  | producersForked {i : Nat} (all : args.np ≤ i) : Taken args s (.fork .producer i) s (.fork .consumer 0)
  | consumersForked {i : Nat} (all : args.nc ≤ i) : Taken args s (.fork .consumer i) s (.wait 0)
  | wait {i : Nat} (more : i < args.nc + args.np) (zombie : 0 < s.zombies) :
    Taken args s (.wait i) { s with zombies := s.zombies - 1 } (.wait (i + 1))
  | waited {i : Nat} (all : args.nc + args.np ≤ i) : Taken args s (.wait i) s .done
  | born {w : Worker} (forked : w.i < s.forked w.side) : Taken args s (.unborn w) s (.loop w)
  | round {w : Worker} (more : w.j < args.items w.side) : Taken args s (.loop w) s (.downUnit w)
  | exit {w : Worker} (last : args.items w.side ≤ w.j) :
    Taken args s (.loop w) { s with zombies := s.zombies + 1 } (.exited w)
  | downUnit {w : Worker} (units : 0 < s.semaphores w.side.takes) :
    Taken args s (.downUnit w)
      { s with semaphores := Function.update s.semaphores w.side.takes (s.semaphores w.side.takes - 1) } (.downLock w)
  | downLock {w : Worker} (units : 0 < s.semaphores 2) :
    Taken args s (.downLock w) { s with semaphores := Function.update s.semaphores 2 (s.semaphores 2 - 1) } (.getVar w)
  | getVar {w : Worker} : Taken args s (.getVar w) s (.setVar w (s.counters 0 + w.side.change))
  | setVar {w : Worker} {value : Int} : Taken args s (.setVar w value) (s.setVar 0 value) (.getShown w)
  | getShown {w : Worker} : Taken args s (.getShown w) s (.print w (s.counters 0))
  | print {w : Worker} {shown : Int} :
    Taken args s (.print w shown)
      { s with finished := Function.update s.finished w.side (s.finished w.side + 1) } (.upLock w)
  | upLock {w : Worker} : Taken args s (.upLock w) (s.semUp 2) (.upUnit w)
  | upUnit {w : Worker} : Taken args s (.upUnit w) (s.semUp w.side.gives) (.loop { w with j := w.j + 1 })

section Access

variable {args : Args} {s t : Shared} {x y : Point}

theorem access_taken (call : s.access args x = some (t, y)) : Taken args s x t y := by
  cases x with
  | fork side i =>
    simp only [Shared.access] at call
    split at call
    next more =>
      cases call
      exact .fork more
    next all =>
      cases side with
      | producer =>
        cases call
        exact .producersForked (Nat.not_lt.mp all)
      | consumer =>
        cases call
        exact .consumersForked (Nat.not_lt.mp all)
  | wait i =>
    simp only [Shared.access] at call
    split at call
    next more =>
      split at call
      next zombie =>
        cases call
        exact .wait more zombie
      next => cases call
    next all =>
      cases call
      exact .waited (Nat.not_lt.mp all)
  | done | exited => cases call
  | unborn w =>
    simp only [Shared.access] at call
    split at call
    next forked =>
      cases call
      exact .born forked
    next => cases call
  | loop w =>
    simp only [Shared.access] at call
    split at call
    next more =>
      cases call
      exact .round more
    next last =>
      cases call
      exact .exit (Nat.not_lt.mp last)
  | downUnit w =>
    obtain ⟨_, taken, rest⟩ := Option.map_eq_some_iff.mp call
    obtain ⟨units, rfl⟩ := semDown_eq_some.mp taken
    cases rest
    exact .downUnit units
  | downLock w =>
    obtain ⟨_, taken, rest⟩ := Option.map_eq_some_iff.mp call
    obtain ⟨units, rfl⟩ := semDown_eq_some.mp taken
    cases rest
    exact .downLock units
  | getVar w | setVar w value | getShown w | print w shown | upLock w | upUnit w =>
    cases call
    constructor

theorem Conserves.of_same (semaphores : t.semaphores = s.semaphores) (counters : t.counters = s.counters)
    (finished : t.finished = s.finished) (inFlight : y.inFlight = x.inFlight) (holdsLock : y.holdsLock = x.holdsLock)
    (carries : y.carries = x.carries) (unsettled : y.unsettled = x.unsettled)
    (returned : ∀ side, y.returned side = x.returned side) : Conserves s t x y := by
  constructor <;> simp [semaphores, counters, finished, inFlight, holdsLock, carries, unsettled, returned]

theorem Taken.conserves (read : ∀ w value, x = .setVar w value → value = s.counters 0 + w.side.change)
    (taken : Taken args s x t y) : Conserves s t x y := by
  cases taken with
  | fork | producersForked | consumersForked | wait | waited | born | round | exit =>
    exact .of_same rfl rfl rfl rfl rfl rfl rfl fun _ => rfl
  | @getVar w | @getShown w =>
    obtain ⟨side, i, j⟩ := w
    cases side <;> exact .of_same rfl rfl rfl rfl rfl rfl rfl fun _ => rfl
  | @downUnit w =>
    obtain ⟨side, i, j⟩ := w
    cases side <;> constructor <;>
      simp [Side.takes, Point.inFlight, Point.holdsLock, Point.carries, Point.unsettled, Point.returned] <;> omega
  | @downLock w =>
    obtain ⟨side, i, j⟩ := w
    cases side <;> constructor <;>
      simp [Point.inFlight, Point.holdsLock, Point.carries, Point.unsettled, Point.returned]
  | @setVar w value =>
    have same := read w value rfl
    obtain ⟨side, i, j⟩ := w
    cases side <;> constructor <;>
      simp [Shared.setVar, same, Side.change, Point.inFlight, Point.holdsLock, Point.carries, Point.unsettled,
        Point.returned] <;>
      omega
  | @print w shown =>
    obtain ⟨side, i, j⟩ := w
    constructor
    case returned =>
      intro other
      cases side <;> cases other <;> simp [Point.returned]
    all_goals
      cases side <;> simp [Side.change, Point.inFlight, Point.holdsLock, Point.carries, Point.unsettled] <;> omega
  | @upLock w =>
    obtain ⟨side, i, j⟩ := w
    cases side <;> constructor <;>
      simp [Shared.semUp, Point.inFlight, Point.holdsLock, Point.carries, Point.unsettled, Point.returned]
  | @upUnit w =>
    obtain ⟨side, i, j⟩ := w
    cases side <;> constructor <;>
      simp [Shared.semUp, Side.gives, Point.inFlight, Point.holdsLock, Point.carries, Point.unsettled,
        Point.returned] <;>
      omega

theorem Taken.placed (before : x.Placed args) (taken : Taken args s x t y) : y.Placed args ∧ y.side = x.side := by
  cases taken with
  | fork | producersForked | consumersForked | wait | waited => exact ⟨trivial, rfl⟩
  | @born w =>
    have first : w.j = 0 := before
    exact ⟨first.trans_le (Nat.zero_le _), rfl⟩
  | round more => exact ⟨more, rfl⟩
  | exit last => exact ⟨Nat.le_antisymm before last, rfl⟩
  | downUnit | downLock | getVar | setVar | getShown | print | upLock | upUnit => exact ⟨before, rfl⟩

theorem Taken.nonneg {i : Index} (before : 0 ≤ s.semaphores i) (taken : Taken args s x t y) : 0 ≤ t.semaphores i := by
  have changed : ∀ j value, 0 ≤ value → 0 ≤ Function.update s.semaphores j value i := by
    intro j value positive
    by_cases same : i = j
    · rwa [same, Function.update_self]
    · rwa [Function.update_of_ne same]
  have up : ∀ j, 0 ≤ (s.semUp j).semaphores i := by
    intro j
    by_cases same : i = j
    · subst same
      simp [Shared.semUp]
      omega
    · simpa [Shared.semUp, same] using before
  cases taken with
  | downUnit units | downLock units => exact changed _ _ (by omega)
  | upLock | upUnit => exact up _
  | _ => exact before

theorem Taken.counters (taken : Taken args s x t y) :
    (t.counters = s.counters ∨ ∃ w value, x = .setVar w value) ∧
    ∀ w value, y = .setVar w value → value = t.counters 0 + w.side.change := by
  cases taken with
  | setVar => exact ⟨Or.inr ⟨_, _, rfl⟩, fun _ _ => nofun⟩
  | getVar =>
    refine ⟨Or.inl rfl, fun v value now => ?_⟩
    cases now
    rfl
  | _ => exact ⟨Or.inl rfl, fun _ _ => nofun⟩

end Access

/-! ## The invariant -/

section Invariant

variable {args : Args} {s : Threads (Pid args) Shared Point} {p : Pid args} {m : Move Shared Point}

def role (args : Args) : Pid args → Option Side
  | none => none
  | some (.inl _) => some .producer
  | some (.inr _) => some .consumer

structure Balanced (args : Args) (s : Threads (Pid args) Shared Point) : Prop where
  nonneg : ∀ i ≤ 2, 0 ≤ s.shared.semaphores i
  slots : s.shared.semaphores 0 + s.shared.semaphores 1 + total Point.inFlight s = args.bsize
  mutex : s.shared.semaphores 2 + total Point.holdsLock s = 1
  stock : s.shared.counters 0 - s.shared.semaphores 1 - total Point.carries s = 0
  tally : s.shared.counters 0 - s.shared.finished .producer + s.shared.finished .consumer -
    total Point.unsettled s = 0
  returned : ∀ side, s.shared.finished side - total (Point.returned side) s = 0
  read : ∀ q w value, s.points q = .setVar w value → value = s.shared.counters 0 + w.side.change
  placed : ∀ q, (s.points q).Placed args ∧ (s.points q).side = role args q

theorem act_eq_some {u : Unit} {s : Shared} {x : Point} :
    act args u s x = some m ↔ s.access args x = some (m.shared, m.point) ∧ m.others = id := by
  unfold act
  cases s.access args x with
  | none => simp
  | some next =>
    obtain ⟨t, y⟩ := next
    obtain ⟨shared, point, others⟩ := m
    simp [eq_comm, and_assoc]

def rounds (args : Args) (side : Side) (q : Pid args) : Int :=
  if role args q = some side then args.items side else 0

theorem sum_rounds (side : Side) : ∑ q, rounds args side q = args.count side * args.items side := by
  rw [Fintype.sum_option, Fintype.sum_sum_type]
  cases side <;> simp [rounds, role, Args.count]

namespace Balanced

theorem one_holder (inv : Balanced args s) : AtMostOne (fun x : Point => x.holdsLock = 1) s := by
  have nonneg := inv.nonneg 2 (by decide)
  have mutex := inv.mutex
  exact atMostOne_of_total_le_one holdsLock_nonneg (fun x held => held.ge) (by omega)

theorem step (inv : Balanced args s) {u : Unit} (call : act args u s.shared (s.points p) = some m) :
    Balanced args (s.after p m) := by
  obtain ⟨call, others⟩ := act_eq_some.mp call
  have taken := access_taken call
  have conserves := taken.conserves (inv.read p)
  have sums : ∀ weight : Point → Int,
      total weight (s.after p m) = total weight s - weight (s.points p) + weight m.point := fun weight =>
    total_after fun x => by rw [others]; rfl
  obtain ⟨counters, fresh⟩ := taken.counters
  refine
    { nonneg := fun i small => taken.nonneg (inv.nonneg i small)
      slots := ?_
      mutex := ?_
      stock := ?_
      tally := ?_
      returned := fun side => ?_
      read := ?_
      placed := fun q => ?_ }
  · have before := inv.slots
    have change := conserves.slots
    rw [sums, after_shared]
    omega
  · have before := inv.mutex
    have change := conserves.mutex
    rw [sums, after_shared]
    omega
  · have before := inv.stock
    have change := conserves.stock
    rw [sums, after_shared]
    omega
  · have before := inv.tally
    have change := conserves.tally
    rw [sums, after_shared]
    omega
  · have before := inv.returned side
    have change := conserves.returned side
    rw [sums, after_shared]
    omega
  · intro q w value
    by_cases same : q = p
    · rw [same, after_self]
      exact fresh w value
    · rw [after_of_ne s p m same, others, id]
      intro there
      rw [after_shared, inv.read q w value there]
      rcases counters with kept | ⟨v, written, here⟩
      · rw [kept]
      · -- the writer holds semaphore 2, so nobody else is between get_var and set_var
        have held := inv.one_holder q p (by rw [there]; rfl) (by rw [here]; rfl)
        exact absurd held same
  · obtain ⟨placed, side⟩ := taken.placed (inv.placed p).1
    by_cases same : q = p
    · rw [same, after_self]
      exact ⟨placed, side.trans (inv.placed p).2⟩
    · rw [after_of_ne s p m same, others]
      exact inv.placed q

/-- The counter is what semaphore 1 holds and the items in hand, and those are no more
than the units in flight. -/
theorem counter_bounds (inv : Balanced args s) : 0 ≤ s.shared.counters 0 ∧ s.shared.counters 0 ≤ args.bsize := by
  -- each process carries between no item and as many as it has units in flight
  have carried : 0 ≤ total Point.carries s := total_nonneg fun x => (carries_bounds x).1
  have within : total Point.carries s ≤ total Point.inFlight s := total_le_total fun x => (carries_bounds x).2
  have space := inv.nonneg 0 (by decide)
  have items := inv.nonneg 1 (by decide)
  have slots := inv.slots
  have stock := inv.stock
  constructor <;> omega

/-- While semaphore 2 is available no call has changed the counter and not returned. -/
theorem settled (inv : Balanced args s) (available : 0 < s.shared.semaphores 2) :
    s.shared.counters 0 = s.shared.finished .producer - s.shared.finished .consumer := by
  have below : total Point.unsettled s ≤ total Point.holdsLock s := total_le_total fun x => (unsettled_bounds x).2
  have above : total (fun x => -Point.unsettled x) s ≤ total Point.holdsLock s := total_le_total fun x => by
    have bounds := unsettled_bounds x
    omega
  rw [total_neg] at above
  have mutex := inv.mutex
  have tally := inv.tally
  omega

theorem one_inside (inv : Balanced args s) : AtMostOne Point.Inside s := fun p q first second =>
  inv.one_holder p q (holdsLock_of_inside first) (holdsLock_of_inside second)

theorem main_idle (inv : Balanced args s) : (s.points none).holdsLock = 0 := by
  have main : (s.points none).side = none := (inv.placed none).2
  cases here : s.points none with
  | fork | wait | done => rfl
  | _ =>
    rw [here] at main
    cases main

theorem returned_le (inv : Balanced args s) (side : Side) (q : Pid args) :
    (s.points q).returned side ≤ rounds args side q := by
  obtain ⟨placed, loop⟩ := inv.placed q
  rw [rounds, ← loop]
  generalize s.points q = x at placed ⊢
  cases x with
  | fork | wait | done => simp [Point.returned, Point.side]
  | _ =>
    simp only [Point.Placed] at placed
    simp only [Point.returned, Point.side, Option.some.injEq]
    split
    next same =>
      subst same
      omega
    next => rfl

theorem returned_eq (inv : Balanced args s) (side : Side) (q : Pid args)
    (exited : role args q = some side → (s.points q).Exited) : (s.points q).returned side = rounds args side q := by
  obtain ⟨placed, loop⟩ := inv.placed q
  rw [← loop] at exited
  rw [rounds, ← loop]
  generalize s.points q = x at placed exited ⊢
  cases x with
  | exited w =>
    have last : w.j = args.items w.side := placed
    simp only [Point.returned, Point.side, Option.some.injEq, last]
    split
    next same => rw [same]
    next => rfl
  | fork | wait | done => rfl
  | _ =>
    simp only [Point.returned, Point.side, Option.some.injEq]
    split
    next same => exact (exited (congrArg some same)).elim
    next => rfl

theorem finished_eq_total (inv : Balanced args s) (side : Side) :
    (s.shared.finished side : Int) = ∑ q, (s.points q).returned side :=
  eq_of_sub_eq_zero (inv.returned side)

theorem finished_of_exited (inv : Balanced args s) {side : Side}
    (exited : ∀ q, role args q = some side → (s.points q).Exited) :
    (s.shared.finished side : Int) = args.count side * args.items side := by
  rw [inv.finished_eq_total, ← sum_rounds]
  exact Finset.sum_congr rfl fun q _ => inv.returned_eq side q (exited q)

theorem final (inv : Balanced args s) (exited : ∀ c, (s.points (some c)).Exited) :
    s.shared.counters 0 = args.np * args.pitems - args.nc * args.citems := by
  have children : ∀ side q, role args q = some side → (s.points q).Exited := by
    rintro side (_ | c) loop
    · cases loop
    · exact exited c
  have free : total Point.holdsLock s = 0 := by
    apply Finset.sum_eq_zero
    rintro (_ | c) -
    · exact inv.main_idle
    · exact holdsLock_of_exited (exited c)
  have mutex := inv.mutex
  -- nobody holds the lock, so semaphore 2 is 1 and the counter is settled
  rw [inv.settled (by omega), inv.finished_of_exited (children .producer), inv.finished_of_exited (children .consumer)]
  rfl

end Balanced

theorem total_start {semaphores counters : Index → Int} {weight : Point → Int}
    (fork : weight (.fork .producer 0) = 0) (unborn : ∀ side i, weight (.unborn ⟨side, i, 0⟩) = 0) :
    total weight (start args semaphores counters) = 0 := by
  apply Finset.sum_eq_zero
  rintro (_ | i | i) -
  · exact fork
  · exact unborn .producer i
  · exact unborn .consumer i

theorem balanced_start (args : Args) (semaphores counters : Index → Int) :
    Balanced args (start args semaphores counters) where
  nonneg i small := by
    have below : i.val ≤ 2 := small
    have cases : i = 0 ∨ i = 1 ∨ i = 2 := by
      simp only [Fin.ext_iff, Fin.val_zero, Fin.val_one, Fin.val_two]
      omega
    rcases cases with rfl | rfl | rfl <;> simp [start, Shared.semInit, Shared.initCounters]
  slots := by
    rw [total_start rfl fun _ _ => rfl]
    simp [start, Shared.semInit, Shared.initCounters]
  mutex := by
    rw [total_start rfl fun _ _ => rfl]
    simp [start, Shared.semInit, Shared.initCounters]
  stock := by
    rw [total_start rfl fun _ _ => rfl]
    simp [start, Shared.semInit, Shared.initCounters]
  tally := by
    rw [total_start rfl fun _ _ => rfl]
    rfl
  returned side := by
    rw [total_start rfl fun _ _ => by simp [Point.returned]]
    rfl
  read q w value there := by
    rcases q with _ | i | i <;> cases there
  placed q := by
    rcases q with _ | i | i <;> exact ⟨by trivial, rfl⟩

/-- In every state the counter is between 0 and the buffer size, one process at most is
inside `producer()` or `consumer()`, and no update of the counter is lost. -/
theorem buffer_safe {semaphores counters : Index → Int} {ls : List (Pid args × Unit)}
    (reached : Machine.run (Threads.step (act args)) (start args semaphores counters) ls = some s) :
    0 ≤ s.shared.counters 0 ∧ s.shared.counters 0 ≤ args.bsize ∧ AtMostOne Point.Inside s ∧
      (0 < s.shared.semaphores 2 →
        s.shared.counters 0 = s.shared.finished .producer - s.shared.finished .consumer) ∧
      ((∀ c, (s.points (some c)).Exited) →
        s.shared.counters 0 = args.np * args.pitems - args.nc * args.citems) := by
  have inv : Balanced args s := Threads.invariant (I := Balanced args) (fun _ _ _ _ inv call => inv.step call)
    (balanced_start args semaphores counters) reached
  exact ⟨inv.counter_bounds.1, inv.counter_bounds.2, inv.one_inside, inv.settled, inv.final⟩

end Invariant

def small : Args where
  bsize := 1
  np := 2
  pitems := 1
  nc := 1
  citems := 1

def smallRun : List (Pid small × Unit) :=
  let go (p : Pid small) (n : Nat) : List (Pid small × Unit) := List.replicate n (p, ())
  let first : Pid small := some (.inl ⟨0, by decide⟩)
  let second : Pid small := some (.inl ⟨1, by decide⟩)
  let taker : Pid small := some (.inr ⟨0, by decide⟩)
  go none 5 ++ go first 11 ++ go second 2 ++ go taker 11 ++ go second 9 ++ go none 4

theorem buffer_safe_small : ∃ s,
    Machine.run (Threads.step (act small)) (start small (fun _ => 7) fun _ => 7) smallRun = some s ∧
    s.points none = .done ∧ s.shared.counters 0 = (2 : Nat) * (1 : Nat) - (1 : Nat) * (1 : Nat) := by
  have facts : (Machine.run (Threads.step (act small)) (start small (fun _ => 7) fun _ => 7) smallRun).any (fun s =>
      decide (s.points none = .done ∧ ∀ c, s.points (some c) = .exited (match c with
        | .inl i => ⟨.producer, i, 1⟩
        | .inr i => ⟨.consumer, i, 1⟩))) = true := by decide +kernel
  obtain ⟨s, reached, last⟩ := (Option.any_eq_true _ _).mp facts
  obtain ⟨done, exited⟩ := of_decide_eq_true last
  refine ⟨s, reached, done, (buffer_safe reached).2.2.2.2 fun c => ?_⟩
  rw [exited]
  trivial

end OsLabs.Prodcon
