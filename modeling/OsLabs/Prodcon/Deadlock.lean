import Mathlib.Algebra.Order.Ring.Int
import OsLabs.Prodcon.Safety

/-! When prodcon.c can hang. In a state where nothing moves and a child is left, every
child left waits for semaphore 0 or for semaphore 1 and all units are in the semaphores,
so what has been produced and consumed is read off them. -/

set_option autoImplicit false

namespace OsLabs.Prodcon

open OsLabs.Lib OsLabs.Lib.Threads OsLabs.Semaphore

variable {args : Args} {s t : Shared} {x y : Point}

/-- Some producer or consumer has not finished and no process can take a step. -/
def Stuck (s : Threads (Pid args) Shared Point) : Prop :=
  (∃ c, ¬(s.points (some c)).Exited) ∧ ∀ l, Threads.step (act args) s l = none

/-! ## Forks -/

def Point.Forked (args : Args) (forked : Side → Nat) : Point → Prop
  | .fork .producer i => i ≤ forked .producer
  | .fork .consumer i => args.np ≤ forked .producer ∧ i ≤ forked .consumer
  | _ => ∀ side, args.count side ≤ forked side

def Point.Due (args : Args) : Point → Prop
  | .unborn w => w.i < args.count w.side
  | _ => True

theorem Taken.forked (before : x.Forked args s.forked) (main : x.side = none) (taken : Taken args s x t y) :
    y.Forked args t.forked := by
  cases taken with
  | @fork side i more =>
    cases side with
    | producer => simp [Point.Forked]
    | consumer => simpa [Point.Forked] using before.1
  | producersForked all => exact ⟨all.trans before, Nat.zero_le _⟩
  | consumersForked all =>
    rintro (_ | _)
    · exact before.1
    · exact all.trans before.2
  | wait | waited => exact before
  | _ => cases main

theorem Taken.forked_of_child (child : x.side ≠ none) (taken : Taken args s x t y) : t.forked = s.forked := by
  cases taken with
  | fork => exact absurd rfl child
  | _ => rfl

theorem Taken.due (taken : Taken args s x t y) : y.Due args := by
  cases taken <;> trivial

/-! ## Progress -/

def Point.left (args : Args) : Point → Nat
  | .fork .producer i => (args.np - i) + args.nc + (args.nc + args.np) + 3
  | .fork .consumer i => (args.nc - i) + (args.nc + args.np) + 2
  | .wait i => (args.nc + args.np - i) + 1
  | .done | .exited _ => 0
  | .unborn w => 9 * (args.items w.side - w.j) + 2
  | .loop w => 9 * (args.items w.side - w.j) + 1
  | .downUnit w => 9 * (args.items w.side - w.j)
  | .downLock w => 9 * (args.items w.side - w.j) - 1
  | .getVar w => 9 * (args.items w.side - w.j) - 2
  | .setVar w _ => 9 * (args.items w.side - w.j) - 3
  | .getShown w => 9 * (args.items w.side - w.j) - 4
  | .print w _ => 9 * (args.items w.side - w.j) - 5
  | .upLock w => 9 * (args.items w.side - w.j) - 6
  | .upUnit w => 9 * (args.items w.side - w.j) - 7

theorem Taken.left_lt (before : x.Placed args) (taken : Taken args s x t y) : y.left args < x.left args := by
  cases taken with
  | @fork side i more =>
    cases side
    all_goals
      simp only [Args.count, Point.left] at more ⊢
      omega
  | _ =>
    simp only [Point.Placed, Point.left] at before ⊢
    omega

theorem waits_of_access_eq_none (blocked : s.access args x = none) :
    (∃ i, x = .wait i ∧ s.zombies = 0) ∨ x = .done ∨ (∃ w, x = .unborn w ∧ s.forked w.side ≤ w.i) ∨
    (∃ w, x = .downUnit w ∧ s.semaphores w.side.takes ≤ 0) ∨ (∃ w, x = .downLock w ∧ s.semaphores 2 ≤ 0) ∨
    ∃ w, x = .exited w := by
  cases x with
  | fork side i =>
    cases side
    all_goals
      simp only [Shared.access] at blocked
      split at blocked <;> cases blocked
  | wait i =>
    refine Or.inl ⟨i, rfl, ?_⟩
    simp only [Shared.access] at blocked
    split at blocked
    · split at blocked
      · cases blocked
      · omega
    · cases blocked
  | done => exact Or.inr (Or.inl rfl)
  | unborn w => simpa [Shared.access] using blocked
  | downUnit w | downLock w => simpa [Shared.access, Shared.semDown] using blocked
  | exited w => simp
  | loop w =>
    simp only [Shared.access] at blocked
    split at blocked <;> cases blocked
  | _ => cases blocked

/-! ## Reachable states -/

section Reached

variable {s : Threads (Pid args) Shared Point} {p : Pid args} {m : Move Shared Point}

/-- `main` has forked the children its place says; those still unborn are its own. -/
structure Launched (args : Args) (s : Threads (Pid args) Shared Point) : Prop where
  balanced : Balanced args s
  forked : (s.points none).Forked args s.shared.forked
  due : ∀ q, (s.points q).Due args

theorem launched_start (args : Args) (semaphores counters : Index → Int) :
    Launched args (start args semaphores counters) where
  balanced := balanced_start args semaphores counters
  forked := Nat.zero_le _
  due q := by
    rcases q with _ | i | i
    · trivial
    · exact i.isLt
    · exact i.isLt

theorem step_taken {u : Unit} (call : act args u s.shared (s.points p) = some m) :
    Taken args s.shared (s.points p) m.shared m.point ∧ m.others = id := by
  obtain ⟨call, others⟩ := act_eq_some.mp call
  exact ⟨access_taken call, others⟩

namespace Launched

theorem step (inv : Launched args s) {u : Unit} (call : act args u s.shared (s.points p) = some m) :
    Launched args (s.after p m) := by
  obtain ⟨taken, others⟩ := step_taken call
  refine ⟨inv.balanced.step call, ?_, s.forall_after p m taken.due fun q _ => ?_⟩
  · rw [after_shared]
    cases p with
    | none =>
      rw [after_self]
      exact taken.forked inv.forked (inv.balanced.placed none).2
    | some c =>
      have child : (s.points (some c)).side ≠ none := by
        rw [(inv.balanced.placed (some c)).2]
        cases c <;> nofun
      rw [after_of_ne s (some c) m (Option.some_ne_none c).symm, others, taken.forked_of_child child]
      exact inv.forked
  · rw [others]
    exact inv.due q

theorem left_lt (inv : Launched args s) {u : Unit} (call : act args u s.shared (s.points p) = some m) :
    total (fun x => (x.left args : Int)) (s.after p m) < total (fun x => (x.left args : Int)) s := by
  obtain ⟨taken, others⟩ := step_taken call
  have lower := taken.left_lt (inv.balanced.placed p).1
  rw [total_after fun x => by rw [others]; rfl]
  omega

variable (inv : Launched args s) (blocked : ∀ q, s.shared.access args (s.points q) = none)
include inv blocked

/-- Nobody has semaphore 2: its holder could go on. -/
theorem lock_free : s.shared.semaphores 2 = 1 := by
  have free : total Point.holdsLock s = 0 := by
    refine Finset.sum_eq_zero fun q _ => ?_
    rcases waits_of_access_eq_none (blocked q) with
      ⟨i, here, -⟩ | here | ⟨w, here, -⟩ | ⟨w, here, -⟩ | ⟨w, here, -⟩ | ⟨w, here⟩ <;> rw [here] <;> rfl
  have mutex := inv.balanced.mutex
  omega

theorem all_forked (side : Side) : args.count side ≤ s.shared.forked side := by
  have main : (s.points none).side = none := (inv.balanced.placed none).2
  have forked := inv.forked
  rcases waits_of_access_eq_none (blocked none) with
    ⟨i, here, -⟩ | here | ⟨w, here, -⟩ | ⟨w, here, -⟩ | ⟨w, here, -⟩ | ⟨w, here⟩ <;> rw [here] at main forked
  · exact forked side
  · exact forked side
  all_goals cases main

theorem child_waits (c : Fin args.np ⊕ Fin args.nc) :
    (∃ w, s.points (some c) = .downUnit w ∧ s.shared.semaphores w.side.takes ≤ 0) ∨
      ∃ w, s.points (some c) = .exited w := by
  have due := inv.due (some c)
  have child := (inv.balanced.placed (some c)).2
  rcases waits_of_access_eq_none (blocked (some c)) with
    ⟨i, here, -⟩ | here | ⟨w, here, late⟩ | ⟨w, here, none⟩ | ⟨w, here, none⟩ | ⟨w, here⟩
  · rw [here] at child
    cases c <;> cases child
  · rw [here] at child
    cases c <;> cases child
  · -- `main` has forked it
    rw [here] at due
    have forked := inv.all_forked blocked w.side
    have own : w.i < args.count w.side := due
    omega
  · exact Or.inl ⟨w, here, none⟩
  · -- semaphore 2 is up
    have free := inv.lock_free blocked
    omega
  · exact Or.inr ⟨w, here⟩

theorem stocked : s.shared.semaphores 0 + s.shared.semaphores 1 = args.bsize ∧
    s.shared.semaphores 1 = s.shared.finished .producer - s.shared.finished .consumer := by
  have grounded : ∀ q, (s.points q).inFlight = 0 := by
    rintro (_ | c)
    · have main : (s.points none).side = none := (inv.balanced.placed none).2
      cases here : s.points none with
      | fork | wait | done => rfl
      | _ =>
        rw [here] at main
        cases main
    · rcases inv.child_waits blocked c with ⟨w, here, -⟩ | ⟨w, here⟩ <;> rw [here] <;> rfl
  have flying : total Point.inFlight s = 0 := Finset.sum_eq_zero fun q _ => grounded q
  have carried : total Point.carries s = 0 := Finset.sum_eq_zero fun q _ => by
    have bounds := carries_bounds (s.points q)
    have here := grounded q
    omega
  have slots := inv.balanced.slots
  have stock := inv.balanced.stock
  have settled := inv.balanced.settled (by rw [inv.lock_free blocked]; decide)
  constructor <;> omega

theorem finished_of_units (side : Side) (units : 0 < s.shared.semaphores side.takes) :
    (s.shared.finished side : Int) = args.count side * args.items side := by
  apply inv.balanced.finished_of_exited
  rintro (_ | c) loop
  · cases loop
  · rcases inv.child_waits blocked c with ⟨w, here, none⟩ | ⟨w, here⟩
    · have same := (inv.balanced.placed (some c)).2.trans loop
      rw [here] at same
      cases same
      omega
    · rw [here]
      trivial

omit blocked in
theorem finished_lt {q : Pid args} {w : Worker} (here : s.points q = .downUnit w) :
    (s.shared.finished w.side : Int) < args.count w.side * args.items w.side := by
  rw [inv.balanced.finished_eq_total, ← sum_rounds]
  refine Finset.sum_lt_sum (fun q _ => inv.balanced.returned_le w.side q) ⟨q, Finset.mem_univ q, ?_⟩
  obtain ⟨more, loop⟩ := inv.balanced.placed q
  rw [here] at more loop ⊢
  have below : w.j < args.items w.side := more
  rw [rounds, ← loop]
  simpa [Point.returned, Point.side] using below

end Launched

variable {t : Threads (Pid args) Shared Point} {l : Pid args × Unit}

theorem launched_step (inv : Launched args s) (step : Threads.step (act args) s l = some t) : Launched args t := by
  obtain ⟨p, u⟩ := l
  obtain ⟨m, call, rfl⟩ := Threads.step_eq_some.mp step
  exact inv.step call

theorem launched_of_run {semaphores counters : Index → Int} {ls : List (Pid args × Unit)}
    (reached : Machine.run (Threads.step (act args)) (start args semaphores counters) ls = some s) : Launched args s :=
  Machine.invariant (fun _ _ _ => launched_step) (launched_start args semaphores counters) reached

def stepsLeft (s : Threads (Pid args) Shared Point) : Nat := (total (fun x => (x.left args : Int)) s).toNat

theorem stepsLeft_lt (inv : Launched args s) (step : Threads.step (act args) s l = some t) :
    stepsLeft t < stepsLeft s := by
  obtain ⟨p, u⟩ := l
  obtain ⟨m, call, rfl⟩ := Threads.step_eq_some.mp step
  have lower := inv.left_lt call
  have nonneg : 0 ≤ total (fun x => (x.left args : Int)) (s.after p m) := total_nonneg fun x => Int.natCast_nonneg _
  unfold stepsLeft
  omega

end Reached

/-- prodcon.c cannot hang, in whatever order the processes move, exactly when what is
produced beyond what is consumed is at least nothing and fits the buffer. -/
theorem deadlock_free_iff (args : Args) (room : 1 ≤ args.bsize) (semaphores counters : Index → Int) :
    (¬∃ ls s, Machine.run (Threads.step (act args)) (start args semaphores counters) ls = some s ∧ Stuck s) ↔
      0 ≤ (args.np * args.pitems - args.nc * args.citems : Int) ∧
        (args.np * args.pitems - args.nc * args.citems : Int) ≤ args.bsize := by
  constructor
  · intro free
    -- every run comes to rest, and at rest all children have exited: the counter is the difference
    obtain ⟨ls, s, reached, rest⟩ := Machine.exists_rest stepsLeft (fun _ _ _ => launched_step)
      (fun _ _ _ => stepsLeft_lt) (launched_start args semaphores counters)
    have exited : ∀ c, (s.points (some c)).Exited := by
      by_contra left
      exact free ⟨ls, s, reached, not_forall.mp left, rest⟩
    have inv := (launched_of_run reached).balanced
    rw [← inv.final exited]
    exact inv.counter_bounds
  · rintro ⟨below, above⟩ ⟨ls, s, reached, ⟨c, left⟩, rest⟩
    have inv := launched_of_run reached
    have blocked : ∀ q, s.shared.access args (s.points q) = none := by
      intro q
      simpa [Threads.step, act] using rest (q, ())
    obtain ⟨slots, items⟩ := inv.stocked blocked
    rcases inv.child_waits blocked c with ⟨⟨side, i, j⟩, here, none⟩ | ⟨w, here⟩
    · have more := inv.finished_lt here
      cases side with
      | producer =>
        -- a full buffer, and the consumers are gone
        have space : s.shared.semaphores 0 ≤ 0 := none
        have gone := inv.finished_of_units blocked .consumer (show 0 < s.shared.semaphores 1 by omega)
        simp only [Args.count, Args.items] at more gone
        omega
      | consumer =>
        -- an empty buffer, and the producers are gone
        have empty : s.shared.semaphores 1 ≤ 0 := none
        have gone := inv.finished_of_units blocked .producer (show 0 < s.shared.semaphores 0 by omega)
        have nonneg := inv.balanced.nonneg 1 (by decide)
        simp only [Args.count, Args.items] at more gone
        omega
    · rw [here] at left
      exact left trivial

theorem deadlock_free_small : ¬∃ ls s,
    Machine.run (Threads.step (act small)) (start small (fun _ => 7) fun _ => 7) ls = some s ∧ Stuck s :=
  (deadlock_free_iff small (by decide) _ _).mpr (by decide)

end OsLabs.Prodcon
