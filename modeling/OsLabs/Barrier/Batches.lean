import OsLabs.Barrier.Program
import Mathlib.GroupTheory.GroupAction.Ring

/-! Calls of `barrier_wait` in batches of `nt`. Where no call goes on before its batch is
complete, the mutex is free only between the calls of one batch. -/

set_option autoImplicit false

namespace OsLabs.Barrier

open OsLabs.Lib OsLabs.Lib.Monitor OsLabs.Lib.Threads

section Full

variable {nt : Nat} {b : BarrierT}

def BarrierT.full (b : BarrierT) (nt : Nat) : Nat := nt * (b.arrived / nt)

theorem full_add_mod (b : BarrierT) (nt : Nat) : b.full nt + b.arrived % nt = b.arrived := Nat.div_add_mod b.arrived nt

theorem complete_iff (positive : 0 < nt) (same : b.nt = nt) (number : Nat) :
    b.Complete number ↔ number ≤ b.full nt := by
  rw [BarrierT.Complete, same, mul_comm, ← Nat.le_div_iff_mul_le positive, ceilDiv_le_iff_le_mul positive]
  rfl

theorem full_mono {c : BarrierT} (nt : Nat) (more : b.arrived ≤ c.arrived) : b.full nt ≤ c.full nt :=
  Nat.mul_le_mul_left nt (Nat.div_le_div_right more)

theorem succ_mul_le_full {k number : Nat} (after : nt * k < number) (complete : number ≤ b.full nt) :
    nt * (k + 1) ≤ b.full nt :=
  Nat.mul_le_mul_left nt (Nat.lt_of_mul_lt_mul_left (after.trans_le complete))

end Full

/-! ## What holds at each statement -/

/-- The counters whenever the mutex is free: `currt` calls have come since the last
complete batch. -/
structure Between (nt : Nat) (b : BarrierT) : Prop where
  same : b.nt = nt
  below : b.currt < nt
  rest : b.arrived % nt = b.currt

def Placed (nt : Nat) (b : BarrierT) : Point → Prop
  | .out o => o.number ≤ b.full nt ∧ nt * o.returned ≤ b.full nt
  | .locking (.count k) => nt * k ≤ b.full nt
  | .locking (.leave k number) | .waiting _ (.leave k number) => nt * k < number ∧ number ≤ b.arrived
  | .inside (.count k) => Between nt b ∧ nt * k ≤ b.full nt
  | .inside (.test k number) =>
    b.nt = nt ∧ nt * k < number ∧ number = b.arrived ∧ 0 < b.currt ∧ b.currt ≤ nt ∧ b.arrived % nt = b.currt % nt
  | .inside (.reset k number) => b.nt = nt ∧ nt * k < number ∧ number = b.arrived ∧ b.currt = nt ∧ b.arrived % nt = 0
  | .inside (.broadcast k number) => b.nt = nt ∧ nt * k < number ∧ number = b.arrived ∧ b.currt = 0 ∧ b.arrived % nt = 0
  | .inside (.leave k number) => Between nt b ∧ nt * (k + 1) ≤ b.full nt ∧ number ≤ b.full nt
  | _ => False

/-- A thread that takes the mutex again in `pthread_cond_wait` does so when its batch is
complete. -/
def Timely (b : BarrierT) (turn : Turn Unit) (x : Point) : Prop :=
  ∀ k number, turn = .go → x = .locking (.leave k number) → b.Complete number

section Statements

variable {b b' : BarrierT} {x y : In} {o : Out}

theorem set_cases (set : deed b x = .set b' y) :
    (∃ k, x = .count k ∧ b' = { b with currt := b.currt + 1, arrived := b.arrived + 1 } ∧ y = .test k (b.arrived + 1)) ∨
    (∃ k number, x = .test k number ∧ b.currt = b.nt ∧ b' = b ∧ y = .reset k number) ∨
    ∃ k number, x = .reset k number ∧ b' = { b with currt := 0 } ∧ y = .broadcast k number := by
  cases x with
  | test k number =>
    simp only [deed] at set
    split at set
    next => cases set
    next last =>
      cases set
      simp only [not_not] at last
      simp [last]
  | count k | reset k number =>
    cases set
    simp
  | _ => cases set

theorem broadcast_cases {c : Unit} (broadcast : deed b x = .broadcast c y) :
    ∃ k number, x = .broadcast k number ∧ y = .leave k number := by
  cases x with
  | test k number =>
    simp only [deed] at broadcast
    split at broadcast <;> cases broadcast
  | broadcast k number =>
    cases broadcast
    exact ⟨k, number, rfl, rfl⟩
  | _ => cases broadcast

theorem wait_cases {c : Unit} (wait : deed b x = .wait c y) :
    ∃ k number, x = .test k number ∧ b.currt ≠ b.nt ∧ y = .leave k number := by
  cases x with
  | test k number =>
    simp only [deed] at wait
    split at wait
    next early =>
      cases wait
      exact ⟨k, number, rfl, early, rfl⟩
    next => cases wait
  | _ => cases wait

theorem unlock_cases (unlock : deed b x = .unlock o) :
    ∃ k number, x = .leave k number ∧ o = { returned := k + 1, number } := by
  cases x with
  | test k number =>
    simp only [deed] at unlock
    split at unlock <;> cases unlock
  | leave k number =>
    cases unlock
    exact ⟨k, number, rfl, rfl⟩
  | _ => cases unlock

theorem arrived_le (set : deed b x = .set b' y) : b.arrived ≤ b'.arrived := by
  rcases set_cases set with ⟨k, -, rfl, -⟩ | ⟨k, number, -, -, rfl, -⟩ | ⟨k, number, -, rfl, -⟩
  · exact Nat.le_succ _
  · exact le_rfl
  · exact le_rfl

end Statements

theorem placed_outline {nt : Nat} (positive : 0 < nt) : Outline barrier_wait Timely (Between nt) (Placed nt) where
  call entry there := by
    cases entry
    exact there.2
  skip entry _ := by cases entry
  lock {b x} timely between there := by
    cases x with
    | count k => exact ⟨between, there⟩
    | leave k number =>
      -- a call that comes back early has no complete batch behind it
      have complete := (complete_iff positive between.same number).mp (timely k number rfl rfl)
      exact ⟨between, succ_mul_le_full there.1 complete, complete⟩
    | _ => exact there.elim
  set {b x b' y} deed there := by
    rcases set_cases deed with ⟨k, rfl, rfl, rfl⟩ | ⟨k, number, rfl, last, rfl, rfl⟩ | ⟨k, number, rfl, rfl, rfl⟩
    · -- currt++ by a call that has just taken the mutex
      obtain ⟨between, before⟩ := there
      have whole := full_add_mod b nt
      have below := between.below
      refine ⟨between.same, Nat.lt_succ_of_le (by omega), rfl, Nat.succ_pos _, below, ?_⟩
      rw [← between.rest, Nat.mod_add_mod]
    · -- the last call of its batch
      obtain ⟨same, after, own, -, -, rest⟩ := there
      refine ⟨same, after, own, last.trans same, ?_⟩
      rw [rest, last, same, Nat.mod_self]
    · obtain ⟨same, after, own, -, rest⟩ := there
      exact ⟨same, after, own, rfl, rest⟩
  stable {b x b' y} deed _ z outside there := by
    have more := arrived_le deed
    have full := full_mono nt more
    cases z with
    | out o => exact ⟨there.1.trans full, there.2.trans full⟩
    | inside x => exact absurd trivial outside
    | locking x =>
      cases x with
      | count k => exact le_trans there full
      | leave k number => exact ⟨there.1, there.2.trans more⟩
      | _ => exact there
    | waiting c x =>
      cases x with
      | leave k number => exact ⟨there.1, there.2.trans more⟩
      | _ => exact there
  broadcast {b x c y} deed there := by
    obtain ⟨k, number, rfl, rfl⟩ := broadcast_cases deed
    obtain ⟨same, after, rfl, empty, rest⟩ := there
    have whole := full_add_mod b nt
    have complete : b.arrived ≤ b.full nt := by omega
    exact ⟨⟨same, by omega, by omega⟩, succ_mul_le_full after complete, complete⟩
  notify _ _ x waits := by
    cases x with
    | leave k number => exact waits
    | _ => exact waits.elim
  wait {b x c y} deed there := by
    obtain ⟨k, number, rfl, early, rfl⟩ := wait_cases deed
    obtain ⟨same, after, rfl, -, few, rest⟩ := there
    have below : b.currt < nt := by omega
    exact ⟨⟨same, below, rest.trans (Nat.mod_eq_of_lt below)⟩, after, le_rfl⟩
  unlock deed there := by
    obtain ⟨k, number, rfl, rfl⟩ := unlock_cases deed
    exact ⟨there.1, there.2.2, there.2.1⟩
  spurious {b c x} _ waits := by
    cases x with
    | leave k number => exact waits
    | _ => exact waits.elim

/-! ## Waiting without spurious returns -/

def Notified (nt : Nat) (b : BarrierT) : Point → Prop
  | .locking (.leave _ number) => number ≤ b.full nt
  | _ => True

theorem timely_of_notified {nt : Nat} (positive : 0 < nt) {b : BarrierT} {turn : Turn Unit} {x : Point}
    (same : b.nt = nt) (notified : Notified nt b x) : Timely b turn x := by
  rintro k number - rfl
  exact (complete_iff positive same number).mpr notified

theorem notified_outline {nt : Nat} (positive : 0 < nt) :
    Outline barrier_wait (fun _ turn _ => turn ≠ .spurious) (Between nt)
      fun b x => Placed nt b x ∧ Notified nt b x where
  call entry there := by
    refine ⟨(placed_outline positive).call entry there.1, ?_⟩
    cases entry
    trivial
  skip entry there := ⟨(placed_outline positive).skip entry there.1, trivial⟩
  lock _ between there :=
    ⟨(placed_outline positive).lock (timely_of_notified positive between.same there.2) between there.1, trivial⟩
  set deed there := ⟨(placed_outline positive).set deed there.1, trivial⟩
  stable {b x b' y} deed here z outside there := by
    refine ⟨(placed_outline positive).stable deed here.1 z outside there.1, ?_⟩
    have full := full_mono nt (arrived_le deed)
    have notified := there.2
    cases z with
    | locking x =>
      cases x with
      | leave k number => exact le_trans notified full
      | _ => trivial
    | _ => trivial
  broadcast deed there := ⟨(placed_outline positive).broadcast deed there.1, trivial⟩
  notify {b x c y} deed here j waits := by
    refine ⟨(placed_outline positive).notify deed here.1 j waits.1, ?_⟩
    obtain ⟨k, number, rfl, rfl⟩ := broadcast_cases deed
    obtain ⟨-, -, -, -, rest⟩ := here.1
    have whole := full_add_mod b nt
    cases j with
    | leave k' number' =>
      have come : number' ≤ b.arrived := waits.1.2
      show number' ≤ b.full nt
      omega
    | _ => trivial
  wait deed there :=
    have placed := (placed_outline positive).wait deed there.1
    ⟨placed.1, placed.2, trivial⟩
  unlock deed there :=
    have placed := (placed_outline positive).unlock deed there.1
    ⟨placed.1, placed.2, trivial⟩
  spurious not_spurious _ := absurd rfl not_spurious

def Early (nt : Nat) (b : BarrierT) : In → Prop
  | .leave _ number => b.full nt < number
  | _ => False

def Releases (b : BarrierT) : In → Prop
  | .test _ _ => b.currt = b.nt
  | .reset _ _ | .broadcast _ _ => True
  | _ => False

theorem early_or_releases {nt : Nat} :
    Wakes barrier_wait (fun b x => Placed nt b x ∧ Notified nt b x) () (Early nt) Releases where
  wait {b x y} deed there := by
    obtain ⟨k, number, rfl, early, rfl⟩ := wait_cases deed
    obtain ⟨same, -, rfl, some, few, rest⟩ := there.1
    have whole := full_add_mod b nt
    rw [rest, Nat.mod_eq_of_lt (by omega)] at whole
    show b.full nt < b.arrived
    omega
  set {b x b' y j} deed there waits before := by
    rcases set_cases deed with ⟨k, rfl, rfl, rfl⟩ | ⟨k, number, rfl, last, rfl, rfl⟩ | ⟨k, number, rfl, rfl, rfl⟩
    · obtain ⟨between, -⟩ := there.1
      by_cases last : b.currt + 1 = b.nt
      · exact Or.inr last
      · -- still the same batch
        left
        have whole := full_add_mod b nt
        have whole' := full_add_mod { b with currt := b.currt + 1, arrived := b.arrived + 1 } nt
        have rest := between.rest
        have below := between.below
        have same := between.same
        dsimp only at whole'
        rw [← Nat.mod_add_mod, rest, Nat.mod_eq_of_lt (by omega)] at whole'
        cases j with
        | leave k' number =>
          have early : b.full nt < number := before.resolve_right id
          show BarrierT.full _ nt < number
          omega
        | _ => exact before.resolve_right id
    · exact Or.inr trivial
    · exact Or.inr trivial
  broadcast _ other _ := absurd rfl other
  leave {b x} promise := by
    constructor
    · intro c y deed
      obtain ⟨k, number, rfl, early, -⟩ := wait_cases deed
      exact early promise
    · intro o deed
      obtain ⟨k, number, rfl, -⟩ := unlock_cases deed
      exact promise

/-! ## The waiting threads counted -/

/-- A call of the current batch that is to wait or waits; the call that completes it makes
up for the reset of `currt` until its broadcast. -/
def pending (nt : Nat) : Point → Int
  | .waiting _ _ | .inside (.test _ _) | .inside (.reset _ _) => 1
  | .inside (.broadcast _ _) => 1 - nt
  | _ => 0

section Invariant

variable {Pid : Type*} [DecidableEq Pid] [Fintype Pid] {nt : Nat} {s : State Pid} {p : Pid} {turn : Turn Unit}
  {m : Move (Shared BarrierT) Point}

structure Gathered (nt : Nat) (s : State Pid) : Prop where
  guarded : Guarded s
  outlined : Outlined (Between nt) (fun b x => Placed nt b x ∧ Notified nt b x) s
  covered : Covered () (Early nt) Releases s
  pending : s.shared.data.currt = total (pending nt) s

namespace Gathered

theorem step (positive : 0 < nt) (inv : Gathered nt s) (notified : turn ≠ .spurious)
    (taken : Taken barrier_wait s.shared turn (s.points p) m) : Gathered nt (s.after p m) where
  guarded := inv.guarded.step taken
  outlined := (notified_outline positive).step inv.guarded inv.outlined notified taken
  covered := early_or_releases.step inv.guarded inv.outlined inv.covered taken
  pending := by
    have here := (inv.outlined.place p).1
    have before := inv.pending
    have alone : (s.points p).Inside → ∀ q, q ≠ p → ¬(s.points q).Inside := fun inside q => inv.guarded.alone inside
    rw [after_shared]
    generalize point : s.points p = x at taken here alone
    cases taken with
    | call entry =>
      cases entry
      rw [total_after fun x => rfl, point, before]
      simp [Barrier.pending]
    | skip entry => cases entry
    | lock free =>
      rw [total_after fun x => rfl, point]
      rename_i k
      cases k with
      | count k | leave k number => simp [Barrier.pending, before]
      | _ => exact here.elim
    | set deed =>
      rw [total_after fun x => rfl, point, ← before]
      rcases set_cases deed with ⟨k, rfl, rfl, rfl⟩ | ⟨k, number, rfl, last, rfl, rfl⟩ | ⟨k, number, rfl, rfl, rfl⟩
      · simp [Barrier.pending]
      · simp [Barrier.pending]
      · obtain ⟨-, -, -, full, -⟩ := here
        simp [Barrier.pending, full]
    | broadcast deed =>
      obtain ⟨k, number, rfl, rfl⟩ := broadcast_cases deed
      obtain ⟨-, -, -, empty, -⟩ := here
      -- nobody is left in the wait set
      have none_left : total (Barrier.pending nt) (s.after p
          { shared := s.shared, point := .inside (.leave k number), others := Place.notify () }) = 0 := by
        refine Finset.sum_eq_zero fun q _ => ?_
        by_cases same : q = p
        · rw [same, after_self]
          rfl
        · rw [after_of_ne s p _ same]
          have outside := alone trivial q same
          generalize s.points q = y at outside
          cases y with
          | inside k => exact absurd trivial outside
          | _ => rfl
      rw [none_left, empty]
      rfl
    | wait deed =>
      obtain ⟨k, number, rfl, -, rfl⟩ := wait_cases deed
      rw [total_after fun x => rfl, point, ← before]
      simp [Barrier.pending]
    | unlock deed =>
      obtain ⟨k, number, rfl, rfl⟩ := unlock_cases deed
      rw [total_after fun x => rfl, point, ← before]
      simp [Barrier.pending]
    | spurious => exact absurd rfl notified

omit [DecidableEq Pid] in
theorem currt_eq (inv : Gathered nt s) (free : s.shared.locked = false) :
    s.shared.data.currt = (Finset.univ.filter fun p => Waits (s.points p)).card := by
  have equal := inv.pending
  rw [total_eq_card Waits fun p => ?_] at equal
  · exact Int.ofNat_inj.mp equal
  · have outside := inv.guarded.not_inside free p
    generalize s.points p = x at outside
    cases x with
    | inside k => exact absurd trivial outside
    | _ => rfl

omit [DecidableEq Pid] in
theorem waits_early (positive : 0 < nt) (inv : Gathered nt s) (free : s.shared.locked = false) {c : Unit} {x : In}
    (waits : s.points p = .waiting c x) :
    ∃ k number, x = .leave k number ∧ number ≤ s.shared.data.arrived ∧
      number ⌈/⌉ nt = s.shared.data.arrived / nt + 1 := by
  have early := inv.covered.blocked inv.guarded free waits
  have placed := (inv.outlined.place p).1
  rw [waits] at placed
  cases x with
  | leave k number =>
    have after : s.shared.data.full nt < number := early
    have whole := full_add_mod s.shared.data nt
    have rest := Nat.mod_lt s.shared.data.arrived positive
    refine ⟨k, number, rfl, placed.2, le_antisymm ?_ ?_⟩
    · rw [ceilDiv_le_iff_le_mul positive, Nat.mul_succ]
      have come := placed.2
      unfold BarrierT.full at whole
      omega
    · rw [Nat.succ_le_iff, ← Nat.not_le, ceilDiv_le_iff_le_mul positive, Nat.not_le]
      exact after
  | _ => exact placed.elim

end Gathered

omit [DecidableEq Pid] in
theorem gathered_initial (positive : 0 < nt) : Gathered nt (initial nt : State Pid) where
  guarded := ⟨⟨fun _ _ => nofun, fun _ => nofun⟩, nofun⟩
  outlined := ⟨fun _ => ⟨rfl, positive, Nat.zero_mod nt⟩, fun _ => ⟨⟨Nat.zero_le _, Nat.zero_le _⟩, trivial⟩⟩
  covered _ _ := nofun
  pending := (Finset.sum_eq_zero fun _ _ => rfl).symm

/-- A call returns only after its batch is complete; whenever the mutex is free `currt`
counts the threads in the wait set, fewer than `nthreads` and all of the current batch. -/
theorem batches {nthreads : Nat} (positive : 1 ≤ nthreads) {ls : List (Pid × Turn Unit)}
    (notified : ∀ l ∈ ls, l.2 ≠ .spurious) (reached : Machine.run step (initial nthreads) ls = some s) :
    (∀ p o, s.points p = .out o → nthreads * (o.number ⌈/⌉ nthreads) ≤ s.shared.data.arrived) ∧
      (s.shared.locked = false →
        s.shared.data.currt < nthreads ∧
        s.shared.data.currt = (Finset.univ.filter fun p => Waits (s.points p)).card ∧
        ∀ p c x, s.points p = .waiting c x → ∃ k number, x = .leave k number ∧
          number ≤ s.shared.data.arrived ∧ number ⌈/⌉ nthreads = s.shared.data.arrived / nthreads + 1) := by
  have inv : Gathered nthreads s := Threads.invariant_of_everyStep (I := Gathered nthreads)
    (C := fun _ l => l.2 ≠ .spurious) (fun _ _ _ _ inv notified call => inv.step positive notified (act_taken call))
    (gathered_initial positive) (Machine.everyStep_of_forall notified) reached
  refine ⟨fun p o here => ?_, fun free => ?_⟩
  · have placed := (inv.outlined.place p).1
    rw [here] at placed
    rw [mul_comm, ← Nat.le_div_iff_mul_le positive, ceilDiv_le_iff_le_mul positive]
    exact placed.1
  · exact ⟨(inv.outlined.free free).below, inv.currt_eq free, fun p c x => inv.waits_early positive free⟩

end Invariant

def threeAtTwo : List (Fin 3 × Turn Unit) :=
  let go (p : Fin 3) (n : Nat) : List (Fin 3 × Turn Unit) := List.replicate n (p, .go)
  [(0, .call ())] ++ go 0 3 ++ [(1, .call ()), (2, .call ())] ++ go 1 6 ++ go 2 3

theorem batches_three_at_two : ∃ s, Machine.run step (initial 2) threeAtTwo = some s ∧
    (∀ p o, s.points p = .out o → 2 * (o.number ⌈/⌉ 2) ≤ s.shared.data.arrived) ∧
    s.shared.data.currt = (Finset.univ.filter fun p : Fin 3 => Waits (s.points p)).card ∧
    s.points 0 = .locking (.leave 0 1) := by
  have facts : (Machine.run step (initial 2) threeAtTwo).any (fun s =>
      decide (s.shared.locked = false ∧ s.points 0 = .locking (.leave 0 1))) = true := by decide +kernel
  obtain ⟨s, reached, last⟩ := (Option.any_eq_true _ _).mp facts
  obtain ⟨free, notified⟩ := of_decide_eq_true last
  obtain ⟨returns, counts⟩ := batches (by decide) (by decide) reached
  exact ⟨s, reached, returns, (counts free).2.1, notified⟩

end OsLabs.Barrier
