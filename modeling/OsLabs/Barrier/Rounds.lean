import Mathlib.Algebra.Order.Ring.Int
import OsLabs.Barrier.Batches

/-! Rounds of a barrier for all threads of a program. With as many threads as `nt` each
complete batch has one call of every thread, as long as no call leaves its batch early. -/

set_option autoImplicit false

namespace OsLabs.Barrier

open OsLabs.Lib OsLabs.Lib.Monitor OsLabs.Lib.Threads

def In.counted : In → Int
  | .count k => k
  | .test k _ | .reset k _ | .broadcast k _ | .leave k _ => k + 1

def counted : Point → Int := Place.weigh (fun o => o.returned) In.counted

theorem arrived_counts : Counts barrier_wait (fun b => b.arrived) (fun o => o.returned) In.counted where
  call entry := by
    cases entry
    rfl
  skip entry := by cases entry
  set deed := by
    rcases set_cases deed with ⟨k, rfl, rfl, rfl⟩ | ⟨k, number, rfl, last, rfl, rfl⟩ | ⟨k, number, rfl, rfl, rfl⟩
    · simp [In.counted]
    · rfl
    · rfl
  broadcast deed := by
    obtain ⟨k, number, rfl, rfl⟩ := broadcast_cases deed
    rfl
  wait deed := by
    obtain ⟨k, number, rfl, -, rfl⟩ := wait_cases deed
    rfl
  unlock deed := by
    obtain ⟨k, number, rfl, rfl⟩ := unlock_cases deed
    simp [In.counted]

section Placed

variable {nt : Nat} {b : BarrierT} {x : Point}

theorem full_le (b : BarrierT) (nt : Nat) : b.full nt ≤ b.arrived := Nat.mul_div_le b.arrived nt

theorem returned_le (placed : Placed nt b x) : nt * returned x ≤ b.arrived := by
  have full := full_le b nt
  cases x with
  | out o => exact placed.2.trans full
  | locking k =>
    cases k with
    | count k => exact le_trans placed full
    | leave k number => exact placed.1.le.trans placed.2
    | _ => exact placed.elim
  | waiting c k =>
    cases k with
    | leave k number => exact placed.1.le.trans placed.2
    | _ => exact placed.elim
  | inside k =>
    cases k with
    | count k => exact placed.2.trans full
    | test k number | reset k number | broadcast k number =>
      obtain ⟨-, after, rfl, -⟩ := placed
      exact after.le
    | leave k number => exact (Nat.mul_le_mul_left nt (Nat.le_succ k)).trans (placed.2.1.trans full)

theorem counted_le (positive : 0 < nt) (placed : Placed nt b x) {rounds : Nat} (begun : b.arrived ≤ nt * rounds) :
    counted x ≤ rounds := by
  have full := full_le b nt
  have below : ∀ k, nt * k ≤ b.arrived → (k : Int) ≤ rounds := fun k before =>
    Int.ofNat_le.mpr (Nat.le_of_mul_le_mul_left (before.trans begun) positive)
  have above : ∀ k, nt * k < b.arrived → (k : Int) + 1 ≤ rounds := fun k before =>
    Int.ofNat_le.mpr (Nat.lt_of_mul_lt_mul_left (before.trans_le begun))
  cases x with
  | out o => exact below _ (placed.2.trans full)
  | locking k =>
    cases k with
    | count k => exact below k (le_trans placed full)
    | leave k number => exact above k (placed.1.trans_le placed.2)
    | _ => exact placed.elim
  | waiting c k =>
    cases k with
    | leave k number => exact above k (placed.1.trans_le placed.2)
    | _ => exact placed.elim
  | inside k =>
    cases k with
    | count k => exact below k (placed.2.trans full)
    | test k number | reset k number | broadcast k number =>
      obtain ⟨-, after, rfl, -⟩ := placed
      exact above k after
    | leave k number => exact below (k + 1) (placed.2.1.trans full)

theorem counted_le_entered (x : Point) : counted x ≤ entered x := by
  cases x with
  | out o => exact le_rfl
  | locking k | inside k | waiting c k => cases k <;> simp [counted, Place.weigh, In.counted, entered, returned]

end Placed

section Rounds

variable {Pid : Type*} [DecidableEq Pid] [Fintype Pid] {s : State Pid} {p : Pid} {turn : Turn Unit}
  {m : Move (Shared BarrierT) Point}

structure InStep (s : State Pid) : Prop where
  guarded : Guarded s
  outlined : Outlined (Between (Fintype.card Pid)) (Placed (Fintype.card Pid)) s
  arrived : (s.shared.data.arrived : Int) = total counted s
  joined : ∀ q, (s.shared.data.arrived / Fintype.card Pid : Nat) ≤ counted (s.points q)

omit [DecidableEq Pid] in
theorem counted_eq_of_whole (positive : 0 < Fintype.card Pid) {rounds : Nat}
    (placed : ∀ q, Placed (Fintype.card Pid) s.shared.data (s.points q))
    (arrived : (s.shared.data.arrived : Int) = total counted s)
    (whole : s.shared.data.arrived = Fintype.card Pid * rounds) (q : Pid) : counted (s.points q) = rounds := by
  have below : ∀ r ∈ Finset.univ, counted (s.points r) ≤ (rounds : Int) := fun r _ =>
    counted_le positive (placed r) whole.le
  have sum : ∑ r : Pid, counted (s.points r) = ∑ _r : Pid, (rounds : Int) := by
    rw [Finset.sum_const, Finset.card_univ, nsmul_eq_mul, ← Nat.cast_mul, ← whole, arrived]
    rfl
  exact (Finset.sum_eq_sum_iff_of_le below).mp sum q (Finset.mem_univ q)

theorem InStep.step (positive : 0 < Fintype.card Pid) (inv : InStep s)
    (timely : Timely s.shared.data turn (s.points p)) (taken : Taken barrier_wait s.shared turn (s.points p) m) :
    InStep (s.after p m) := by
  have outlined := (placed_outline positive).step inv.guarded inv.outlined timely taken
  have arrived : ((s.after p m).shared.data.arrived : Int) = total counted (s.after p m) :=
    arrived_counts.step inv.arrived taken
  refine ⟨inv.guarded.step taken, outlined, arrived, fun q => ?_⟩
  have others : ∀ x, counted (m.others x) = counted x := taken.weigh_others _ _
  have few : s.shared.data.arrived ≤ m.shared.data.arrived ∧ m.shared.data.arrived ≤ s.shared.data.arrived + 1 := by
    generalize s.points p = x at taken
    cases taken with
    | set deed =>
      rcases set_cases deed with ⟨k, -, rfl, -⟩ | ⟨k, number, -, -, rfl, -⟩ | ⟨k, number, -, rfl, -⟩ <;> simp
    | _ => simp
  have kept : counted (s.points q) ≤ counted ((s.after p m).points q) := by
    by_cases same : q = p
    · have change := total_after (s := s) (p := p) others
      have before := inv.arrived
      rw [after_shared] at arrived
      rw [same, after_self]
      omega
    · rw [after_of_ne s p m same, others]
  rw [after_shared]
  by_cases whole : Fintype.card Pid ∣ m.shared.data.arrived
  · -- the calls divide evenly, none more than its share
    obtain ⟨rounds, whole⟩ := whole
    rw [counted_eq_of_whole positive outlined.place arrived whole q, whole, Nat.mul_div_cancel_left rounds positive]
  · -- no batch has become complete
    have unchanged : m.shared.data.arrived / Fintype.card Pid = s.shared.data.arrived / Fintype.card Pid := by
      rcases Nat.le_or_eq_of_le_succ few.2 with less | more
      · rw [le_antisymm less few.1]
      · rw [more] at whole ⊢
        exact Nat.succ_div_of_not_dvd whole
    rw [unchanged]
    exact (inv.joined q).trans kept

omit [DecidableEq Pid] in
theorem inStep_initial (positive : 0 < Fintype.card Pid) : InStep (initial (Fintype.card Pid) : State Pid) where
  guarded := (gathered_initial positive).guarded
  outlined := ⟨(gathered_initial positive).outlined.free, fun q => ((gathered_initial positive).outlined.place q).1⟩
  arrived := (Finset.sum_eq_zero fun _ _ => rfl).symm
  joined q := by simp [initial, counted, Place.weigh]

omit [DecidableEq Pid] in
theorem InStep.together (positive : 0 < Fintype.card Pid) (inv : InStep s) (p q : Pid) :
    returned (s.points p) ≤ entered (s.points q) := by
  have complete : returned (s.points p) ≤ s.shared.data.arrived / Fintype.card Pid := by
    rw [Nat.le_div_iff_mul_le positive, mul_comm]
    exact returned_le (inv.outlined.place p)
  have joined := inv.joined q
  have made := counted_le_entered (s.points q)
  omega

/-- In a run in which no thread goes on from `pthread_cond_wait` before its batch is
complete, nobody returns from a round that a thread has not entered. -/
theorem rounds_of_timely {ls : List (Pid × Turn Unit)}
    (timely : Machine.EveryStep step (fun s l => Timely s.shared.data l.2 (s.points l.1))
      (initial (Fintype.card Pid)) ls)
    (reached : Machine.run step (initial (Fintype.card Pid)) ls = some s) (p q : Pid) :
    returned (s.points p) ≤ entered (s.points q) := by
  have positive : 0 < Fintype.card Pid := Fintype.card_pos_iff.mpr ⟨p⟩
  have inv : InStep s := Threads.invariant_of_everyStep (I := InStep)
    (fun _ _ _ _ inv timely call => inv.step positive timely (act_taken call))
    (inStep_initial positive) timely reached
  exact inv.together positive p q

end Rounds

def earlyReturn : List (Fin 2 × Turn Unit) :=
  [(0, .call ()), (0, .go), (0, .go), (0, .go), (0, .spurious), (0, .go), (0, .go)]

theorem not_together_early_return : ¬∀ (ls : List (Fin 2 × Turn Unit)) (s : State (Fin 2)),
    Machine.run step (initial 2) ls = some s → ∀ p q, returned (s.points p) ≤ entered (s.points q) := by
  intro together
  have facts : (Machine.run step (initial 2) earlyReturn).any (fun s : State (Fin 2) =>
      decide (returned (s.points 0) = 1 ∧ entered (s.points 1) = 0)) = true := by decide +kernel
  obtain ⟨s, reached, last⟩ := (Option.any_eq_true _ _).mp facts
  obtain ⟨first, second⟩ := of_decide_eq_true last
  have wrong := together earlyReturn s reached 0 1
  omega

def harmlessReturn : List (Fin 2 × Turn Unit) :=
  let go (p : Fin 2) (n : Nat) : List (Fin 2 × Turn Unit) := List.replicate n (p, .go)
  [(0, .call ())] ++ go 0 3 ++ [(0, .spurious), (1, .call ())] ++ go 1 6 ++ go 0 2

def timelyCheck (s : State (Fin 2)) (l : Fin 2 × Turn Unit) : Bool :=
  match l.2, s.points l.1 with
  | .go, .locking (.leave _ number) => decide (s.shared.data.Complete number)
  | _, _ => true

theorem rounds_of_timely_harmless_return : ∃ s : State (Fin 2),
    Machine.run step (initial (Fintype.card (Fin 2))) harmlessReturn = some s ∧
      returned (s.points 0) = 1 ∧ ∀ p q, returned (s.points p) ≤ entered (s.points q) := by
  have facts : (Machine.run step (initial (Fintype.card (Fin 2))) harmlessReturn).any (fun s : State (Fin 2) =>
      decide (returned (s.points 0) = 1)) = true := by decide +kernel
  obtain ⟨s, reached, last⟩ := (Option.any_eq_true _ _).mp facts
  have timely : Machine.EveryStep step (fun s l => Timely s.shared.data l.2 (s.points l.1))
      (initial (Fintype.card (Fin 2))) harmlessReturn := by
    have met : Machine.checkRun step timelyCheck (initial (Fintype.card (Fin 2))) harmlessReturn = true := by
      decide +kernel
    refine Machine.everyStep_of_checkRun (fun s l checked => ?_) met
    intro k number go place
    simp only [timelyCheck, go, place] at checked
    exact of_decide_eq_true checked
  exact ⟨s, reached, of_decide_eq_true last, rounds_of_timely timely reached⟩

end OsLabs.Barrier
