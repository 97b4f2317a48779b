import Mathlib.Algebra.BigOperators.Group.Finset.Basic
import Mathlib.Algebra.Order.BigOperators.Group.Finset
import Mathlib.Algebra.BigOperators.Ring.Finset
import Mathlib.Data.Fintype.BigOperators
import OsLabs.Lib.Threads

/-! Weights of points summed over all processes: a step changes the sum by what it
changes the weight of the process that moves. -/

set_option autoImplicit false

namespace OsLabs.Lib.Threads

variable {Pid Shared Point : Type*} [DecidableEq Pid] [Fintype Pid]

def total (weight : Point → Int) (s : Threads Pid Shared Point) : Int := ∑ p, weight (s.points p)

section

variable {weight other : Point → Int} {s : Threads Pid Shared Point} {p : Pid} {m : Move Shared Point}

theorem total_after (others : ∀ x, weight (m.others x) = weight x) :
    total weight (s.after p m) = total weight s - weight (s.points p) + weight m.point := by
  have rest : ∑ q ∈ Finset.univ.erase p, weight ((s.after p m).points q) =
      ∑ q ∈ Finset.univ.erase p, weight (s.points q) := by
    refine Finset.sum_congr rfl fun q member => ?_
    rw [after_of_ne s p m (Finset.ne_of_mem_erase member), others]
  unfold total
  rw [← Finset.add_sum_erase _ _ (Finset.mem_univ p), ← Finset.add_sum_erase (a := p) _ (fun q => weight (s.points q))
    (Finset.mem_univ p), rest, after_self]
  omega

omit [DecidableEq Pid] in
theorem total_nonneg (nonneg : ∀ x, 0 ≤ weight x) : 0 ≤ total weight s :=
  Finset.sum_nonneg fun p _ => nonneg (s.points p)

omit [DecidableEq Pid] in
theorem total_le_total (below : ∀ x, weight x ≤ other x) : total weight s ≤ total other s :=
  Finset.sum_le_sum fun p _ => below (s.points p)

omit [DecidableEq Pid] in
theorem le_total (nonneg : ∀ x, 0 ≤ weight x) (p : Pid) : weight (s.points p) ≤ total weight s :=
  Finset.single_le_sum (f := fun q => weight (s.points q)) (fun q _ => nonneg (s.points q)) (Finset.mem_univ p)

omit [DecidableEq Pid] in
theorem total_eq_card (role : Point → Prop) [DecidablePred role]
    (weighs : ∀ p, weight (s.points p) = if role (s.points p) then 1 else 0) :
    total weight s = (Finset.univ.filter fun p => role (s.points p)).card := by
  rw [Finset.card_filter, total, Finset.sum_congr rfl fun p _ => weighs p]
  push_cast
  rfl

omit [DecidableEq Pid] in
theorem total_neg : total (fun x => -weight x) s = -total weight s :=
  Finset.sum_neg_distrib ..

/-- Where the weight of a role adds up to one at most, at most one process has the role. -/
theorem atMostOne_of_total_le_one {role : Point → Prop} (nonneg : ∀ x, 0 ≤ weight x)
    (weighs : ∀ x, role x → 1 ≤ weight x) (few : total weight s ≤ 1) : AtMostOne role s := by
  intro p q first second
  by_contra apart
  have left := weighs _ first
  have right := weighs _ second
  have rest : 0 ≤ ∑ r ∈ (Finset.univ.erase p).erase q, weight (s.points r) :=
    Finset.sum_nonneg fun r _ => nonneg (s.points r)
  have member : q ∈ Finset.univ.erase p := Finset.mem_erase.mpr ⟨Ne.symm apart, Finset.mem_univ q⟩
  unfold total at few
  rw [← Finset.add_sum_erase _ _ (Finset.mem_univ p), ← Finset.add_sum_erase _ _ member] at few
  omega

end

end OsLabs.Lib.Threads
