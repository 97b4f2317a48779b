import Mathlib.Data.List.TakeWhile
import Mathlib.Tactic.Common

/-! A loop that moves an index over the elements of a list that meet a condition. -/

set_option autoImplicit false

namespace OsLabs.Lib

variable {α : Type*} (p : α → Bool) (xs : List α)

/-- The first index from `i` on whose element does not meet `p`. -/
def scan (i : Nat) : Nat := i + ((xs.drop i).takeWhile p).length

theorem le_scan (i : Nat) : i ≤ scan p xs i := Nat.le_add_right ..

variable {p xs}

theorem scan_of_some {i : Nat} {x : α} (here : xs[i]? = some x) (meets : p x) : scan p xs i = scan p xs (i + 1) := by
  obtain ⟨inside, rfl⟩ := List.getElem?_eq_some_iff.mp here
  rw [scan, scan, List.drop_eq_getElem_cons inside, List.takeWhile_cons_of_pos meets, List.length_cons]
  omega

theorem scan_of_not {i : Nat} (fails : ∀ x ∈ xs[i]?, p x = false) : scan p xs i = i := by
  rw [← List.head?_drop] at fails
  cases here : xs.drop i with
  | nil => rw [scan, here, List.takeWhile_nil, List.length_nil, Nat.add_zero]
  | cons x rest =>
    have failed := fails x (by rw [here, List.head?_cons]; rfl)
    rw [scan, here, List.takeWhile_cons_of_neg (by rw [failed]; exact Bool.false_ne_true), List.length_nil, Nat.add_zero]

theorem scan_le {i : Nat} (inside : i ≤ xs.length) : scan p xs i ≤ xs.length := by
  have short := (List.takeWhile_prefix (l := xs.drop i) p).length_le
  rw [List.length_drop] at short
  rw [scan]
  omega

/-- Where the loop has been, the condition holds; where it stops, it does not. -/
theorem scan_spec (p : α → Bool) (xs : List α) (i : Nat) :
    (∀ k, i ≤ k → k < scan p xs i → ∃ x, xs[k]? = some x ∧ p x) ∧ ∀ x ∈ xs[scan p xs i]?, p x = false := by
  by_cases meets : ∃ x, xs[i]? = some x ∧ p x = true
  · obtain ⟨x, here, meets⟩ := meets
    have inside := (List.getElem?_eq_some_iff.mp here).1
    have rest := scan_spec p xs (i + 1)
    rw [← scan_of_some here meets] at rest
    refine ⟨fun k low high => ?_, rest.2⟩
    rcases Nat.eq_or_lt_of_le low with rfl | low
    · exact ⟨x, here, meets⟩
    · exact rest.1 k low high
  · have fails : ∀ x ∈ xs[i]?, p x = false := fun x here => by
      rw [Bool.eq_false_iff]
      exact fun holds => meets ⟨x, here, holds⟩
    rw [scan_of_not fails]
    exact ⟨fun k low high => absurd low (Nat.not_le.mpr high), fails⟩
termination_by xs.length - i

theorem scan_scan (i : Nat) : scan p xs (scan p xs i) = scan p xs i := scan_of_not (scan_spec p xs i).2

theorem scan_of_append {i : Nat} {ys zs : List α} (here : xs.drop i = ys ++ zs) (meet : ∀ y ∈ ys, p y) :
    scan p xs i = scan p xs (i + ys.length) := by
  induction ys generalizing i with
  | nil => rfl
  | cons y ys ih =>
    have first : xs[i]? = some y := by rw [← List.head?_drop, here]; rfl
    have rest : xs.drop (i + 1) = ys ++ zs := by rw [← List.tail_drop, here]; rfl
    rw [scan_of_some first (meet y List.mem_cons_self), ih rest fun y member => meet y (List.mem_cons_of_mem _ member),
      List.length_cons, Nat.add_right_comm, Nat.add_assoc]

end OsLabs.Lib
