import Mathlib.Data.List.Basic
import Mathlib.Logic.Function.Basic

/-! Arrays of pointers that end at a NULL entry, as `execvp` reads them. An access outside
the array has no outcome. -/

set_option autoImplicit false

namespace OsLabs.Lib

/-- The entries of an array; NULL is `none`. -/
abbrev Pointers (α : Type*) := Nat → Option α

namespace Pointers

variable {α : Type*}

def null : Pointers α := fun _ => none

/-- `a[i] = x` in an array of `n` entries. -/
def store (n : Nat) (a : Pointers α) (i : Nat) (x : Option α) : Option (Pointers α) :=
  if i < n then some (Function.update a i x) else none

def walk (a : Pointers α) (i : Nat) : Nat → Option (List α)
  | 0 => none
  | k + 1 =>
    match a i with
    | none => some []
    | some x => (a.walk (i + 1) k).map (x :: ·)

/-- An array of `n` entries as `execvp` reads it. -/
def read (n : Nat) (a : Pointers α) : Option (List α) := a.walk 0 n

theorem store_of_lt {n i : Nat} (a : Pointers α) (x : Option α) (inside : i < n) :
    store n a i x = some (Function.update a i x) :=
  if_pos inside

/-- The entries `xs` from `i` on, then NULL. -/
def Holds (a : Pointers α) : Nat → List α → Prop
  | i, [] => a i = none
  | i, x :: xs => a i = some x ∧ Holds a (i + 1) xs

theorem walk_eq_some_iff {a : Pointers α} {i k : Nat} {xs : List α} :
    a.walk i k = some xs ↔ Holds a i xs ∧ xs.length < k := by
  induction k generalizing i xs with
  | zero => simp [walk]
  | succ k ih =>
    cases here : a i with
    | none => cases xs <;> simp [walk, Holds, here]
    | some x =>
      cases xs with
      | nil => simp [walk, Holds, here]
      | cons y ys => simp [walk, Holds, here, ih, and_left_comm, and_comm]

theorem read_eq_some_iff {n : Nat} {a : Pointers α} {xs : List α} :
    a.read n = some xs ↔ Holds a 0 xs ∧ xs.length < n :=
  walk_eq_some_iff

theorem holds_congr {a b : Pointers α} {i : Nat} {xs : List α}
    (same : ∀ j, i ≤ j → j ≤ i + xs.length → a j = b j) : Holds a i xs ↔ Holds b i xs := by
  induction xs generalizing i with
  | nil => rw [Holds, Holds, same i (Nat.le_refl i) (Nat.le_refl i)]
  | cons x xs ih =>
    rw [Holds, Holds, same i (Nat.le_refl i) (by simp), ih fun j low high => same j (by omega) (by simp; omega)]

theorem Holds.apply_eq {a : Pointers α} {i j : Nat} {xs : List α} (holds : Holds a i xs) (inside : j ≤ xs.length) :
    a (i + j) = xs[j]? := by
  induction xs generalizing i j with
  | nil =>
    rw [show j = 0 from Nat.le_zero.mp inside]
    exact holds
  | cons x xs ih =>
    cases j with
    | zero => exact holds.1
    | succ j =>
      rw [List.getElem?_cons_succ, ← ih holds.2 (Nat.le_of_succ_le_succ inside)]
      exact congrArg a (by omega)

theorem holds_of_apply {a : Pointers α} {i : Nat} {xs : List α} (same : ∀ j ≤ xs.length, a (i + j) = xs[j]?) :
    Holds a i xs := by
  induction xs generalizing i with
  | nil => exact same 0 (Nat.le_refl _)
  | cons x xs ih =>
    refine ⟨same 0 (Nat.zero_le _), ih fun j inside => ?_⟩
    have next := same (j + 1) (Nat.succ_le_succ inside)
    rw [List.getElem?_cons_succ] at next
    rw [← next]
    exact congrArg a (by omega)

/-! ## Arrays filled from the first entry on -/

def ofList (xs : List α) : Pointers α := fun i => xs[i]?

theorem ofList_nil : ofList ([] : List α) = null := by
  funext i
  simp [ofList, null]

theorem holds_ofList {xs : List α} {i : Nat} (inside : i ≤ xs.length) : Holds (ofList xs) i (xs.drop i) := by
  by_cases last : i = xs.length
  · simp [last, Holds, ofList]
  · have more : i < xs.length := by omega
    rw [List.drop_eq_getElem_cons more]
    exact ⟨List.getElem?_eq_getElem more, holds_ofList more⟩
termination_by xs.length - i

theorem read_ofList {n : Nat} {xs : List α} (short : xs.length < n) : (ofList xs).read n = some xs :=
  read_eq_some_iff.mpr ⟨holds_ofList (Nat.zero_le _), short⟩

theorem update_ofList (xs ys : List α) (y : α) :
    Function.update (ofList (xs ++ ys)) xs.length (some y) = ofList (xs ++ y :: ys.tail) := by
  funext i
  by_cases here : i = xs.length
  · rw [here, Function.update_self]
    simp [ofList]
  · rw [Function.update_of_ne here, ofList, ofList]
    by_cases before : i < xs.length
    · rw [List.getElem?_append_left before, List.getElem?_append_left before]
    · obtain ⟨k, rfl⟩ := Nat.exists_eq_add_of_lt (show xs.length < i by omega)
      rw [List.getElem?_append_right (by omega), List.getElem?_append_right (by omega)]
      simp [Nat.add_assoc]

theorem update_ofList_none {xs : List α} {i : Nat} (behind : xs.length ≤ i) :
    Function.update (ofList xs) i none = ofList xs := by
  rw [← show ofList xs i = none from List.getElem?_eq_none behind]
  exact Function.update_eq_self i (ofList xs)

theorem read_update_none {n i : Nat} {xs : List α} (short : xs.length < n) :
    read n (Function.update (ofList xs) i none) = some (xs.take i) := by
  refine read_eq_some_iff.mpr ⟨?_, by rw [List.length_take]; omega⟩
  by_cases inside : i < xs.length
  · have length : (xs.take i).length = i := List.length_take_of_le (Nat.le_of_lt inside)
    have cut : ∀ k, k ≤ i → Holds (Function.update (ofList xs) i none) k ((xs.take i).drop k) := by
      intro k
      induction left : i - k generalizing k with
      | zero =>
        intro below
        have same : k = i := by omega
        rw [List.drop_eq_nil_of_le (by omega), same]
        exact Function.update_self ..
      | succ left ih =>
        intro below
        have more : k < (xs.take i).length := by omega
        rw [List.drop_eq_getElem_cons more]
        refine ⟨?_, ih (k + 1) (by omega) (by omega)⟩
        rw [Function.update_of_ne (by omega), List.getElem_take, ofList]
        exact List.getElem?_eq_getElem _
    exact cut 0 (Nat.zero_le i)
  · have behind : xs.length ≤ i := by omega
    rw [update_ofList_none behind, List.take_of_length_le behind]
    exact holds_ofList (Nat.zero_le _)

def Fills (a : Pointers α) (xs : List α) : Prop := ∀ j < xs.length, a j = xs[j]?

theorem fills_nil (a : Pointers α) : Fills a [] := nofun

theorem Fills.snoc {a : Pointers α} {xs : List α} (fills : Fills a xs) (x : α) : Fills (Function.update a xs.length (some x)) (xs ++ [x]) := by
  intro j bound
  by_cases last : j = xs.length
  · rw [last, Function.update_self]
    simp
  · rw [List.length_append, List.length_singleton] at bound
    have before : j < xs.length := by omega
    rw [Function.update_of_ne last, List.getElem?_append_left before, fills j before]

theorem Fills.read {n : Nat} {a : Pointers α} {xs : List α} (fills : Fills a xs) (short : xs.length < n) :
    read n (Function.update a xs.length none) = some xs := by
  refine read_eq_some_iff.mpr ⟨?_, short⟩
  rw [holds_congr (b := ofList xs)]
  · exact holds_ofList (Nat.zero_le _)
  · intro j _ inside
    by_cases last : j = xs.length
    · rw [last, Function.update_self]
      exact (List.getElem?_eq_none (Nat.le_refl _)).symm
    · rw [Function.update_of_ne last]
      exact fills j (by omega)

end Pointers

end OsLabs.Lib
