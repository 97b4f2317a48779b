import Mathlib.Data.List.Basic

/-! The words of a list: its longest runs without separators. -/

set_option autoImplicit false

namespace OsLabs.Lib

variable {α : Type*} {p : α → Bool} {xs w : List α}

def words (p : α → Bool) (xs : List α) : List (List α) := (xs.splitOnP p).filter (!·.isEmpty)

theorem words_append_cons (xs ys : List α) {sep : α} (separates : p sep) :
    words p (xs ++ sep :: ys) = words p xs ++ words p ys := by
  rw [words, List.splitOnP_append_cons xs ys separates, List.filter_append]
  rfl

theorem words_cons {sep : α} (separates : p sep) : words p (sep :: xs) = words p xs :=
  words_append_cons [] xs separates

theorem words_separators {seps : List α} (separate : ∀ x ∈ seps, p x) : words p (seps ++ xs) = words p xs := by
  induction seps with
  | nil => rfl
  | cons x seps ih =>
    obtain ⟨here, rest⟩ := List.forall_mem_cons.mp separate
    rw [List.cons_append, words_cons here, ih rest]

theorem words_plain (plain : ∀ x ∈ w, p x = false) (some_of : w ≠ []) : words p w = [w] := by
  rw [words, List.splitOnP_eq_singleton plain]
  cases w with
  | nil => exact absurd rfl some_of
  | cons => rfl

theorem exists_word (plain : ∀ x ∈ w, p x = false) (some_of : w ≠ []) (xs : List α) :
    ∃ v ∈ words p (w ++ xs), w.length ≤ v.length := by
  induction xs generalizing w with
  | nil => exact ⟨w, by rw [List.append_nil, words_plain plain some_of]; exact List.mem_cons_self, Nat.le_refl _⟩
  | cons x xs ih =>
    by_cases separates : p x
    · rw [words_append_cons w xs separates, words_plain plain some_of]
      exact ⟨w, List.mem_cons_self, Nat.le_refl _⟩
    · have longer : ∀ y ∈ w ++ [x], p y = false := by
        intro y member
        rcases List.mem_append.mp member with before | last
        · exact plain y before
        · rw [List.mem_singleton.mp last]
          exact Bool.eq_false_iff.mpr separates
      obtain ⟨v, member, long⟩ := ih longer (by simp)
      rw [List.append_cons]
      exact ⟨v, member, by rw [List.length_append] at long; exact Nat.le_of_add_right_le long⟩

/-- Words in a row with separators between them, at least one each time. -/
inductive Joined (p : α → Bool) : List α → List (List α) → Prop where
  | empty : Joined p [] []
  | last (w : List α) (plain : ∀ x ∈ w, p x = false) (some_of : w ≠ []) : Joined p w [w]
  | more (w seps xs : List α) (ws : List (List α)) (plain : ∀ x ∈ w, p x = false) (some_of : w ≠ [])
      (separate : ∀ x ∈ seps, p x) (apart : seps ≠ []) (rest : Joined p xs ws) : Joined p (w ++ seps ++ xs) (w :: ws)

theorem words_joined {ws : List (List α)} (joined : Joined p xs ws) : words p xs = ws := by
  induction joined with
  | empty => rfl
  | last w plain some_of => exact words_plain plain some_of
  | more w seps xs ws plain some_of separate apart rest ih =>
    cases seps with
    | nil => exact absurd rfl apart
    | cons sep seps =>
      obtain ⟨here, others⟩ := List.forall_mem_cons.mp separate
      rw [List.append_assoc, List.cons_append, words_append_cons w _ here, words_plain plain some_of,
        words_separators others, ih]
      rfl

end OsLabs.Lib
