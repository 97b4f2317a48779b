import Mathlib.Data.List.Basic

/-! Lists cut at a separator: an induction over the segments and what a segment can be. -/

set_option autoImplicit false

namespace OsLabs.Lib

variable {α : Type*} [BEq α] [LawfulBEq α] {sep : α}

/-- A list is one segment, or a segment before a separator and the rest. -/
theorem segments_induction (sep : α) {motive : List α → Prop} (last : ∀ seg, sep ∉ seg → motive seg)
    (more : ∀ seg rest, sep ∉ seg → motive rest → motive (seg ++ sep :: rest)) (xs : List α) : motive xs := by
  obtain ⟨seg, rest, none_in, rfl | rfl⟩ : ∃ seg rest, sep ∉ seg ∧ (xs = seg ∨ xs = seg ++ sep :: rest) := by
    by_cases found : sep ∈ xs
    · obtain ⟨seg, rest, same, none_in⟩ := List.eq_append_cons_of_mem found
      exact ⟨seg, rest, none_in, Or.inr same⟩
    · exact ⟨xs, [], found, Or.inl rfl⟩
  · exact last _ none_in
  · exact more seg rest none_in (segments_induction sep last more rest)
termination_by xs.length

end OsLabs.Lib
