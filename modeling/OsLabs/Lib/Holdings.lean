import Mathlib.Algebra.BigOperators.Group.Finset.Piecewise
import Mathlib.Algebra.Order.BigOperators.Group.Finset
import Mathlib.Algebra.Order.Group.Multiset
import Mathlib.Data.Multiset.Basic
import Mathlib.Tactic.Abel

/-! Accounts of a pool of things: some are free, holders have some, and what neither the free
list nor a holder accounts for is lost. -/

set_option autoImplicit false

namespace OsLabs.Lib.Holdings

section Update

variable {ι β M : Type*} [DecidableEq ι] [AddCommMonoid M]

/-- Writing one cell of a table exchanges its share of the sum. -/
theorem sum_update_add {s : Finset ι} {k : ι} (member : k ∈ s) (f : ι → β) (x : β) (weigh : β → M) :
    ∑ i ∈ s, weigh (Function.update f k x i) + weigh (f k) = ∑ i ∈ s, weigh (f i) + weigh x := by
  have same : ∀ i ∈ s.erase k, weigh (Function.update f k x i) = weigh (f i) := by
    intro i other
    rw [Function.update_of_ne (Finset.ne_of_mem_erase other)]
  rw [← Finset.add_sum_erase s _ member, ← Finset.add_sum_erase s (fun i => weigh (f i)) member,
    Finset.sum_congr rfl same, Function.update_self]
  abel

end Update

section Account

variable {ι α : Type*} [Fintype ι] {free lost pool : Multiset α} {held : ι → Multiset α}

/-- The things of the pool that are not free are those that are held, each by one holder. -/
def Exact (pool free : Multiset α) (held : ι → Multiset α) : Prop :=
  (∀ v, v ∈ pool ∧ v ∉ free ↔ ∃ i, v ∈ held i) ∧ ∀ i j v, v ∈ held i → v ∈ held j → i = j

/-- In a pool without repetitions the holders account for all that is not free exactly when
nothing is lost. -/
theorem exact_iff_nothing_lost (nodup : pool.Nodup) (account : free + ∑ i, held i + lost = pool) :
    Exact pool free held ↔ lost = 0 := by
  rw [← account] at nodup
  have apart := Multiset.nodup_add.mp nodup
  have apart' := Multiset.nodup_add.mp apart.1
  have mem_held : ∀ v, v ∈ ∑ i, held i ↔ ∃ i, v ∈ held i := by simp [Multiset.mem_sum]
  constructor
  · intro exact
    rw [Multiset.eq_zero_iff_forall_notMem]
    intro v gone
    have member : v ∈ pool := by
      rw [← account]
      exact Multiset.mem_add.mpr (.inr gone)
    have notFree : v ∉ free := by
      intro free
      exact Multiset.disjoint_left.mp apart.2.2 (Multiset.mem_add.mpr (.inl free)) gone
    have owned := (exact.1 v).mp ⟨member, notFree⟩
    exact Multiset.disjoint_left.mp apart.2.2 (Multiset.mem_add.mpr (.inr ((mem_held v).mpr owned))) gone
  · rintro rfl
    rw [add_zero] at account
    constructor
    · intro v
      rw [← account, Multiset.mem_add, mem_held]
      constructor
      · rintro ⟨free | owned, notFree⟩
        · exact absurd free notFree
        · exact owned
      · intro owned
        exact ⟨.inr owned, fun free => Multiset.disjoint_left.mp apart'.2.2 free ((mem_held v).mpr owned)⟩
    · intro i j v first second
      by_contra other
      have pair : held i + held j ≤ ∑ k, held k := by
        classical
        rw [← Finset.sum_pair other]
        exact Finset.sum_le_sum_of_subset (Finset.subset_univ _)
      have both := Multiset.nodup_add.mp (Multiset.nodup_of_le pair apart'.2.1)
      exact Multiset.disjoint_left.mp both.2.2 first second

end Account

end OsLabs.Lib.Holdings
