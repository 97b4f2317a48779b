import Mathlib.Data.Finset.Card
import Mathlib.Data.Fintype.Basic

/-! Exclusive allocation: slots that each own at most one cell out of a finite
pool, beside the set of cells that no slot owns. -/

set_option autoImplicit false

namespace OsLabs.Lib.Allocation

variable {Slot Cell Content : Type*}

/-- Every owned cell lies in the pool, no cell has two owners, and the free
cells are exactly those of the pool without an owner. -/
structure Sound (pool free : Finset Cell) (owns : Slot → Option Cell) : Prop where
  inPool : ∀ s c, owns s = some c → c ∈ pool
  exclusive : ∀ s t c, owns s = some c → owns t = some c → s = t
  free_iff : ∀ c, c ∈ free ↔ c ∈ pool ∧ ∀ s, owns s ≠ some c

namespace Sound

variable {pool free : Finset Cell} {owns : Slot → Option Cell}

theorem of_no_owner (none : ∀ s, owns s = none) : Sound pool pool owns where
  inPool s c owned := by simp [none s] at owned
  exclusive s t c owned := by simp [none s] at owned
  free_iff c := by simp [none]

theorem not_owned (sound : Sound pool free owns) {c : Cell} (available : c ∈ free) (s : Slot) :
    owns s ≠ some c :=
  ((sound.free_iff c).mp available).2 s

theorem not_free (sound : Sound pool free owns) {s : Slot} {c : Cell} (owned : owns s = some c) : c ∉ free :=
  fun available => sound.not_owned available s owned

theorem owned_of_not_free (sound : Sound pool free owns) {c : Cell} (member : c ∈ pool) (taken : c ∉ free) :
    ∃ s, owns s = some c := by
  by_contra unowned
  exact taken ((sound.free_iff c).mpr ⟨member, fun s owned => unowned ⟨s, owned⟩⟩)

theorem allocate [DecidableEq Slot] [DecidableEq Cell] (sound : Sound pool free owns) {s : Slot} {c : Cell}
    (empty : owns s = none) (available : c ∈ free) :
    Sound pool (free.erase c) (Function.update owns s (some c)) where
  inPool t d owned := by
    by_cases same : t = s
    · subst same
      rw [Function.update_self, Option.some.injEq] at owned
      exact owned ▸ ((sound.free_iff c).mp available).1
    · rw [Function.update_of_ne same] at owned
      exact sound.inPool t d owned
  exclusive t u d first second := by
    by_cases left : t = s <;> by_cases right : u = s
    · rw [left, right]
    · rw [left, Function.update_self, Option.some.injEq] at first
      rw [Function.update_of_ne right, ← first] at second
      exact absurd second (sound.not_owned available u)
    · rw [right, Function.update_self, Option.some.injEq] at second
      rw [Function.update_of_ne left, ← second] at first
      exact absurd first (sound.not_owned available t)
    · rw [Function.update_of_ne left] at first
      rw [Function.update_of_ne right] at second
      exact sound.exclusive t u d first second
  free_iff d := by
    rw [Finset.mem_erase, sound.free_iff]
    constructor
    · rintro ⟨different, member, unowned⟩
      refine ⟨member, fun t => ?_⟩
      by_cases same : t = s
      · rw [same, Function.update_self]
        exact fun equal => different (Option.some.inj equal).symm
      · rw [Function.update_of_ne same]
        exact unowned t
    · rintro ⟨member, unowned⟩
      refine ⟨fun same => unowned s (by rw [Function.update_self, same]), member, fun t owned => ?_⟩
      have different : t ≠ s := fun same => by simp [same, empty] at owned
      exact unowned t (by rwa [Function.update_of_ne different])

end Sound

/-! ## What the slots hold -/

def held (owns : Slot → Option Cell) (store : Cell → Content) (s : Slot) : Option Content :=
  (owns s).map store

/-- Writing the cell a slot owns changes what that slot holds and nothing else. -/
theorem Sound.held_write [DecidableEq Slot] [DecidableEq Cell] {pool free : Finset Cell}
    {owns : Slot → Option Cell} (sound : Sound pool free owns) {store : Cell → Content} {s : Slot} {c : Cell}
    (owned : owns s = some c) (x : Content) :
    held owns (Function.update store c x) = Function.update (held owns store) s (some x) := by
  funext t
  by_cases same : t = s
  · simp [held, same, owned]
  · rw [Function.update_of_ne same]
    cases other : owns t with
    | none => simp [held, other]
    | some d =>
      have different : d ≠ c := fun equal => same (sound.exclusive t s c (equal ▸ other) owned)
      simp [held, other, different]

/-- Taking a free cell and writing it is a write to the slot alone. -/
theorem Sound.held_allocate_write [DecidableEq Slot] [DecidableEq Cell] {pool free : Finset Cell}
    {owns : Slot → Option Cell} (sound : Sound pool free owns) {store : Cell → Content} {s : Slot} {c : Cell}
    (empty : owns s = none) (available : c ∈ free) (x : Content) :
    held (Function.update owns s (some c)) (Function.update store c x) =
      Function.update (held owns store) s (some x) := by
  rw [(sound.allocate empty available).held_write (Function.update_self ..) x]
  funext t
  by_cases same : t = s
  · simp [same]
  · simp [held, Function.update_of_ne same]

theorem Sound.held_congr {pool free : Finset Cell} {owns : Slot → Option Cell} (sound : Sound pool free owns)
    {store store' : Cell → Content} (same : ∀ c ∈ pool, store' c = store c) : held owns store' = held owns store := by
  funext s
  cases owned : owns s with
  | none => simp [held, owned]
  | some c => simp [held, owned, same c (sound.inPool s c owned)]

end OsLabs.Lib.Allocation
