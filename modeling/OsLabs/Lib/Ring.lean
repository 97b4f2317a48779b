import Mathlib.Data.Fin.Basic
import Mathlib.Data.Nat.ModEq
import Mathlib.Logic.Function.Basic
import Mathlib.Tactic.Common

/-! A stretch of a ring of `N` cells, read from an index that goes on counting. -/

set_option autoImplicit false

namespace OsLabs.Lib

variable {N : Nat} [NeZero N] {α : Type*}

/-- The `n` cells from index `i` on. -/
def ring (data : Fin N → α) (i n : Nat) : List α := (List.range n).map fun j => data (Fin.ofNat N (i + j))

variable (data : Fin N → α) (i m n : Nat)

@[simp] theorem length_ring : (ring data i n).length = n := by rw [ring, List.length_map, List.length_range]

@[simp] theorem ring_zero : ring data i 0 = [] := rfl

theorem ring_add : ring data i (m + n) = ring data i m ++ ring data (i + m) n := by
  rw [ring, List.range_add, List.map_append, List.map_map]
  refine congrArg (ring data i m ++ ·) (List.map_congr_left fun j _ => ?_)
  rw [Function.comp_apply, Nat.add_assoc]

theorem ring_succ : ring data i (n + 1) = ring data i n ++ [data (Fin.ofNat N (i + n))] := by
  rw [ring_add]
  rfl

theorem ring_cons : ring data i (n + 1) = data (Fin.ofNat N i) :: ring data (i + 1) n := by
  rw [Nat.add_comm n 1, ring_add]
  rfl

theorem ring_congr {i j : Nat} (same : i % N = j % N) : ring data i n = ring data j n := by
  refine List.map_congr_left fun k _ => congrArg data (Fin.ext ?_)
  exact Nat.ModEq.add_right k same

theorem ring_update {n : Nat} (room : n < N) (a : α) :
    ring (Function.update data (Fin.ofNat N (i + n)) a) i n = ring data i n := by
  refine List.map_congr_left fun j member => Function.update_of_ne (fun same => ?_) ..
  have before := List.mem_range.mp member
  have equal : (i + j) % N = (i + n) % N := congrArg Fin.val same
  have close : j % N = n % N := Nat.ModEq.add_left_cancel' i equal
  rw [Nat.mod_eq_of_lt (before.trans room), Nat.mod_eq_of_lt room] at close
  omega

end OsLabs.Lib
