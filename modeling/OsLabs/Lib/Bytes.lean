import Mathlib.Tactic.Ring
import Mathlib.Algebra.Order.Ring.Nat
import Mathlib.Data.Nat.ModEq

/-! Byte buffers of a fixed length and the fields a program lays over them:
little-endian words, signed integers and NUL-terminated strings. Addresses are
offsets from the start of the buffer; a byte outside it reads as zero and is
never written. -/

set_option autoImplicit false

namespace OsLabs.Lib

abbrev Bytes (n : Nat) := Fin n → UInt8

/-- A C string: bytes without the terminating NUL, none of them NUL. -/
abbrev CString := { text : List UInt8 // (0 : UInt8) ∉ text }

namespace Bytes

variable {n : Nat}

def peek (b : Bytes n) (a : Nat) : UInt8 := if h : a < n then b ⟨a, h⟩ else 0

def blit (b : Bytes n) (a k : Nat) (f : Nat → UInt8) : Bytes n :=
  fun i => if a ≤ i.val ∧ i.val < a + k then f (i.val - a) else b i

theorem peek_blit (b : Bytes n) (a k : Nat) (f : Nat → UInt8) (c : Nat) :
    (b.blit a k f).peek c = if a ≤ c ∧ c < a + k ∧ c < n then f (c - a) else b.peek c := by
  unfold peek blit
  by_cases bound : c < n <;> simp [bound]

theorem peek_blit_outside (b : Bytes n) {a k c : Nat} (f : Nat → UInt8) (outside : c < a ∨ a + k ≤ c) :
    (b.blit a k f).peek c = b.peek c := by
  rw [peek_blit, if_neg (by omega)]

theorem peek_blit_inside (b : Bytes n) {a k c : Nat} (f : Nat → UInt8) (low : a ≤ c) (high : c < a + k)
    (bound : c < n) : (b.blit a k f).peek c = f (c - a) := by
  rw [peek_blit, if_pos ⟨low, high, bound⟩]

/-! ## Little-endian words -/

/-- The `k` bytes at `a` as a number, least significant byte first. -/
def loadNat (b : Bytes n) (a : Nat) : Nat → Nat
  | 0 => 0
  | k + 1 => (b.peek a).toNat + 256 * loadNat b (a + 1) k

def storeNat (b : Bytes n) (a k w : Nat) : Bytes n :=
  b.blit a k fun j => UInt8.ofNat (w / 256 ^ j)

theorem peek_storeNat_outside (b : Bytes n) {a k c : Nat} (w : Nat) (outside : c < a ∨ a + k ≤ c) :
    (b.storeNat a k w).peek c = b.peek c :=
  peek_blit_outside b _ outside

theorem loadNat_congr {b c : Bytes n} {a k : Nat} (same : ∀ j, a ≤ j → j < a + k → b.peek j = c.peek j) :
    b.loadNat a k = c.loadNat a k := by
  induction k generalizing a with
  | zero => rfl
  | succ k ih =>
    simp only [loadNat]
    rw [same a (by omega) (by omega), ih fun j low high => same j (by omega) (by omega)]

theorem loadNat_lt (b : Bytes n) (a k : Nat) : b.loadNat a k < 256 ^ k := by
  induction k generalizing a with
  | zero => simp [loadNat]
  | succ k ih =>
    have low := (b.peek a).toNat_lt
    have high := ih (a + 1)
    rw [loadNat, Nat.pow_succ']
    omega

theorem loadNat_eq_zero_iff {b : Bytes n} {a k : Nat} : b.loadNat a k = 0 ↔ ∀ j < k, b.peek (a + j) = 0 := by
  induction k generalizing a with
  | zero => simp [loadNat]
  | succ k ih =>
    have first : (b.peek a).toNat = 0 ↔ b.peek a = 0 := UInt8.toNat_inj (b := 0)
    rw [loadNat, Nat.add_eq_zero_iff, Nat.mul_eq_zero, or_iff_right (by omega), ih, first]
    constructor
    · rintro ⟨zero, rest⟩ j bound
      cases j with
      | zero => exact zero
      | succ j => simpa [Nat.add_assoc, Nat.add_comm 1] using rest j (by omega)
    · intro all
      refine ⟨all 0 (by omega), fun j bound => ?_⟩
      simpa [Nat.add_assoc, Nat.add_comm 1] using all (j + 1) (by omega)

theorem loadNat_storeNat_tail (b : Bytes n) (a k w : Nat) (bound : a + k ≤ n) (d m : Nat) (fits : d + m ≤ k) :
    (b.storeNat a k w).loadNat (a + d) m = w / 256 ^ d % 256 ^ m := by
  induction m generalizing d with
  | zero => simp [loadNat, Nat.mod_one]
  | succ m ih =>
    have byte : ((b.storeNat a k w).peek (a + d)).toNat = w / 256 ^ d % 256 := by
      rw [storeNat, peek_blit_inside _ _ (by omega) (by omega) (by omega)]
      simp
    have rest : (b.storeNat a k w).loadNat (a + d + 1) m = w / 256 ^ d / 256 % 256 ^ m := by
      rw [Nat.add_assoc, ih (d + 1) (by omega), Nat.pow_succ, Nat.div_div_eq_div_mul]
    rw [loadNat, byte, rest, Nat.pow_succ', Nat.mod_mul]

theorem loadNat_storeNat (b : Bytes n) (a k w : Nat) (bound : a + k ≤ n) :
    (b.storeNat a k w).loadNat a k = w % 256 ^ k := by
  simpa using loadNat_storeNat_tail b a k w bound 0 k (by omega)

/-! ## Signed words of four bytes -/

def signed (w : Nat) : Int := if w < 2147483648 then w else w - 4294967296

/-- What an `int` keeps of a value. -/
def wrap32 (v : Int) : Int := signed (v % 4294967296).toNat

theorem wrap32_of_range {v : Int} (low : -2 ^ 31 ≤ v) (high : v < 2 ^ 31) : wrap32 v = v := by
  unfold wrap32 signed
  split <;> omega

def loadInt (b : Bytes n) (a : Nat) : Int := signed (b.loadNat a 4)

def storeInt (b : Bytes n) (a : Nat) (v : Int) : Bytes n := b.storeNat a 4 (v % 4294967296).toNat

theorem loadInt_storeInt (b : Bytes n) {a : Nat} {v : Int} (bound : a + 4 ≤ n) (low : -2 ^ 31 ≤ v)
    (high : v < 2 ^ 31) : (b.storeInt a v).loadInt a = v := by
  have word : (v % 4294967296).toNat % 256 ^ 4 = (v % 4294967296).toNat := by omega
  rw [loadInt, storeInt, loadNat_storeNat b a 4 _ bound, word]
  exact wrap32_of_range low high

theorem loadInt_congr {b c : Bytes n} {a : Nat} (same : ∀ j, a ≤ j → j < a + 4 → b.peek j = c.peek j) :
    b.loadInt a = c.loadInt a := by
  unfold loadInt
  rw [loadNat_congr same]

theorem loadInt_eq_zero_iff {b : Bytes n} {a : Nat} : b.loadInt a = 0 ↔ ∀ j < 4, b.peek (a + j) = 0 := by
  have small : b.loadNat a 4 < 4294967296 := b.loadNat_lt a 4
  rw [← loadNat_eq_zero_iff, loadInt, signed]
  split <;> omega

theorem peek_storeInt_outside (b : Bytes n) {a c : Nat} (v : Int) (outside : c < a ∨ a + 4 ≤ c) :
    (b.storeInt a v).peek c = b.peek c :=
  peek_storeNat_outside b _ outside

theorem loadInt_storeInt_outside (b : Bytes n) {a c : Nat} (v : Int) (outside : c + 4 ≤ a ∨ a + 4 ≤ c) :
    (b.storeInt a v).loadInt c = b.loadInt c :=
  loadInt_congr fun _ _ _ => peek_storeInt_outside b v (by omega)

/-! ## NUL-terminated strings -/

def cstrWithin (b : Bytes n) (a : Nat) : Nat → List UInt8
  | 0 => []
  | fuel + 1 => if b.peek a = 0 then [] else b.peek a :: cstrWithin b (a + 1) fuel

/-- The string at address `a`; it ends at the latest with the buffer. -/
def cstr (b : Bytes n) (a : Nat) : List UInt8 := b.cstrWithin a (n - a)

/-- `strcpy` into the buffer at `a`, its terminating NUL included. -/
def strcpy (b : Bytes n) (a : Nat) (s : List UInt8) : Bytes n :=
  b.blit a (s.length + 1) fun j => s.getD j 0

theorem cstrWithin_eq_of_nul {b : Bytes n} {a : Nat} {s : List UInt8} {fuel : Nat} (nonzero : (0 : UInt8) ∉ s)
    (chars : ∀ j < s.length, b.peek (a + j) = s.getD j 0) (nul : b.peek (a + s.length) = 0)
    (room : s.length ≤ fuel) : b.cstrWithin a fuel = s := by
  induction s generalizing a fuel with
  | nil =>
    cases fuel with
    | zero => rfl
    | succ fuel => simpa [cstrWithin] using nul
  | cons c s ih =>
    cases fuel with
    | zero => simp at room
    | succ fuel =>
      have head : b.peek a = c := by simpa using chars 0 (by simp)
      have more : b.cstrWithin (a + 1) fuel = s := by
        apply ih (fun zero => nonzero (List.mem_cons_of_mem c zero))
        · intro j bound
          simpa [Nat.add_assoc, Nat.add_comm 1 j] using chars (j + 1) (by simpa using bound)
        · simpa [Nat.add_assoc, Nat.add_comm 1] using nul
        · simpa using room
      have positive : c ≠ 0 := fun zero => nonzero (by simp [zero])
      simp [cstrWithin, head, positive, more]

theorem cstr_strcpy (b : Bytes n) {a : Nat} (s : CString) (bound : a + s.val.length < n) :
    (b.strcpy a s.val).cstr a = s.val := by
  apply cstrWithin_eq_of_nul s.property
  · intro j short
    rw [strcpy, peek_blit_inside _ _ (by omega) (by omega) (by omega), Nat.add_sub_cancel_left]
  · rw [strcpy, peek_blit_inside _ _ (by omega) (by omega) (by omega), Nat.add_sub_cancel_left]
    simp
  · omega

theorem peek_strcpy_outside (b : Bytes n) {a c : Nat} (s : List UInt8)
    (outside : c < a ∨ a + s.length + 1 ≤ c) : (b.strcpy a s).peek c = b.peek c :=
  peek_blit_outside b _ outside

theorem cstrWithin_congr {b c : Bytes n} {a m fuel : Nat} (short : (b.cstrWithin a fuel).length < m)
    (same : ∀ j, a ≤ j → j < a + m → b.peek j = c.peek j) : c.cstrWithin a fuel = b.cstrWithin a fuel := by
  induction fuel generalizing a m with
  | zero => rfl
  | succ fuel ih =>
    have head : b.peek a = c.peek a := same a (by omega) (by omega)
    by_cases nul : b.peek a = 0
    · simp [cstrWithin, nul, ← head]
    · simp only [cstrWithin, nul, if_false, List.length_cons] at short
      have rest : c.cstrWithin (a + 1) fuel = b.cstrWithin (a + 1) fuel :=
        ih (m := m - 1) (by omega) fun j low high => same j (by omega) (by omega)
      simp only [cstrWithin, ← head, nul, if_false, rest]

theorem cstr_congr {b c : Bytes n} {a m : Nat} (short : (b.cstr a).length < m)
    (same : ∀ j, a ≤ j → j < a + m → b.peek j = c.peek j) : c.cstr a = b.cstr a :=
  cstrWithin_congr short same

theorem cstrWithin_nonzero (b : Bytes n) (a fuel : Nat) : (0 : UInt8) ∉ b.cstrWithin a fuel := by
  induction fuel generalizing a with
  | zero => simp [cstrWithin]
  | succ fuel ih =>
    by_cases nul : b.peek a = 0
    · simp [cstrWithin, nul]
    · simpa [cstrWithin, nul, ih] using fun zero => nul zero.symm

def cstring (b : Bytes n) (a : Nat) : CString := ⟨b.cstr a, cstrWithin_nonzero b a (n - a)⟩

end Bytes

end OsLabs.Lib
