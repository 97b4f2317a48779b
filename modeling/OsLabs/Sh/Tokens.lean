import Mathlib.Tactic.Common
import OsLabs.Sh.Parser

/-! The tokens of a line, and what `gettoken` and `peek` do with the next of them. -/

set_option autoImplicit false

namespace OsLabs.Sh

open OsLabs.Lib

variable {buf : List Char} {s : Nat} {toks : List Char}

theorem not_white (buf : List Char) (s : Nat) : ∀ c ∈ buf[skip buf s]?, c ∉ whitespace := by
  intro c here
  have dark := (scan_spec (· ∈ whitespace) buf s).2 c here
  simpa using dark

theorem gettoken_skip (buf : List Char) (s : Nat) : gettoken buf (skip buf s) = gettoken buf s := by
  have same : skip buf (skip buf s) = skip buf s := scan_scan s
  simp only [gettoken, same]

/-- A token that `gettoken` found at its index in the line. -/
inductive Found (buf : List Char) : Token → Prop where
  | symbol {c : Char} {q : Nat} (here : buf[q]? = some c) (among : c ∈ symbols) (other : c ≠ '>') :
    Found buf { tok := c, q, eq := q + 1 }
  | single {q : Nat} (here : buf[q]? = some '>') (alone : buf[q + 1]? ≠ some '>') :
    Found buf { tok := '>', q, eq := q + 1 }
  | double {q : Nat} (here : buf[q]? = some '>') (next : buf[q + 1]? = some '>') :
    Found buf { tok := '+', q, eq := q + 2 }
  | word {c : Char} {q : Nat} (here : buf[q]? = some c) (dark : plain c = true) :
    Found buf { tok := 'a', q, eq := scan plain buf q }

theorem gettoken_cases (buf : List Char) (s : Nat) :
    (buf[skip buf s]? = none ∧ (gettoken buf s).1.tok = '\x00') ∨
      Found buf (gettoken buf s).1 ∧ (gettoken buf s).1.q = skip buf s ∧
        (gettoken buf s).2 = skip buf (gettoken buf s).1.eq := by
  cases here : buf[skip buf s]? with
  | none => exact .inl ⟨rfl, by simp only [gettoken, here]⟩
  | some c =>
    refine .inr ?_
    have dark := not_white buf s c here
    by_cases right : c = '>'
    · subst right
      by_cases next : buf[skip buf s + 1]? = some '>'
      · simp only [gettoken, here, if_pos next]
        exact ⟨.double here next, trivial, trivial⟩
      · simp only [gettoken, here, if_neg next]
        exact ⟨.single here next, trivial, trivial⟩
    · by_cases among : c ∈ symbols
      · simp only [gettoken, here, if_pos among]
        exact ⟨.symbol here among right, trivial, trivial⟩
      · simp only [gettoken, here, if_neg among]
        exact ⟨.word here (by simp [plain, dark, among]), trivial, trivial⟩

theorem Found.tok_ne {t : Token} (found : Found buf t) : t.tok ≠ '\x00' := by
  cases found with
  | symbol here among other =>
    rintro rfl
    exact absurd among (by decide)
  | single here alone => exact (by decide : '>' ≠ '\x00')
  | double here next => exact (by decide : '+' ≠ '\x00')
  | word here dark => exact (by decide : 'a' ≠ '\x00')

theorem Found.lt {t : Token} (found : Found buf t) : t.q < t.eq ∧ t.eq ≤ buf.length := by
  cases found with
  | symbol here among other => exact ⟨Nat.lt_succ_self _, (List.getElem?_eq_some_iff.mp here).1⟩
  | single here alone => exact ⟨Nat.lt_succ_self _, (List.getElem?_eq_some_iff.mp here).1⟩
  | double here next => exact ⟨Nat.lt_add_of_pos_right (by decide), (List.getElem?_eq_some_iff.mp next).1⟩
  | word here dark =>
    have inside := (List.getElem?_eq_some_iff.mp here).1
    refine ⟨?_, scan_le (Nat.le_of_lt inside)⟩
    rw [scan_of_some here dark]
    exact le_scan ..

def lex (buf : List Char) (s : Nat) : List Token :=
  if _ended : (gettoken buf s).1.tok = '\x00' then [] else (gettoken buf s).1 :: lex buf (gettoken buf s).2
termination_by buf.length - s
decreasing_by
  rcases gettoken_cases buf s with ⟨-, nul⟩ | ⟨found, start, next⟩
  · exact absurd nul ‹_›
  · have := le_scan (· ∈ whitespace) buf s
    have := le_scan (· ∈ whitespace) buf (gettoken buf s).1.eq
    have := found.lt
    simp only [skip] at start next
    omega

theorem lex_skip (buf : List Char) (s : Nat) : lex buf (skip buf s) = lex buf s := by
  conv_rhs => rw [lex]
  rw [lex, gettoken_skip]

theorem lex_cases (buf : List Char) (s : Nat) :
    (lex buf s = [] ∧ buf[skip buf s]? = none ∧ (gettoken buf s).1.tok = '\x00') ∨
      Found buf (gettoken buf s).1 ∧ (gettoken buf s).1.q = skip buf s ∧
        lex buf s = (gettoken buf s).1 :: lex buf (gettoken buf s).2 := by
  rcases gettoken_cases buf s with ⟨ended, nul⟩ | ⟨found, start, next⟩
  · exact .inl ⟨by rw [lex, dif_pos nul], ended, nul⟩
  · exact .inr ⟨found, start, by rw [lex, dif_neg found.tok_ne]⟩

theorem gettoken_of_lex {t : Token} {ts : List Token} (ahead : lex buf s = t :: ts) :
    (gettoken buf s).1 = t ∧ lex buf (gettoken buf s).2 = ts ∧ Found buf t := by
  rcases lex_cases buf s with ⟨none_left, -⟩ | ⟨found, -, some_left⟩
  · rw [none_left] at ahead
    cases ahead
  · rw [some_left] at ahead
    obtain ⟨rfl, rest⟩ := List.cons.inj ahead
    exact ⟨rfl, rest, found⟩

theorem lex_of_gettoken (some_left : (gettoken buf s).1.tok ≠ '\x00') :
    lex buf s = (gettoken buf s).1 :: lex buf (gettoken buf s).2 := by
  rcases lex_cases buf s with ⟨-, -, nul⟩ | ⟨-, -, ahead⟩
  · exact absurd nul some_left
  · exact ahead

theorem gettoken_of_lex_nil (ended : lex buf s = []) : (gettoken buf s).1.tok = '\x00' := by
  rcases lex_cases buf s with ⟨-, -, nul⟩ | ⟨-, -, some_left⟩
  · exact nul
  · rw [some_left] at ended
    cases ended

def front (ts : List Token) : Option Char := ts.head?.map fun t => if t.tok = '+' then '>' else t.tok

theorem peek_eq (buf : List Char) (s : Nat) (among : ∀ c ∈ toks, c ∈ symbols) :
    peek buf toks s = ((front (lex buf s)).any (· ∈ toks), skip buf s) := by
  refine Prod.ext ?_ rfl
  rcases lex_cases buf s with ⟨none_left, ended, -⟩ | ⟨found, start, some_left⟩
  · simp [peek, ended, none_left, front]
  · rw [some_left, peek, ← start]
    generalize (gettoken buf s).1 = t at found
    cases found with
    | @symbol c q here mem other =>
      have apart : c ≠ '+' := by
        rintro rfl
        exact absurd mem (by decide)
      simp [here, front, apart]
    | single here alone => simp [here, front]
    | double here next => simp [here, front]
    | word here dark =>
      simp only [plain, Bool.and_eq_true, decide_eq_true_eq] at dark
      have outside : _ ∉ toks := fun mem => dark.2 (among _ mem)
      have letter : 'a' ∉ toks := fun mem => absurd (among _ mem) (by decide)
      simp [here, front, outside, letter]

/-- Between two places of the line there are these tokens. -/
structure Across (buf : List Char) (s : Nat) (ts : List Token) (s' : Nat) : Prop where
  tokens : lex buf s = ts ++ lex buf s'
  inside : s ≤ buf.length → s' ≤ buf.length

theorem Across.trans {s' s'' : Nat} {ts us : List Token} (first : Across buf s ts s') (rest : Across buf s' us s'') :
    Across buf s (ts ++ us) s'' where
  tokens := by rw [first.tokens, rest.tokens, List.append_assoc]
  inside before := rest.inside (first.inside before)

theorem across_skip (buf : List Char) (s : Nat) : Across buf s [] (skip buf s) where
  tokens := (lex_skip buf s).symm
  inside := scan_le

theorem across_gettoken {t : Token} {ts : List Token} (ahead : lex buf s = t :: ts) :
    Across buf s [t] (gettoken buf s).2 := by
  obtain ⟨same, rest, found⟩ := gettoken_of_lex ahead
  refine ⟨by rw [ahead, rest]; rfl, fun _ => ?_⟩
  rcases gettoken_cases buf s with ⟨-, nul⟩ | ⟨-, -, next⟩
  · exact absurd (same ▸ nul) found.tok_ne
  · rw [next, same]
    exact scan_le found.lt.2

theorem across_gettoken_end (ended : lex buf s = []) : Across buf s [] (gettoken buf s).2 := by
  rcases gettoken_cases buf s with ⟨none_left, -⟩ | ⟨found, -⟩
  · have stays : (gettoken buf s).2 = skip buf (skip buf s) := by simp only [gettoken, none_left]
    rw [stays]
    exact (across_skip buf s).trans (across_skip ..)
  · exact absurd (gettoken_of_lex_nil ended) found.tok_ne

end OsLabs.Sh
