import OsLabs.Lib.Segments

/-! head.c: `cat` collects a line in `temp` over as many reads as it takes and writes it at
its newline, until it comes to the newline after the last line it is to write. -/

set_option autoImplicit false

namespace OsLabs.Commands.Head

open OsLabs.Lib

/-- The locals of `cat`, the first `temp_counter` characters of `temp`, and what has been
written. -/
structure State where
  temp : List Char
  count : Nat
  sig : Bool
  out : List Char

/-- One round of the inner loop; `none` is an index outside `temp`. -/
def State.char (s : State) (c : Char) : Option State :=
  if s.temp.length < 512 then
    let temp := s.temp ++ [c]
    if c = '\n' then
      if 0 < s.count then some { s with temp := [], count := s.count - 1, out := s.out ++ temp }
      else some { s with temp := [], sig := true }
    else some { s with temp }
  else none

def State.chunk (s : State) : List Char → Option State
  | [] => some s
  | c :: buf => (s.char c).bind fun s => if s.sig then some s else s.chunk buf

def State.cat (s : State) : List (List Char) → Option State
  | [] => some s
  | buf :: chunks => (s.chunk buf).bind fun s => if s.sig then some s else s.cat chunks

def start (count : Nat) : State := { temp := [], count, sig := false, out := [] }

def firstLines : Nat → List Char → List Char
  | 0, _ => []
  | _ + 1, [] => []
  | n + 1, c :: rest => c :: if c = '\n' then firstLines n rest else firstLines (n + 1) rest

def lines (stream : List Char) : List (List Char) := (stream.splitOn '\n').dropLast

def tail (stream : List Char) : List Char := (stream.splitOn '\n').getLast?.getD []

/-- The lines to write fit into `temp` with their newlines, and so does the next, which may
be without one; where there are fewer lines nothing comes after them. -/
structure Fits (count : Nat) (stream : List Char) : Prop where
  lines : ∀ l ∈ (lines stream).take (count + 1), l.length < 512
  next : (Head.lines stream).length = count → (tail stream).length ≤ 512
  whole : (Head.lines stream).length < count → tail stream = []

section Lines

variable {seg rest : List Char}

theorem splitOn_seg (plain : '\n' ∉ seg) : seg.splitOn '\n' = [seg] := by
  rw [List.splitOn_eq_splitOnP]
  exact List.splitOnP_eq_singleton fun c member => by
    rw [beq_eq_false_iff_ne]
    rintro rfl
    exact plain member

theorem splitOn_line (plain : '\n' ∉ seg) (rest : List Char) :
    (seg ++ '\n' :: rest).splitOn '\n' = seg :: rest.splitOn '\n' := by
  rw [List.splitOn_eq_splitOnP, List.splitOn_eq_splitOnP, List.splitOnP_append_cons _ _ (by decide),
    ← List.splitOn_eq_splitOnP, splitOn_seg plain]
  rfl

theorem fits_seg (plain : '\n' ∉ seg) (count : Nat) :
    Fits count seg ↔ (count = 0 → seg.length ≤ 512) ∧ (0 < count → seg = []) := by
  have none_ended : lines seg = [] := by rw [lines, splitOn_seg plain]; rfl
  have all : tail seg = seg := by rw [tail, splitOn_seg plain]; rfl
  constructor
  · rintro ⟨-, next, whole⟩
    rw [none_ended, all] at next whole
    exact ⟨fun none_left => next none_left.symm, whole⟩
  · rintro ⟨next, whole⟩
    refine ⟨?_, ?_, ?_⟩
    · rw [none_ended]
      simp
    · rw [none_ended, all]
      exact fun none_left => next none_left.symm
    · rw [none_ended, all]
      exact whole

theorem lines_line (plain : '\n' ∉ seg) (rest : List Char) :
    lines (seg ++ '\n' :: rest) = seg :: lines rest ∧ tail (seg ++ '\n' :: rest) = tail rest := by
  have more : rest.splitOn '\n' ≠ [] := by
    rw [List.splitOn_eq_splitOnP]
    exact List.splitOnP_ne_nil _ _
  rw [lines, tail, splitOn_line plain rest, List.dropLast_cons_of_ne_nil more]
  obtain ⟨first, others, same⟩ := List.exists_cons_of_ne_nil more
  rw [tail, lines, same]
  exact ⟨rfl, rfl⟩

theorem fits_line_zero (plain : '\n' ∉ seg) : Fits 0 (seg ++ '\n' :: rest) ↔ seg.length < 512 := by
  obtain ⟨ended, last⟩ := lines_line plain rest
  constructor
  · intro fits
    exact fits.lines seg (by rw [ended]; simp)
  · intro short
    refine ⟨?_, ?_, ?_⟩
    · rw [ended]
      simpa using short
    · rw [ended]
      simp
    · exact nofun

theorem fits_line_succ (plain : '\n' ∉ seg) (count : Nat) :
    Fits (count + 1) (seg ++ '\n' :: rest) ↔ seg.length < 512 ∧ Fits count rest := by
  obtain ⟨ended, last⟩ := lines_line plain rest
  have length : (seg :: lines rest).length = (lines rest).length + 1 := rfl
  constructor
  · rintro ⟨first, next, whole⟩
    rw [ended, List.take_succ_cons, List.forall_mem_cons] at first
    rw [ended, last, length] at next whole
    exact ⟨first.1, first.2, fun same => next (by omega), fun more => whole (by omega)⟩
  · rintro ⟨short, first, next, whole⟩
    refine ⟨?_, ?_, ?_⟩
    · rw [ended, List.take_succ_cons, List.forall_mem_cons]
      exact ⟨short, first⟩
    · rw [ended, last, length]
      exact fun same => next (by omega)
    · rw [ended, last, length]
      exact fun more => whole (by omega)

theorem firstLines_seg (plain : '\n' ∉ seg) (count : Nat) : firstLines (count + 1) seg = seg := by
  induction seg with
  | nil => rfl
  | cons c seg ih =>
    obtain ⟨other, plain⟩ := not_or.mp (List.mem_cons.not.mp plain)
    rw [firstLines, if_neg (Ne.symm other), ih plain]

theorem firstLines_line (plain : '\n' ∉ seg) (rest : List Char) (count : Nat) :
    firstLines (count + 1) (seg ++ '\n' :: rest) = seg ++ '\n' :: firstLines count rest := by
  induction seg with
  | nil => rfl
  | cons c seg ih =>
    obtain ⟨other, plain⟩ := not_or.mp (List.mem_cons.not.mp plain)
    rw [List.cons_append, firstLines, if_neg (Ne.symm other), ih plain]
    rfl

end Lines

/-! ## The loops -/

section Loops

variable {s : State} {seg rest : List Char}

theorem chunk_append (going : s.sig = false) (xs ys : List Char) :
    s.chunk (xs ++ ys) = (s.chunk xs).bind fun s => if s.sig then some s else s.chunk ys := by
  induction xs generalizing s with
  | nil => simp [State.chunk, going]
  | cons c xs ih =>
    rw [List.cons_append, State.chunk, State.chunk]
    cases stored : s.char c with
    | none => rfl
    | some s₁ =>
      rw [Option.bind_some, Option.bind_some]
      by_cases stops : s₁.sig = true
      · simp [stops]
      · rw [if_neg stops, if_neg stops, ih (Bool.eq_false_iff.mpr stops)]

/-- How the stream is cut into reads makes no difference. -/
theorem cat_eq (going : s.sig = false) (chunks : List (List Char)) : s.cat chunks = s.chunk chunks.flatten := by
  induction chunks generalizing s with
  | nil => rfl
  | cons buf chunks ih =>
    rw [State.cat, List.flatten_cons, chunk_append going]
    congr 1
    funext s₁
    by_cases stops : s₁.sig = true
    · rw [if_pos stops, if_pos stops]
    · rw [if_neg stops, if_neg stops, ih (Bool.eq_false_iff.mpr stops)]

theorem char_plain {c : Char} (other : c ≠ '\n') (short : s.temp.length < 512) :
    s.char c = some { s with temp := s.temp ++ [c] } := by
  rw [State.char, if_pos short]
  exact if_neg other

theorem chunk_seg (plain : '\n' ∉ seg) (going : s.sig = false) (room : s.temp.length ≤ 512) (rest : List Char) :
    s.chunk (seg ++ rest) =
      if (s.temp ++ seg).length ≤ 512 then { s with temp := s.temp ++ seg }.chunk rest else none := by
  induction seg generalizing s with
  | nil =>
    rw [List.append_nil, if_pos room]
    rfl
  | cons c seg ih =>
    obtain ⟨other, plain⟩ := not_or.mp (List.mem_cons.not.mp plain)
    rw [List.cons_append, State.chunk]
    by_cases short : s.temp.length < 512
    · have next := ih (s := { s with temp := s.temp ++ [c] }) plain going
        (by rw [List.length_append]; exact short)
      rw [char_plain (Ne.symm other) short, Option.bind_some, if_neg (Bool.eq_false_iff.mp going), next,
        List.append_assoc, List.singleton_append]
    · rw [State.char, if_neg short, if_neg (by simp only [List.length_append, List.length_cons]; omega)]
      rfl

theorem chunk_newline (going : s.sig = false) (short : s.temp.length < 512) (rest : List Char) :
    s.chunk ('\n' :: rest) =
      if 0 < s.count then
        { s with temp := [], count := s.count - 1, out := s.out ++ (s.temp ++ ['\n']) }.chunk rest
      else some { s with temp := [], sig := true } := by
  rw [State.chunk, State.char, if_pos short]
  by_cases more : 0 < s.count
  · simp [more, going]
  · simp [more]

theorem chunk_out_iff (stream : List Char) (going : s.sig = false) (new : s.temp = []) :
    (∃ s', s.chunk stream = some s' ∧ s'.out = s.out ++ firstLines s.count stream) ↔ Fits s.count stream := by
  induction stream using segments_induction '\n' generalizing s with
  | last seg plain =>
    have read := chunk_seg plain going (by rw [new]; decide) []
    rw [List.append_nil, new, List.nil_append] at read
    rw [fits_seg plain, read]
    cases count : s.count with
    | zero =>
      simp only [firstLines, List.append_nil, forall_const, Nat.lt_irrefl, false_implies, and_true]
      split
      next short => exact iff_of_true ⟨_, rfl, rfl⟩ short
      next long => exact iff_of_false nofun long
    | succ n =>
      rw [firstLines_seg plain]
      constructor
      · rintro ⟨s', done, out⟩
        split at done
        · cases done
          have nothing : s.out = s.out ++ seg := out
          exact ⟨nofun, fun _ => List.self_eq_append_right.mp nothing⟩
        · cases done
      · rintro ⟨-, nothing⟩
        obtain rfl := nothing (Nat.succ_pos n)
        exact ⟨_, rfl, (List.append_nil _).symm⟩
  | more seg rest plain ih =>
    have read := chunk_seg plain going (by rw [new]; decide) ('\n' :: rest)
    rw [new, List.nil_append] at read
    by_cases short : seg.length < 512
    · rw [if_pos (Nat.le_of_lt short)] at read
      rw [read, chunk_newline (s := { s with temp := seg }) going short]
      cases count : s.count with
      | zero =>
        rw [fits_line_zero plain, if_neg (Nat.lt_irrefl 0)]
        refine iff_of_true ⟨_, rfl, ?_⟩ short
        rw [firstLines, List.append_nil]
      | succ n =>
        rw [fits_line_succ plain, if_pos (Nat.succ_pos n), firstLines_line plain]
        have next := ih (s := { s with temp := [], count := n, out := s.out ++ (seg ++ ['\n']) }) going rfl
        rw [iff_true_intro short, true_and, ← next]
        simp only [List.append_assoc, List.singleton_append]
        rfl
    · have long : ¬Fits s.count (seg ++ '\n' :: rest) := by
        cases s.count with
        | zero => exact fun fits => short ((fits_line_zero plain).mp fits)
        | succ n => exact fun fits => short ((fits_line_succ plain n).mp fits).1
      refine iff_of_false ?_ long
      rintro ⟨s', done, -⟩
      rw [read] at done
      split at done
      next full =>
        rw [State.chunk, State.char, if_neg short] at done
        cases done
      next => cases done

end Loops

/-- `cat` writes the first lines, or the whole stream where it has fewer, and stays inside
`temp`, exactly when the stream fits. -/
theorem cat_writes_iff (count : Nat) (chunks : List (List Char)) :
    (∃ s, (start count).cat chunks = some s ∧ s.out = firstLines count chunks.flatten) ↔ Fits count chunks.flatten := by
  rw [cat_eq rfl]
  exact chunk_out_iff chunks.flatten rfl rfl

/-- A file of one line without a newline is not written. -/
theorem not_cat_writes_unterminated :
    ¬∃ s, (start 1).cat [['a', 'b']] = some s ∧ s.out = firstLines 1 [['a', 'b']].flatten := by
  have read : (start 1).cat [['a', 'b']] = some { temp := ['a', 'b'], count := 1, sig := false, out := [] } := rfl
  rintro ⟨s, done, out⟩
  rw [read] at done
  cases done
  revert out
  decide

end OsLabs.Commands.Head
