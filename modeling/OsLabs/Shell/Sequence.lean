import OsLabs.Shell.Turtle

/-! A line with `;;` in the turtle shell: the calls its segments ask for, and when they are
the calls made. -/

set_option autoImplicit false

namespace OsLabs.Shell.Turtle

open OsLabs.Lib

/-- The call a segment asks for, in a process with this standard output. -/
def action (stdout : Option String) : List String → Action
  | ["cd", dir] => .chdir dir
  | seg =>
    if ">" ∈ seg then .exec (seg.take (seg.idxOf ">")) seg[seg.idxOf ">" + 1]? else .exec seg stdout

/-- At most one `>`, behind a token and before exactly one; `cd` with one word. -/
structure WellFormed (seg : List String) : Prop where
  once : seg.count ">" ≤ 1
  around : ">" ∈ seg → 0 < seg.idxOf ">" ∧ seg.length = seg.idxOf ">" + 2
  cd : seg.head? = some "cd" → seg.length = 2

inductive Shape : List String → Prop where
  | empty : Shape []
  | cd {dir : String} (word : dir ≠ ">") : Shape ["cd", dir]
  | plain {seg : List String} (nonempty : seg ≠ []) (unpiped : ">" ∉ seg) (other : seg.head? ≠ some "cd") : Shape seg
  | redirect {before : List String} {file : String} (nonempty : before ≠ []) (unpiped : ">" ∉ before)
      (word : file ≠ ">") (other : before.head? ≠ some "cd") : Shape (before ++ [">", file])

theorem WellFormed.shape {seg : List String} (wf : WellFormed seg) : Shape seg := by
  by_cases piped : ">" ∈ seg
  · obtain ⟨before, behind, rfl, unpiped⟩ := List.eq_append_cons_of_mem piped
    obtain ⟨positive, length⟩ := wf.around piped
    have index : (before ++ ">" :: behind).idxOf ">" = before.length := by
      rw [List.idxOf_append_of_notMem unpiped, List.idxOf_cons_self, Nat.add_zero]
    rw [index] at positive length
    rw [List.length_append, List.length_cons] at length
    obtain ⟨file, rfl⟩ := List.length_eq_one_iff.mp (show behind.length = 1 by omega)
    have once := wf.once
    rw [List.count_append, List.count_cons_self] at once
    have nonempty : before ≠ [] := List.length_pos_iff.mp positive
    refine .redirect nonempty unpiped (fun same => ?_) fun cd => ?_
    · rw [same, List.count_cons_self] at once
      omega
    · have := wf.cd (by rw [List.head?_append, cd]; rfl)
      rw [List.length_append, List.length_cons, List.length_singleton] at this
      omega
  · match seg, wf with
    | [], _ => exact .empty
    | first :: rest, wf =>
      by_cases cd : first = "cd"
      · subst cd
        obtain ⟨dir, rfl⟩ := List.length_eq_one_iff.mp (Nat.succ.inj (wf.cd rfl))
        exact .cd fun same => piped (same ▸ by simp)
      · exact .plain (List.cons_ne_nil first rest) piped fun same => cd (Option.some.inj same)

@[simp] theorem action_cd (stdout : Option String) (dir : String) : action stdout ["cd", dir] = .chdir dir := rfl

theorem action_plain {seg : List String} (stdout : Option String) (unpiped : ">" ∉ seg)
    (other : seg.head? ≠ some "cd") : action stdout seg = .exec seg stdout := by
  rw [action, if_neg unpiped]
  rintro dir rfl
  exact other rfl

theorem action_redirect {before : List String} {file : String} (stdout : Option String) (unpiped : ">" ∉ before)
    (other : before.head? ≠ some "cd") (nonempty : before ≠ []) :
    action stdout (before ++ [">", file]) = .exec before (some file) := by
  rw [action, if_pos (by simp), List.idxOf_append_of_notMem unpiped, List.idxOf_cons_self, Nat.add_zero,
    List.take_left' rfl]
  · simp
  · intro dir same
    cases before with
    | nil => exact nonempty rfl
    | cons first rest =>
      exact other (congrArg some (List.cons_eq_cons.mp same).1)

/-! ## What is left behind a segment -/

/-- The tokens `temparr` holds from `m` on when these segments have gone before. -/
def leftover (done : List (List String)) (m : Nat) : List String :=
  ((done.reverse.find? fun seg => m ≤ seg.length).getD []).drop m

theorem leftover_nil (m : Nat) : leftover [] m = [] := List.drop_nil

theorem leftover_concat (done : List (List String)) (seg : List String) (m : Nat) :
    leftover (done ++ [seg]) m = if m ≤ seg.length then seg.drop m else leftover done m := by
  rw [leftover, List.reverse_concat, List.find?_cons]
  by_cases covered : m ≤ seg.length <;> simp [covered, leftover]

section

variable {tokens : List String} {found : List Action → Bool}

/-- A `>` follows the token in its segment. -/
def Spent (tokens : List String) (q : Nat) : Prop :=
  ∃ r, q < r ∧ tokens[r]? = some ">" ∧ ∀ j, q ≤ j → j ≤ r → tokens[j]? ≠ some ";;"

/-- At token `b`, where a segment starts, with the segments before it. -/
structure Ready (tokens : List String) (done : List (List String)) (b : Nat) (s : Proc) : Prop where
  counter : s.tempCounter = 0
  first : s.temparr 0 = none
  ahead : ∀ i q, s.temparr i = some q → i ≤ q ∧ q < b
  freed : ∀ q ∈ s.freed, q < b ∧ Spent tokens q
  left : ∀ m, 0 < m → ∃ c, Pointers.Holds s.temparr m (List.range' c (leftover done m).length) ∧
    (∀ k < (leftover done m).length, tokens[c + k]? = (leftover done m)[k]?) ∧
    (leftover done m ≠ [] → tokens[c + (leftover done m).length]? = some ";;")

theorem ready_initial : Ready tokens [] 0 Proc.initial where
  counter := rfl
  first := rfl
  ahead i q entry := by cases entry
  freed q gone := by cases gone
  left m positive := by
    rw [leftover_nil]
    exact ⟨0, rfl, fun k inside => absurd inside (Nat.not_lt_zero k), fun nonempty => absurd rfl nonempty⟩

def filled (temparr : Pointers Nat) (b m : Nat) : Pointers Nat := fun i => if i < m then some (b + i) else temparr i

theorem filled_zero (temparr : Pointers Nat) (b : Nat) : filled temparr b 0 = temparr := by
  funext i
  rw [filled, if_neg (Nat.not_lt_zero i)]

theorem update_filled (temparr : Pointers Nat) (b m : Nat) :
    Function.update (filled temparr b m) m (some (b + m)) = filled temparr b (m + 1) := by
  funext i
  by_cases here : i = m
  · rw [here, Function.update_self, filled, if_pos (Nat.lt_succ_self m)]
  · rw [Function.update_of_ne here, filled, filled]
    split_ifs <;> first | rfl | omega

theorem loop_fill {s : Proc} {b m : Nat} (counter : s.tempCounter = 0) (short : m < 64)
    (words : ∀ k < m, ∃ t, s.string tokens (b + k) = some t ∧ t ≠ ";;") (trace : List Action) (n : Nat) :
    loop tokens found (List.range' b (m + n)) s trace =
      loop tokens found (List.range' (b + m) n) { s with temparr := filled s.temparr b m, tempCounter := m } trace := by
  induction m generalizing n with
  | zero =>
    have same : { s with tempCounter := 0 } = s := by rw [← counter]
    rw [filled_zero, Nat.zero_add, same, Nat.add_zero]
  | succ m ih =>
    obtain ⟨t, read, word⟩ := words m (Nat.lt_succ_self m)
    rw [Nat.add_right_comm, Nat.add_assoc, ih (Nat.lt_of_succ_lt short) fun k inside => words k (Nat.lt_succ_of_lt inside),
      List.range'_succ, loop]
    change (s.string tokens (b + m)).bind _ = _
    rw [read, Option.bind_some, if_neg word, Pointers.store_of_lt _ _ (show m < maxNumTokens from Nat.lt_of_succ_lt short),
      update_filled]
    rfl

def resume (tokens : List String) (found : List Action → Bool) (js : List Nat) : Rest := fun s trace =>
  loop tokens found js { s with temparr := Function.update s.temparr 0 none, tempCounter := 0 } trace

theorem loop_separator {s : Proc} {j : Nat} (separator : s.string tokens j = some ";;") (inside : s.tempCounter < 64)
    (js : List Nat) (trace : List Action) :
    loop tokens found (j :: js) s trace =
      command tokens found (Function.update s.temparr s.tempCounter none 1) (resume tokens found js)
        { s with temparr := Function.update s.temparr s.tempCounter none } trace := by
  rw [loop]
  change (s.string tokens j).bind _ = _
  rw [separator, Option.bind_some, if_pos rfl,
    Pointers.store_of_lt _ _ (show s.tempCounter < maxNumTokens from inside)]
  rfl

def cleared (temparr : Pointers Nat) (b m : Nat) : Pointers Nat :=
  Function.update (Function.update (filled temparr b m) m none) 0 none

theorem cleared_zero (temparr : Pointers Nat) (b m : Nat) : cleared temparr b m 0 = none := Function.update_self ..

theorem cleared_behind {temparr : Pointers Nat} {b m i : Nat} (behind : m < i) : cleared temparr b m i = temparr i := by
  rw [cleared, Function.update_of_ne (by omega), Function.update_of_ne (by omega), filled, if_neg (by omega)]

theorem cleared_end {temparr : Pointers Nat} {b m : Nat} : cleared temparr b m m = none := by
  by_cases start : m = 0
  · rw [cleared, start, Function.update_self]
  · rw [cleared, Function.update_of_ne start, Function.update_self]

theorem cleared_inside {temparr : Pointers Nat} {b m i : Nat} (positive : 0 < i) (inside : i < m) :
    cleared temparr b m i = some (b + i) := by
  rw [cleared, Function.update_of_ne (by omega), Function.update_of_ne (by omega), filled, if_pos inside]

theorem holds_range' {temparr : Pointers Nat} {b m i : Nat} {behind : List Nat}
    (inside : ∀ j, i ≤ j → j < m → temparr j = some (b + j)) (holds : Pointers.Holds temparr m behind) (below : i ≤ m) :
    Pointers.Holds temparr i (List.range' (b + i) (m - i) ++ behind) := by
  induction left : m - i generalizing i with
  | zero =>
    rw [show i = m by omega]
    exact holds
  | succ left ih =>
    rw [List.range'_succ]
    exact ⟨inside i (Nat.le_refl i) (by omega), ih (fun j low => inside j (by omega)) (by omega) (by omega)⟩

def Placed (tokens : List String) (b : Nat) (seg : List String) : Prop := ∀ k < seg.length, tokens[b + k]? = seg[k]?

theorem placed_append (pre seg more : List String) : Placed (pre ++ (seg ++ more)) pre.length seg := by
  intro k inside
  rw [List.getElem?_append_right (Nat.le_add_right ..), Nat.add_sub_cancel_left, List.getElem?_append_left inside]

theorem Ready.next {done : List (List String)} {b : Nat} {s : Proc} {seg : List String} (ready : Ready tokens done b s)
    (placed : Placed tokens b seg) (separator : tokens[b + seg.length]? = some ";;") {freed : List Nat}
    (gone : ∀ q ∈ freed, q < b + seg.length + 1 ∧ Spent tokens q) (stdout : Option String) :
    Ready tokens (done ++ [seg]) (b + seg.length + 1) ⟨cleared s.temparr b seg.length, 0, freed, stdout⟩ where
  counter := rfl
  first := cleared_zero s.temparr b seg.length
  ahead i q entry := by
    change cleared s.temparr b seg.length i = some q at entry
    rcases Nat.lt_trichotomy i seg.length with inside | last | behind
    · by_cases start : i = 0
      · rw [start, cleared_zero] at entry
        cases entry
      · rw [cleared_inside (by omega) inside, Option.some.injEq] at entry
        omega
    · rw [last, cleared_end] at entry
      cases entry
    · rw [cleared_behind behind] at entry
      have := ready.ahead i q entry
      omega
  freed := gone
  left m positive := by
    rw [leftover_concat]
    split_ifs with covered
    · have length : (seg.drop m).length = seg.length - m := List.length_drop
      refine ⟨b + m, ?_, fun k inside => ?_, fun _ => ?_⟩
      · rw [length, ← List.append_nil (List.range' ..)]
        exact holds_range' (fun j low high => cleared_inside (by omega) high) cleared_end covered
      · rw [List.getElem?_drop, ← placed (m + k) (by omega), Nat.add_assoc]
      · rw [length, Nat.add_assoc, Nat.add_sub_cancel' covered]
        exact separator
    · obtain ⟨c, holds, inside, ended⟩ := ready.left m positive
      refine ⟨c, (Pointers.holds_congr fun j low _ => ?_).mpr holds, inside, ended⟩
      exact cleared_behind (by omega)

theorem string_of_placed {s : Proc} {b : Nat} {seg : List String} (fresh : ∀ q ∈ s.freed, q < b)
    (placed : Placed tokens b seg) {k : Nat} (inside : k < seg.length) : s.string tokens (b + k) = seg[k]? := by
  rw [Proc.string, if_neg fun gone => absurd (fresh _ gone) (by omega), placed k inside]

theorem Ready.fresh {done : List (List String)} {b : Nat} {s : Proc} (ready : Ready tokens done b s) :
    ∀ q ∈ s.freed, q < b :=
  fun q gone => (ready.freed q gone).1

theorem words_of_placed {s : Proc} {b : Nat} {seg : List String} (fresh : ∀ q ∈ s.freed, q < b)
    (placed : Placed tokens b seg) (unsplit : ";;" ∉ seg) :
    ∀ k < seg.length, ∃ t, s.string tokens (b + k) = some t ∧ t ≠ ";;" := by
  intro k inside
  have read := (string_of_placed fresh placed inside).trans (List.getElem?_eq_getElem inside)
  exact ⟨seg[k], read, fun same => unsplit (same ▸ List.getElem_mem inside)⟩

/-- No entry of `temparr` points before its own place. -/
theorem Ready.ahead_filled {done : List (List String)} {b : Nat} {s : Proc} (ready : Ready tokens done b s) {m i q : Nat}
    (entry : filled s.temparr b m i = some q) : i ≤ q := by
  rw [filled] at entry
  split_ifs at entry
  · rw [Option.some.injEq] at entry
    omega
  · exact (ready.ahead i q entry).1

theorem map_string_of_placed {s : Proc} {b : Nat} {seg : List String}
    (each : ∀ k < seg.length, s.string tokens (b + k) = seg[k]?) :
    (List.range' b seg.length).map (s.string tokens) = seg.map some := by
  refine List.ext_getElem (by simp) fun k inside _ => ?_
  rw [List.length_map, List.length_range'] at inside
  rw [List.getElem_map, List.getElem_range', Nat.one_mul, each k inside, List.getElem_map, List.getElem?_eq_getElem inside]

theorem spent_of_placed {b : Nat} {seg : List String} (placed : Placed tokens b seg) (unsplit : ";;" ∉ seg) {k r : Nat}
    (ahead : k < r) (pipe : seg[r]? = some ">") : Spent tokens (b + k) := by
  obtain ⟨inside, -⟩ := List.getElem?_eq_some_iff.mp pipe
  refine ⟨b + r, by omega, (placed r inside).trans pipe, fun j low high separator => unsplit ?_⟩
  have here := placed (j - b) (by omega)
  rw [Nat.add_sub_cancel' (show b ≤ j by omega), separator] at here
  exact List.mem_of_getElem? here.symm

theorem spent_words {s : Proc} {b : Nat} {before behind : List String} (freed : ∀ q ∈ s.freed, Spent tokens q)
    (placed : Placed tokens b (before ++ ">" :: behind)) (unsplit : ";;" ∉ before ++ ">" :: behind) {words : List Nat}
    (front : words.take before.length = List.range' b before.length) :
    ∀ q ∈ s.freed ++ words.take before.length, (q ∈ s.freed ∨ q < b + before.length) ∧ Spent tokens q := by
  intro q gone
  rcases List.mem_append.mp gone with old | new
  · exact ⟨Or.inl old, freed q old⟩
  · rw [front, List.mem_range'_1] at new
    have spent := spent_of_placed (k := q - b) (r := before.length) placed unsplit (by omega) (by simp)
    rw [Nat.add_sub_cancel' new.1] at spent
    exact ⟨Or.inr new.2, spent⟩

variable (found) in
theorem loop_to_command {done : List (List String)} {b : Nat} {s : Proc} {seg : List String} (short : tokens.length < 64)
    (ready : Ready tokens done b s) (placed : Placed tokens b seg) (separator : tokens[b + seg.length]? = some ";;")
    (unsplit : ";;" ∉ seg) (n : Nat) (trace : List Action) :
    ∃ s' : Proc, s' = ⟨Function.update (filled s.temparr b seg.length) seg.length none, seg.length, s.freed, s.stdout⟩ ∧
      Spelled tokens s' (List.range' b seg.length) seg ∧
      loop tokens found (List.range' b (seg.length + (n + 1))) s trace =
        command tokens found (s'.temparr 1) (resume tokens found (List.range' (b + seg.length + 1) n)) s' trace := by
  have below : b + seg.length < 64 := Nat.lt_trans (List.getElem?_eq_some_iff.mp separator).1 short
  have fresh := ready.fresh
  have words := words_of_placed fresh placed unsplit
  have read : s.string tokens (b + seg.length) = some ";;" := by
    rw [Proc.string, if_neg fun gone => absurd (fresh _ gone) (by omega), separator]
  have held : ∀ j < seg.length,
      Function.update (filled s.temparr b seg.length) seg.length none j = some (b + j) := fun j inside => by
    rw [Function.update_of_ne (by omega), filled, if_pos inside]
  refine ⟨_, rfl, ⟨?_, ?_, ?_⟩, ?_⟩
  · rw [← List.append_nil (List.range' ..)]
    exact holds_range' (i := 0) (fun j _ inside => held j inside) (Function.update_self ..) (Nat.zero_le _)
  · rw [List.length_range']
    omega
  · exact map_string_of_placed fun k inside => string_of_placed fresh placed inside
  · rw [loop_fill ready.counter (by omega) words, List.range'_succ]
    exact loop_separator (s := { s with temparr := filled s.temparr b seg.length, tempCounter := seg.length }) read
      (show seg.length < 64 by omega) _ trace

variable (found) in
theorem loop_segment {done : List (List String)} {b : Nat} {s : Proc} {seg : List String} (short : tokens.length < 64)
    (ready : Ready tokens done b s) (placed : Placed tokens b seg) (separator : tokens[b + seg.length]? = some ";;")
    (unsplit : ";;" ∉ seg) (shape : Shape seg) (nonempty : seg ≠ []) (n : Nat) (trace : List Action) :
    ∃ child parent, Ready tokens (done ++ [seg]) (b + seg.length + 1) child ∧
      Ready tokens (done ++ [seg]) (b + seg.length + 1) parent ∧ parent.stdout = s.stdout ∧
      loop tokens found (List.range' b (seg.length + (n + 1))) s trace =
        forked found (action s.stdout seg) child parent
          (loop tokens found (List.range' (b + seg.length + 1) n)) trace := by
  obtain ⟨s', same, spelled, reached⟩ := loop_to_command found short ready placed separator unsplit n trace
  have kept : ∀ q ∈ s.freed, q < b + seg.length + 1 ∧ Spent tokens q := fun q gone =>
    ⟨by have := (ready.freed q gone).1; omega, (ready.freed q gone).2⟩
  have next := ready.next placed separator kept
  rw [reached]
  cases shape with
  | empty => exact absurd rfl nonempty
  | @cd dir word =>
    have pointer : s'.temparr 1 = some (b + 1) := by
      rw [same]
      rfl
    have dir_read : s'.string tokens (b + 1) = some dir := by
      rw [same]
      exact string_of_placed ready.fresh placed (k := 1) Nat.one_lt_two
    have unpiped : ">" ∉ ["cd", dir] := by simp [Ne.symm word]
    refine ⟨_, _, next s.stdout, next s.stdout, rfl, ?_⟩
    rw [command_cd spelled unpiped rfl (by rw [same]; rfl), pointer, Option.bind_some, dir_read, Option.bind_some, same]
    rfl
  | plain nonempty unpiped other =>
    refine ⟨_, _, next s.stdout, next s.stdout, rfl, ?_⟩
    rw [command_plain spelled nonempty unpiped other, action_plain _ unpiped other, same]
    rfl
  | @redirect before file started unpiped word other =>
    have length : (before ++ [">", file]).length = before.length + 2 := List.length_append
    have front : (List.range' b (before ++ [">", file]).length).take before.length = List.range' b before.length :=
      List.take_range'_of_length_ge (by omega)
    have gone := spent_words (fun q gone => (ready.freed q gone).2) placed unsplit front
    have last : ">" ∉ [file] := by simp [Ne.symm word]
    have ahead : ∀ i q, s'.temparr i = some q → i ≤ q := by
      rw [same]
      intro i q entry
      change Function.update (filled s.temparr b _) _ none i = some q at entry
      by_cases here : i = (before ++ [">", file]).length
      · rw [here, Function.update_self] at entry
        cases entry
      · rw [Function.update_of_ne here] at entry
        exact ready.ahead_filled entry
    refine ⟨_, _, next (some file), ready.next placed separator (fun q spent => ⟨?_, (gone q spent).2⟩) s.stdout, rfl, ?_⟩
    · rcases (gone q spent).1 with old | new
      · exact (kept q old).1
      · omega
    · rw [command_redirect short spelled last ahead, action_redirect _ unpiped other started, same]
      rfl

variable (found) in
theorem loop_empty {done : List (List String)} {b : Nat} {s : Proc} (short : tokens.length < 64)
    (ready : Ready tokens done b s) (separator : tokens[b]? = some ";;") (n : Nat) (trace : List Action) :
    ∃ s', Ready tokens (done ++ [[]]) (b + 1) s' ∧ s'.stdout = s.stdout ∧
      loop tokens found (List.range' b (n + 1)) s trace = loop tokens found (List.range' (b + 1) n) s' trace := by
  have placed : Placed tokens b [] := fun k inside => absurd inside (Nat.not_lt_zero k)
  obtain ⟨s', same, spelled, reached⟩ :=
    loop_to_command found short ready placed separator (by simp) n trace
  have kept : ∀ q ∈ s.freed, q < b + ([] : List String).length + 1 ∧ Spent tokens q := fun q gone =>
    ⟨Nat.lt_succ_of_lt (ready.freed q gone).1, (ready.freed q gone).2⟩
  refine ⟨_, ready.next placed separator kept s.stdout, rfl, ?_⟩
  rw [show n + 1 = ([] : List String).length + (n + 1) by simp, reached, command_empty spelled, same]
  rfl

/-! ## The last segment and the end of the line -/

theorem not_spent {dir : String} {q : Nat} (word : tokens[1]? = some dir)
    (named : dir ≠ ">") (separator : tokens[2]? = some ";;") (low : q < 2) : ¬Spent tokens q := by
  rintro ⟨r, above, pipe, unsplit⟩
  by_cases inside : r < 2
  · obtain rfl : r = 1 := by omega
    rw [word] at pipe
    exact named (Option.some.inj pipe)
  · exact unsplit 2 (by omega) (by omega) separator

theorem finish_cd {s : Proc} (first : s.string tokens 0 = some "cd") (long : tokens.length ≠ 2) (trace : List Action) :
    finish tokens found s trace = some trace := by
  rw [finish, first, Option.bind_eq_bind, Option.bind_some, if_pos rfl, if_pos long]

/-- The calls with which the parent goes on: the child has made more of them only when its own failed. -/
theorem forked_eq_some {a : Action} {child parent : Proc} {rest : Rest} {trace ended : List Action}
    (ran : forked found a child parent rest trace = some ended) :
    ∃ middle, (fails found trace a = false ∧ middle = trace ++ [a] ∨
        fails found trace a = true ∧ rest child (trace ++ [a]) = some middle) ∧
      rest parent middle = some ended := by
  obtain ⟨middle, first, second⟩ := Option.bind_eq_some_iff.mp ran
  refine ⟨middle, ?_, second⟩
  split at first
  next failed => exact Or.inr ⟨failed, first⟩
  next ran => exact Or.inl ⟨Bool.eq_false_iff.mpr ran, (Option.some.inj first).symm⟩

theorem forked_of_started {a : Action} {child parent : Proc} {rest : Rest} {trace : List Action}
    (started : fails found trace a = true → rest child (trace ++ [a]) = some (trace ++ [a])) :
    forked found a child parent rest trace = rest parent (trace ++ [a]) := by
  rw [forked]
  split_ifs with failed
  · rw [started failed, Option.bind_some]
  · rw [Option.bind_some]

/-- The code after the loop only adds calls, and one at least unless the line starts with `cd`. -/
theorem finish_extends {s : Proc} {trace ended : List Action} (ran : finish tokens found s trace = some ended) :
    trace <+: ended ∧ (tokens[0]? ≠ some "cd" → trace.length < ended.length) := by
  rw [finish] at ran
  obtain ⟨first, read, ran⟩ := Option.bind_eq_some_iff.mp ran
  have named := (Proc.string_eq_some_iff.mp read).2
  split_ifs at ran with cd two
  · rw [← Option.some.inj ran]
    exact ⟨List.prefix_rfl, fun other => absurd (cd ▸ named) other⟩
  · obtain ⟨dir, -, ended_at⟩ := Option.bind_eq_some_iff.mp ran
    rw [← Option.some.inj ended_at]
    exact ⟨List.prefix_append .., fun other => absurd (cd ▸ named) other⟩
  · obtain ⟨argv, -, ran⟩ := Option.bind_eq_some_iff.mp ran
    obtain ⟨calls, called, ended_at⟩ := Option.bind_eq_some_iff.mp ran
    have same : trace ++ [.exec argv s.stdout] = ended := by
      rw [← Option.some.inj ended_at]
      split at called <;> exact Option.some.inj called
    rw [← same]
    exact ⟨List.prefix_append .., fun _ => by rw [List.length_append]; exact Nat.lt_succ_self _⟩

/-- The last segment is run as it stands: nothing is left behind it, or only words that end up
behind its file name or that `cd` does not look at, and its `cd` is to the first of the line. -/
def Clean (tokens : List String) (done : List (List String)) (seg : List String) : Prop :=
  seg = [] ∨ ">" ∉ leftover done seg.length ∧
    if seg.head? = some "cd" then tokens[1]? = seg[1]? else ">" ∉ seg → leftover done seg.length = []

theorem leftover_piped {done : List (List String)} (shapes : ∀ seg ∈ done, Shape seg) {m : Nat}
    (piped : ">" ∈ leftover done m) : ∃ before file, leftover done m = before ++ [">", file] ∧ file ≠ ">" := by
  rw [leftover] at piped ⊢
  cases found : done.reverse.find? fun seg => m ≤ seg.length with
  | none => simp [found] at piped
  | some seg =>
    rw [found, Option.getD_some] at piped
    rw [Option.getD_some]
    cases shapes seg (List.mem_reverse.mp (List.mem_of_find?_eq_some found)) with
    | empty => simp at piped
    | cd word => simpa [Ne.symm word] using List.mem_of_mem_drop piped
    | plain nonempty unpiped other => exact absurd (List.mem_of_mem_drop piped) unpiped
    | @redirect before file nonempty unpiped word other =>
      by_cases inside : m ≤ before.length
      · exact ⟨before.drop m, file, List.drop_append_of_le_length inside, word⟩
      · obtain ⟨k, rfl⟩ := Nat.exists_eq_add_of_lt (Nat.lt_of_not_le inside)
        rw [Nat.add_assoc, List.drop_length_add_append, List.drop_succ_cons] at piped
        exact absurd (List.mem_singleton.mp (List.mem_of_mem_drop piped)).symm word

variable (found) in
theorem loop_to_last {done : List (List String)} {b : Nat} {s : Proc} {seg : List String} (short : tokens.length < 64)
    (ready : Ready tokens done b s) (placed : Placed tokens b seg) (inside : b + seg.length ≤ tokens.length)
    (unsplit : ";;" ∉ seg) (nonempty : seg ≠ []) (trace : List Action) :
    ∃ (s' : Proc) (behind : List Nat), s' = ⟨filled s.temparr b seg.length, seg.length, s.freed, s.stdout⟩ ∧
      loop tokens found (List.range' b seg.length) s trace =
        command tokens found (some 1) (finish tokens found) s' trace ∧
      ((∃ q ∈ s.freed, q ∈ behind) ∧ s'.temparr.read maxNumTokens = some (List.range' b seg.length ++ behind) ∧
          ">" ∈ leftover done seg.length ∨
        Spelled tokens s' (List.range' b seg.length ++ behind) (seg ++ leftover done seg.length)) := by
  have fresh := ready.fresh
  have words := words_of_placed fresh placed unsplit
  obtain ⟨c, held, read, ended⟩ := ready.left seg.length (List.length_pos_iff.mpr nonempty)
  have length : (List.range' c (leftover done seg.length).length).length = (leftover done seg.length).length :=
    List.length_range'
  have holds : Pointers.Holds (filled s.temparr b seg.length) 0
      (List.range' b seg.length ++ List.range' c (leftover done seg.length).length) := by
    refine holds_range' (i := 0) (fun j _ inside => by rw [filled, if_pos inside]) ?_ (Nat.zero_le _)
    exact (Pointers.holds_congr fun j low _ => by rw [filled, if_neg (by omega)]).mpr held
  have few : (List.range' b seg.length ++ List.range' c (leftover done seg.length).length).length < 64 := by
    rw [List.length_append, List.length_range', length]
    by_cases behind : (leftover done seg.length).length = 0
    · omega
    · -- the last word left stands at a position of the array not behind its own
      have last := held.apply_eq (j := (leftover done seg.length).length - 1) (by omega)
      rw [List.getElem?_eq_getElem (by omega)] at last
      have := ready.ahead _ _ last
      omega
  refine ⟨_, List.range' c (leftover done seg.length).length, rfl, loop_fill ready.counter (by omega) words trace 0, ?_⟩
  by_cases gone : ∃ q ∈ s.freed, q ∈ List.range' c (leftover done seg.length).length
  · refine Or.inl ⟨gone, Pointers.read_eq_some_iff.mpr ⟨holds, few⟩, ?_⟩
    obtain ⟨q, freed, member⟩ := gone
    rw [List.mem_range'_1] at member
    obtain ⟨r, above, pipe, whole⟩ := (ready.freed q freed).2
    have stop := ended (List.length_pos_iff.mp (by omega))
    have before : r < c + (leftover done seg.length).length := by
      by_contra outside
      exact whole _ (by omega) (by omega) stop
    have here := read (r - c) (by omega)
    rw [Nat.add_sub_cancel' (by omega), pipe] at here
    exact List.mem_of_getElem? here.symm
  · refine Or.inr ⟨holds, few, ?_⟩
    rw [List.map_append, List.map_append]
    refine congrArg₂ (· ++ ·) (map_string_of_placed fun k inside => string_of_placed fresh placed inside)
      (map_string_of_placed fun k inside => ?_)
    rw [← read k inside, Proc.string, if_neg fun freed => gone ⟨_, freed, List.mem_range'_1.mpr (by omega)⟩]

/-- A last segment that takes in a `>` left behind it makes another call. -/
theorem action_ne_longer {seg : List String} (shape : Shape seg) (before : List String) (file : String) :
    .exec (seg ++ before) (some file) ≠ action none seg := by
  cases shape with
  | empty => exact fun same => by cases (Action.exec.inj same).2
  | cd word => exact Action.noConfusion
  | plain nonempty unpiped other =>
    rw [action_plain _ unpiped other]
    exact fun same => by cases (Action.exec.inj same).2
  | redirect nonempty unpiped word other =>
    rw [action_redirect _ unpiped other nonempty]
    intro same
    have := congrArg List.length (Action.exec.inj same).1
    rw [List.append_assoc, List.length_append, List.length_append, List.length_cons] at this
    omega

variable (found) in
/-- The last segment makes a call, the one it asks for just when it is `Clean`. -/
theorem loop_last {done : List (List String)} {b : Nat} {s : Proc} {seg : List String} (short : tokens.length < 64)
    (ready : Ready tokens done b s) (shapes : ∀ seg ∈ done, Shape seg) (placed : Placed tokens b seg)
    (inside : b + seg.length ≤ tokens.length) (unsplit : ";;" ∉ seg) (shape : Shape seg) (nonempty : seg ≠ [])
    (trace : List Action) :
    loop tokens found (List.range' b seg.length) s trace = none ∧ (¬Spent tokens 1 → ¬Clean tokens done seg) ∨
      ∃ a child parent,
        (Clean tokens done seg → (∀ q ∈ child.freed, Spent tokens q) ∧ ∀ q ∈ parent.freed, Spent tokens q) ∧
        loop tokens found (List.range' b seg.length) s trace =
          forked found a child parent (finish tokens found) trace ∧
        (s.stdout = none → (a = action none seg ↔ Clean tokens done seg)) := by
  obtain ⟨s', behind, same, reached, left⟩ := loop_to_last found short ready placed inside unsplit nonempty trace
  rw [reached]
  have freed : ∀ q ∈ s'.freed, Spent tokens q := by
    rw [same]
    exact fun q gone => (ready.freed q gone).2
  have stdout : s'.stdout = s.stdout := by rw [same]
  have ahead : ∀ i q, s'.temparr i = some q → i ≤ q := by
    rw [same]
    intro i q entry
    exact ready.ahead_filled entry
  have unclean : ">" ∈ leftover done seg.length → ¬Clean tokens done seg := by
    rintro piped (empty | ⟨unpiped, -⟩)
    · exact nonempty empty
    · exact unpiped piped
  rcases left with ⟨⟨q, gone, member⟩, read, piped⟩ | spelled
  · refine Or.inl ⟨command_freed read (List.mem_append_right _ member) ?_, fun _ => unclean piped⟩
    rw [same]
    exact gone
  by_cases piped : ">" ∈ leftover done seg.length
  · obtain ⟨before, file, ended, word⟩ := leftover_piped shapes piped
    rw [ended, ← List.append_assoc] at spelled
    refine Or.inr ⟨_, _, _, fun clean => absurd clean (unclean piped),
      command_redirect short spelled (by simp [Ne.symm word]) ahead, fun _ => ?_⟩
    exact iff_of_false (action_ne_longer shape before file) (unclean piped)
  have whole : ∀ {front : List String}, ">" ∉ front → ">" ∉ front ++ leftover done seg.length := fun unpiped member =>
    (List.mem_append.mp member).elim unpiped piped
  cases shape with
  | empty => exact absurd rfl nonempty
  | @cd dir word =>
    have clean : Clean tokens done ["cd", dir] ↔ tokens[1]? = some dir :=
      (or_iff_right nonempty).trans ((and_iff_right piped).trans (iff_of_eq (if_pos rfl)))
    rw [command_cd spelled (whole (by simp [Ne.symm word])) rfl (by rw [same]; rfl), Option.bind_some, clean]
    cases read : s'.string tokens 1 with
    | none =>
      refine Or.inl ⟨rfl, fun kept target => ?_⟩
      rw [Proc.string, if_neg fun gone => kept (freed 1 gone), target] at read
      cases read
    | some target =>
      refine Or.inr ⟨.chdir target, s', s', fun _ => ⟨freed, freed⟩, rfl, fun _ => ?_⟩
      rw [(Proc.string_eq_some_iff.mp read).2, action_cd, Action.chdir.injEq, Option.some.injEq]
  | plain nonempty unpiped other =>
    have clean : Clean tokens done seg ↔ leftover done seg.length = [] := by simp [Clean, piped, nonempty, unpiped, other]
    have started : (seg ++ leftover done seg.length).head? ≠ some "cd" := by
      rwa [List.head?_append_of_ne_nil _ nonempty]
    refine Or.inr ⟨_, s', s', fun _ => ⟨freed, freed⟩,
      command_plain spelled (List.append_ne_nil_of_left_ne_nil nonempty _) (whole unpiped) started, fun quiet => ?_⟩
    rw [clean, action_plain _ unpiped other, stdout, quiet, Action.exec.injEq]
    simp
  | @redirect before file started unpiped word other =>
    have clean : Clean tokens done (before ++ [">", file]) := by
      refine Or.inr ⟨piped, ?_⟩
      rw [List.head?_append_of_ne_nil _ started, if_neg other]
      exact fun absent => absurd (by simp) absent
    have front : (List.range' b (before ++ [">", file]).length ++ behind).take before.length =
        List.range' b before.length := by
      rw [List.length_append, List.take_append_of_le_length (by simp)]
      exact List.take_range'_of_length_ge (Nat.le_add_right ..)
    have gone := spent_words freed placed unsplit front
    rw [List.append_assoc] at spelled
    refine Or.inr ⟨_, _, _, fun _ => ⟨?_, ?_⟩, command_redirect short spelled ?_ ahead, fun _ => ?_⟩
    · exact freed
    · exact fun q spent => (gone q spent).2
    · exact @whole [file] (by simp [Ne.symm word])
    · rw [action_redirect _ unpiped other started]
      exact iff_of_true rfl clean

/-! ## Whole lines -/

def commands (tokens : List String) : List (List String) := (tokens.splitOn ";;").filter (· ≠ [])

theorem commands_append {seg rest : List String} (unsplit : ";;" ∉ seg) :
    commands (seg ++ ";;" :: rest) = if seg = [] then commands rest else seg :: commands rest := by
  rw [commands, List.splitOn_append_cons_self_of_not_mem unsplit, List.filter_cons]
  by_cases empty : seg = [] <;> simp [empty, commands]

theorem commands_last {seg : List String} (unsplit : ";;" ∉ seg) : commands seg = if seg = [] then [] else [seg] := by
  rw [commands, List.splitOn_eq_singleton unsplit, List.filter_cons]
  by_cases empty : seg = [] <;> simp [empty]

theorem loop_last_empty {done : List (List String)} {b : Nat} {s : Proc} (ready : Ready tokens done b s)
    (trace : List Action) :
    loop tokens found (List.range' b ([] : List String).length) s trace = finish tokens found s trace :=
  command_empty ⟨ready.first, Nat.zero_lt_succ 63, rfl⟩

theorem placed_last {pre seg : List String} (whole : tokens = pre ++ seg) :
    Placed tokens pre.length seg ∧ pre.length + seg.length ≤ tokens.length := by
  refine ⟨?_, Nat.le_of_eq (by rw [whole, List.length_append])⟩
  have placed := placed_append pre seg []
  rwa [List.append_nil, ← whole] at placed

theorem placed_more {pre seg rest : List String} (whole : tokens = pre ++ (seg ++ ";;" :: rest)) :
    Placed tokens pre.length seg ∧ tokens[pre.length + seg.length]? = some ";;" ∧
      tokens = (pre ++ (seg ++ [";;"])) ++ rest ∧ (pre ++ (seg ++ [";;"])).length = pre.length + seg.length + 1 := by
  refine ⟨whole ▸ placed_append pre seg _, ?_, by rw [whole]; simp, by simp [Nat.add_assoc]⟩
  rw [whole, List.getElem?_append_right (Nat.le_add_right ..), Nat.add_sub_cancel_left,
    List.getElem?_append_right (Nat.le_refl _), Nat.sub_self]
  rfl

/-- Every command of the line makes a call, and the whole line one more unless it starts with `cd`. -/
theorem loop_length (short : tokens.length < 64) {rest : List String} :
    ∀ {pre : List String} {done : List (List String)} {s : Proc} {trace ended : List Action}, tokens = pre ++ rest →
      Ready tokens done pre.length s → (∀ seg ∈ done, Shape seg) → (∀ seg ∈ rest.splitOn ";;", Shape seg) →
      loop tokens found (List.range' pre.length rest.length) s trace = some ended →
      trace.length + (commands rest).length ≤ ended.length ∧
        (tokens[0]? ≠ some "cd" → trace.length + (commands rest).length < ended.length) := by
  induction rest using segments_induction ";;" with
  | last seg unsplit =>
    intro pre done s trace ended whole ready shapes wf ran
    rw [List.splitOn_eq_singleton unsplit] at wf
    obtain ⟨placed, inside⟩ := placed_last whole
    rw [commands_last unsplit]
    by_cases empty : seg = []
    · subst empty
      rw [loop_last_empty ready] at ran
      obtain ⟨grown, more⟩ := finish_extends ran
      exact ⟨grown.length_le, more⟩
    · rw [if_neg empty, List.length_singleton]
      rcases loop_last found short ready shapes placed inside unsplit (wf seg (List.mem_singleton_self seg))
        empty trace with ⟨stuck, -⟩ | ⟨a, child, parent, -, called, -⟩
      · rw [stuck] at ran
        cases ran
      · rw [called] at ran
        obtain ⟨middle, first, last⟩ := forked_eq_some ran
        have counted : trace.length + 1 ≤ middle.length := by
          rcases first with ⟨-, rfl⟩ | ⟨-, again⟩
          · exact Nat.le_of_eq (by rw [List.length_append, List.length_singleton])
          · simpa using (finish_extends again).1.length_le
        obtain ⟨grown, more⟩ := finish_extends last
        exact ⟨Nat.le_trans counted grown.length_le, fun other => Nat.lt_of_le_of_lt counted (more other)⟩
  | more seg rest unsplit ih =>
    intro pre done s trace ended whole ready shapes wf ran
    rw [List.splitOn_append_cons_self_of_not_mem unsplit] at wf
    obtain ⟨shape, later⟩ := List.forall_mem_cons.mp wf
    obtain ⟨placed, separator, cut, length⟩ := placed_more whole
    have shapes' : ∀ seg' ∈ done ++ [seg], Shape seg' := by
      simpa [or_imp, forall_and] using And.intro shapes shape
    rw [commands_append unsplit]
    by_cases empty : seg = []
    · subst empty
      obtain ⟨s', ready', -, same⟩ := loop_empty found short ready separator rest.length trace
      have length : (pre ++ ([] ++ [";;"])).length = pre.length + 1 := length
      rw [List.nil_append, List.length_cons, same] at ran
      rw [if_pos rfl]
      rw [← length] at ready' ran
      exact ih cut ready' shapes' later ran
    · obtain ⟨child, parent, child_ready, parent_ready, -, called⟩ :=
        loop_segment found short ready placed separator unsplit shape empty rest.length trace
      rw [List.length_append, List.length_cons, called] at ran
      rw [← length] at child_ready parent_ready ran
      obtain ⟨middle, first, last⟩ := forked_eq_some ran
      have counted : trace.length + 1 ≤ middle.length := by
        rcases first with ⟨-, rfl⟩ | ⟨-, again⟩
        · exact Nat.le_of_eq (by rw [List.length_append, List.length_singleton])
        · have := (ih cut child_ready shapes' later again).1
          rw [List.length_append, List.length_singleton] at this
          omega
      have rest_of := ih cut parent_ready shapes' later last
      rw [if_neg empty, List.length_cons]
      exact ⟨by omega, fun other => by have := rest_of.2 other; omega⟩

/-- Every `execvp` but that of the last call finds its command. -/
def Starts (found : List Action → Bool) (trace calls : List Action) : Prop :=
  ∀ before argv stdout behind, calls = before ++ .exec argv stdout :: behind → behind ≠ [] →
    found (trace ++ before ++ [.exec argv stdout]) = true

theorem starts_cons {trace calls : List Action} {a : Action} :
    Starts found trace (a :: calls) ↔ (calls ≠ [] → fails found trace a = false) ∧ Starts found (trace ++ [a]) calls := by
  constructor
  · refine fun starts => ⟨fun more => ?_, fun before argv stdout behind same more => ?_⟩
    · cases a with
      | chdir dir => rfl
      | exec argv stdout =>
        have := starts [] argv stdout calls rfl more
        rw [List.append_nil] at this
        rw [fails, this]
        rfl
    · rw [List.append_assoc trace [a] before]
      exact starts (a :: before) argv stdout behind (by rw [same]; rfl) more
  · rintro ⟨first, later⟩ before argv stdout behind same more
    cases before with
    | nil =>
      obtain ⟨rfl, rfl⟩ := List.cons_eq_cons.mp same
      simpa [fails] using first more
    | cons b before =>
      obtain ⟨rfl, rfl⟩ := List.cons_eq_cons.mp same
      have := later before argv stdout behind rfl more
      rwa [List.append_assoc trace [a] before] at this

theorem starts_single {trace : List Action} (a : Action) : Starts found trace [a] :=
  starts_cons.mpr ⟨fun more => absurd rfl more, fun before argv stdout behind same => by simp at same⟩

theorem getLastD_splitOn_append {seg rest : List String} (unsplit : ";;" ∉ seg) :
    ((seg ++ ";;" :: rest).splitOn ";;").getLastD [] = (rest.splitOn ";;").getLastD [] ∧
      ((seg ++ ";;" :: rest).splitOn ";;").dropLast = seg :: (rest.splitOn ";;").dropLast := by
  have nonempty := List.splitOn_ne_nil ";;" rest
  rw [List.splitOn_append_cons_self_of_not_mem unsplit]
  cases segs : rest.splitOn ";;" with
  | nil => exact absurd segs nonempty
  | cons first more => exact ⟨rfl, rfl⟩

theorem getLastD_of_idle {rest : List String} (idle : commands rest = []) : (rest.splitOn ";;").getLastD [] = [] := by
  induction rest using segments_induction ";;" with
  | last seg unsplit =>
    rw [commands_last unsplit] at idle
    rw [List.splitOn_eq_singleton unsplit]
    by_contra nonempty
    rw [if_neg (by exact nonempty)] at idle
    cases idle
  | more seg rest unsplit ih =>
    rw [commands_append unsplit] at idle
    rw [(getLastD_splitOn_append unsplit).1]
    split_ifs at idle
    exact ih idle

/-- A command and the calls after it: where it does not find its program its child goes on with
them as well as the parent, which is too many unless there are none. -/
theorem forked_eq_iff {a : Action} {child parent : Proc} {rest : Rest} {trace calls : List Action} {asked : Prop}
    (going : rest parent (trace ++ [a]) = some (trace ++ [a] ++ calls) ↔ Starts found (trace ++ [a]) calls ∧ asked)
    (idle : calls = [] → rest child (trace ++ [a]) = some (trace ++ [a]))
    (longer : calls ≠ [] → ∀ middle ended, rest child (trace ++ [a]) = some middle → rest parent middle = some ended →
      (trace ++ [a] ++ calls).length < ended.length) :
    forked found a child parent rest trace = some (trace ++ [a] ++ calls) ↔ Starts found trace (a :: calls) ∧ asked := by
  rw [starts_cons, and_assoc]
  by_cases failed : fails found trace a = true
  · by_cases nothing : calls = []
    · rw [forked_of_started fun _ => idle nothing, going]
      exact (and_iff_right fun more => absurd nothing more).symm
    · refine iff_of_false (fun ran => ?_) fun ⟨started, _⟩ => by rw [failed] at started; cases started nothing
      obtain ⟨middle, ⟨started, -⟩ | ⟨-, again⟩, last⟩ := forked_eq_some ran
      · rw [failed] at started
        cases started
      · exact absurd (longer nothing middle _ again last) (Nat.lt_irrefl _)
  · rw [forked_of_started fun fail => absurd fail failed, going]
    exact (and_iff_right fun _ => Bool.eq_false_iff.mpr failed).symm

theorem loop_eq_iff (short : tokens.length < 64) {dir : String} (cd : tokens[0]? = some "cd")
    (word : tokens[1]? = some dir) (named : dir ≠ ">") (first_separator : tokens[2]? = some ";;") {rest : List String} :
    ∀ {pre : List String} {done : List (List String)} {s : Proc}, tokens = pre ++ rest →
      Ready tokens done pre.length s → (∀ seg ∈ done, Shape seg) → (∀ seg ∈ rest.splitOn ";;", Shape seg) →
      (s.stdout = none ∨ commands rest = []) → ∀ trace : List Action,
      (loop tokens found (List.range' pre.length rest.length) s trace =
          some (trace ++ (commands rest).map (action none)) ↔
        Starts found trace ((commands rest).map (action none)) ∧
          Clean tokens (done ++ (rest.splitOn ";;").dropLast) ((rest.splitOn ";;").getLastD [])) := by
  have unspent : ∀ q < 2, ¬Spent tokens q := fun q low => not_spent word named first_separator low
  have ended : ∀ {s : Proc}, (∀ q ∈ s.freed, Spent tokens q) → ∀ trace, finish tokens found s trace = some trace :=
    fun spent trace => finish_cd
      (Proc.string_eq_some_iff.mpr ⟨fun gone => unspent 0 Nat.two_pos (spent 0 gone), cd⟩)
      (fun two => by rw [List.getElem?_eq_none (Nat.le_of_eq two)] at first_separator; cases first_separator) trace
  induction rest using segments_induction ";;" with
  | last seg unsplit =>
    intro pre done s whole ready shapes wf quiet trace
    obtain ⟨placed, inside⟩ := placed_last whole
    rw [List.splitOn_eq_singleton unsplit] at wf ⊢
    rw [commands_last unsplit] at quiet ⊢
    change _ ↔ _ ∧ Clean tokens (done ++ []) seg
    rw [List.append_nil]
    by_cases empty : seg = []
    · subst empty
      rw [loop_last_empty ready, ended fun q gone => (ready.freed q gone).2]
      rw [if_pos rfl, List.map_nil, List.append_nil]
      exact iff_of_true rfl ⟨fun before _ _ _ same => by simp at same, Or.inl rfl⟩
    · have silent : s.stdout = none := quiet.resolve_right (by rw [if_neg empty]; simp)
      rw [if_neg empty, List.map_singleton, and_iff_right (starts_single _)]
      rcases loop_last found short ready shapes placed inside unsplit (wf seg (List.mem_singleton_self seg))
        empty trace with ⟨stuck, unclean⟩ | ⟨a, child, parent, spent, called, asked⟩
      · rw [stuck]
        exact iff_of_false (fun ran => by cases ran) (unclean (unspent 1 Nat.one_lt_two))
      · rw [called, ← asked silent]
        constructor
        · intro ran
          obtain ⟨middle, first, last⟩ := forked_eq_some ran
          have grown : trace ++ [a] <+: middle := by
            rcases first with ⟨-, rfl⟩ | ⟨-, again⟩
            · exact List.prefix_rfl
            · exact (finish_extends again).1
          have same := (grown.trans (finish_extends last).1).eq_of_length (by simp)
          exact List.singleton_inj.mp (List.append_cancel_left same)
        · intro same
          obtain ⟨child_spent, parent_spent⟩ := spent ((asked silent).mp same)
          rw [forked_of_started fun _ => ended child_spent _, ended parent_spent, same]
  | more seg rest unsplit ih =>
    intro pre done s whole ready shapes wf quiet trace
    rw [(getLastD_splitOn_append unsplit).1, (getLastD_splitOn_append unsplit).2,
      List.append_cons done seg (rest.splitOn ";;").dropLast]
    rw [List.splitOn_append_cons_self_of_not_mem unsplit] at wf
    obtain ⟨shape, later⟩ := List.forall_mem_cons.mp wf
    obtain ⟨placed, separator, cut, length⟩ := placed_more whole
    have shapes' : ∀ seg' ∈ done ++ [seg], Shape seg' := by
      simpa [or_imp, forall_and] using And.intro shapes shape
    rw [commands_append unsplit] at quiet ⊢
    by_cases empty : seg = []
    · subst empty
      obtain ⟨s', ready', stdout, same⟩ := loop_empty found short ready separator rest.length trace
      have length : (pre ++ ([] ++ [";;"])).length = pre.length + 1 := length
      rw [List.nil_append, List.length_cons, same]
      rw [if_pos rfl] at quiet ⊢
      rw [← length] at ready' ⊢
      exact ih cut ready' shapes' later (stdout ▸ quiet) trace
    · have silent : s.stdout = none := quiet.resolve_right (by rw [if_neg empty]; simp)
      obtain ⟨child, parent, child_ready, parent_ready, stdout, called⟩ :=
        loop_segment found short ready placed separator unsplit shape empty rest.length trace
      rw [← length] at child_ready parent_ready called
      rw [List.length_append, List.length_cons, called, silent, if_neg empty, List.map_cons,
        List.append_cons trace (action none seg) ((commands rest).map (action none))]
      apply forked_eq_iff (ih cut parent_ready shapes' later (Or.inl (stdout.trans silent)) (trace ++ [action none seg]))
      · -- the child finds nothing more to run
        intro none_left
        have idle : commands rest = [] := List.map_eq_nil_iff.mp none_left
        have nothing := ih cut child_ready shapes' later (Or.inr idle) (trace ++ [action none seg])
        rw [none_left, List.append_nil] at nothing
        exact nothing.mpr ⟨fun before _ _ _ same => by simp at same, Or.inl (getLastD_of_idle idle)⟩
      · -- the child runs the rest as well as the parent
        intro more middle ended again last
        have child_calls := (loop_length short cut child_ready shapes' later again).1
        have parent_calls := (loop_length short cut parent_ready shapes' later last).1
        have positive : 0 < (commands rest).length :=
          List.length_pos_iff.mpr fun idle => more (List.map_eq_nil_iff.mpr idle)
        rw [List.length_append, List.length_map]
        omega

theorem main_eq_loop {first : String} (head : tokens.head? = some first) (staying : tokens.head? ≠ some "exit")
    (split : ";;" ∈ tokens) {calls : List Action} :
    main tokens found = some (.acted calls) ↔
      loop tokens found (List.range' 0 tokens.length) Proc.initial [] = some calls := by
  have other : first ≠ "exit" := fun same => staying (same ▸ head)
  rw [main, head, Option.bind_eq_bind, Option.bind_some, if_neg other, if_pos split, List.range_eq_range']
  cases loop tokens found (List.range' 0 tokens.length) Proc.initial [] <;> simp

/-- On a line with `;;` the calls made are those its segments ask for just when the line
starts with `cd`, every `execvp` but that of the last command finds its program, and the
last segment is clean of what earlier ones left. -/
theorem main_runs_commands_iff (tokens : List String) (found : List Action → Bool) (few : tokens.length < 64)
    (split : ";;" ∈ tokens) (staying : tokens.head? ≠ some "exit") (wf : ∀ seg ∈ tokens.splitOn ";;", WellFormed seg) :
    main tokens found = some (.acted ((commands tokens).map (action none))) ↔
      tokens.head? = some "cd" ∧ Starts found [] ((commands tokens).map (action none)) ∧
        Clean tokens (tokens.splitOn ";;").dropLast ((tokens.splitOn ";;").getLastD []) := by
  have shapes : ∀ seg ∈ tokens.splitOn ";;", Shape seg := fun seg member => (wf seg member).shape
  have none_done : ∀ seg ∈ ([] : List (List String)), Shape seg := fun seg member => by cases member
  obtain ⟨seg, rest, whole, unsplit⟩ := List.eq_append_cons_of_mem split
  obtain ⟨first, head⟩ : ∃ first, tokens.head? = some first := by
    rw [whole]
    cases seg <;> exact ⟨_, rfl⟩
  have start : tokens = [] ++ tokens := rfl
  rw [main_eq_loop head staying split]
  by_cases cd : tokens.head? = some "cd"
  · obtain ⟨dir, word, same⟩ : ∃ dir, dir ≠ ">" ∧ seg = ["cd", dir] := by
      rw [whole, List.splitOn_append_cons_self_of_not_mem unsplit] at shapes
      rw [whole] at cd
      cases shapes seg List.mem_cons_self with
      | empty => simp at cd
      | @cd dir word => exact ⟨dir, word, rfl⟩
      | plain nonempty unpiped other =>
        rw [List.head?_append_of_ne_nil _ nonempty] at cd
        exact absurd cd other
      | redirect nonempty unpiped word other =>
        rw [List.append_assoc, List.head?_append_of_ne_nil _ nonempty] at cd
        exact absurd cd other
    have at_zero : tokens[0]? = some "cd" := by rw [← List.head?_eq_getElem?, cd]
    have second : tokens[1]? = some dir := by rw [whole, same]; rfl
    have third : tokens[2]? = some ";;" := by rw [whole, same]; rfl
    rw [and_iff_right cd]
    exact loop_eq_iff few at_zero second word third start ready_initial none_done shapes (Or.inl rfl) []
  · refine iff_of_false (fun ran => ?_) fun led => cd led.1
    rw [List.head?_eq_getElem?] at cd
    have counted := (loop_length few start ready_initial none_done shapes ran).2 cd
    rw [List.length_map, List.length_nil, Nat.zero_add] at counted
    exact Nat.lt_irrefl _ counted

theorem main_runs_commands_redirected :
    main ["cd", "a", ";;", "ls", ">", "f"] (fun _ => true) = some (.acted [.chdir "a", .exec ["ls"] (some "f")]) := by
  have cut : ["cd", "a", ";;", "ls", ">", "f"].splitOn ";;" = [["cd", "a"], ["ls", ">", "f"]] := by decide
  have wf : ∀ seg ∈ ["cd", "a", ";;", "ls", ">", "f"].splitOn ";;", WellFormed seg := by
    rw [cut]
    exact List.forall_mem_cons.mpr ⟨⟨by decide, by decide, by decide⟩,
      List.forall_mem_cons.mpr ⟨⟨by decide, by decide, by decide⟩, fun seg member => by cases member⟩⟩
  have clean : Clean ["cd", "a", ";;", "ls", ">", "f"] (["cd", "a", ";;", "ls", ">", "f"].splitOn ";;").dropLast
      ((["cd", "a", ";;", "ls", ">", "f"].splitOn ";;").getLastD []) := by
    rw [cut]
    exact Or.inr (by decide)
  exact (main_runs_commands_iff ["cd", "a", ";;", "ls", ">", "f"] (fun _ => true) (by decide) (by decide) (by decide)
    wf).mpr ⟨by decide, fun _ _ _ _ _ _ => rfl, clean⟩

/-- The whole line is run as a command once more. -/
theorem main_runs_whole_line :
    main ["ls", ";;", "pwd"] (fun _ => true) =
        some (.acted [.exec ["ls"] none, .exec ["pwd"] none, .exec ["ls", ";;", "pwd"] none]) ∧
      (commands ["ls", ";;", "pwd"]).map (action none) = [.exec ["ls"] none, .exec ["pwd"] none] := by
  decide

end

end OsLabs.Shell.Turtle
