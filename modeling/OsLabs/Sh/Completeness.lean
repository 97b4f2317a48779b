import OsLabs.Sh.Grammar

/-! The parser finds every command that the tokens of a line derive. -/

set_option autoImplicit false

namespace OsLabs.Sh

open OsLabs.Lib

variable {buf : List Char} {s : Nat} {rest : List Token}

theorem front_redir {t f : Token} (fits : (Item.redir t f).Fits) (ts : List Token) :
    (front (t :: ts)).any (· ∈ ['<', '>']) = true := by
  obtain ⟨op, -⟩ := fits
  simp only [List.mem_cons, List.not_mem_nil, or_false] at op
  rcases op with op | op | op <;> simp [front, op]

theorem parseredirs_redirs {items : List Item} (n : Nat) (redirs : List (Redir (Nat × Nat))) {t f : Token}
    (ahead : lex buf s = (Item.redir t f :: items).flatMap Item.tokens ++ rest) (fits : (Item.redir t f).Fits) :
    ∃ s', lex buf s' = items.flatMap Item.tokens ++ rest ∧
      parseredirs buf (n + 1) redirs s = parseredirs buf n (redirs ++ (Item.redir t f).redirection.toList) s' := by
  rw [List.flatMap_cons] at ahead
  rcases parseredirs_cases buf n redirs s with ⟨clear, -⟩ | ⟨t', f', s', -, first, goes⟩ | ⟨-, other, -⟩
  · rw [ahead, Item.tokens, List.cons_append, List.cons_append, front_redir fits] at clear
    cases clear
  · rw [first.tokens] at ahead
    obtain ⟨rfl, rfl, same⟩ : t' = t ∧ f' = f ∧ lex buf s' = items.flatMap Item.tokens ++ rest := by
      simpa [Item.tokens] using ahead
    exact ⟨s', same, goes⟩
  · exact absurd fits (other t f _ ahead)

theorem parseredirs_stops (n : Nat) (redirs : List (Redir (Nat × Nat)))
    (clear : (front (lex buf s)).any (· ∈ ['<', '>']) = false) :
    parseredirs buf (n + 1) redirs s = .ok (redirs, skip buf s) := by
  rcases parseredirs_cases buf n redirs s with ⟨-, stops⟩ | ⟨t, f, s', fits, first, -⟩ | ⟨found, -⟩
  · exact stops
  · rw [first.tokens] at clear
    exact absurd (front_redir fits _) (by rw [List.cons_append] at clear; rw [clear]; exact Bool.false_ne_true)
  · rw [clear] at found
    cases found

def enders : Level → List Char
  | .line => [')']
  | .pipe => [')', '&', ';']
  | .exec => [')', '&', ';', '|']

def Stops (level : Level) (rest : List Token) : Prop := ∀ t ∈ rest.head?, t.tok ∈ enders level

theorem Stops.away {level : Level} {c : Char} (stops : Stops level rest) (apart : c ∉ enders level) :
    ∀ t ∈ rest.head?, t.tok ≠ c := by
  rintro t first rfl
  exact apart (stops t first)

theorem Stops.clear (stops : Stops .exec rest) : (front rest).any (· ∈ ['<', '>']) = false := by
  cases rest with
  | nil => rfl
  | cons t ts =>
    have sign := stops t rfl
    simp only [enders, List.mem_cons, List.not_mem_nil, or_false] at sign
    rcases sign with sign | sign | sign | sign <;> simp [front, sign]

theorem Stops.exec_of_pipe (stops : Stops .pipe rest) : Stops .exec rest := by
  intro t first
  have sign := stops t first
  simp only [enders, List.mem_cons, List.not_mem_nil, or_false] at sign ⊢
  tauto

theorem stops_amps {bs : List Token} (amps : ∀ b ∈ bs, b.tok = '&') (stops : Stops .pipe rest) :
    Stops .pipe (bs ++ rest) := by
  cases bs with
  | nil => exact stops
  | cons b bs =>
    rintro t ⟨⟩
    rw [amps b List.mem_cons_self]
    decide

theorem Stops.pipe_of_line (stops : Stops .line rest) : Stops .pipe rest := by
  intro t first
  have sign := stops t first
  simp only [enders, List.mem_cons, List.not_mem_nil, or_false] at sign ⊢
  exact .inl sign

theorem parseredirs_bare {items : List Item} {n : Nat} (redirs : List (Redir (Nat × Nat)))
    (fit : ∀ i ∈ items, i.Fits) (bare : items.filterMap Item.argument = [])
    (ahead : lex buf s = items.flatMap Item.tokens ++ rest) (clear : (front rest).any (· ∈ ['<', '>']) = false)
    (enough : items.length < n) : ∃ s', lex buf s' = rest ∧
      parseredirs buf n redirs s = .ok (redirs ++ items.filterMap Item.redirection, s') := by
  induction items generalizing n redirs s with
  | nil =>
    rw [List.flatMap_nil, List.nil_append] at ahead
    cases n with
    | zero => cases enough
    | succ n =>
      rw [parseredirs_stops n redirs (by rw [ahead]; exact clear), List.filterMap_nil, List.append_nil]
      exact ⟨skip buf s, by rw [lex_skip, ahead], rfl⟩
  | cons item items ih =>
    cases item with
    | arg w => simp at bare
    | redir t f =>
      cases n with
      | zero => cases enough
      | succ n =>
        obtain ⟨s', same, goes⟩ := parseredirs_redirs n redirs ahead (fit _ List.mem_cons_self)
        obtain ⟨r, taken⟩ := Item.exists_redirection t f
        obtain ⟨s'', reached, result⟩ := ih (redirs ++ (Item.redir t f).redirection.toList)
          (fun i member => fit i (List.mem_cons_of_mem _ member)) bare same (Nat.lt_of_succ_lt_succ enough)
        refine ⟨s'', reached, ?_⟩
        rw [goes, result]
        simp [taken]

theorem parseargs_stops (n : Nat) (argv : List (Nat × Nat)) (redirs : List (Redir (Nat × Nat)))
    (stops : Stops .exec (lex buf s)) : ∃ s', lex buf s' = lex buf s ∧
      parseargs buf (n + 1) argv redirs s = .ok (wrap redirs (.exec argv), s') := by
  rcases parseargs_cases buf n argv redirs s with
    ⟨-, s', across, result⟩ | ⟨w, s', word, across, -⟩ | ⟨⟨t, first, outside, -⟩, -⟩
  · exact ⟨s', across.tokens.symm, result⟩
  · exact absurd word (stops.away (by decide) w (by rw [across.tokens]; rfl))
  · have sign := stops t first
    simp only [enders, List.mem_cons, List.not_mem_nil, or_false, not_or] at sign outside
    tauto

theorem parseitems {items : List Item} {n m : Nat} (argv : List (Nat × Nat)) (redirs : List (Redir (Nat × Nat)))
    (fit : ∀ i ∈ items, i.Fits) (ahead : lex buf s = items.flatMap Item.tokens ++ rest) (stops : Stops .exec rest)
    (few : (argv ++ items.filterMap Item.argument).length < MAXARGS) (some_n : items.length < n)
    (some_m : items.length < m) :
    ∃ s', lex buf s' = rest ∧
      (parseredirs buf n redirs s >>= fun x => parseargs buf m argv x.1 x.2) =
        .ok (wrap (redirs ++ items.filterMap Item.redirection) (.exec (argv ++ items.filterMap Item.argument)),
          s') := by
  induction items generalizing n m argv redirs s with
  | nil =>
    rw [List.flatMap_nil, List.nil_append] at ahead
    cases n with
    | zero => cases some_n
    | succ n =>
      cases m with
      | zero => cases some_m
      | succ m =>
        rw [parseredirs_stops n redirs (by rw [ahead]; exact stops.clear)]
        obtain ⟨s', same, result⟩ := parseargs_stops m argv redirs
          (show Stops .exec (lex buf (skip buf s)) by rwa [lex_skip, ahead])
        refine ⟨s', by rw [same, lex_skip, ahead], ?_⟩
        rw [List.filterMap_nil, List.filterMap_nil, List.append_nil, List.append_nil]
        exact result
  | cons item items ih =>
    have fitRest := fun i member => fit i (List.mem_cons_of_mem _ member)
    have fits := fit item List.mem_cons_self
    rw [List.length_cons] at some_n some_m
    cases n with
    | zero => cases some_n
    | succ n =>
      cases item with
      | redir t f =>
        obtain ⟨s', same, goes⟩ := parseredirs_redirs n redirs ahead fits
        obtain ⟨r, taken⟩ := Item.exists_redirection t f
        obtain ⟨s'', reached, result⟩ := ih argv (redirs ++ (Item.redir t f).redirection.toList)
          fitRest same few (Nat.lt_of_succ_lt_succ some_n)
          (Nat.lt_of_succ_lt some_m)
        refine ⟨s'', reached, ?_⟩
        rw [goes, result]
        simp [taken, List.filterMap_cons]
      | arg w =>
        have word : w.tok = 'a' := fits
        rw [List.flatMap_cons, Item.tokens, List.append_assoc, List.singleton_append] at ahead
        rw [parseredirs_stops n redirs (by rw [ahead]; simp [front, word])]
        cases m with
        | zero => cases some_m
        | succ m =>
          change ∃ s', lex buf s' = rest ∧ parseargs buf (m + 1) argv redirs (skip buf s) = _
          rcases parseargs_cases buf m argv redirs (skip buf s) with
            ⟨other, -⟩ | ⟨w', s', -, first, -, goes⟩ | ⟨⟨t, first, -, many⟩, -⟩
          · exact absurd word (other w (by rw [lex_skip, ahead]; rfl))
          · have same := first.tokens
            rw [lex_skip, ahead, List.singleton_append] at same
            obtain ⟨rfl, left⟩ := List.cons.inj same
            rw [goes]
            obtain ⟨s'', reached, result⟩ := ih (argv ++ [(w.q, w.eq)]) redirs fitRest left.symm
              (by simpa using few) (Nat.lt_of_succ_lt_succ some_m) (Nat.lt_of_succ_lt_succ some_m)
            refine ⟨s'', reached, ?_⟩
            rw [result]
            simp [List.filterMap_cons]
          · rw [lex_skip, ahead] at first
            obtain rfl := Option.some.inj first
            have below := many word
            simp at few
            omega

theorem symbol_stops {c : Char} (among : c ∈ symbols) (other : c ≠ '>')
    (away : ∀ t ∈ (lex buf s).head?, t.tok ≠ c) : peek buf [c] s = (false, skip buf s) := by
  rcases symbol_cases among other buf s with ⟨t, here, across, -⟩ | ⟨-, result⟩
  · exact absurd here (away t (by rw [across.tokens]; rfl))
  · exact result

theorem symbol_goes {t : Token} {c : Char} (among : c ∈ symbols) (other : c ≠ '>')
    (ahead : lex buf s = t :: rest) (here : t.tok = c) :
    peek buf [c] s = (true, skip buf s) ∧ lex buf (gettoken buf (skip buf s)).2 = rest := by
  rcases symbol_cases among other buf s with ⟨t', -, across, result⟩ | ⟨away, -⟩
  · have same := across.tokens
    rw [ahead] at same
    exact ⟨result, (List.cons.inj same).2.symm⟩
  · exact absurd here (away t (by rw [ahead]; rfl))

theorem parsebacks_amps {bs : List Token} {n : Nat} (c : Cmd (Nat × Nat)) (ahead : lex buf s = bs ++ rest)
    (amps : ∀ b ∈ bs, b.tok = '&') (stops : ∀ t ∈ rest.head?, t.tok ≠ '&') (enough : bs.length < n) :
    ∃ s', lex buf s' = rest ∧ parsebacks buf n c s = .ok (Cmd.back^[bs.length] c, s') := by
  induction bs generalizing n c s with
  | nil =>
    cases n with
    | zero => cases enough
    | succ n =>
      rw [parsebacks, symbol_stops (by decide) (by decide) (by rwa [ahead])]
      exact ⟨skip buf s, by rw [lex_skip, ahead]; rfl, rfl⟩
  | cons b bs ih =>
    cases n with
    | zero => cases enough
    | succ n =>
      obtain ⟨found, left⟩ := symbol_goes (by decide) (by decide) ahead (amps b List.mem_cons_self)
      rw [parsebacks, found]
      exact ih (.back c) left (fun b member => amps b (List.mem_cons_of_mem _ member)) (Nat.lt_of_succ_lt_succ enough)

theorem length_items (items : List Item) : items.length ≤ (items.flatMap Item.tokens).length := by
  induction items with
  | nil => exact Nat.le_refl _
  | cons item items ih =>
    rw [List.flatMap_cons, List.length_append, List.length_cons]
    cases item <;> simp only [Item.tokens, List.length_cons, List.length_nil] <;> omega

/-- The function of the parser for each level, and the calls it needs beyond four a token. -/
def call (buf : List Char) : Level → Nat → Nat → Except Stop (Cmd (Nat × Nat) × Nat)
  | .line => parseline buf
  | .pipe => parsepipe buf
  | .exec => parseexec buf

def spare : Level → Nat
  | .line => 3
  | .pipe => 2
  | .exec => 1

theorem items_away {items : List Item} (fit : ∀ i ∈ items, i.Fits) (stops : Stops .exec rest) :
    ∀ t ∈ (items.flatMap Item.tokens ++ rest).head?, t.tok ≠ '(' := by
  intro t first opens
  cases items with
  | nil =>
    exact stops.away (by decide) t first opens
  | cons item items =>
    have fits := fit item List.mem_cons_self
    cases item with
    | arg w =>
      obtain rfl := Option.some.inj first
      exact absurd (opens.symm.trans fits) (by decide)
    | redir op f =>
      obtain rfl := Option.some.inj first
      have sign := fits.1
      rw [opens] at sign
      exact absurd sign (by decide)

/-- The parser finds what a list of tokens derives, wherever the list ends. -/
theorem Derives.found {level : Level} {ts : List Token} {c : Cmd (Nat × Nat)} (derived : Derives level ts c) :
    ∀ {n s : Nat} {rest : List Token}, lex buf s = ts ++ rest → Stops level rest →
      4 * ts.length + spare level < n → ∃ s', lex buf s' = rest ∧ call buf level n s = .ok (c, s') := by
  induction derived with
  | @exec items fit few =>
    intro n s rest ahead stops enough
    cases n with
    | zero => cases enough
    | succ n =>
      have size := length_items items
      rw [call, parseexec, symbol_stops (by decide) (by decide) (by rw [ahead]; exact items_away fit stops)]
      dsimp only [spare] at enough
      exact parseitems [] [] fit (by rw [lex_skip, ahead]) stops few (by omega) (by omega)
  | @block l r ts c items opened inner closed fit bare ih =>
    intro n s rest ahead stops enough
    have size := length_items items
    simp only [spare, List.length_cons, List.length_append] at enough
    obtain ⟨n, rfl⟩ : ∃ m, n = m + 2 := ⟨n - 2, by omega⟩
    rw [List.cons_append, List.append_assoc, List.cons_append] at ahead
    rw [call, parseexec, (symbol_goes (by decide) (by decide) ahead opened).1]
    dsimp only
    rw [if_pos rfl, parseblock]
    obtain ⟨found, left⟩ := symbol_goes (by decide) (by decide) ((lex_skip buf s).trans ahead) opened
    rw [found]
    dsimp only
    rw [Bool.not_true, if_neg Bool.false_ne_true]
    obtain ⟨s', reached, result⟩ := ih (n := n) left (by rintro t ⟨⟩; rw [closed]; decide)
      (by dsimp only [spare]; omega)
    rw [call] at result
    obtain ⟨found, after⟩ := symbol_goes (by decide) (by decide) reached closed
    rw [result, ok_bind, found]
    dsimp only
    rw [Bool.not_true, if_neg Bool.false_ne_true]
    obtain ⟨s'', done, redirected⟩ := parseredirs_bare (n := n) [] fit bare after stops.clear (by omega)
    rw [redirected, ok_bind]
    exact ⟨s'', done, rfl⟩
  | @single ts c only ih =>
    intro n s rest ahead stops enough
    cases n with
    | zero => cases enough
    | succ n =>
      obtain ⟨s', reached, result⟩ := ih (n := n) ahead stops.exec_of_pipe (by dsimp only [spare] at enough ⊢; omega)
      rw [call] at result
      rw [call, parsepipe, result, ok_bind]
      dsimp only
      rw [symbol_stops (by decide) (by decide) (by rw [reached]; exact stops.away (by decide))]
      exact ⟨skip buf s', by rw [lex_skip, reached], rfl⟩
  | @pipe t ts us c d left bar right ihLeft ihRight =>
    intro n s rest ahead stops enough
    simp only [spare, List.length_cons, List.length_append] at enough
    cases n with
    | zero => cases enough
    | succ n =>
      rw [List.append_assoc, List.cons_append] at ahead
      obtain ⟨s', reached, result⟩ := ihLeft (n := n) ahead (by rintro t' ⟨⟩; rw [bar]; decide)
        (by dsimp only [spare]; omega)
      obtain ⟨found, after⟩ := symbol_goes (by decide) (by decide) reached bar
      obtain ⟨s'', done, second⟩ := ihRight (n := n) after stops (by dsimp only [spare]; omega)
      rw [call] at result
      rw [call] at second
      rw [call, parsepipe, result, ok_bind]
      dsimp only
      rw [found]
      dsimp only
      rw [if_pos rfl, second, ok_bind]
      exact ⟨s'', done, rfl⟩
  | @last ts bs c first amps ih =>
    intro n s rest ahead stops enough
    simp only [spare, List.length_append] at enough
    cases n with
    | zero => cases enough
    | succ n =>
      rw [List.append_assoc] at ahead
      obtain ⟨s', reached, result⟩ := ih (n := n) ahead (stops_amps amps stops.pipe_of_line)
        (by dsimp only [spare]; omega)
      obtain ⟨s'', there, second⟩ := parsebacks_amps (n := n) c reached amps (stops.away (by decide)) (by omega)
      rw [call] at result
      rw [call, parseline, result, ok_bind]
      dsimp only
      rw [second, ok_bind]
      dsimp only
      rw [symbol_stops (by decide) (by decide) (by rw [there]; exact stops.away (by decide))]
      exact ⟨skip buf s'', by rw [lex_skip, there], rfl⟩
  | @list t ts bs us c d first amps semi right ihFirst ihRest =>
    intro n s rest ahead stops enough
    simp only [spare, List.length_cons, List.length_append] at enough
    cases n with
    | zero => cases enough
    | succ n =>
      rw [List.append_assoc, List.append_assoc, List.cons_append] at ahead
      obtain ⟨s₁, reached, result⟩ := ihFirst (n := n) ahead
        (stops_amps amps (by rintro t' ⟨⟩; rw [semi]; decide)) (by dsimp only [spare]; omega)
      obtain ⟨s₂, there, second⟩ := parsebacks_amps (n := n) c reached amps (by rintro t' ⟨⟩; rw [semi]; decide)
        (by omega)
      obtain ⟨found, after⟩ := symbol_goes (by decide) (by decide) there semi
      obtain ⟨s₃, done, third⟩ := ihRest (n := n) after stops (by dsimp only [spare]; omega)
      rw [call] at result
      rw [call] at third
      rw [call, parseline, result, ok_bind]
      dsimp only
      rw [second, ok_bind]
      dsimp only
      rw [found]
      dsimp only
      rw [if_pos rfl, third, ok_bind]
      exact ⟨s₃, done, rfl⟩

theorem length_lex (buf : List Char) (s : Nat) : (lex buf s).length ≤ buf.length - s := by
  rcases lex_cases buf s with ⟨none_left, -⟩ | ⟨found, start, ahead⟩
  · simp [none_left]
  · have later : s < (gettoken buf s).2 ∧ s < buf.length := by
      have before := le_scan (· ∈ whitespace) buf s
      have := found.lt
      rcases gettoken_cases buf s with ⟨-, nul⟩ | ⟨-, -, next⟩
      · exact absurd nul found.tok_ne
      · have behind := le_scan (· ∈ whitespace) buf (gettoken buf s).1.eq
        simp only [skip] at start next
        omega
    have rest := length_lex buf (gettoken buf s).2
    rw [ahead, List.length_cons]
    omega
termination_by buf.length - s

theorem lex_eq_nil_iff (inside : s ≤ buf.length) : lex buf s = [] ↔ skip buf s = buf.length := by
  have short : skip buf s ≤ buf.length := scan_le inside
  rcases lex_cases buf s with ⟨none_left, ended, -⟩ | ⟨found, start, ahead⟩
  · rw [List.getElem?_eq_none_iff] at ended
    simp only [none_left, true_iff]
    omega
  · have := found.lt
    simp only [ahead, reduceCtorEq, false_iff]
    omega

theorem parseline_parsed (buf : List Char) : Parsed buf .line 0 (parseline buf (4 * buf.length + 4) 0) := by
  have size := length_lex buf 0
  exact (parser_ends buf _).1 0 (by omega)

theorem parsecmd_found {c : Cmd (Nat × Nat)} (derived : Derives .line (lex buf 0) c) :
    parsecmd buf = .ok (c, nulterminate c (Pointers.ofList buf)) := by
  have size := length_lex buf 0
  obtain ⟨s, reached, result⟩ := derived.found (n := 4 * buf.length + 4)
    (List.append_nil (lex buf 0)).symm nofun (by dsimp only [spare]; omega)
  rw [call] at result
  have parsed := parseline_parsed buf
  rw [result] at parsed
  obtain ⟨ts, across, -⟩ := parsed
  have atEnd := (lex_eq_nil_iff (across.inside (Nat.zero_le _))).mp reached
  rw [parsecmd, result, ok_bind]
  simp only [peek, atEnd, ne_eq, not_true_eq_false, if_false]

theorem parsecmd_cases (buf : List Char) :
    (∃ c, Derives .line (lex buf 0) c ∧ parsecmd buf = .ok (c, nulterminate c (Pointers.ofList buf))) ∨
      ∃ printed, parsecmd buf = .error (.exit printed) := by
  have parsed := parseline_parsed buf
  cases result : parseline buf (4 * buf.length + 4) 0 with
  | error e =>
    rw [result] at parsed
    cases e with
    | fuel => exact absurd rfl parsed
    | exit printed => exact .inr ⟨printed, by rw [parsecmd, result]; rfl⟩
  | ok r =>
    obtain ⟨c, s⟩ := r
    rw [result] at parsed
    obtain ⟨ts, across, derived⟩ := parsed
    rw [parsecmd, result, ok_bind]
    by_cases atEnd : skip buf s = buf.length
    · simp only [peek, atEnd, ne_eq, not_true_eq_false, if_false]
      have none_left := (lex_eq_nil_iff (across.inside (Nat.zero_le _))).mpr atEnd
      have whole := across.tokens
      rw [none_left, List.append_nil] at whole
      exact .inl ⟨c, whole ▸ derived, rfl⟩
    · simp only [peek, atEnd, ne_eq, not_false_eq_true, if_true]
      exact .inr ⟨_, rfl⟩

/-- The shell takes a line for a command exactly where the tokens of the line derive the command, and
prints and exits at any other line. -/
theorem parsecmd_grammar (buf : List Char) :
    (∀ c, (∃ nul, parsecmd buf = .ok (c, nul)) ↔ Derives .line (lex buf 0) c) ∧
      ((∃ printed, parsecmd buf = .error (.exit printed)) ↔ ∀ c, ¬Derives .line (lex buf 0) c) := by
  have outcome := parsecmd_cases buf
  refine ⟨fun c => ⟨?_, fun derived => ⟨_, parsecmd_found derived⟩⟩, ?_, ?_⟩
  · rintro ⟨buf, result⟩
    rcases outcome with ⟨d, derived, found⟩ | ⟨printed, fails⟩
    · rw [found] at result
      cases result
      exact derived
    · rw [fails] at result
      cases result
  · rintro ⟨printed, fails⟩ c derived
    rw [parsecmd_found derived] at fails
    cases fails
  · intro none_derived
    rcases outcome with ⟨d, derived, -⟩ | fails
    · exact absurd derived (none_derived d)
    · exact fails

end OsLabs.Sh
