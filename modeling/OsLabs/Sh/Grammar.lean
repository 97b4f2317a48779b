import Mathlib.Logic.Function.Iterate
import OsLabs.Sh.Tokens

/-! The grammar of the shell: the command that a list of tokens derives. What the parser returns, the
tokens it has crossed derive. -/

set_option autoImplicit false

namespace OsLabs.Sh

open OsLabs.Lib

variable {buf : List Char} {s : Nat} {toks : List Char}

section Grammar

inductive Item where
  | arg (word : Token)
  | redir (op file : Token)

namespace Item

def tokens : Item → List Token
  | arg word => [word]
  | redir op file => [op, file]

def Fits : Item → Prop
  | arg word => word.tok = 'a'
  | redir op file => op.tok ∈ ['<', '>', '+'] ∧ file.tok = 'a'

def argument : Item → Option (Nat × Nat)
  | arg word => some (word.q, word.eq)
  | redir _ _ => none

def redirection : Item → Option (Redir (Nat × Nat))
  | arg _ => none
  | redir op file =>
    if op.tok = '<' then some { file := (file.q, file.eq), mode := O_RDONLY, fd := 0 }
    else some { file := (file.q, file.eq), mode := O_WRONLY ||| O_CREATE, fd := 1 }

@[simp] theorem argument_arg (word : Token) : (arg word).argument = some (word.q, word.eq) := rfl

@[simp] theorem argument_redir (op file : Token) : (redir op file).argument = none := rfl

@[simp] theorem redirection_arg (word : Token) : (arg word).redirection = none := rfl

theorem exists_redirection (op file : Token) : ∃ r, (redir op file).redirection = some r := by
  rw [redirection]
  split <;> exact ⟨_, rfl⟩

end Item

inductive Level where
  | line
  | pipe
  | exec

/-- The grammar of the shell: the command that a list of tokens stands for. -/
inductive Derives : Level → List Token → Cmd (Nat × Nat) → Prop where
  | exec (items : List Item) (fit : ∀ i ∈ items, i.Fits) (few : (items.filterMap Item.argument).length < MAXARGS) :
    Derives .exec (items.flatMap Item.tokens)
      (wrap (items.filterMap Item.redirection) (.exec (items.filterMap Item.argument)))
  | block {l r : Token} {ts : List Token} {c : Cmd (Nat × Nat)} (items : List Item) (opened : l.tok = '(')
      (inner : Derives .line ts c) (closed : r.tok = ')') (fit : ∀ i ∈ items, i.Fits)
      (bare : items.filterMap Item.argument = []) :
    Derives .exec (l :: (ts ++ r :: items.flatMap Item.tokens)) (wrap (items.filterMap Item.redirection) c)
  | single {ts : List Token} {c : Cmd (Nat × Nat)} (only : Derives .exec ts c) : Derives .pipe ts c
  | pipe {t : Token} {ts us : List Token} {c d : Cmd (Nat × Nat)} (left : Derives .exec ts c) (bar : t.tok = '|')
      (right : Derives .pipe us d) : Derives .pipe (ts ++ t :: us) (.pipe c d)
  | last {ts bs : List Token} {c : Cmd (Nat × Nat)} (first : Derives .pipe ts c) (amps : ∀ b ∈ bs, b.tok = '&') :
    Derives .line (ts ++ bs) (Cmd.back^[bs.length] c)
  | list {t : Token} {ts bs us : List Token} {c d : Cmd (Nat × Nat)} (first : Derives .pipe ts c)
      (amps : ∀ b ∈ bs, b.tok = '&') (semi : t.tok = ';') (rest : Derives .line us d) :
    Derives .line (ts ++ bs ++ t :: us) (.list (Cmd.back^[bs.length] c) d)

end Grammar

section Soundness

/-- A call within the bound: it returns something with `post`, or the shell prints and exits. -/
def Ends {α : Type} (post : α → Prop) : Except Stop α → Prop
  | .ok a => post a
  | .error e => e ≠ .fuel

theorem Ends.bind {α β : Type} {post : α → Prop} {post' : β → Prop} {x : Except Stop α} {f : α → Except Stop β}
    (first : Ends post x) (rest : ∀ a, post a → Ends post' (f a)) : Ends post' (x >>= f) := by
  cases x with
  | ok a => exact rest a first
  | error e => exact first

theorem ends_panic {α : Type} (post : α → Prop) (text : String) : Ends post (panic text) := by
  simp [panic, Ends]

theorem Ends.mono {α : Type} {post post' : α → Prop} {x : Except Stop α} (ends : Ends post x)
    (weaker : ∀ a, post a → post' a) : Ends post' x := by
  cases x with
  | ok a => exact weaker a ends
  | error e => exact ends

theorem exists_of_front {ts : List Token} (found : (front ts).any (· ∈ toks) = true) :
    ∃ t us, ts = t :: us ∧ (if t.tok = '+' then '>' else t.tok) ∈ toks := by
  cases ts with
  | nil => simp [front] at found
  | cons t us => exact ⟨t, us, rfl, by simpa [front] using found⟩

theorem redirOp {t : Token} (sign : (if t.tok = '+' then '>' else t.tok) ∈ ['<', '>']) : t.tok ∈ ['<', '>', '+'] := by
  by_cases double : t.tok = '+'
  · simp [double]
  · rw [if_neg double] at sign
    simp only [List.mem_cons, List.not_mem_nil, or_false] at sign ⊢
    exact sign.elim .inl (.inr ∘ .inl)

theorem parseredirs_redir {t f : Token} (n : Nat) (redirs : List (Redir (Nat × Nat))) (s : Nat)
    (fits : (Item.redir t f).Fits) : (match t.tok with
      | '<' => parseredirs buf n (redirs ++ [{ file := (f.q, f.eq), mode := O_RDONLY, fd := 0 }]) s
      | '>' => parseredirs buf n (redirs ++ [{ file := (f.q, f.eq), mode := O_WRONLY ||| O_CREATE, fd := 1 }]) s
      | '+' => parseredirs buf n (redirs ++ [{ file := (f.q, f.eq), mode := O_WRONLY ||| O_CREATE, fd := 1 }]) s
      | _ => parseredirs buf n redirs s) = parseredirs buf n (redirs ++ (Item.redir t f).redirection.toList) s := by
  obtain ⟨op, -⟩ := fits
  simp only [List.mem_cons, List.not_mem_nil, or_false] at op
  rcases op with op | op | op <;> simp [op, Item.redirection]

theorem parseredirs_cases (buf : List Char) (n : Nat) (redirs : List (Redir (Nat × Nat))) (s : Nat) :
    (((front (lex buf s)).any (· ∈ ['<', '>']) = false ∧
        parseredirs buf (n + 1) redirs s = .ok (redirs, skip buf s)) ∨
      (∃ t f s', (Item.redir t f).Fits ∧ Across buf s [t, f] s' ∧
        parseredirs buf (n + 1) redirs s = parseredirs buf n (redirs ++ (Item.redir t f).redirection.toList) s') ∨
      ((front (lex buf s)).any (· ∈ ['<', '>']) ∧ (∀ t f ts, lex buf s = t :: f :: ts → ¬(Item.redir t f).Fits) ∧
        parseredirs buf (n + 1) redirs s = panic "missing file for redirection")) := by
  rw [parseredirs, peek_eq _ _ (by simp [symbols])]
  dsimp only
  split
  · rename_i found
    obtain ⟨t, us, ahead, sign⟩ := exists_of_front found
    rw [gettoken_skip, (gettoken_of_lex ahead).1]
    have first := across_gettoken ahead
    split
    · rename_i other
      refine .inr (.inr ⟨found, fun t' f ts ahead' fits => other ?_, rfl⟩)
      have rest := (gettoken_of_lex ahead').2.1
      rw [(gettoken_of_lex rest).1]
      exact fits.2
    · rename_i word
      rw [ne_eq, not_not] at word
      have filed := lex_of_gettoken (by rw [word]; decide)
      have fits : (Item.redir t (gettoken buf (gettoken buf s).2).1).Fits := ⟨redirOp sign, word⟩
      exact .inr (.inl ⟨t, _, _, fits, first.trans (across_gettoken filed), parseredirs_redir _ _ _ fits⟩)
  · rename_i clear
    exact .inl ⟨by simpa using clear, rfl⟩

theorem parseredirs_ends {n : Nat} (redirs : List (Redir (Nat × Nat))) (enough : (lex buf s).length < n) :
    Ends (fun (rs, s') => ∃ items : List Item, (∀ i ∈ items, i.Fits) ∧ items.filterMap Item.argument = [] ∧
      Across buf s (items.flatMap Item.tokens) s' ∧ rs = redirs ++ items.filterMap Item.redirection)
      (parseredirs buf n redirs s) := by
  induction n generalizing redirs s with
  | zero => exact absurd enough (Nat.not_lt_zero _)
  | succ n ih =>
    rcases parseredirs_cases buf n redirs s with ⟨-, stops⟩ | ⟨t, f, s', fits, first, goes⟩ | ⟨-, -, fails⟩
    · rw [stops]
      exact ⟨[], by simp, rfl, across_skip .., by simp⟩
    · rw [goes]
      have count := congrArg List.length first.tokens
      simp only [List.length_append, List.length_cons, List.length_nil] at count
      refine (ih _ (by omega)).mono ?_
      rintro ⟨rs, s''⟩ ⟨items, fit, bare, rest, rfl⟩
      refine ⟨.redir t f :: items, List.forall_mem_cons.mpr ⟨fits, fit⟩, bare, first.trans rest, ?_⟩
      obtain ⟨r, taken⟩ := Item.exists_redirection t f
      rw [List.filterMap_cons, taken, Option.toList_some, List.append_assoc]
      rfl
    · rw [fails]
      exact ends_panic _ _

theorem parseargs_cases (buf : List Char) (n : Nat) (argv : List (Nat × Nat)) (redirs : List (Redir (Nat × Nat)))
    (s : Nat) :
    ((∀ t ∈ (lex buf s).head?, t.tok ≠ 'a') ∧
        ∃ s', Across buf s [] s' ∧ parseargs buf (n + 1) argv redirs s = .ok (wrap redirs (.exec argv), s')) ∨
      (∃ w s', w.tok = 'a' ∧ Across buf s [w] s' ∧ argv.length + 1 < MAXARGS ∧
        parseargs buf (n + 1) argv redirs s =
          (parseredirs buf n redirs s' >>= fun x => parseargs buf n (argv ++ [(w.q, w.eq)]) x.1 x.2)) ∨
      ((∃ t ∈ (lex buf s).head?, t.tok ∉ ['|', ')', '&', ';'] ∧ (t.tok = 'a' → MAXARGS ≤ argv.length + 1)) ∧
        ∃ text, parseargs buf (n + 1) argv redirs s = panic text) := by
  rw [parseargs, peek_eq _ _ (by simp [symbols])]
  dsimp only
  split
  · rename_i found
    obtain ⟨t, us, ahead, sign⟩ := exists_of_front found
    refine .inl ⟨fun t' first word => ?_, _, across_skip .., rfl⟩
    rw [ahead] at first
    obtain rfl := Option.some.inj first
    rw [word] at sign
    exact absurd sign (by decide)
  · rename_i other
    rw [gettoken_skip]
    rcases lex_cases buf s with ⟨ended, -, nul⟩ | ⟨found, -, ahead⟩
    · rw [if_pos nul]
      refine .inl ⟨by simp [ended], _, across_gettoken_end ended, rfl⟩
    · rw [if_neg found.tok_ne]
      have outside : (gettoken buf s).1.tok ∉ ['|', ')', '&', ';'] := by
        intro mem
        rw [ahead] at other
        have single : (gettoken buf s).1.tok ≠ '+' := fun same => absurd (same ▸ mem) (by decide)
        simp only [front, List.head?_cons, Option.map_some, Option.any_some, if_neg single, decide_eq_true_eq] at other
        exact other mem
      have first : (gettoken buf s).1 ∈ (lex buf s).head? := by rw [ahead]; rfl
      split
      · rename_i strange
        exact .inr (.inr ⟨⟨_, first, outside, fun word => absurd word strange⟩, _, rfl⟩)
      · rename_i word
        rw [ne_eq, not_not] at word
        split
        · rename_i many
          rw [List.length_append] at many
          exact .inr (.inr ⟨⟨_, first, outside, fun _ => many⟩, _, rfl⟩)
        · rename_i few
          rw [List.length_append, ge_iff_le, Nat.not_le] at few
          exact .inr (.inl ⟨_, _, word, across_gettoken ahead, few, rfl⟩)

theorem parseargs_ends {n : Nat} (argv : List (Nat × Nat)) (redirs : List (Redir (Nat × Nat)))
    (few : argv.length < MAXARGS) (enough : (lex buf s).length < n) :
    Ends (fun (c, s') => ∃ items : List Item, (∀ i ∈ items, i.Fits) ∧ Across buf s (items.flatMap Item.tokens) s' ∧
      (argv ++ items.filterMap Item.argument).length < MAXARGS ∧
      c = wrap (redirs ++ items.filterMap Item.redirection) (.exec (argv ++ items.filterMap Item.argument)))
      (parseargs buf n argv redirs s) := by
  induction n generalizing argv redirs s with
  | zero => exact absurd enough (Nat.not_lt_zero _)
  | succ n ih =>
    rcases parseargs_cases buf n argv redirs s with
      ⟨-, s', rest, stops⟩ | ⟨w, s', word, first, room, goes⟩ | ⟨-, text, fails⟩
    · rw [stops]
      exact ⟨[], by simp, rest, by simpa using few, by simp⟩
    · rw [goes]
      have count := congrArg List.length first.tokens
      simp only [List.length_append, List.length_cons, List.length_nil] at count
      refine (parseredirs_ends redirs (by omega)).bind ?_
      rintro ⟨rs, s''⟩ ⟨before, fitBefore, bare, next, rfl⟩
      have counted := congrArg List.length next.tokens
      rw [List.length_append] at counted
      refine (ih (argv ++ [(w.q, w.eq)]) _ (by simpa using room) (by dsimp only; omega)).mono ?_
      rintro ⟨c, s'''⟩ ⟨items, fit, rest, below, rfl⟩
      refine ⟨.arg w :: (before ++ items), ?_, ?_, ?_, ?_⟩
      · exact List.forall_mem_cons.mpr ⟨word, List.forall_mem_append.mpr ⟨fitBefore, fit⟩⟩
      · have whole := (first.trans next).trans rest
        simpa [Item.tokens] using whole
      · simpa [bare] using below
      · simp [bare, List.filterMap_cons]
    · rw [fails]
      exact ends_panic _ _

/-- What `peek` and `gettoken` do before a symbol, and what `peek` leaves before anything else. -/
theorem symbol_cases {c : Char} (among : c ∈ symbols) (other : c ≠ '>') (buf : List Char) (s : Nat) :
    (∃ t, t.tok = c ∧ Across buf s [t] (gettoken buf (skip buf s)).2 ∧ peek buf [c] s = (true, skip buf s)) ∨
      (∀ t ∈ (lex buf s).head?, t.tok ≠ c) ∧ peek buf [c] s = (false, skip buf s) := by
  rw [peek_eq buf s (by simpa using among)]
  have single : c ≠ '+' := by
    rintro rfl
    exact absurd among (by decide)
  cases ahead : lex buf s with
  | nil => exact .inr ⟨by simp, rfl⟩
  | cons t us =>
    have sees : (front (t :: us)).any (· ∈ [c]) = decide (t.tok = c) := by
      by_cases double : t.tok = '+'
      · simp [front, double, Ne.symm other, Ne.symm single]
      · simp [front, double]
    rw [sees]
    by_cases same : t.tok = c
    · rw [gettoken_skip]
      exact .inl ⟨t, same, across_gettoken ahead, by rw [decide_eq_true same]⟩
    · refine .inr ⟨?_, by rw [decide_eq_false same]⟩
      rintro t' ⟨⟩
      exact same

theorem parsebacks_ends {n : Nat} (c : Cmd (Nat × Nat)) (enough : (lex buf s).length < n) :
    Ends (fun (d, s') => ∃ bs : List Token, (∀ b ∈ bs, b.tok = '&') ∧ Across buf s bs s' ∧ d = Cmd.back^[bs.length] c)
      (parsebacks buf n c s) := by
  induction n generalizing c s with
  | zero => exact absurd enough (Nat.not_lt_zero _)
  | succ n ih =>
    rw [parsebacks]
    rcases symbol_cases (c := '&') (by decide) (by decide) buf s with ⟨t, amp, first, found⟩ | ⟨-, other⟩
    · rw [found]
      dsimp only
      have count := congrArg List.length first.tokens
      simp only [List.length_append, List.length_cons, List.length_nil] at count
      refine (ih (.back c) (by omega)).mono ?_
      rintro ⟨d, s'⟩ ⟨bs, amps, rest, rfl⟩
      exact ⟨t :: bs, List.forall_mem_cons.mpr ⟨amp, amps⟩, first.trans rest, rfl⟩
    · rw [other]
      exact ⟨[], by simp, across_skip .., rfl⟩

/-- What a call of the parser may return: a command that the tokens it crosses derive. -/
def Parsed (buf : List Char) (level : Level) (s : Nat) (r : Except Stop (Cmd (Nat × Nat) × Nat)) : Prop :=
  Ends (fun (c, s') => ∃ ts, Across buf s ts s' ∧ Derives level ts c) r

section Calls

variable {n : Nat}

theorem parseline_ends (pipes : ∀ s, 4 * (lex buf s).length + 2 < n → Parsed buf .pipe s (parsepipe buf n s))
    (lines : ∀ s, 4 * (lex buf s).length + 3 < n → Parsed buf .line s (parseline buf n s))
    (enough : 4 * (lex buf s).length + 3 < n + 1) : Parsed buf .line s (parseline buf (n + 1) s) := by
  rw [parseline]
  refine Ends.bind (pipes s (by omega)) ?_
  rintro ⟨c, s₁⟩ ⟨ts, toFirst, first⟩
  have counted := congrArg List.length toFirst.tokens
  rw [List.length_append] at counted
  refine Ends.bind (parsebacks_ends c (by omega)) ?_
  rintro ⟨d, s₂⟩ ⟨bs, amps, toBacks, rfl⟩
  have there := toFirst.trans toBacks
  dsimp only
  rcases symbol_cases (c := ';') (by decide) (by decide) buf s₂ with ⟨t, semi, next, found⟩ | ⟨-, other⟩
  · rw [found]
    dsimp only
    have before := there.trans next
    have count := congrArg List.length before.tokens
    simp only [List.length_append, List.length_cons, List.length_nil] at count
    refine Ends.bind (lines _ (by omega)) ?_
    rintro ⟨right, s₃⟩ ⟨us, toRest, rest⟩
    refine ⟨_, ?_, .list first amps semi rest⟩
    simpa using before.trans toRest
  · rw [other]
    exact ⟨_, there.trans (across_skip ..), by simpa using .last first amps⟩

theorem parsepipe_ends (execs : ∀ s, 4 * (lex buf s).length + 1 < n → Parsed buf .exec s (parseexec buf n s))
    (pipes : ∀ s, 4 * (lex buf s).length + 2 < n → Parsed buf .pipe s (parsepipe buf n s))
    (enough : 4 * (lex buf s).length + 2 < n + 1) : Parsed buf .pipe s (parsepipe buf (n + 1) s) := by
  rw [parsepipe]
  refine Ends.bind (execs s (by omega)) ?_
  rintro ⟨c, s₁⟩ ⟨ts, toFirst, first⟩
  dsimp only
  rcases symbol_cases (c := '|') (by decide) (by decide) buf s₁ with ⟨t, bar, next, found⟩ | ⟨-, other⟩
  · rw [found]
    dsimp only
    have before := toFirst.trans next
    have count := congrArg List.length before.tokens
    simp only [List.length_append, List.length_cons, List.length_nil] at count
    refine Ends.bind (pipes _ (by omega)) ?_
    rintro ⟨right, s₂⟩ ⟨us, toRest, rest⟩
    refine ⟨_, ?_, .pipe first bar rest⟩
    simpa using before.trans toRest
  · rw [other]
    exact ⟨_, toFirst.trans (across_skip ..), by simpa using .single first⟩

theorem parseexec_ends (blocks : ∀ s, (∃ t ∈ (lex buf s).head?, t.tok = '(') → 4 * (lex buf s).length < n →
      Parsed buf .exec s (parseblock buf n s))
    (enough : 4 * (lex buf s).length + 1 < n + 1) : Parsed buf .exec s (parseexec buf (n + 1) s) := by
  rw [parseexec]
  rcases symbol_cases (c := '(') (by decide) (by decide) buf s with ⟨t, opened, next, found⟩ | ⟨-, other⟩
  · rw [found]
    have opens : ∃ t ∈ (lex buf (skip buf s)).head?, t.tok = '(' := by
      rw [lex_skip, next.tokens]
      exact ⟨t, rfl, opened⟩
    refine Ends.mono (blocks _ opens (by rw [lex_skip]; omega)) ?_
    rintro ⟨c, s₁⟩ ⟨ts, rest, derived⟩
    exact ⟨ts, (across_skip buf s).trans rest, derived⟩
  · rw [other]
    dsimp only
    have start := across_skip buf s
    refine Ends.bind (parseredirs_ends [] (by rw [lex_skip]; omega)) ?_
    rintro ⟨rs, s₁⟩ ⟨before, fitBefore, bare, toRedirs, rfl⟩
    have count := congrArg List.length toRedirs.tokens
    rw [lex_skip, List.length_append] at count
    refine (parseargs_ends [] _ (by decide) (by dsimp only; omega)).mono ?_
    rintro ⟨c, s₂⟩ ⟨items, fit, toArgs, few, rfl⟩
    refine ⟨(before ++ items).flatMap Item.tokens, ?_, ?_⟩
    · simpa using start.trans (toRedirs.trans toArgs)
    · have derived := Derives.exec (before ++ items) (List.forall_mem_append.mpr ⟨fitBefore, fit⟩)
        (by simpa [bare] using few)
      simpa [bare] using derived

theorem parseblock_ends (lines : ∀ s, 4 * (lex buf s).length + 3 < n → Parsed buf .line s (parseline buf n s))
    (opens : ∃ t ∈ (lex buf s).head?, t.tok = '(') (enough : 4 * (lex buf s).length < n + 1) :
    Parsed buf .exec s (parseblock buf (n + 1) s) := by
  rw [parseblock]
  rcases symbol_cases (c := '(') (by decide) (by decide) buf s with ⟨l, opened, next, found⟩ | ⟨shut, -⟩
  · rw [found]
    dsimp only
    rw [Bool.not_true, if_neg Bool.false_ne_true]
    have count := congrArg List.length next.tokens
    simp only [List.length_append, List.length_cons, List.length_nil] at count
    refine Ends.bind (lines _ (by omega)) ?_
    rintro ⟨c, s₁⟩ ⟨ts, toInner, inner⟩
    dsimp only
    have counted := congrArg List.length toInner.tokens
    rw [List.length_append] at counted
    rcases symbol_cases (c := ')') (by decide) (by decide) buf s₁ with ⟨r, closed, close, found⟩ | ⟨-, other⟩
    · rw [found]
      dsimp only
      rw [Bool.not_true, if_neg Bool.false_ne_true]
      have last := congrArg List.length close.tokens
      simp only [List.length_append, List.length_cons, List.length_nil] at last
      refine Ends.bind (parseredirs_ends [] (by omega)) ?_
      rintro ⟨rs, s₂⟩ ⟨items, fit, bare, toRedirs, rfl⟩
      refine ⟨_, ?_, .block items opened inner closed fit bare⟩
      simpa using ((next.trans toInner).trans close).trans toRedirs
    · rw [other]
      exact ends_panic _ _
  · obtain ⟨t, first, opened⟩ := opens
    exact absurd opened (shut t first)

end Calls

theorem parser_ends (buf : List Char) (n : Nat) :
    (∀ s, 4 * (lex buf s).length + 3 < n → Parsed buf .line s (parseline buf n s)) ∧
      (∀ s, 4 * (lex buf s).length + 2 < n → Parsed buf .pipe s (parsepipe buf n s)) ∧
      (∀ s, 4 * (lex buf s).length + 1 < n → Parsed buf .exec s (parseexec buf n s)) ∧
      ∀ s, (∃ t ∈ (lex buf s).head?, t.tok = '(') → 4 * (lex buf s).length < n →
        Parsed buf .exec s (parseblock buf n s) := by
  induction n with
  | zero => simp
  | succ n ih =>
    obtain ⟨lines, pipes, execs, blocks⟩ := ih
    exact ⟨fun s => parseline_ends pipes lines, fun s => parsepipe_ends execs pipes, fun s => parseexec_ends blocks,
      fun s => parseblock_ends lines⟩

end Soundness

end OsLabs.Sh
