import OsLabs.Sh.Completeness

/-! A command printed as a line and read back: every tree with words the shell can read comes back
from its line, and the shell reads no others. -/

set_option autoImplicit false

namespace OsLabs.Sh

open OsLabs.Lib

variable {buf : List Char} {s : Nat}

inductive Piece where
  | word (text : List Char)
  | sign (c : Char)

namespace Piece

def text : Piece → List Char
  | word text => text
  | sign c => [c]

def Fine : Piece → Prop
  | word text => text ≠ [] ∧ ∀ c ∈ text, plain c
  | sign c => c ∈ symbols

end Piece

def render (ps : List Piece) : List Char := ps.flatMap fun p => p.text ++ [' ']

def slice (buf : List Char) (w : Nat × Nat) : List Char := (buf.drop w.1).take (w.2 - w.1)

def piece (buf : List Char) (t : Token) : Piece := if t.tok = 'a' then .word (slice buf (t.q, t.eq)) else .sign t.tok

theorem plain_iff {c : Char} : plain c = true ↔ c ∉ whitespace ∧ c ∉ symbols := by simp [plain]

theorem Piece.Fine.head {p : Piece} (fine : p.Fine) : ∃ c cs, p.text = c :: cs ∧ c ∉ whitespace := by
  cases p with
  | word w =>
    obtain ⟨some_char, dark⟩ := fine
    obtain ⟨c, cs, rfl⟩ := List.exists_cons_of_ne_nil some_char
    exact ⟨c, cs, rfl, (plain_iff.mp (dark c List.mem_cons_self)).1⟩
  | sign c =>
    refine ⟨c, [], rfl, ?_⟩
    simp only [Piece.Fine, symbols, List.mem_cons, List.not_mem_nil, or_false] at fine
    rcases fine with rfl | rfl | rfl | rfl | rfl | rfl | rfl <;> decide

theorem found_piece {p : Piece} {t : Token} {rest : List Char} (fine : p.Fine) (found : Found buf t)
    (here : buf.drop t.q = p.text ++ ' ' :: rest) : piece buf t = p ∧ t.eq = t.q + p.text.length := by
  have first : buf[t.q]? = (p.text ++ ' ' :: rest)[0]? := by rw [← here, List.getElem?_drop, Nat.add_zero]
  have second : buf[t.q + 1]? = (p.text ++ ' ' :: rest)[1]? := by rw [← here, List.getElem?_drop]
  cases p with
  | word w =>
    obtain ⟨some_char, dark⟩ := fine
    have starts : ∃ c, buf[t.q]? = some c ∧ plain c := by
      obtain ⟨c, cs, rfl⟩ := List.exists_cons_of_ne_nil some_char
      exact ⟨c, first, dark c List.mem_cons_self⟩
    obtain ⟨c, starts, plain_c⟩ := starts
    have outside := (plain_iff.mp plain_c).2
    cases found with
    | symbol at_q among other =>
      rw [starts] at at_q
      exact absurd (Option.some.inj at_q ▸ among) outside
    | single at_q alone =>
      rw [starts] at at_q
      exact absurd (by rw [Option.some.inj at_q]; decide) outside
    | double at_q next =>
      rw [starts] at at_q
      exact absurd (by rw [Option.some.inj at_q]; decide) outside
    | @word c' q at_q dark' =>
      have ends : scan plain buf q = q + w.length := by
        rw [scan_of_append here dark]
        refine scan_of_not ?_
        intro x behind
        rw [← List.head?_drop, ← List.drop_drop, here, Piece.text, List.drop_left] at behind
        obtain rfl := Option.some.inj behind
        decide
      refine ⟨?_, ends⟩
      rw [piece, if_pos rfl, slice]
      dsimp only at here ⊢
      rw [ends, here, Nat.add_sub_cancel_left, Piece.text, List.take_left]
  | sign c =>
    have starts : buf[t.q]? = some c := first
    cases found with
    | symbol at_q among other =>
      rw [starts] at at_q
      obtain rfl := Option.some.inj at_q
      refine ⟨?_, rfl⟩
      rw [piece, if_neg]
      rintro rfl
      exact absurd among (by decide)
    | single at_q alone =>
      rw [starts] at at_q
      obtain rfl := Option.some.inj at_q
      exact ⟨rfl, rfl⟩
    | double at_q next =>
      rw [second] at next
      exact absurd (Option.some.inj next) (by decide)
    | word at_q dark =>
      rw [starts] at at_q
      exact absurd fine (Option.some.inj at_q ▸ plain_iff.mp dark).2

theorem lex_render {ps : List Piece} (fine : ∀ p ∈ ps, p.Fine) (here : buf.drop s = render ps) :
    (lex buf s).map (piece buf) = ps := by
  induction ps generalizing s with
  | nil =>
    rcases lex_cases buf s with ⟨none_left, -⟩ | ⟨found, start, -⟩
    · rw [none_left, List.map_nil]
    · have short : buf.length ≤ s := List.drop_eq_nil_iff.mp here
      have before := le_scan (· ∈ whitespace) buf s
      have behind := found.lt
      rw [start, skip] at behind
      omega
  | cons p ps ih =>
    have fits := fine p List.mem_cons_self
    obtain ⟨c, cs, starts, dark⟩ := fits.head
    rw [render, List.flatMap_cons, List.append_assoc, List.singleton_append] at here
    have first : buf[s]? = some c := by rw [← List.head?_drop, here, starts]; rfl
    have stays : skip buf s = s := scan_of_not (by rw [first]; rintro x ⟨⟩; simpa using dark)
    rcases lex_cases buf s with ⟨-, ended, -⟩ | ⟨found, start, ahead⟩
    · rw [stays, first] at ended
      cases ended
    · rw [stays] at start
      obtain ⟨same, ends⟩ := found_piece fits found (by rw [start, here])
      have next : buf.drop (s + p.text.length) = ' ' :: render ps := by
        rw [← List.drop_drop, here, List.drop_left]
        rfl
      have rest : buf.drop (s + p.text.length + 1) = render ps := by rw [← List.tail_drop, next]; rfl
      have white : buf[s + p.text.length]? = some ' ' := by rw [← List.head?_drop, next]; rfl
      have crosses : lex buf (gettoken buf s).2 = lex buf (s + p.text.length + 1) := by
        rcases gettoken_cases buf s with ⟨-, nul⟩ | ⟨-, -, behind⟩
        · exact absurd nul found.tok_ne
        · rw [behind, ends, start, skip, scan_of_some white (by decide)]
          exact lex_skip ..
      rw [ahead, List.map_cons, same, crosses, ih (fun q member => fine q (List.mem_cons_of_mem _ member)) rest]

section Printing

/-- How tightly a command holds together: 0 where redirections may follow, 3 for a whole line. -/
def rank {W : Type} : Cmd W → Nat
  | .exec _ | .redir .. => 0
  | .pipe .. => 1
  | .back _ => 2
  | .list .. => 3

theorem rank_le {W : Type} (c : Cmd W) : rank c ≤ 3 := by cases c <;> simp [rank]

/-- A command where only one of rank `k` may stand. -/
def enclose (k : Nat) (c : Cmd (List Char)) (ps : List Piece) : List Piece :=
  if rank c ≤ k then ps else .sign '(' :: (ps ++ [.sign ')'])

def pieces : Cmd (List Char) → List Piece
  | .exec argv => argv.map .word
  | .redir cmd file mode _ =>
    enclose 0 cmd (pieces cmd) ++ [.sign (if mode = O_RDONLY then '<' else '>'), .word file]
  | .pipe left right => enclose 0 left (pieces left) ++ .sign '|' :: enclose 1 right (pieces right)
  | .list left right => enclose 2 left (pieces left) ++ .sign ';' :: pieces right
  | .back cmd => enclose 2 cmd (pieces cmd) ++ [.sign '&']

def print (c : Cmd (List Char)) : List Char := render (pieces c)

def Word (w : List Char) : Prop := w ≠ [] ∧ ∀ c ∈ w, plain c

/-- The commands that a line can stand for. -/
def Legible : Cmd (List Char) → Prop
  | .exec argv => argv.length < MAXARGS ∧ ∀ w ∈ argv, Word w
  | .redir cmd file mode fd =>
    Legible cmd ∧ Word file ∧ (mode = O_RDONLY ∧ fd = 0 ∨ mode = O_WRONLY ||| O_CREATE ∧ fd = 1)
  | .pipe left right => Legible left ∧ Legible right
  | .list left right => Legible left ∧ Legible right
  | .back cmd => Legible cmd

theorem fine_enclose {k : Nat} {c : Cmd (List Char)} {ps : List Piece} (fine : ∀ p ∈ ps, p.Fine) :
    ∀ p ∈ enclose k c ps, p.Fine := by
  rw [enclose]
  split
  · exact fine
  · simp only [List.mem_cons, List.mem_append, List.not_mem_nil, or_false]
    rintro p (rfl | member | rfl)
    · exact (by decide : '(' ∈ symbols)
    · exact fine p member
    · exact (by decide : ')' ∈ symbols)

theorem fine_pieces {c : Cmd (List Char)} (legible : Legible c) : ∀ p ∈ pieces c, p.Fine := by
  induction c with
  | exec argv =>
    intro p member
    obtain ⟨w, inside, rfl⟩ := List.mem_map.mp member
    exact legible.2 w inside
  | redir cmd file mode fd ih =>
    have inner := fine_enclose (k := 0) (c := cmd) (ih legible.1)
    have sign : (if mode = O_RDONLY then '<' else '>') ∈ symbols := by split <;> decide
    simp only [pieces, List.mem_append, List.mem_cons, List.not_mem_nil, or_false]
    rintro p (member | rfl | rfl)
    · exact inner p member
    · exact sign
    · exact legible.2.1
  | pipe left right ihLeft ihRight =>
    have first := fine_enclose (k := 0) (c := left) (ihLeft legible.1)
    have second := fine_enclose (k := 1) (c := right) (ihRight legible.2)
    simp only [pieces, List.mem_append, List.mem_cons]
    rintro p (member | rfl | member)
    · exact first p member
    · exact (by decide : '|' ∈ symbols)
    · exact second p member
  | list left right ihLeft ihRight =>
    have first := fine_enclose (k := 2) (c := left) (ihLeft legible.1)
    simp only [pieces, List.mem_append, List.mem_cons]
    rintro p (member | rfl | member)
    · exact first p member
    · exact (by decide : ';' ∈ symbols)
    · exact ihRight legible.2 p member
  | back cmd ih =>
    have inner := fine_enclose (k := 2) (c := cmd) (ih legible)
    simp only [pieces, List.mem_append, List.mem_cons, List.not_mem_nil, or_false]
    rintro p (member | rfl)
    · exact inner p member
    · exact (by decide : '&' ∈ symbols)

end Printing

section Deriving

variable {ts : List Token} {d : Cmd (Nat × Nat)}

/-- Tokens that derive a command where one of rank `k` may stand. -/
def Within : Nat → List Token → Cmd (Nat × Nat) → Prop
  | 0, ts, d => Derives .exec ts d
  | 1, ts, d => Derives .pipe ts d
  | 2, ts, d => ∃ us bs e, Derives .pipe us e ∧ (∀ b ∈ bs, b.tok = '&') ∧ ts = us ++ bs ∧ d = Cmd.back^[bs.length] e
  | _, ts, d => Derives .line ts d

theorem Within.succ {k : Nat} (within : Within k ts d) : Within (k + 1) ts d := by
  match k with
  | 0 => exact .single within
  | 1 => exact ⟨ts, [], d, within, by simp, (List.append_nil ts).symm, rfl⟩
  | 2 =>
    obtain ⟨us, bs, e, first, amps, rfl, rfl⟩ := within
    exact .last first amps
  | _ + 3 => exact within

theorem Within.mono {k m : Nat} (within : Within k ts d) (le : k ≤ m) : Within m ts d := by
  induction le with
  | refl => exact within
  | step _ ih => exact ih.succ

theorem tok_of_sign {t : Token} {c : Char} (shows : piece buf t = .sign c) : t.tok = c := by
  rw [piece] at shows
  split at shows
  · cases shows
  · exact Piece.sign.inj shows

theorem word_of_piece {t : Token} {w : List Char} (shows : piece buf t = .word w) :
    t.tok = 'a' ∧ slice buf (t.q, t.eq) = w := by
  rw [piece] at shows
  split at shows
  · exact ⟨‹_›, Piece.word.inj shows⟩
  · cases shows

theorem words_of_pieces {argv : List (List Char)} (shows : ts.map (piece buf) = argv.map .word) :
    (∀ t ∈ ts, t.tok = 'a') ∧ argv = ts.map fun t => slice buf (t.q, t.eq) := by
  induction ts generalizing argv with
  | nil =>
    obtain rfl := List.map_eq_nil_iff.mp shows.symm
    exact ⟨by simp, rfl⟩
  | cons t ts ih =>
    obtain ⟨w, ws, rfl, first, rest⟩ := List.map_eq_cons_iff.mp shows.symm
    obtain ⟨word, rfl⟩ := word_of_piece first.symm
    obtain ⟨words, rfl⟩ := ih rest.symm
    exact ⟨List.forall_mem_cons.mpr ⟨word, words⟩, rfl⟩

theorem items_of_words (ts : List Token) : (ts.map Item.arg).flatMap Item.tokens = ts ∧
    (ts.map Item.arg).filterMap Item.argument = ts.map (fun t => (t.q, t.eq)) ∧
      (ts.map Item.arg).filterMap Item.redirection = [] := by
  induction ts with
  | nil => exact ⟨rfl, rfl, rfl⟩
  | cons t ts ih =>
    obtain ⟨tokens, args, redirs⟩ := ih
    exact ⟨congrArg (t :: ·) tokens, congrArg ((t.q, t.eq) :: ·) args, redirs⟩

theorem Derives.redir {op file : Token} {r : Redir (Nat × Nat)} (derived : Derives .exec ts d)
    (fits : (Item.redir op file).Fits) (taken : (Item.redir op file).redirection = some r) :
    Derives .exec (ts ++ [op, file]) (.redir d r.file r.mode r.fd) := by
  cases derived with
  | @exec items fit few =>
    have longer := Derives.exec (items ++ [.redir op file])
      (List.forall_mem_append.mpr ⟨fit, by simpa using fits⟩) (by simpa [List.filterMap_cons] using few)
    simpa [Item.tokens, List.filterMap_cons, taken, wrap] using longer
  | @block l r' us c items opened inner closed fit bare =>
    have longer := Derives.block (items ++ [.redir op file]) opened inner closed
      (List.forall_mem_append.mpr ⟨fit, by simpa using fits⟩) (by simpa using bare)
    simpa [Item.tokens, taken, wrap] using longer

theorem within_enclose {k : Nat} {c : Cmd (List Char)}
    (derives : ∀ ts : List Token, ts.map (piece buf) = pieces c → ∃ d, d.map (slice buf) = c ∧ Within (rank c) ts d)
    (shows : ts.map (piece buf) = enclose k c (pieces c)) : ∃ d, d.map (slice buf) = c ∧ Within k ts d := by
  rw [enclose] at shows
  split at shows
  · rename_i tight
    obtain ⟨d, same, within⟩ := derives ts shows
    exact ⟨d, same, within.mono tight⟩
  · obtain ⟨l, us, rfl, opened, shows⟩ := List.map_eq_cons_iff.mp shows
    obtain ⟨us, rs, rfl, inner, last⟩ := List.map_eq_append_iff.mp shows
    obtain ⟨r, nothing, rfl, closed, none_left⟩ := List.map_eq_cons_iff.mp last
    obtain rfl := List.map_eq_nil_iff.mp none_left
    obtain ⟨d, same, within⟩ := derives us inner
    have whole : Within 3 us d := within.mono (rank_le c)
    have block := Derives.block [] (tok_of_sign opened) whole (tok_of_sign closed) (by simp) rfl
    exact ⟨d, same, Within.mono (k := 0) block (Nat.zero_le _)⟩

theorem within_rank {c : Cmd (List Char)} (legible : Legible c) (shows : ts.map (piece buf) = pieces c) :
    ∃ d, d.map (slice buf) = c ∧ Within (rank c) ts d := by
  induction c generalizing ts with
  | exec argv =>
    obtain ⟨words, rfl⟩ := words_of_pieces shows
    obtain ⟨tokens, args, redirs⟩ := items_of_words ts
    have derived := Derives.exec (ts.map .arg) (by simpa [Item.Fits] using words)
      (by rw [args]; simpa using legible.1)
    rw [tokens, args, redirs] at derived
    exact ⟨_, by simp [wrap, Cmd.map, slice], derived⟩
  | redir cmd file mode fd ih =>
    obtain ⟨us, rs, rfl, inner, last⟩ := List.map_eq_append_iff.mp shows
    obtain ⟨op, rs, rfl, sign, last⟩ := List.map_eq_cons_iff.mp last
    obtain ⟨f, rs, rfl, named, none_left⟩ := List.map_eq_cons_iff.mp last
    obtain rfl := List.map_eq_nil_iff.mp none_left
    obtain ⟨word, same⟩ := word_of_piece named
    have op_tok := tok_of_sign sign
    obtain ⟨d, rfl, within⟩ := within_enclose (fun ts => ih legible.1) inner
    rcases legible.2.2 with ⟨rfl, rfl⟩ | ⟨rfl, rfl⟩
    · rw [if_pos rfl] at op_tok
      refine ⟨_, ?_, Derives.redir within ⟨by rw [op_tok]; decide, word⟩ (by rw [Item.redirection, if_pos op_tok])⟩
      simp [Cmd.map, same]
    · rw [if_neg (by decide)] at op_tok
      refine ⟨_, ?_, Derives.redir within ⟨by rw [op_tok]; decide, word⟩
        (by rw [Item.redirection, if_neg (by rw [op_tok]; decide)])⟩
      simp [Cmd.map, same]
  | pipe left right ihLeft ihRight =>
    obtain ⟨us, rs, rfl, first, last⟩ := List.map_eq_append_iff.mp shows
    obtain ⟨bar, vs, rfl, sign, second⟩ := List.map_eq_cons_iff.mp last
    obtain ⟨d, rfl, within⟩ := within_enclose (fun ts => ihLeft legible.1) first
    obtain ⟨e, rfl, rest⟩ := within_enclose (fun ts => ihRight legible.2) second
    exact ⟨.pipe d e, rfl, .pipe within (tok_of_sign sign) rest⟩
  | list left right ihLeft ihRight =>
    obtain ⟨us, rs, rfl, first, last⟩ := List.map_eq_append_iff.mp shows
    obtain ⟨semi, vs, rfl, sign, second⟩ := List.map_eq_cons_iff.mp last
    obtain ⟨d, rfl, vs', bs, e, piped, amps, rfl, rfl⟩ := within_enclose (fun ts => ihLeft legible.1) first
    obtain ⟨g, rfl, within⟩ := ihRight legible.2 second
    have rest : Within 3 vs g := within.mono (rank_le _)
    exact ⟨.list _ g, rfl, .list piped amps (tok_of_sign sign) rest⟩
  | back cmd ih =>
    obtain ⟨us, rs, rfl, first, last⟩ := List.map_eq_append_iff.mp shows
    obtain ⟨amp, vs, rfl, sign, none_left⟩ := List.map_eq_cons_iff.mp last
    obtain rfl := List.map_eq_nil_iff.mp none_left
    obtain ⟨d, rfl, vs', bs, e, piped, amps, rfl, rfl⟩ := within_enclose (fun ts => ih legible) first
    refine ⟨.back (Cmd.back^[bs.length] e), rfl, vs', bs ++ [amp], e, piped, ?_, List.append_assoc .., ?_⟩
    · exact List.forall_mem_append.mpr ⟨amps, by simpa using tok_of_sign sign⟩
    · rw [List.length_append, List.length_singleton, Function.iterate_succ_apply']

end Deriving

section Terminating

structure Bounded (buf : List Char) (w : Nat × Nat) : Prop where
  some_char : w.1 < w.2
  inside : w.2 ≤ buf.length
  dark : ∀ i, w.1 ≤ i → i < w.2 → ∃ c, buf[i]? = some c ∧ plain c
  ends : ∀ c ∈ buf[w.2]?, plain c = false

theorem Found.bounded {t : Token} (found : Found buf t) (word : t.tok = 'a') : Bounded buf (t.q, t.eq) := by
  have apart := found.lt
  cases found with
  | symbol here among other =>
    dsimp only at word
    rw [word] at among
    exact absurd among (by decide)
  | single here alone => cases word
  | double here next => cases word
  | @word c q here dark =>
    have stretch := scan_spec plain buf q
    exact ⟨apart.1, apart.2, stretch.1, stretch.2⟩

theorem lex_found (buf : List Char) (s : Nat) : ∀ t ∈ lex buf s, Found buf t := by
  induction ahead : lex buf s generalizing s with
  | nil => simp
  | cons t ts ih =>
    obtain ⟨-, rest, found⟩ := gettoken_of_lex ahead
    exact List.forall_mem_cons.mpr ⟨found, ih _ rest⟩

theorem words_wrap {W : Type} (redirs : List (Redir W)) (c : Cmd W) :
    (wrap redirs c).words = c.words ++ redirs.map (·.file) := by
  induction redirs generalizing c with
  | nil => exact (List.append_nil _).symm
  | cons r redirs ih =>
    change (wrap redirs (.redir c r.file r.mode r.fd)).words = _
    rw [ih, Cmd.words, List.map_cons, List.append_assoc, List.singleton_append]

theorem words_backs {W : Type} (n : Nat) (c : Cmd W) : (Cmd.back^[n] c).words = c.words := by
  induction n generalizing c with
  | zero => rfl
  | succ n ih => exact ih (.back c)

theorem words_items {items : List Item} (fit : ∀ i ∈ items, i.Fits) {w : Nat × Nat}
    (member : w ∈ items.filterMap Item.argument ∨ w ∈ (items.filterMap Item.redirection).map (·.file)) :
    ∃ t ∈ items.flatMap Item.tokens, t.tok = 'a' ∧ w = (t.q, t.eq) := by
  rcases member with member | member
  · obtain ⟨item, inside, taken⟩ := List.mem_filterMap.mp member
    cases item with
    | arg word =>
      exact ⟨word, List.mem_flatMap.mpr ⟨_, inside, List.mem_cons_self⟩, fit _ inside, (Option.some.inj taken).symm⟩
    | redir op file => cases taken
  · obtain ⟨r, found, rfl⟩ := List.mem_map.mp member
    obtain ⟨item, inside, taken⟩ := List.mem_filterMap.mp found
    cases item with
    | arg word => cases taken
    | redir op file =>
      have named : r.file = (file.q, file.eq) := by
        rw [Item.redirection] at taken
        split at taken <;> cases taken <;> rfl
      exact ⟨file, List.mem_flatMap.mpr ⟨_, inside, by simp [Item.tokens]⟩, (fit _ inside).2, named⟩

theorem Derives.words {level : Level} {ts : List Token} {c : Cmd (Nat × Nat)} (derived : Derives level ts c) :
    ∀ w ∈ c.words, ∃ t ∈ ts, t.tok = 'a' ∧ w = (t.q, t.eq) := by
  induction derived with
  | exec items fit few =>
    intro w member
    rw [words_wrap, List.mem_append] at member
    exact words_items fit member
  | block items opened inner closed fit bare ih =>
    intro w member
    rw [words_wrap, List.mem_append] at member
    rcases member with member | member
    · obtain ⟨t, inside, rest⟩ := ih w member
      exact ⟨t, by simp [inside], rest⟩
    · obtain ⟨t, inside, rest⟩ := words_items fit (.inr member)
      exact ⟨t, by simp [inside], rest⟩
  | single only ih => exact ih
  | pipe left bar right ihLeft ihRight =>
    intro w member
    rcases List.mem_append.mp member with member | member
    · obtain ⟨t, inside, rest⟩ := ihLeft w member
      exact ⟨t, by simp [inside], rest⟩
    · obtain ⟨t, inside, rest⟩ := ihRight w member
      exact ⟨t, by simp [inside], rest⟩
  | last first amps ih =>
    intro w member
    rw [words_backs] at member
    obtain ⟨t, inside, rest⟩ := ih w member
    exact ⟨t, by simp [inside], rest⟩
  | list first amps semi right ihFirst ihRight =>
    intro w member
    rcases List.mem_append.mp member with member | member
    · rw [words_backs] at member
      obtain ⟨t, inside, rest⟩ := ihFirst w member
      exact ⟨t, by simp [inside], rest⟩
    · obtain ⟨t, inside, rest⟩ := ihRight w member
      exact ⟨t, by simp [inside], rest⟩

theorem nulterminate_words (c : Cmd (Nat × Nat)) (buf : Pointers Char) :
    nulterminate c buf = c.words.foldl (fun (buf : Pointers Char) w => Function.update buf w.2 none) buf := by
  induction c generalizing buf with
  | exec argv => rfl
  | redir cmd file mode fd ih => rw [nulterminate, ih, Cmd.words, List.foldl_append, List.foldl_cons, List.foldl_nil]
  | pipe left right ihLeft ihRight => rw [nulterminate, ihRight, ihLeft, Cmd.words, List.foldl_append]
  | list left right ihLeft ihRight => rw [nulterminate, ihRight, ihLeft, Cmd.words, List.foldl_append]
  | back cmd ih => exact ih buf

/-- There is a NUL behind every word of the command, and nothing else changes. -/
theorem nulterminate_apply (c : Cmd (Nat × Nat)) (buf : Pointers Char) (i : Nat) :
    nulterminate c buf i = if i ∈ c.words.map Prod.snd then none else buf i := by
  rw [nulterminate_words]
  generalize c.words = ws
  induction ws generalizing buf with
  | nil => rfl
  | cons w ws ih =>
    rw [List.foldl_cons, ih, List.map_cons]
    by_cases here : i = w.2
    · simp [here]
    · simp only [Function.update_of_ne here, List.mem_cons, here, false_or]

theorem walk_word {c : Cmd (Nat × Nat)} (bounded : ∀ w ∈ c.words, Bounded buf w) {w : Nat × Nat}
    (member : w ∈ c.words) :
    (nulterminate c (Pointers.ofList buf)).walk w.1 (buf.length + 1) = some (slice buf w) := by
  have here := bounded w member
  have apart := here.some_char
  have inside := here.inside
  have size : (slice buf w).length = w.2 - w.1 := by
    rw [slice, List.length_take, List.length_drop]
    omega
  refine Pointers.walk_eq_some_iff.mpr ⟨Pointers.holds_of_apply fun j low => ?_, by omega⟩
  rw [nulterminate_apply]
  by_cases last : j = (slice buf w).length
  · have named : w.1 + j ∈ c.words.map Prod.snd := List.mem_map.mpr ⟨w, member, by omega⟩
    rw [if_pos named, last, List.getElem?_eq_none (Nat.le_refl _)]
  · -- the NULs stand where no word is
    have between : w.1 + j ∉ c.words.map Prod.snd := by
      intro named
      obtain ⟨w', member', same⟩ := List.mem_map.mp named
      obtain ⟨x, shown, dark⟩ := here.dark (w.1 + j) (Nat.le_add_right ..) (by omega)
      have light := (bounded w' member').ends x (by rw [same]; exact shown)
      rw [dark] at light
      cases light
    rw [if_neg between, Pointers.ofList, slice, List.getElem?_take_of_lt (by omega), List.getElem?_drop]

end Terminating

section Reading

theorem Bounded.word {w : Nat × Nat} (bounded : Bounded buf w) : Word (slice buf w) := by
  have apart := bounded.some_char
  have inside := bounded.inside
  have size : (slice buf w).length = w.2 - w.1 := by
    rw [slice, List.length_take, List.length_drop]
    omega
  refine ⟨fun none_left => ?_, fun c member => ?_⟩
  · rw [none_left, List.length_nil] at size
    omega
  · obtain ⟨i, low, here⟩ := List.mem_iff_getElem.mp member
    have shown : buf[w.1 + i]? = some c := by
      rw [← List.getElem?_drop, ← List.getElem?_take_of_lt (show i < w.2 - w.1 by omega), ← here]
      exact List.getElem?_eq_getElem low
    obtain ⟨d, shown', dark⟩ := bounded.dark (w.1 + i) (Nat.le_add_right ..) (by omega)
    rw [shown] at shown'
    exact Option.some.inj shown' ▸ dark

theorem legible_wrap {items : List Item} {c : Cmd (Nat × Nat)}
    (words : ∀ r ∈ items.filterMap Item.redirection, Word (slice buf r.file)) (legible : Legible (c.map (slice buf))) :
    Legible ((wrap (items.filterMap Item.redirection) c).map (slice buf)) := by
  induction items generalizing c with
  | nil => exact legible
  | cons item items ih =>
    cases item with
    | arg word => exact ih words legible
    | redir op file =>
      obtain ⟨r, taken⟩ := Item.exists_redirection op file
      rw [List.filterMap_cons_some taken] at words ⊢
      refine ih (c := .redir c r.file r.mode r.fd) (fun r member => words r (List.mem_cons_of_mem _ member)) ?_
      refine ⟨legible, words r List.mem_cons_self, ?_⟩
      rw [Item.redirection] at taken
      split at taken <;> cases taken
      · exact .inl ⟨rfl, rfl⟩
      · exact .inr ⟨rfl, rfl⟩

theorem legible_backs {c : Cmd (Nat × Nat)} (n : Nat) (legible : Legible (c.map (slice buf))) :
    Legible ((Cmd.back^[n] c).map (slice buf)) := by
  induction n generalizing c with
  | zero => exact legible
  | succ n ih => exact ih (c := .back c) legible

theorem Derives.legible {level : Level} {ts : List Token} {c : Cmd (Nat × Nat)} (derived : Derives level ts c)
    (words : ∀ w ∈ c.words, Word (slice buf w)) : Legible (c.map (slice buf)) := by
  induction derived with
  | @exec items fit few =>
    rw [words_wrap] at words
    refine legible_wrap (fun r member => words _ (List.mem_append_right _ (List.mem_map_of_mem member))) ?_
    refine ⟨by simpa using few, fun w member => ?_⟩
    obtain ⟨v, inside, rfl⟩ := List.mem_map.mp member
    exact words v (List.mem_append_left _ inside)
  | block items opened inner closed fit bare ih =>
    rw [words_wrap] at words
    exact legible_wrap (fun r member => words _ (List.mem_append_right _ (List.mem_map_of_mem member)))
      (ih fun w member => words w (List.mem_append_left _ member))
  | single only ih => exact ih words
  | pipe left bar right ihLeft ihRight =>
    exact ⟨ihLeft fun w member => words w (List.mem_append_left _ member),
      ihRight fun w member => words w (List.mem_append_right _ member)⟩
  | last first amps ih =>
    rw [words_backs] at words
    exact legible_backs _ (ih words)
  | list first amps semi right ihFirst ihRight =>
    rw [Cmd.words, words_backs] at words
    exact ⟨legible_backs _ (ihFirst fun w member => words w (List.mem_append_left _ member)),
      ihRight fun w member => words w (List.mem_append_right _ member)⟩

theorem Derives.bounded {c : Cmd (Nat × Nat)} (derived : Derives .line (lex buf 0) c) :
    ∀ w ∈ c.words, Bounded buf w := by
  intro w member
  obtain ⟨t, inside, word, rfl⟩ := derived.words w member
  exact (lex_found buf 0 t inside).bounded word

theorem parse_of_derives {c : Cmd (Nat × Nat)} (derived : Derives .line (lex buf 0) c) :
    parse buf = .ok ((c.map (slice buf)).map some) := by
  rw [parse, parsecmd_found derived, ok_bind]
  dsimp only
  rw [Cmd.map_map, Cmd.map_congr fun w member => walk_word derived.bounded member]
  rfl

/-- A command printed as a line is what the shell reads from it. -/
theorem parse_print {c : Cmd (List Char)} (legible : Legible c) : parse (print c) = .ok (c.map some) := by
  have shows := lex_render (fine_pieces legible) (show (print c).drop 0 = render (pieces c) from rfl)
  obtain ⟨d, same, within⟩ := within_rank legible shows
  have derived : Within 3 (lex (print c) 0) d := within.mono (rank_le c)
  rw [parse_of_derives derived, same]

theorem parse_legible {c : Cmd (Option (List Char))} (result : parse buf = .ok c) :
    ∃ d, Legible d ∧ c = d.map some := by
  rcases parsecmd_cases buf with ⟨d, derived, -⟩ | ⟨printed, fails⟩
  · rw [parse_of_derives derived] at result
    exact ⟨d.map (slice buf), derived.legible fun w member => (derived.bounded w member).word,
      (Except.ok.inj result).symm⟩
  · rw [parse, fails] at result
    cases result

end Reading

/-- A command whose words are plain, with nine of them at most for a program, comes back from the line
it is printed as; and from whatever line, the shell reads no other command. -/
theorem reads_back :
    (∀ c, Legible c → parse (print c) = .ok (c.map some)) ∧
      ∀ buf d, parse buf = .ok d → ∃ c, Legible c ∧ d = c.map some :=
  ⟨fun _ => parse_print, fun _ _ => parse_legible⟩

end OsLabs.Sh
