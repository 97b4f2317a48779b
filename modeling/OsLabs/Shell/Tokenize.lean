import OsLabs.Lib.Pointers
import OsLabs.Lib.Words

/-! `tokenize`, the same in the three shells: a line, to which its caller has appended a
newline, is cut into words in a buffer of `MAX_TOKEN_SIZE` characters, and each is copied to
an entry of the array returned. A string in a buffer ends at its NUL as an array of pointers
does at NULL, so both are `Pointers`; their memory comes from `malloc` with anything in it. -/

set_option autoImplicit false

namespace OsLabs.Shell

open OsLabs.Lib

def maxTokenSize : Nat := 64
def maxNumTokens : Nat := 64

def isSeparator (c : Char) : Bool := c == ' ' || c == '\n' || c == '\t'

structure Scan where
  token : Pointers Char
  tokenIndex : Nat
  tokens : Pointers String
  tokenNo : Nat

/-- One round of the loop; `none` is an index outside `token` or `tokens`. -/
def Scan.char (s : Scan) (readChar : Char) : Option Scan :=
  if isSeparator readChar then do
    let token ← Pointers.store maxTokenSize s.token s.tokenIndex none
    if s.tokenIndex ≠ 0 then
      -- `strcpy` into as many characters
      let copied ← token.read maxTokenSize
      let tokens ← Pointers.store maxNumTokens s.tokens s.tokenNo (some (String.ofList copied))
      pure { token, tokenIndex := 0, tokens, tokenNo := s.tokenNo + 1 }
    else pure { s with token }
  else do
    let token ← Pointers.store maxTokenSize s.token s.tokenIndex (some readChar)
    pure { s with token, tokenIndex := s.tokenIndex + 1 }

def tokenize (token : Pointers Char) (tokens : Pointers String) (line : List Char) : Option (Pointers String) := do
  let s ← line.foldlM Scan.char { token, tokenIndex := 0, tokens, tokenNo := 0 }
  Pointers.store maxNumTokens s.tokens s.tokenNo none

def lineWords (line : List Char) : List String := (words isSeparator line).map String.ofList

section Scanning

variable {s : Scan} {done : List String} {word : List Char}

/-- The tokens so far, and what there is of the next. -/
structure Partly (s : Scan) (done : List String) (word : List Char) : Prop where
  plain : ∀ c ∈ word, isSeparator c = false
  token : Pointers.Fills s.token word
  index : s.tokenIndex = word.length
  tokens : Pointers.Fills s.tokens done
  number : s.tokenNo = done.length

theorem Partly.separator (partly : Partly s done word) {c : Char} (separates : isSeparator c = true)
    (short : word.length < maxTokenSize) (few : word ≠ [] → done.length < maxNumTokens) :
    ∃ s', s.char c = some s' ∧ Partly s' (done ++ lineWords word) [] := by
  rw [Scan.char, if_pos separates, partly.index, Pointers.store_of_lt _ _ short]
  by_cases empty : word = []
  · subst empty
    have none_yet : lineWords [] = [] := rfl
    rw [none_yet, List.append_nil]
    exact ⟨_, rfl, nofun, Pointers.fills_nil _, rfl, partly.tokens, partly.number⟩
  · have copied := partly.token.read short
    have room := few empty
    have named : lineWords word = [String.ofList word] := by rw [lineWords, words_plain partly.plain empty]; rfl
    have some_char : word.length ≠ 0 := fun none_left => empty (List.eq_nil_of_length_eq_zero none_left)
    rw [named]
    simp only [Option.bind_eq_bind, Option.bind_some, if_pos some_char, copied, partly.number,
      Pointers.store_of_lt _ _ room, Option.pure_def]
    exact ⟨_, rfl, nofun, Pointers.fills_nil _, rfl, partly.tokens.snoc _, by simp⟩

theorem Partly.character (partly : Partly s done word) {c : Char} (other : isSeparator c = false)
    (short : word.length < maxTokenSize) : ∃ s', s.char c = some s' ∧ Partly s' done (word ++ [c]) := by
  rw [Scan.char, if_neg (Bool.eq_false_iff.mp other), partly.index, Pointers.store_of_lt _ _ short]
  refine ⟨_, rfl, ?_, partly.token.snoc c, by simp, partly.tokens, partly.number⟩
  intro d member
  rcases List.mem_append.mp member with before | last
  · exact partly.plain d before
  · rw [List.mem_singleton.mp last]
    exact other

theorem lineWords_append_cons (before rest : List Char) {c : Char} (separates : isSeparator c = true) :
    lineWords (before ++ c :: rest) = lineWords before ++ lineWords rest := by
  rw [lineWords, words_append_cons before rest separates, List.map_append]
  rfl

theorem Partly.short (partly : Partly s done word) (rest : List Char)
    (short : ∀ w ∈ words isSeparator (word ++ rest), w.length < maxTokenSize) : word.length < maxTokenSize := by
  by_cases empty : word = []
  · rw [empty]
    decide
  · obtain ⟨w, member, long⟩ := exists_word partly.plain empty rest
    exact Nat.lt_of_le_of_lt long (short w member)

theorem Partly.line {line : List Char} (partly : Partly s done word)
    (short : ∀ w ∈ words isSeparator (word ++ line), w.length < maxTokenSize)
    (few : (done ++ lineWords (word ++ line)).length < maxNumTokens) :
    ∃ s', (line ++ ['\n']).foldlM Scan.char s = some s' ∧ Partly s' (done ++ lineWords (word ++ line)) [] := by
  induction line generalizing s done word with
  | nil =>
    rw [List.append_nil] at short few ⊢
    obtain ⟨s', ended, partly'⟩ := partly.separator (c := '\n') rfl (partly.short [] (by rwa [List.append_nil]))
      fun _ => by rw [List.length_append] at few; omega
    exact ⟨s', by simp [ended], partly'⟩
  | cons c line ih =>
    by_cases separates : isSeparator c = true
    · rw [lineWords_append_cons word line separates, ← List.append_assoc] at few
      obtain ⟨s₁, ended, partly₁⟩ := partly.separator separates (partly.short _ short)
        fun _ => by simp only [List.length_append] at few; omega
      have short₁ : ∀ w ∈ words isSeparator ([] ++ line), w.length < maxTokenSize := by
        intro w member
        rw [words_append_cons word line separates] at short
        exact short w (List.mem_append_right _ member)
      obtain ⟨s', rest, partly'⟩ := ih partly₁ short₁ few
      refine ⟨s', ?_, ?_⟩
      · rw [List.cons_append, List.foldlM_cons, ended]
        exact rest
      · rw [lineWords_append_cons word line separates, ← List.append_assoc]
        exact partly'
    · obtain ⟨s₁, kept, partly₁⟩ := partly.character (Bool.eq_false_iff.mpr separates) (partly.short _ short)
      rw [List.append_cons word c line] at short few ⊢
      obtain ⟨s', rest, partly'⟩ := ih partly₁ short few
      refine ⟨s', ?_, partly'⟩
      rw [List.cons_append, List.foldlM_cons, kept]
      exact rest

end Scanning

/-- A line of fewer than 64 words, each of fewer than 64 characters, comes back as its words,
and so does what is joined from words with any separators between them. -/
theorem tokenize_words (token : Pointers Char) (tokens : Pointers String) (line : List Char)
    (short : ∀ w ∈ words isSeparator line, w.length < maxTokenSize) (few : (lineWords line).length < maxNumTokens) :
    ∃ r, tokenize token tokens (line ++ ['\n']) = some r ∧ r.read maxNumTokens = some (lineWords line) ∧
      ∀ ws, Joined isSeparator line ws → r.read maxNumTokens = some (ws.map String.ofList) := by
  have start : Partly { token, tokenIndex := 0, tokens, tokenNo := 0 } [] [] :=
    ⟨nofun, Pointers.fills_nil _, rfl, Pointers.fills_nil _, rfl⟩
  obtain ⟨s, scanned, partly⟩ := start.line short few
  have length : s.tokenNo = (lineWords line).length := partly.number
  have read : Pointers.read maxNumTokens (Function.update s.tokens s.tokenNo none) = some (lineWords line) := by
    rw [length]
    exact Pointers.Fills.read partly.tokens few
  refine ⟨_, ?_, read, fun ws joined => ?_⟩
  · rw [tokenize, scanned, Option.bind_eq_bind, Option.bind_some]
    exact Pointers.store_of_lt _ _ (length ▸ few)
  · rw [read, lineWords, words_joined joined]

theorem tokenize_words_ls : ∃ r, tokenize (fun _ => some 'x') (fun _ => some "x") (['l', 's', ' ', '\t', '-', 'l'] ++ ['\n']) = some r ∧
    r.read maxNumTokens = some (lineWords ['l', 's', ' ', '\t', '-', 'l']) ∧
      ∀ ws, Joined isSeparator ['l', 's', ' ', '\t', '-', 'l'] ws → r.read maxNumTokens = some (ws.map String.ofList) :=
  tokenize_words _ _ _ (by decide +kernel) (by decide +kernel)

example : lineWords ['l', 's', ' ', '\t', '-', 'l'] = ["ls", "-l"] := by decide +kernel

end OsLabs.Shell
