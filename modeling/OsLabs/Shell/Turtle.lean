import Mathlib.Data.List.Induction
import OsLabs.Lib.Pointers
import OsLabs.Lib.Segments

/-! The turtle shell of turtle.c: what a line of tokens makes `main` do, and what comes of
the command that stands in `temparr`. Tokens are named by their positions in `tokens`, as
pointers to them; reading one that was freed has no outcome. -/

set_option autoImplicit false

namespace OsLabs.Shell.Turtle

open OsLabs.Lib

def maxNumTokens : Nat := 64

/-- A call of `chdir`, or of `execvp` with the file standard output was sent to, if any. -/
inductive Action where
  | chdir (dir : String)
  | exec (argv : List String) (stdout : Option String)
  deriving DecidableEq

inductive Outcome where
  | exited
  | acted (actions : List Action)
  deriving DecidableEq

/-- The locals of a process in the `;;` branch, the tokens it has freed, and its standard
output. -/
structure Proc where
  temparr : Pointers Nat
  tempCounter : Nat
  freed : List Nat
  stdout : Option String

def Proc.initial : Proc := ⟨Pointers.null, 0, [], none⟩

/-- The rest of `main` for this line, from a process and the calls made so far. -/
abbrev Rest := Proc → List Action → Option (List Action)

def lastPipe (words : List String) : Option Nat :=
  words.zipIdx.foldl (fun found (word, j) => if word = ">" then some j else found) none

section

variable (tokens : List String)

def Proc.string (s : Proc) (p : Nat) : Option String := if p ∈ s.freed then none else tokens[p]?

/-- `for (j = 0; j < last; j++) temparr11[j] = temparr[j]` into a new array. -/
def copy (temparr : Pointers Nat) (last : Nat) : Option (Pointers Nat) :=
  (List.range last).foldlM (fun temparr11 j => Pointers.store maxNumTokens temparr11 j (temparr j)) Pointers.null

-- whether the `execvp` that ends the calls made finds its command
variable (found : List Action → Bool)

/-- A child calls `execvp`; when that fails it goes on with the rest of `main`, and the
parent waits for it. -/
def launch (argv : List Nat) (child parent : Proc) (rest : Rest) (trace : List Action) : Option (List Action) := do
  let argv ← argv.mapM (child.string tokens)
  let trace := trace ++ [.exec argv child.stdout]
  (if found trace then some trace else rest child trace) >>= rest parent

/-- The command in `temparr`, with the pointer that `cd` reads. -/
def command (target : Option Nat) (rest : Rest) (s : Proc) (trace : List Action) : Option (List Action) := do
  let words ← s.temparr.read maxNumTokens
  let strings ← words.mapM (s.string tokens)
  match strings with
  | [] => rest s trace
  | first :: _ =>
    match lastPipe strings with
    | some nTempPipe =>
      match s.temparr (nTempPipe + 1) with
      | none => rest s trace
      | some file =>
        let temparr11 ← copy s.temparr nTempPipe
        -- the position of the last `>` of the line, not of the segment
        let nPipe ← lastPipe tokens
        let temparr11 ← temparr11.store maxNumTokens nPipe none
        let argv ← temparr11.read maxNumTokens
        let file ← s.string tokens file
        launch tokens found argv { s with stdout := some file } { s with freed := s.freed ++ argv } rest trace
    | none =>
      if first = "cd" then
        if s.tempCounter ≠ 2 then rest s trace
        else do
          let dir ← target
          let dir ← s.string tokens dir
          rest s (trace ++ [.chdir dir])
      else launch tokens found words s s rest trace

/-- The code for a line without `;;` and `>`, which a line with `;;` runs into as well. The
frees at its end come after every call and are left out. -/
def finish (s : Proc) (trace : List Action) : Option (List Action) := do
  let first ← s.string tokens 0
  if first = "cd" then
    if tokens.length ≠ 2 then some trace
    else do
      let dir ← s.string tokens 1
      return trace ++ [.chdir dir]
  else launch tokens found (List.range tokens.length) s s (fun _ trace => some trace) trace

/-- The loop over the tokens of a line with `;;`, and what follows it. -/
def loop : List Nat → Rest
  | [], s, trace => command tokens found (some 1) (finish tokens found) s trace
  | j :: js, s, trace => do
    let token ← s.string tokens j
    if token = ";;" then
      let temparr ← s.temparr.store maxNumTokens s.tempCounter none
      command tokens found (temparr 1) (fun s trace => do
        let temparr ← s.temparr.store maxNumTokens 0 none
        loop js { s with temparr, tempCounter := 0 } trace) { s with temparr } trace
    else
      let temparr ← s.temparr.store maxNumTokens s.tempCounter (some j)
      loop js { s with temparr, tempCounter := s.tempCounter + 1 } trace

def redirect (nPipe : Nat) : Option (List Action) :=
  match tokens[nPipe + 1]? with
  | none => some []
  | some _ => do
    let temparr ← copy (fun j => if j < tokens.length then some j else none) nPipe
    let temparr ← temparr.store maxNumTokens nPipe none
    let argv ← temparr.read maxNumTokens
    let file ← tokens[tokens.length - 1]?
    launch tokens found argv { Proc.initial with stdout := some file } Proc.initial (fun _ trace => some trace) []

def main : Option Outcome := do
  let first ← tokens.head?
  if first = "exit" then some .exited
  else
    let actions ←
      if ";;" ∈ tokens then loop tokens found (List.range tokens.length) Proc.initial []
      else match lastPipe tokens with
        | some nPipe => redirect tokens found nPipe
        | none => finish tokens found Proc.initial []
    return .acted actions

end

/-! ## Looking for `>` -/

theorem lastPipe_concat (words : List String) (word : String) :
    lastPipe (words ++ [word]) = if word = ">" then some words.length else lastPipe words := by
  rw [lastPipe, List.zipIdx_append, List.foldl_append, Nat.zero_add]
  rfl

theorem lastPipe_of_notMem {words : List String} (plain : ">" ∉ words) : lastPipe words = none := by
  induction words using List.reverseRecOn with
  | nil => rfl
  | append_singleton words word ih =>
    rw [List.mem_append, not_or, List.mem_singleton] at plain
    rw [lastPipe_concat, if_neg (Ne.symm plain.2), ih plain.1]

theorem lastPipe_append_cons (before : List String) {behind : List String} (last : ">" ∉ behind) :
    lastPipe (before ++ ">" :: behind) = some before.length := by
  induction behind using List.reverseRecOn with
  | nil => rw [lastPipe_concat, if_pos rfl]
  | append_singleton behind word ih =>
    rw [List.mem_append, not_or, List.mem_singleton] at last
    rw [← List.cons_append, ← List.append_assoc, lastPipe_concat, if_neg (Ne.symm last.2), ih last.1]

theorem lastPipe_ge {words : List String} {q : Nat} (pipe : words[q]? = some ">") :
    ∃ p, lastPipe words = some p ∧ q ≤ p ∧ p < words.length := by
  induction words using List.reverseRecOn with
  | nil => cases pipe
  | append_singleton words word ih =>
    rw [lastPipe_concat, List.length_append, List.length_singleton]
    obtain ⟨inside, same⟩ := List.getElem?_eq_some_iff.mp pipe
    rw [List.length_append, List.length_singleton] at inside
    by_cases here : word = ">"
    · exact ⟨_, if_pos here, by omega, by omega⟩
    · rw [if_neg here]
      by_cases last : q < words.length
      · rw [List.getElem?_append_left last] at pipe
        obtain ⟨p, eq, low, high⟩ := ih pipe
        exact ⟨p, eq, low, by omega⟩
      · rw [show q = words.length by omega, List.getElem?_concat_length] at pipe
        exact absurd (Option.some.inj pipe) here

/-! ## The strings of pointers -/

theorem mapM_eq_some {α β : Type*} {f : α → Option β} {xs : List α} {ys : List β} (each : xs.map f = ys.map some) :
    xs.mapM f = some ys := by
  induction xs generalizing ys with
  | nil => cases ys with
    | nil => rfl
    | cons y ys => cases each
  | cons x xs ih => cases ys with
    | nil => cases each
    | cons y ys =>
      obtain ⟨first, later⟩ := List.cons_eq_cons.mp each
      rw [List.mapM_cons, first, ih later]
      rfl

theorem mapM_eq_none {α β : Type*} {f : α → Option β} {xs : List α} {x : α} (member : x ∈ xs) (failed : f x = none) :
    xs.mapM f = none := by
  induction xs with
  | nil => cases member
  | cons y xs ih =>
    rw [List.mapM_cons]
    rcases List.mem_cons.mp member with rfl | later
    · rw [failed]
      rfl
    · rw [ih later]
      cases f y <;> rfl

theorem copy_eq {temparr : Pointers Nat} {words : List Nat} (holds : Pointers.Holds temparr 0 words)
    (few : words.length < 64) {last : Nat} (inside : last ≤ words.length) :
    copy temparr last = some (Pointers.ofList (words.take last)) := by
  rw [copy]
  induction last with
  | zero => rw [List.take_zero, Pointers.ofList_nil]; rfl
  | succ last ih =>
    have here : temparr last = some words[last] := by
      rw [← List.getElem?_eq_getElem, ← holds.apply_eq (Nat.le_of_lt inside), Nat.zero_add]
    have length : (words.take last).length = last := List.length_take_of_le (Nat.le_of_lt inside)
    have stored := Pointers.update_ofList (words.take last) [] words[last]
    rw [List.append_nil, length] at stored
    rw [List.range_succ, List.foldlM_append, ih (Nat.le_of_lt inside)]
    change (Pointers.store maxNumTokens (Pointers.ofList (words.take last)) last (temparr last) >>= pure) = _
    rw [here, Pointers.store_of_lt _ _ (show last < maxNumTokens from Nat.lt_trans inside few), stored,
      List.take_add_one, List.getElem?_eq_getElem inside]
    rfl

/-! ## What a command does -/

section

variable (found : List Action → Bool)

def fails (trace : List Action) : Action → Bool
  | .chdir _ => false
  | .exec argv stdout => !found (trace ++ [.exec argv stdout])

/-- A call, made by a child that goes on when it fails, and the parent's going on. -/
def forked (a : Action) (child parent : Proc) (rest : Rest) (trace : List Action) : Option (List Action) :=
  (if fails found trace a then rest child (trace ++ [a]) else some (trace ++ [a])).bind (rest parent)

end

structure Spelled (tokens : List String) (s : Proc) (words : List Nat) (strings : List String) : Prop where
  holds : Pointers.Holds s.temparr 0 words
  few : words.length < 64
  each : words.map (s.string tokens) = strings.map some

variable {tokens : List String} {found : List Action → Bool} {s : Proc} {words : List Nat} {strings : List String}
  {target : Option Nat} {rest : Rest} {trace : List Action}

theorem Proc.string_eq_some_iff {q : Nat} {t : String} :
    s.string tokens q = some t ↔ q ∉ s.freed ∧ tokens[q]? = some t := by
  rw [Proc.string]
  split_ifs with gone <;> simp [gone]

theorem launch_eq {child parent : Proc} (each : words.map (child.string tokens) = strings.map some) :
    launch tokens found words child parent rest trace =
      forked found (.exec strings child.stdout) child parent rest trace := by
  rw [launch, mapM_eq_some each, forked, fails]
  change Option.bind (if found (trace ++ [Action.exec strings child.stdout]) = true then _ else _) _ = _
  cases found (trace ++ [Action.exec strings child.stdout]) <;> rfl

theorem Spelled.length_eq (spelled : Spelled tokens s words strings) : words.length = strings.length := by
  simpa using congrArg List.length spelled.each

theorem Spelled.read_eq (spelled : Spelled tokens s words strings) : s.temparr.read maxNumTokens = some words :=
  Pointers.read_eq_some_iff.mpr ⟨spelled.holds, spelled.few⟩

theorem command_freed (read : s.temparr.read maxNumTokens = some words) {q : Nat} (member : q ∈ words)
    (gone : q ∈ s.freed) : command tokens found target rest s trace = none := by
  rw [command, read]
  change (words.mapM (s.string tokens)).bind _ = none
  rw [mapM_eq_none member (if_pos gone)]
  rfl

theorem command_empty (spelled : Spelled tokens s [] []) : command tokens found target rest s trace = rest s trace := by
  rw [command, spelled.read_eq]
  rfl

theorem command_plain (spelled : Spelled tokens s words strings) (nonempty : strings ≠ []) (plain : ">" ∉ strings)
    (other : strings.head? ≠ some "cd") :
    command tokens found target rest s trace = forked found (.exec strings s.stdout) s s rest trace := by
  cases strings with
  | nil => exact absurd rfl nonempty
  | cons first more =>
    rw [command, spelled.read_eq]
    change (words.mapM (s.string tokens)).bind _ = _
    rw [mapM_eq_some spelled.each, Option.bind_some, lastPipe_of_notMem plain]
    change (if first = "cd" then _ else _) = _
    rw [if_neg fun same => other (congrArg some same)]
    exact launch_eq spelled.each

theorem command_cd (spelled : Spelled tokens s words strings) (plain : ">" ∉ strings)
    (cd : strings.head? = some "cd") (two : s.tempCounter = 2) :
    command tokens found target rest s trace =
      (target.bind (s.string tokens)).bind fun dir => forked found (.chdir dir) s s rest trace := by
  cases strings with
  | nil => cases cd
  | cons first more =>
    rw [command, spelled.read_eq]
    change (words.mapM (s.string tokens)).bind _ = _
    rw [mapM_eq_some spelled.each, Option.bind_some, lastPipe_of_notMem plain]
    change (if first = "cd" then _ else _) = _
    rw [if_pos (Option.some.inj cd), if_neg (not_not.mpr two), Option.bind_assoc]
    rfl

theorem command_redirect {before behind : List String} {file : String} (short : tokens.length < 64)
    (spelled : Spelled tokens s words (before ++ ">" :: file :: behind)) (last : ">" ∉ file :: behind)
    (ahead : ∀ i q, s.temparr i = some q → i ≤ q) :
    command tokens found target rest s trace =
      forked found (.exec before (some file)) { s with stdout := some file }
        { s with freed := s.freed ++ words.take before.length } rest trace := by
  have length : words.length = before.length + (behind.length + 2) := by
    rw [spelled.length_eq, List.length_append, List.length_cons, List.length_cons]
  have entry : ∀ j < words.length, ∃ q, s.temparr j = some q ∧
      s.string tokens q = (before ++ ">" :: file :: behind)[j]? := by
    intro j inside
    have held := spelled.holds.apply_eq (Nat.le_of_lt inside)
    rw [Nat.zero_add, List.getElem?_eq_getElem inside] at held
    have spelling := congrArg (·[j]?) spelled.each
    simp only [List.getElem?_map, List.getElem?_eq_getElem inside, Option.map_some] at spelling
    refine ⟨words[j], held, ?_⟩
    rw [spelled.length_eq] at inside
    rw [List.getElem?_eq_getElem inside] at spelling ⊢
    exact Option.some.inj spelling
  obtain ⟨p, pointer, pipe⟩ := entry before.length (by omega)
  obtain ⟨q, next, named⟩ := entry (before.length + 1) (by omega)
  have pipe : tokens[p]? = some ">" := by
    rw [List.getElem?_append_right (Nat.le_refl _), Nat.sub_self] at pipe
    exact (Proc.string_eq_some_iff.mp pipe).2
  have named : s.string tokens q = some file := by simpa [List.getElem?_append_right] using named
  obtain ⟨nPipe, found_at, low, high⟩ := lastPipe_ge pipe
  have inside : before.length ≤ words.length := by omega
  have taken : (words.take before.length).length = before.length := List.length_take_of_le inside
  have stored : Pointers.store maxNumTokens (Pointers.ofList (words.take before.length)) nPipe none =
      some (Pointers.ofList (words.take before.length)) := by
    have := ahead _ _ pointer
    rw [Pointers.store_of_lt _ _ (show nPipe < maxNumTokens from Nat.lt_trans high short),
      Pointers.update_ofList_none (by omega)]
  have spelled_before : (words.take before.length).map (Proc.string tokens { s with stdout := some file }) = before.map some := by
    change (words.take before.length).map (s.string tokens) = _
    rw [List.map_take, spelled.each, List.map_append, List.take_left' (by rw [List.length_map])]
  cases cut : before ++ ">" :: file :: behind with
  | nil => simp at cut
  | cons first more =>
    rw [command, spelled.read_eq]
    change (words.mapM (s.string tokens)).bind _ = _
    rw [mapM_eq_some spelled.each, Option.bind_some, lastPipe_append_cons before last, cut]
    change (match s.temparr (before.length + 1) with | none => _ | some file => _) = _
    rw [next]
    change (copy s.temparr before.length).bind _ = _
    rw [copy_eq spelled.holds spelled.few inside]
    change (lastPipe tokens).bind _ = _
    rw [found_at]
    change (Pointers.store maxNumTokens _ nPipe none).bind _ = _
    rw [stored]
    change (Pointers.read maxNumTokens _).bind _ = _
    rw [Pointers.read_ofList (by rw [taken]; exact Nat.lt_of_le_of_lt inside spelled.few)]
    change (s.string tokens q).bind _ = _
    rw [named]
    exact launch_eq spelled_before

end OsLabs.Shell.Turtle
