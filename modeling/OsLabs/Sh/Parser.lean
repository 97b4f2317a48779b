import OsLabs.Lib.Pointers
import OsLabs.Lib.Scanning

/-! sh.c: the parser of the xv6 shell. A pointer into the line is an index, and the NUL behind
the line is an index with no character. -/

set_option autoImplicit false

namespace OsLabs.Sh

open OsLabs.Lib

abbrev O_RDONLY : Nat := 0x000

abbrev O_WRONLY : Nat := 0x001

abbrev O_CREATE : Nat := 0x200

abbrev MAXARGS : Nat := 10

/-- `struct cmd` and the structures behind its types, over what stands for a word. -/
inductive Cmd (W : Type) where
  | exec (argv : List W)
  | redir (cmd : Cmd W) (file : W) (mode fd : Nat)
  | pipe (left right : Cmd W)
  | list (left right : Cmd W)
  | back (cmd : Cmd W)
  deriving DecidableEq, Repr

namespace Cmd

variable {V W : Type}

def map (f : V → W) : Cmd V → Cmd W
  | exec argv => exec (argv.map f)
  | redir cmd file mode fd => redir (cmd.map f) (f file) mode fd
  | pipe left right => pipe (left.map f) (right.map f)
  | list left right => list (left.map f) (right.map f)
  | back cmd => back (cmd.map f)

/-- The words of a command, in the order `nulterminate` comes to them. -/
def words : Cmd V → List V
  | exec argv => argv
  | redir cmd file _ _ => cmd.words ++ [file]
  | pipe left right => left.words ++ right.words
  | list left right => left.words ++ right.words
  | back cmd => cmd.words

theorem map_congr {f g : V → W} {c : Cmd V} (same : ∀ w ∈ c.words, f w = g w) : c.map f = c.map g := by
  induction c with
  | exec argv => exact congrArg exec (List.map_congr_left same)
  | redir cmd file mode fd ih =>
    simp only [words, List.mem_append, List.mem_singleton] at same
    simp only [map, ih fun w member => same w (.inl member), same file (.inr rfl)]
  | pipe left right ihLeft ihRight =>
    simp only [words, List.mem_append] at same
    simp only [map, ihLeft fun w member => same w (.inl member), ihRight fun w member => same w (.inr member)]
  | list left right ihLeft ihRight =>
    simp only [words, List.mem_append] at same
    simp only [map, ihLeft fun w member => same w (.inl member), ihRight fun w member => same w (.inr member)]
  | back cmd ih => simp only [map, ih same]

theorem map_map {U : Type} (f : U → V) (g : V → W) (c : Cmd U) : (c.map f).map g = c.map (g ∘ f) := by
  induction c with
  | exec argv => simp [map]
  | redir cmd file mode fd ih => simp [map, ih]
  | pipe left right ihLeft ihRight => simp [map, ihLeft, ihRight]
  | list left right ihLeft ihRight => simp [map, ihLeft, ihRight]
  | back cmd ih => simp [map, ih]

end Cmd

/-- Why a function of the parser does not return: `exit` after what it prints on descriptor 2, or
the bound on the calls here, which `parsecmd` never meets. -/
inductive Stop where
  | exit (printed : String)
  | fuel
  deriving DecidableEq, Repr

def panic {α : Type} (s : String) : Except Stop α := .error (.exit (s ++ "\n"))

theorem ok_bind {α β : Type} (a : α) (f : α → Except Stop β) : (Except.ok a >>= f) = f a := rfl

def whitespace : List Char := [' ', '\t', '\r', '\n', '\x0b']

def symbols : List Char := ['<', '|', '>', '&', ';', '(', ')']

def plain (c : Char) : Bool := c ∉ whitespace && c ∉ symbols

/-- What `gettoken` returns and stores: NUL, a symbol, `+` for `>>` or `a` for a word. -/
structure Token where
  tok : Char
  q : Nat
  eq : Nat
  deriving DecidableEq, Repr

section Parsing

variable (buf : List Char)

def skip (s : Nat) : Nat := scan (· ∈ whitespace) buf s

def gettoken (s : Nat) : Token × Nat :=
  let q := skip buf s
  let (ret, eq) :=
    match buf[q]? with
    | none => ('\x00', q)
    | some '>' => if buf[q + 1]? = some '>' then ('+', q + 2) else ('>', q + 1)
    | some c => if c ∈ symbols then (c, q + 1) else ('a', scan plain buf q)
  ({ tok := ret, q := q, eq := eq }, skip buf eq)

def peek (toks : List Char) (s : Nat) : Bool × Nat :=
  let s := skip buf s
  ((buf[s]?).any (· ∈ toks), s)

structure Redir (W : Type) where
  file : W
  mode : Nat
  fd : Nat
  deriving DecidableEq, Repr

/-- The commands that `redircmd` puts around one, the first innermost. -/
def wrap {W : Type} (redirs : List (Redir W)) (cmd : Cmd W) : Cmd W :=
  redirs.foldl (fun cmd r => .redir cmd r.file r.mode r.fd) cmd

/-- The loop of `parseredirs`; `redirs` are around the command already. -/
def parseredirs : Nat → List (Redir (Nat × Nat)) → Nat → Except Stop (List (Redir (Nat × Nat)) × Nat)
  | 0, _, _ => .error .fuel
  | n + 1, redirs, s =>
    let (found, s) := peek buf ['<', '>'] s
    if found then
      let (t, s) := gettoken buf s
      let (f, s) := gettoken buf s
      if f.tok ≠ 'a' then panic "missing file for redirection"
      else match t.tok with
        | '<' => parseredirs n (redirs ++ [{ file := (f.q, f.eq), mode := O_RDONLY, fd := 0 }]) s
        | '>' => parseredirs n (redirs ++ [{ file := (f.q, f.eq), mode := O_WRONLY ||| O_CREATE, fd := 1 }]) s
        | '+' => parseredirs n (redirs ++ [{ file := (f.q, f.eq), mode := O_WRONLY ||| O_CREATE, fd := 1 }]) s
        | _ => parseredirs n redirs s
    else .ok (redirs, s)

/-- The loop of `parseexec`, which fills `argv` inside the redirections. -/
def parseargs : Nat → List (Nat × Nat) → List (Redir (Nat × Nat)) → Nat → Except Stop (Cmd (Nat × Nat) × Nat)
  | 0, _, _, _ => .error .fuel
  | n + 1, argv, redirs, s =>
    let (found, s) := peek buf ['|', ')', '&', ';'] s
    if found then .ok (wrap redirs (.exec argv), s)
    else
      let (t, s) := gettoken buf s
      if t.tok = '\x00' then .ok (wrap redirs (.exec argv), s)
      else if t.tok ≠ 'a' then panic "syntax"
      else if (argv ++ [(t.q, t.eq)]).length ≥ MAXARGS then panic "too many args"
      else do
        let (redirs, s) ← parseredirs buf n redirs s
        parseargs n (argv ++ [(t.q, t.eq)]) redirs s

def parsebacks : Nat → Cmd (Nat × Nat) → Nat → Except Stop (Cmd (Nat × Nat) × Nat)
  | 0, _, _ => .error .fuel
  | n + 1, cmd, s =>
    let (found, s) := peek buf ['&'] s
    if found then
      let s := (gettoken buf s).2
      parsebacks n (.back cmd) s
    else .ok (cmd, s)

mutual

def parseline : Nat → Nat → Except Stop (Cmd (Nat × Nat) × Nat)
  | 0, _ => .error .fuel
  | n + 1, s => do
    let (cmd, s) ← parsepipe n s
    let (cmd, s) ← parsebacks buf n cmd s
    let (found, s) := peek buf [';'] s
    if found then
      let s := (gettoken buf s).2
      let (right, s) ← parseline n s
      .ok (.list cmd right, s)
    else .ok (cmd, s)

def parsepipe : Nat → Nat → Except Stop (Cmd (Nat × Nat) × Nat)
  | 0, _ => .error .fuel
  | n + 1, s => do
    let (cmd, s) ← parseexec n s
    let (found, s) := peek buf ['|'] s
    if found then
      let s := (gettoken buf s).2
      let (right, s) ← parsepipe n s
      .ok (.pipe cmd right, s)
    else .ok (cmd, s)

def parseexec : Nat → Nat → Except Stop (Cmd (Nat × Nat) × Nat)
  | 0, _ => .error .fuel
  | n + 1, s =>
    let (found, s) := peek buf ['('] s
    if found then parseblock n s
    else do
      let (redirs, s) ← parseredirs buf n [] s
      parseargs buf n [] redirs s

def parseblock : Nat → Nat → Except Stop (Cmd (Nat × Nat) × Nat)
  | 0, _ => .error .fuel
  | n + 1, s => do
    let (found, s) := peek buf ['('] s
    if !found then panic "parseblock"
    else
      let s := (gettoken buf s).2
      let (cmd, s) ← parseline n s
      let (found, s) := peek buf [')'] s
      if !found then panic "syntax - missing )"
      else
        let s := (gettoken buf s).2
        let (redirs, s) ← parseredirs buf n [] s
        .ok (wrap redirs cmd, s)

end

def nulterminate : Cmd (Nat × Nat) → Pointers Char → Pointers Char
  | .exec argv, buf => argv.foldl (fun buf w => Function.update buf w.2 none) buf
  | .redir cmd file _ _, buf => Function.update (nulterminate cmd buf) file.2 none
  | .pipe left right, buf => nulterminate right (nulterminate left buf)
  | .list left right, buf => nulterminate right (nulterminate left buf)
  | .back cmd, buf => nulterminate cmd buf

/-- The command, and the buffer of the line as `nulterminate` leaves it. -/
def parsecmd : Except Stop (Cmd (Nat × Nat) × Pointers Char) := do
  let (cmd, s) ← parseline buf (4 * buf.length + 4) 0
  let (_, s) := peek buf [] s
  if s ≠ buf.length then panic ("leftovers: " ++ String.ofList (buf.drop s) ++ "\nsyntax")
  else .ok (cmd, nulterminate cmd (Pointers.ofList buf))

/-- The command `runcmd` gets: each word is the string from its pointer on. -/
def parse : Except Stop (Cmd (Option (List Char))) := do
  let (cmd, nul) ← parsecmd buf
  .ok (cmd.map fun w => nul.walk w.1 (buf.length + 1))

end Parsing

end OsLabs.Sh
