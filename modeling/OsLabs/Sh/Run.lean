import Mathlib.Logic.Function.Basic
import OsLabs.Sh.RoundTrip

/-! sh.c: `runcmd`. A command becomes processes, and each program that is run has the descriptors
its process has then. -/

set_option autoImplicit false

namespace OsLabs.Sh

abbrev NOFILE : Nat := 16

abbrev O_RDWR : Nat := 0x002

/-- A way down a command: the subcommands taken, the last first. -/
abbrev Node : Type := List Bool

/-- What a descriptor refers to: a file of the shell, a file opened for a redirection, an end of the
pipe of a command. -/
inductive File where
  | inherited (fd : Nat)
  | opened (file : List Char) (mode : Nat)
  | pipeRead (node : Node)
  | pipeWrite (node : Node)
  deriving DecidableEq, Repr

abbrev Table : Type := Nat → Option File

namespace Table

def close (t : Table) (fd : Nat) : Table := Function.update t fd none

def fdalloc (t : Table) (f : File) : Option (Nat × Table) :=
  ((List.range NOFILE).find? fun fd => (t fd).isNone).map fun fd => (fd, Function.update t fd (some f))

/-- `dup`, whose result `runcmd` does not look at. -/
def dup (t : Table) (fd : Nat) : Table :=
  match t fd with
  | none => t
  | some f =>
    match t.fdalloc f with
    | none => t
    | some (_, t) => t

end Table

/-- The loop at the start of `main`, with whether its calls of `open` find the console; there is a
free descriptor for it. -/
def openConsole (finds : Nat → Bool) : Nat → Table → Table
  | 0, t => t
  | n + 1, t =>
    if finds n then
      match t.fdalloc (.opened "console".toList O_RDWR) with
      | none => t
      | some (fd, t) => if fd ≥ 3 then t.close fd else openConsole finds n t
    else t

inductive Call where
  | open
  | pipe
  | forkLeft
  | forkRight
  deriving DecidableEq, Repr

structure Launch where
  argv : List (List Char)
  table : Table

variable (succeeds : Node → Call → Bool)

/-- The programs that `runcmd` runs in its process and those it forks. A redirection whose `open` fails
and a panic end the process. -/
def runcmd (node : Node) : Cmd (List Char) → Table → List Launch
  | .exec argv, t => if argv = [] then [] else [{ argv, table := t }]
  | .redir cmd file mode fd, t =>
    let t := t.close fd
    if succeeds node .open then
      match t.fdalloc (.opened file mode) with
      | none => []
      | some (_, t) => runcmd (false :: node) cmd t
    else []
  | .list left right, t =>
    if succeeds node .forkLeft then runcmd (false :: node) left t ++ runcmd (true :: node) right t else []
  | .pipe left right, t =>
    if succeeds node .pipe then
      match t.fdalloc (.pipeRead node) with
      | none => []
      | some (p0, t) =>
        match t.fdalloc (.pipeWrite node) with
        | none => []
        | some (p1, t) =>
          if succeeds node .forkLeft then
            runcmd (false :: node) left ((((t.close 1).dup p1).close p0).close p1) ++
              if succeeds node .forkRight then
                runcmd (true :: node) right ((((t.close 0).dup p0).close p0).close p1)
              else []
          else []
    else []
  | .back cmd, t => if succeeds node .forkLeft then runcmd (false :: node) cmd t else []

section Descriptors

def streams (input output error : File) : Table
  | 0 => some input
  | 1 => some output
  | 2 => some error
  | _ => none

variable {t : Table} {input output error f : File}

theorem streams_of_lt {fd : Nat} (high : 3 ≤ fd) : streams input output error fd = none := by
  match fd with
  | _ + 3 => rfl

theorem fdalloc_of_first {k : Nat} (few : k < NOFILE) (free : t k = none) (taken : ∀ j < k, (t j).isSome) :
    t.fdalloc f = some (k, Function.update t k (some f)) := by
  have first : (List.range NOFILE).find? (fun fd => (t fd).isNone) = some k := by
    rw [List.find?_range_eq_some]
    refine ⟨by simp [free], List.mem_range.mpr few, fun j before => ?_⟩
    simpa [Option.isSome_iff_ne_none] using taken j before
  rw [Table.fdalloc, first, Option.map_some]

theorem streams_of_apply (first : t 0 = some input) (second : t 1 = some output) (third : t 2 = some error)
    (none_else : ∀ fd, 3 ≤ fd → t fd = none) : t = streams input output error := by
  funext fd
  match fd with
  | 0 => exact first
  | 1 => exact second
  | 2 => exact third
  | fd + 3 => exact none_else _ (Nat.le_add_left ..)

theorem fdalloc_close_input :
    ((streams input output error).close 0).fdalloc f = some (0, streams f output error) := by
  have free : (streams input output error).close 0 0 = none := Function.update_self ..
  rw [fdalloc_of_first (by decide) free (fun j before => absurd before (Nat.not_lt_zero j))]
  refine congrArg (fun t => some (0, t)) (streams_of_apply rfl rfl rfl fun fd high => ?_)
  rw [Function.update_of_ne (by omega), Table.close, Function.update_of_ne (by omega), streams_of_lt high]

theorem fdalloc_close_output :
    ((streams input output error).close 1).fdalloc f = some (1, streams input f error) := by
  have free : (streams input output error).close 1 1 = none := Function.update_self ..
  have taken : ∀ j < 1, ((streams input output error).close 1 j).isSome := by
    intro j before
    rw [Nat.lt_one_iff.mp before]
    rfl
  rw [fdalloc_of_first (by decide) free taken]
  refine congrArg (fun t => some (1, t)) (streams_of_apply rfl rfl rfl fun fd high => ?_)
  rw [Function.update_of_ne (by omega), Table.close, Function.update_of_ne (by omega), streams_of_lt high]

def piped (input output error : File) (node : Node) : Table :=
  Function.update (Function.update (streams input output error) 3 (some (.pipeRead node))) 4 (some (.pipeWrite node))

theorem fdalloc_streams : (streams input output error).fdalloc f =
    some (3, Function.update (streams input output error) 3 (some f)) :=
  fdalloc_of_first (by decide) rfl fun j before => by
    match j with
    | 0 | 1 | 2 => rfl

theorem fdalloc_piped {node : Node} :
    Table.fdalloc (Function.update (streams input output error) 3 (some (.pipeRead node))) (.pipeWrite node) =
      some (4, piped input output error node) :=
  fdalloc_of_first (by decide) rfl fun j before => by
    match j with
    | 0 | 1 | 2 | 3 => rfl

theorem left_of_piped {node : Node} : ((((piped input output error node).close 1).dup 4).close 3).close 4 =
    streams input (.pipeWrite node) error := by
  have held : (piped input output error node).close 1 4 = some (.pipeWrite node) := rfl
  have taken : ((piped input output error node).close 1).fdalloc (.pipeWrite node) =
      some (1, Function.update ((piped input output error node).close 1) 1 (some (.pipeWrite node))) :=
    fdalloc_of_first (by decide) rfl fun j before => by
      rw [Nat.lt_one_iff.mp before]
      rfl
  rw [Table.dup, held]
  dsimp only
  rw [taken]
  refine streams_of_apply rfl rfl rfl fun fd high => ?_
  match fd with
  | 3 | 4 => rfl
  | _ + 5 => rfl

theorem right_of_piped {node : Node} : ((((piped input output error node).close 0).dup 3).close 3).close 4 =
    streams (.pipeRead node) output error := by
  have held : (piped input output error node).close 0 3 = some (.pipeRead node) := rfl
  have taken : ((piped input output error node).close 0).fdalloc (.pipeRead node) =
      some (0, Function.update ((piped input output error node).close 0) 0 (some (.pipeRead node))) :=
    fdalloc_of_first (by decide) rfl fun j before => absurd before (Nat.not_lt_zero j)
  rw [Table.dup, held]
  dsimp only
  rw [taken]
  refine streams_of_apply rfl rfl rfl fun fd high => ?_
  match fd with
  | 3 | 4 => rfl
  | _ + 5 => rfl

end Descriptors

section Flow

variable (succeeds : Node → Call → Bool)

/-- What a command means for the programs in it, by where each reads and writes. -/
def flow (node : Node) : Cmd (List Char) → File → File → File → List Launch
  | .exec argv, input, output, error => if argv = [] then [] else [{ argv, table := streams input output error }]
  | .redir cmd file mode fd, input, output, error =>
    if succeeds node .open then
      if fd = 0 then flow (false :: node) cmd (.opened file mode) output error
      else flow (false :: node) cmd input (.opened file mode) error
    else []
  | .list left right, input, output, error =>
    if succeeds node .forkLeft then
      flow (false :: node) left input output error ++ flow (true :: node) right input output error
    else []
  | .pipe left right, input, output, error =>
    if succeeds node .pipe && succeeds node .forkLeft then
      flow (false :: node) left input (.pipeWrite node) error ++
        if succeeds node .forkRight then flow (true :: node) right (.pipeRead node) output error else []
    else []
  | .back cmd, input, output, error =>
    if succeeds node .forkLeft then flow (false :: node) cmd input output error else []

theorem runcmd_flow {c : Cmd (List Char)} (legible : Legible c) (node : Node) (input output error : File) :
    runcmd succeeds node c (streams input output error) = flow succeeds node c input output error := by
  induction c generalizing node input output with
  | exec argv => rfl
  | redir cmd file mode fd ih =>
    obtain ⟨inner, -, ends⟩ := legible
    rw [runcmd, flow]
    split
    · rcases ends with ⟨-, rfl⟩ | ⟨-, rfl⟩
      · rw [fdalloc_close_input]
        exact ih inner ..
      · rw [fdalloc_close_output]
        exact ih inner ..
    · rfl
  | pipe left right ihLeft ihRight =>
    rw [runcmd, flow, fdalloc_streams]
    dsimp only
    rw [fdalloc_piped]
    dsimp only
    rw [left_of_piped, right_of_piped, ihLeft legible.1, ihRight legible.2]
    cases succeeds node .pipe <;> cases succeeds node .forkLeft <;> rfl
  | list left right ihLeft ihRight => rw [runcmd, flow, ihLeft legible.1, ihRight legible.2]
  | back cmd ih => rw [runcmd, flow, ih legible]

end Flow

section Console

variable {finds : Nat → Bool}

/-- With `k` descriptors open from the first on, the rounds left are enough to open the others. -/
def Opens (finds : Nat → Bool) (k : Nat) : Prop :=
  ∀ (n : Nat) (t : Table), 4 ≤ n + k → (∀ j < k, (t j).isSome) → (∀ fd, 3 ≤ fd → t fd = none) →
    ∃ input output error, openConsole finds n t = streams input output error

theorem opens_three (finds : Nat → Bool) : Opens finds 3 := by
  intro n t enough taken few
  obtain ⟨n, rfl⟩ : ∃ m, n = m + 1 := ⟨n - 1, by omega⟩
  obtain ⟨input, first⟩ := Option.isSome_iff_exists.mp (taken 0 (by decide))
  obtain ⟨output, second⟩ := Option.isSome_iff_exists.mp (taken 1 (by decide))
  obtain ⟨error, third⟩ := Option.isSome_iff_exists.mp (taken 2 (by decide))
  refine ⟨input, output, error, ?_⟩
  have same : t = streams input output error := streams_of_apply first second third few
  rw [openConsole]
  split
  · rw [fdalloc_of_first (by decide) (few 3 (Nat.le_refl 3)) taken]
    dsimp only
    rw [if_pos (Nat.le_refl 3), Table.close, Function.update_idem, ← few 3 (Nat.le_refl 3), Function.update_eq_self]
    exact same
  · exact same

theorem Opens.pred {k : Nat} (opens : Opens finds (k + 1)) (found : ∀ n, finds n = true) (low : k < 3) :
    Opens finds k := by
  intro n t enough taken few
  cases here : t k with
  | some f =>
    refine opens n t (by omega) (fun j below => ?_) few
    rcases Nat.lt_succ_iff_lt_or_eq.mp below with below | rfl
    · exact taken j below
    · rw [here]
      rfl
  | none =>
    obtain ⟨n, rfl⟩ : ∃ m, n = m + 1 := ⟨n - 1, by omega⟩
    rw [openConsole, if_pos (found n), fdalloc_of_first (Nat.lt_trans low (by decide)) here taken]
    dsimp only
    rw [if_neg (by omega)]
    refine opens n _ (by omega) (fun j below => ?_) fun fd high => ?_
    · rcases Nat.lt_succ_iff_lt_or_eq.mp below with below | rfl
      · rw [Function.update_of_ne (Nat.ne_of_lt below)]
        exact taken j below
      · rw [Function.update_self]
        rfl
    · rw [Function.update_of_ne (by omega)]
      exact few fd high

/-- The loop of `main` leaves three descriptors open where there were three, and where it finds
the console, whichever there were. -/
theorem openConsole_streams {t : Table} (few : ∀ fd, 3 ≤ fd → t fd = none)
    (three : (∀ fd < 3, (t fd).isSome) ∨ ∀ n, finds n = true) :
    ∃ input output error, openConsole finds 4 t = streams input output error := by
  rcases three with taken | found
  · exact opens_three finds 4 t (by decide) taken few
  · have opens : Opens finds 0 :=
      (((opens_three finds).pred found (by decide)).pred found (by decide)).pred found (by decide)
    exact opens 4 t (Nat.le_refl 4) (fun j below => absurd below (Nat.not_lt_zero j)) few

end Console

/-- Whatever line the shell reads and whichever calls fail, a program has three descriptors open when
it is run: its input and output are where the command sends them, a redirection nearer to the program
before one further out, and it holds no end of a pipe but its own. The shell is started with
descriptors 0 to 2 open, or with some of them and the console to be found. -/
theorem runcmd_streams (buf : List Char) {d : Cmd (Option (List Char))} {t : Table} {finds : Nat → Bool}
    (read : parse buf = .ok d) (few : ∀ fd, 3 ≤ fd → t fd = none)
    (three : (∀ fd < 3, (t fd).isSome) ∨ ∀ n, finds n = true) : ∃ c input output error, d = c.map some ∧
      openConsole finds 4 t = streams input output error ∧
      ∀ succeeds, runcmd succeeds [] c (openConsole finds 4 t) = flow succeeds [] c input output error := by
  obtain ⟨c, legible, rfl⟩ := parse_legible read
  obtain ⟨input, output, error, opened⟩ := openConsole_streams few three
  refine ⟨c, input, output, error, rfl, opened, fun succeeds => ?_⟩
  rw [opened]
  exact runcmd_flow succeeds legible ..

theorem runcmd_streams_background : ∃ c input output error,
    (Cmd.back (.pipe (.exec [some ['l', 's']]) (.redir (.exec [some ['w', 'c']]) (some ['f']) 513 1)) = c.map some) ∧
      openConsole (fun _ => true) 4 (Function.update (fun _ => none) 0 (some (.opened "tty".toList 2))) =
        streams input output error ∧
      ∀ succeeds, runcmd succeeds [] c
          (openConsole (fun _ => true) 4 (Function.update (fun _ => none) 0 (some (.opened "tty".toList 2)))) =
        flow succeeds [] c input output error :=
  runcmd_streams "ls|wc>f &".toList (by decide +kernel)
    (fun _ high => Function.update_of_ne (Nat.ne_of_gt (Nat.lt_of_lt_of_le (by decide) high)) ..) (.inr fun _ => rfl)

end OsLabs.Sh
