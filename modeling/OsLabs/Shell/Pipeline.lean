import Mathlib.Data.Fintype.Sum
import Mathlib.Tactic.IntervalCases
import OsLabs.Lib.Pipes

/-! The four processes that the pipe shell of plumb.c sets up for a line with two pipes,
over POSIX pipes. -/

set_option autoImplicit false

namespace OsLabs.Shell.Pipeline

open OsLabs.Lib OsLabs.Lib.Pipes

inductive Pid where
  | shell
  | pid1
  | pid2
  | pid3
  deriving DecidableEq

instance : Fintype Pid where
  elems := {.shell, .pid1, .pid2, .pid3}
  complete p := by cases p <;> decide

scoped instance neZeroTwo : NeZero 2 := ⟨by decide⟩

inductive Name where
  | fd1 (i : Fin 2)
  | fd2 (i : Fin 2)
  deriving DecidableEq

instance : Fintype Name where
  elems := {.fd1 0, .fd1 1, .fd2 0, .fd2 1}
  complete
    | .fd1 0 | .fd1 1 | .fd2 0 | .fd2 1 => by decide

inductive Pipe where
  | first
  | second
  deriving DecidableEq

instance : Fintype Pipe where
  elems := {.first, .second}
  complete q := by cases q <;> decide

/-- The calls of each process in their order, those of a child from `fork` to `execvp`. -/
def program : Pid → List (Call Pid Name Pipe)
  | .shell =>
    [.pipe .first (.fd1 0) (.fd1 1), .pipe .second (.fd2 0) (.fd2 1), .fork .pid1, .fork .pid2, .fork .pid3,
      .close (.var (.fd1 0)), .close (.var (.fd1 1)), .close (.var (.fd2 0)), .close (.var (.fd2 1)),
      .waitpid .pid1, .waitpid .pid2, .waitpid .pid3]
  | .pid1 =>
    [.dup2 (.var (.fd1 1)) .stdout, .close (.var (.fd1 0)), .close (.var (.fd2 0)), .close (.var (.fd2 1))]
  | .pid2 =>
    -- close(fd1[1]) is commented out
    [.dup2 (.var (.fd1 0)) .stdin, .dup2 (.var (.fd2 1)) .stdout, .close (.var (.fd2 0))]
  | .pid3 =>
    [.dup2 (.var (.fd2 0)) .stdin, .close (.var (.fd1 0)), .close (.var (.fd1 1)), .close (.var (.fd2 1))]

def role : Pid → Role
  | .shell => .shell
  | .pid1 => .source
  | .pid2 | .pid3 => .copier

def terminals : Table Name Pipe
  | .stdin | .stdout => some .terminal
  | .var _ => none

/-- Before `pipe(fd1)`; stage 1 is to write these bytes. -/
def start (data : List UInt8) : State Pid Name Pipe where
  procs p :=
    { phase := if p = .shell then .running else .unborn
      fds := if p = .shell then terminals else fun _ => none
      calls := program p
      role := role p
      held := if p = .pid1 then data else [] }
  buffers _ := []

/-- Some stage has not exited, and no process can go on. -/
def Stuck (capacity : Nat) (s : State Pid Name Pipe) : Prop :=
  (∃ p ≠ Pid.shell, (s.procs p).phase ≠ .exited) ∧ ∀ l, step capacity s l = none

def HangFree (capacity : Nat) (data : List UInt8) : Prop :=
  ∀ ls s, Machine.run (step capacity) (start data) ls = some s → ¬Stuck capacity s

def opened : Table Name Pipe := tableAfter terminals ((program .shell).take 2)

def origin : Pid → Table Name Pipe
  | .shell => terminals
  | _ => opened

/-! ## Who holds what -/

section Tables

variable {k : Nat} {proc : Process Pid Name Pipe}

theorem fork_of_shell {p : Pid} {rest : List (Call Pid Name Pipe)} (here : proc.At (origin .shell) (program .shell) k)
    (calls : proc.calls = .fork p :: rest) : proc.fds = opened ∧ .fork p ∉ rest ∧ p ≠ .shell := by
  have within : k ≤ 12 := here.within
  have ahead : (program .shell).drop k = .fork p :: rest := here.calls.symm.trans calls
  rw [here.fds]
  interval_cases k <;> cases ahead <;> exact ⟨rfl, by decide, nofun⟩

/-- Stage 2 holds the write ends of both pipes all the time. -/
theorem holds_of_pid2 (here : proc.At (origin .pid2) (program .pid2) k) :
    Table.Holds proc.fds (.writeEnd .first) ∧ Table.Holds proc.fds (.writeEnd .second) := by
  have within : k ≤ 3 := here.within
  rw [here.fds]
  interval_cases k <;> exact ⟨Or.inr (Or.inr ⟨.fd1 1, rfl⟩), Or.inr (Or.inr ⟨.fd2 1, rfl⟩)⟩

theorem holds_of_pid3 (here : proc.At (origin .pid3) (program .pid3) k) : Table.Holds proc.fds (.readEnd .second) := by
  have within : k ≤ 4 := here.within
  rw [here.fds]
  interval_cases k <;> exact Or.inr (Or.inr ⟨.fd2 0, rfl⟩)

theorem holds_of_shell (here : proc.At (origin .shell) (program .shell) k) (behind : .fork .pid2 ∉ proc.calls)
    (ahead : .fork .pid3 ∈ proc.calls) : Table.Holds proc.fds (.readEnd .second) := by
  have within : k ≤ 12 := here.within
  rw [here.calls] at behind ahead
  rw [here.fds]
  interval_cases k <;> first | exact absurd (by decide) behind | exact absurd ahead (by decide) | exact Or.inr (Or.inr ⟨.fd2 0, rfl⟩)

theorem behind_pid2 (here : proc.At (origin .shell) (program .shell) k) (behind : .fork .pid3 ∉ proc.calls) :
    .fork .pid2 ∉ proc.calls := by
  have within : k ≤ 12 := here.within
  rw [here.calls] at behind ⊢
  interval_cases k <;> first | exact absurd (by decide) behind | decide

theorem fds_of_calls {p : Pid} (here : proc.At (origin p) (program p) k) (calls : proc.calls = []) :
    proc.fds = tableAfter (origin p) (program p) := by
  have past : (program p).length ≤ k := List.drop_eq_nil_iff.mp (here.calls.symm.trans calls)
  rw [here.fds, List.take_of_length_le past]

theorem eq_shell_of_fork {p q : Pid} (here : proc.At (origin p) (program p) k) (forks : .fork q ∈ proc.calls) :
    p = .shell := by
  rw [here.calls] at forks
  have member := List.mem_of_mem_drop forks
  cases p with
  | shell => rfl
  | _ => simp [program] at member

end Tables

/-! ## The invariant -/

variable {capacity : Nat} {s t : State Pid Name Pipe} {p q : Pid}

structure Inv (s : State Pid Name Pipe) : Prop where
  roles : ∀ p, (s.procs p).role = role p
  stands : ∀ p, (s.procs p).phase = .running → ∃ k, (s.procs p).At (origin p) (program p) k
  shell : (s.procs .shell).phase = .running
  -- a process is to be born as long as its fork is ahead
  unborn : ∀ p, (s.procs p).phase = .unborn ↔ .fork p ∈ (s.procs .shell).calls
  fresh : ∀ p, (s.procs p).phase = .unborn → (s.procs p).calls = program p
  stays : ∀ p, p = .pid2 ∨ p = .pid3 → (s.procs p).phase ≠ .exited

namespace Inv

theorem start (data : List UInt8) : Inv (start data) where
  roles p := rfl
  stands p running := by
    cases p with
    | shell => exact ⟨0, Nat.zero_le _, rfl, rfl⟩
    | _ => cases running
  shell := rfl
  unborn p := by
    have phases : (if p = .shell then Phase.running else .unborn) = .unborn ↔ .fork p ∈ program .shell := by
      cases p <;> decide
    exact phases
  fresh p _ := rfl
  stays p later := by rcases later with rfl | rfl <;> exact nofun

theorem born (inv : Inv s) (running : (s.procs p).phase = .running) : .fork p ∉ (s.procs .shell).calls := by
  rw [← inv.unborn, running]
  exact nofun

theorem pid2_running (inv : Inv s) (running : (s.procs .pid3).phase = .running) :
    (s.procs .pid2).phase = .running := by
  obtain ⟨n, shell⟩ := inv.stands .shell inv.shell
  cases phase : (s.procs .pid2).phase with
  | running => rfl
  | unborn => exact absurd ((inv.unborn .pid2).mp phase) (behind_pid2 shell (inv.born running))
  | exited => exact absurd phase (inv.stays .pid2 (Or.inl rfl))

/-- What stage 2 writes has a reader: stage 3, and before it is forked the shell. -/
theorem reader_open (inv : Inv s) (running : (s.procs .pid2).phase = .running) : s.Open (.readEnd .second) := by
  cases phase : (s.procs .pid3).phase with
  | unborn =>
    obtain ⟨n, shell⟩ := inv.stands .shell inv.shell
    exact ⟨.shell, holds_of_shell shell (inv.born running) ((inv.unborn .pid3).mp phase)⟩
  | running =>
    obtain ⟨m, there⟩ := inv.stands .pid3 phase
    exact ⟨.pid3, holds_of_pid3 there⟩
  | exited => exact absurd phase (inv.stays .pid3 (Or.inr rfl))

/-- Stage 2 holds the write end of the pipe it reads, and of the one stage 3 reads. -/
theorem writers_open (inv : Inv s) (running : (s.procs .pid2).phase = .running) :
    s.Open (.writeEnd .first) ∧ s.Open (.writeEnd .second) := by
  obtain ⟨k, here⟩ := inv.stands .pid2 running
  exact ⟨⟨.pid2, (holds_of_pid2 here).1⟩, ⟨.pid2, (holds_of_pid2 here).2⟩⟩

theorem not_ends (inv : Inv s) (late : p = .pid2 ∨ p = .pid3) (running : (s.procs p).phase = .running)
    (calls : (s.procs p).calls = []) : ¬Ends s p := by
  have copier : role p = .copier := by rcases late with rfl | rfl <;> rfl
  obtain ⟨k, here⟩ := inv.stands p running
  have table := fds_of_calls here calls
  intro ends
  cases ends with
  | done source nothing =>
    rw [inv.roles p, copier] at source
    cases source
  | @eof q _ input closed =>
    rw [table] at input
    rcases late with rfl | rfl <;> cases input
    · exact closed (inv.writers_open running).1
    · exact closed (inv.writers_open (inv.pid2_running running)).2
  | noInput _ input =>
    rw [table] at input
    rcases late with rfl | rfl
    · exact input .first rfl
    · exact input .second rfl
  | @sigpipe q output closed =>
    rw [table] at output
    -- stage 3 writes to the terminal
    rcases late with rfl | rfl <;> cases output
    exact closed (inv.reader_open running)
  | noOutput terminal output =>
    rw [table] at terminal output
    rcases late with rfl | rfl
    · exact output .second rfl
    · exact terminal rfl

theorem move (inv : Inv s) (roles : ∀ p, (t.procs p).role = (s.procs p).role)
    (phases : ∀ p, (t.procs p).phase = (s.procs p).phase) (fds : ∀ p, (t.procs p).fds = (s.procs p).fds)
    (calls : ∀ p, (t.procs p).calls = (s.procs p).calls) : Inv t where
  roles p := (roles p).trans (inv.roles p)
  stands p running := by
    obtain ⟨k, here⟩ := inv.stands p ((phases p).symm.trans running)
    exact ⟨k, here.within, (calls p).trans here.calls, (fds p).trans here.fds⟩
  shell := (phases .shell).trans inv.shell
  unborn p := by
    rw [phases, calls]
    exact inv.unborn p
  fresh p := by
    rw [phases, calls]
    exact inv.fresh p
  stays p late := by
    rw [phases]
    exact inv.stays p late

theorem exit (inv : Inv s) (running : (s.procs p).phase = .running) (other : p ≠ .shell)
    (early : ¬(p = .pid2 ∨ p = .pid3)) : Inv (s.exit p) := by
  have kept : ∀ q, q ≠ p → (s.exit p).procs q = s.procs q := fun q apart => procs_exit_of_ne apart
  have own : (s.exit p).procs p = { s.procs p with phase := .exited, fds := fun _ => none, held := [] } :=
    Function.update_self ..
  refine ⟨fun q => ?_, fun q now => ?_, ?_, fun q => ?_, fun q now => ?_, fun q late => ?_⟩
  · by_cases same : q = p
    · rw [same, own]
      exact inv.roles p
    · rw [kept q same]
      exact inv.roles q
  · by_cases same : q = p
    · rw [same, own] at now
      cases now
    · rw [kept q same] at now ⊢
      exact inv.stands q now
  · rw [kept .shell (Ne.symm other)]
    exact inv.shell
  · rw [kept .shell (Ne.symm other), ← inv.unborn]
    by_cases same : q = p
    · rw [same, own, running]
      exact iff_of_false nofun nofun
    · rw [kept q same]
  · by_cases same : q = p
    · rw [same, own] at now
      cases now
    · rw [kept q same] at now ⊢
      exact inv.fresh q now
  · have apart : q ≠ p := fun same => early (same ▸ late)
    rw [kept q apart]
    exact inv.stays q late

theorem call (inv : Inv s) (running : (s.procs p).phase = .running) {c : Call Pid Name Pipe}
    {rest : List (Call Pid Name Pipe)} (calls : (s.procs p).calls = c :: rest) (ready : s.Ready c) :
    Inv (s.call p c rest) := by
  obtain ⟨k, here⟩ := inv.stands p running
  have parent : ∀ q, c = .fork q → p = .shell ∧ (s.procs q).phase = .unborn ∧ (s.procs p).fds = opened ∧
      .fork q ∉ rest ∧ q ≠ .shell := by
    rintro q rfl
    obtain rfl := eq_shell_of_fork here (by rw [calls]; exact List.mem_cons_self)
    exact ⟨rfl, ready, fork_of_shell here calls⟩
  have phases : ∀ q, ((s.call p c rest).procs q).phase = if c = .fork q then .running else (s.procs q).phase := by
    intro q
    by_cases same : q = p
    · subst same
      rw [procs_call_self]
      split
      · exact running
      · rfl
    · rw [procs_call_of_ne same]
      split <;> rfl
  refine ⟨fun q => ?_, fun q now => ?_, ?_, fun q => ?_, fun q now => ?_, fun q late => ?_⟩
  · by_cases same : q = p
    · subst same
      rw [procs_call_self]
      exact inv.roles q
    · rw [procs_call_of_ne same]
      split
      · exact inv.roles q
      · exact inv.roles q
  · by_cases same : q = p
    · subst same
      rw [procs_call_self]
      exact ⟨k + 1, here.next calls⟩
    · rw [procs_call_of_ne same] at now ⊢
      split
      next forks =>
        obtain ⟨-, unborn, table, -, child⟩ := parent q forks
        refine ⟨0, Nat.zero_le _, inv.fresh q unborn, ?_⟩
        cases q with
        | shell => exact absurd rfl child
        | _ => exact table
      next other =>
        rw [if_neg other] at now
        exact inv.stands q now
  · rw [phases]
    split
    · rfl
    · exact inv.shell
  · have before := inv.unborn q
    rw [phases]
    split
    next forks =>
      obtain ⟨rfl, -, -, last, -⟩ := parent q forks
      rw [procs_call_self]
      exact iff_of_false (by simp) last
    next other =>
      rw [before]
      by_cases same : p = .shell
      · subst same
        rw [procs_call_self, calls, List.mem_cons]
        exact or_iff_right fun forks => other forks.symm
      · have plain : c ≠ .fork .shell := fun forks => same (parent .shell forks).1
        rw [procs_call_of_ne (Ne.symm same), if_neg plain]
  · rw [phases] at now
    split at now
    · cases now
    next other =>
      have apart : q ≠ p := by
        rintro rfl
        cases running.symm.trans now
      rw [procs_call_of_ne apart, if_neg other]
      exact inv.fresh q now
  · rw [phases]
    split
    · simp
    · exact inv.stays q late

theorem did (inv : Inv s) (running : (s.procs p).phase = .running) (did : Did s p t) : Inv t := by
  have own : ∀ (held : List UInt8) (buffers : Pipe → List UInt8) q,
      ∃ held', (State.mk (Function.update s.procs p { s.procs p with held }) buffers).procs q = { s.procs q with held := held' } := by
    intro held buffers q
    by_cases same : q = p
    · exact ⟨held, by rw [same]; exact Function.update_self ..⟩
    · exact ⟨(s.procs q).held, Function.update_of_ne same ..⟩
  have moved : ∀ held buffers, Inv ⟨Function.update s.procs p { s.procs p with held }, buffers⟩ := by
    intro held buffers
    refine inv.move (fun q => ?_) (fun q => ?_) (fun q => ?_) fun q => ?_ <;>
    · obtain ⟨held', same⟩ := own held buffers q
      rw [same]
  cases did with
  | called calls ready => exact inv.call running calls ready
  | exited calls role ends =>
    refine inv.exit running ?_ fun late => inv.not_ends late running calls ends
    rintro rfl
    exact role (inv.roles .shell)
  | printed => exact moved _ _
  | sent => exact moved _ _
  | received => exact moved _ _

theorem step {l : Pid × Nat} (inv : Inv s) (taken : Pipes.step capacity s l = some t) : Inv t :=
  inv.did (step_did taken).1 (step_did taken).2

end Inv

/-! ## Every run gets stuck -/

/-- Bytes come from stage 1 by the first pipe, stage 2 and the second pipe to stage 3. -/
def height : Pid → Nat
  | .pid1 => 5
  | .pid2 => 3
  | .pid3 | .shell => 1

def depth : Pipe → Nat
  | .first => 4
  | .second => 2

theorem downhill (inv : Inv s) (running : (s.procs p).phase = .running) (calls : (s.procs p).calls = []) :
    Downhill height depth s p := by
  obtain ⟨k, here⟩ := inv.stands p running
  have table := fds_of_calls here calls
  refine ⟨by cases p <;> decide, fun q output => ?_, fun q input => ?_⟩
  · rw [table] at output
    cases p <;> cases output <;> decide
  · rw [table] at input
    cases p <;> cases input <;> decide

/-- Wherever a run has come to, stage 2 has not exited, and it can go on to a state in
which nobody can. -/
theorem stuck_ahead (capacity : Nat) (data : List UInt8) {ls : List (Pid × Nat)}
    (reached : Machine.run (Pipes.step capacity) (start data) ls = some s) :
    (s.procs .pid2).phase ≠ .exited ∧ ∃ ms t, Machine.run (Pipes.step capacity) s ms = some t ∧ Stuck capacity t := by
  have kept : ∀ s l t, Inv s → Pipes.step capacity s l = some t → Inv t := fun _ _ _ inv taken => inv.step taken
  have inv := Machine.invariant kept (Inv.start data) reached
  refine ⟨inv.stays .pid2 (Or.inl rfl), ?_⟩
  obtain ⟨ms, t, further, rest⟩ := Machine.exists_rest (State.weight height depth) kept (fun s l t inv taken => by
    obtain ⟨running, did⟩ := step_did taken
    exact did_lowers height depth running (downhill inv running) did) inv
  exact ⟨ms, t, further, ⟨.pid2, nofun, (Machine.invariant kept inv further).stays .pid2 (Or.inl rfl)⟩, rest⟩

/-- Whatever the capacity of a pipe and the bytes of stage 1, the four processes can come to
stand still. -/
theorem not_hangFree (capacity : Nat) (data : List UInt8) : ¬HangFree capacity data := by
  intro free
  have unmoved : Machine.run (Pipes.step capacity) (start data) [] = some (start data) := rfl
  obtain ⟨-, ms, t, reached, stuck⟩ := stuck_ahead capacity data unmoved
  exact free ms t reached stuck

def schedule : List (Pid × Nat) :=
  List.replicate 9 (.shell, 1) ++ List.replicate 6 (.pid1, 1) ++ List.replicate 5 (.pid2, 1) ++
    List.replicate 6 (.pid3, 1) ++ [(.shell, 1)]

theorem not_hangFree_byte : ¬HangFree 65536 [104] := by
  have facts : (Machine.run (Pipes.step 65536) (start [104]) schedule).any (fun s =>
      decide ((s.procs .pid2).phase ≠ .exited ∧ ∀ p, (Pipes.step 65536 s (p, 1)).isNone)) = true := by decide +kernel
  obtain ⟨s, reached, last⟩ := (Option.any_eq_true _ _).mp facts
  obtain ⟨stays, blocked⟩ := of_decide_eq_true last
  intro free
  refine free schedule s reached ⟨⟨.pid2, nofun, stays⟩, step_eq_none fun p => ?_⟩
  exact Option.isNone_iff_eq_none.mp (blocked p)

end OsLabs.Shell.Pipeline
