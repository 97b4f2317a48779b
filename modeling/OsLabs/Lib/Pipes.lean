import Mathlib.Algebra.BigOperators.Group.Finset.Basic
import Mathlib.Data.Fintype.BigOperators
import OsLabs.Lib.Machine

/-! Processes that pass bytes along pipes: which of them holds which end, reads that wait
for bytes or for the last writer to let go, writes that wait for room. -/

set_option autoImplicit false

namespace OsLabs.Lib.Pipes

inductive Fd (Name : Type*) where
  | stdin
  | stdout
  | var (x : Name)
  deriving DecidableEq

inductive File (Pipe : Type*) where
  | terminal
  | readEnd (q : Pipe)
  | writeEnd (q : Pipe)
  deriving DecidableEq

abbrev Table (Name Pipe : Type*) := Fd Name → Option (File Pipe)

inductive Call (Pid Name Pipe : Type*) where
  | pipe (q : Pipe) (read write : Name)
  | dup2 (old new : Fd Name)
  | close (x : Fd Name)
  | fork (child : Pid)
  | waitpid (child : Pid)
  deriving DecidableEq

inductive Phase where
  | unborn
  | running
  | exited
  deriving DecidableEq

/-- What a process does behind its calls: nothing, write what it holds and exit, or copy
its standard input until its end and exit. -/
inductive Role where
  | shell
  | source
  | copier
  deriving DecidableEq

structure Process (Pid Name Pipe : Type*) where
  phase : Phase
  fds : Table Name Pipe
  calls : List (Call Pid Name Pipe)
  role : Role
  held : List UInt8

structure State (Pid Name Pipe : Type*) where
  procs : Pid → Process Pid Name Pipe
  buffers : Pipe → List UInt8

variable {Pid Name Pipe : Type*} [DecidableEq Pid] [DecidableEq Name] [DecidableEq Pipe]

def Call.table (c : Call Pid Name Pipe) (fds : Table Name Pipe) : Table Name Pipe :=
  match c with
  | .pipe q read write => Function.update (Function.update fds (.var read) (some (.readEnd q))) (.var write) (some (.writeEnd q))
  | .dup2 old new => Function.update fds new (fds old)
  | .close x => Function.update fds x none
  | .fork _ | .waitpid _ => fds

def Table.Holds (fds : Table Name Pipe) (file : File Pipe) : Prop :=
  fds .stdin = some file ∨ fds .stdout = some file ∨ ∃ x, fds (.var x) = some file

instance [Fintype Name] (fds : Table Name Pipe) (file : File Pipe) : Decidable (Table.Holds fds file) :=
  inferInstanceAs (Decidable (_ ∨ _ ∨ _))

namespace State

def set (s : State Pid Name Pipe) (p : Pid) (proc : Process Pid Name Pipe) : State Pid Name Pipe :=
  { s with procs := Function.update s.procs p proc }

def Open (s : State Pid Name Pipe) (file : File Pipe) : Prop := ∃ p, Table.Holds (s.procs p).fds file

instance [Fintype Pid] [Fintype Name] (s : State Pid Name Pipe) (file : File Pipe) : Decidable (s.Open file) :=
  inferInstanceAs (Decidable (∃ _, _))

def Ready (s : State Pid Name Pipe) : Call Pid Name Pipe → Prop
  | .fork child => (s.procs child).phase = .unborn
  | .waitpid child => (s.procs child).phase = .exited
  | _ => True

instance (s : State Pid Name Pipe) (c : Call Pid Name Pipe) : Decidable (s.Ready c) := by
  cases c <;> unfold Ready <;> infer_instance

def exit (s : State Pid Name Pipe) (p : Pid) : State Pid Name Pipe :=
  s.set p { s.procs p with phase := .exited, fds := fun _ => none, held := [] }

def fork (s : State Pid Name Pipe) (p child : Pid) : State Pid Name Pipe :=
  s.set child { s.procs child with phase := .running, fds := (s.procs p).fds }

def born (s : State Pid Name Pipe) (p : Pid) : Call Pid Name Pipe → State Pid Name Pipe
  | .fork child => s.fork p child
  | _ => s

def call (s : State Pid Name Pipe) (p : Pid) (c : Call Pid Name Pipe) (rest : List (Call Pid Name Pipe)) :
    State Pid Name Pipe :=
  (s.born p c).set p { s.procs p with fds := c.table (s.procs p).fds, calls := rest }

def print (s : State Pid Name Pipe) (p : Pid) (n : Nat) : State Pid Name Pipe :=
  s.set p { s.procs p with held := (s.procs p).held.drop n }

def send (s : State Pid Name Pipe) (p : Pid) (q : Pipe) (n : Nat) : State Pid Name Pipe :=
  { s.print p n with buffers := Function.update s.buffers q (s.buffers q ++ (s.procs p).held.take n) }

def receive (s : State Pid Name Pipe) (p : Pid) (q : Pipe) (n : Nat) : State Pid Name Pipe :=
  { s.set p { s.procs p with held := (s.buffers q).take n } with
    buffers := Function.update s.buffers q ((s.buffers q).drop n) }

section Step

variable [Fintype Pid] [Fintype Name] (capacity : Nat) (s : State Pid Name Pipe) (p : Pid) (n : Nat)

def write : Option (State Pid Name Pipe) :=
  match (s.procs p).fds .stdout with
  | some .terminal => if 0 < n ∧ n ≤ (s.procs p).held.length then some (s.print p n) else none
  | some (.writeEnd q) =>
    -- SIGPIPE
    if ¬s.Open (.readEnd q) then some (s.exit p)
    else if 0 < n ∧ n ≤ (s.procs p).held.length ∧ (s.buffers q).length + n ≤ capacity then some (s.send p q n)
    else none
  | _ => some (s.exit p)

def read : Option (State Pid Name Pipe) :=
  match (s.procs p).fds .stdin with
  | some (.readEnd q) =>
    if s.buffers q = [] then
      if s.Open (.writeEnd q) then none else some (s.exit p)
    else if 0 < n ∧ n ≤ (s.buffers q).length then some (s.receive p q n)
    else none
  | _ => some (s.exit p)

def next : Option (State Pid Name Pipe) :=
  match (s.procs p).phase with
  | .running =>
    match (s.procs p).calls with
    | c :: rest => if s.Ready c then some (s.call p c rest) else none
    | [] =>
      match (s.procs p).role with
      | .shell => none
      | .source => if (s.procs p).held = [] then some (s.exit p) else s.write capacity p n
      | .copier => if (s.procs p).held = [] then s.read p n else s.write capacity p n
  | _ => none

end Step

end State

def step [Fintype Pid] [Fintype Name] (capacity : Nat) : Machine (State Pid Name Pipe) (Pid × Nat) :=
  fun s l => s.next capacity l.1 l.2

/-! ## What a step can do -/

inductive Ends (s : State Pid Name Pipe) (p : Pid) : Prop where
  | done (role : (s.procs p).role = .source) (nothing : (s.procs p).held = [])
  | eof {q : Pipe} (role : (s.procs p).role = .copier) (input : (s.procs p).fds .stdin = some (.readEnd q))
      (closed : ¬s.Open (.writeEnd q))
  | noInput (role : (s.procs p).role = .copier) (input : ∀ q, (s.procs p).fds .stdin ≠ some (.readEnd q))
  | sigpipe {q : Pipe} (output : (s.procs p).fds .stdout = some (.writeEnd q)) (closed : ¬s.Open (.readEnd q))
  | noOutput (terminal : (s.procs p).fds .stdout ≠ some .terminal)
      (output : ∀ q, (s.procs p).fds .stdout ≠ some (.writeEnd q))

inductive Did (s : State Pid Name Pipe) (p : Pid) : State Pid Name Pipe → Prop where
  | called {c : Call Pid Name Pipe} {rest : List (Call Pid Name Pipe)} (calls : (s.procs p).calls = c :: rest)
      (ready : s.Ready c) : Did s p (s.call p c rest)
  | exited (calls : (s.procs p).calls = []) (role : (s.procs p).role ≠ .shell) (ends : Ends s p) : Did s p (s.exit p)
  | printed {n : Nat} (calls : (s.procs p).calls = []) (some_ : 0 < n) (few : n ≤ (s.procs p).held.length) :
      Did s p (s.print p n)
  | sent {q : Pipe} {n : Nat} (calls : (s.procs p).calls = []) (output : (s.procs p).fds .stdout = some (.writeEnd q))
      (some_ : 0 < n) (few : n ≤ (s.procs p).held.length) : Did s p (s.send p q n)
  | received {q : Pipe} {n : Nat} (calls : (s.procs p).calls = []) (input : (s.procs p).fds .stdin = some (.readEnd q))
      (nothing : (s.procs p).held = []) (some_ : 0 < n) (few : n ≤ (s.buffers q).length) : Did s p (s.receive p q n)

section Inversion

variable [Fintype Pid] [Fintype Name] {capacity n : Nat} {s t : State Pid Name Pipe} {p : Pid}

theorem did_of_write (calls : (s.procs p).calls = []) (role : (s.procs p).role ≠ .shell)
    (taken : s.write capacity p n = some t) : Did s p t := by
  unfold State.write at taken
  split at taken
  next =>
    split at taken <;> cases taken
    next room => exact .printed calls room.1 room.2
  next q output =>
    split at taken
    next closed =>
      cases taken
      exact .exited calls role (.sigpipe output closed)
    next =>
      split at taken <;> cases taken
      next room => exact .sent calls output room.1 room.2.1
  next terminal output =>
    cases taken
    exact .exited calls role (.noOutput terminal output)

theorem did_of_read (calls : (s.procs p).calls = []) (role : (s.procs p).role = .copier)
    (nothing : (s.procs p).held = []) (taken : s.read p n = some t) : Did s p t := by
  have other : (s.procs p).role ≠ .shell := by
    rw [role]
    exact nofun
  unfold State.read at taken
  split at taken
  next q input =>
    split at taken
    next =>
      split at taken <;> cases taken
      next closed => exact .exited calls other (.eof role input closed)
    next =>
      split at taken <;> cases taken
      next room => exact .received calls input nothing room.1 room.2
  next input =>
    cases taken
    exact .exited calls other (.noInput role input)

theorem step_did (taken : step capacity s (p, n) = some t) : (s.procs p).phase = .running ∧ Did s p t := by
  simp only [step, State.next] at taken
  split at taken
  next running =>
    refine ⟨running, ?_⟩
    split at taken
    next c rest calls =>
      split at taken <;> cases taken
      next ready => exact .called calls ready
    next calls =>
      split at taken
      next => cases taken
      next role =>
        have other : (s.procs p).role ≠ .shell := by
          rw [role]
          exact nofun
        split at taken
        next nothing =>
          cases taken
          exact .exited calls other (.done role nothing)
        next => exact did_of_write calls other taken
      next role =>
        split at taken
        next nothing => exact did_of_read calls role nothing taken
        next =>
          refine did_of_write calls ?_ taken
          rw [role]
          exact nofun
  next => cases taken

omit [DecidableEq Name] in
theorem write_one (taken : s.write capacity p n = some t) : ∃ u, s.write capacity p 1 = some u := by
  unfold State.write at taken ⊢
  split at taken
  next =>
    split at taken <;> cases taken
    next room => exact ⟨_, if_pos ⟨Nat.one_pos, room.1.trans_le room.2⟩⟩
  next =>
    split at taken
    next closed => exact ⟨_, if_pos closed⟩
    next held =>
      split at taken <;> cases taken
      next room =>
        rw [if_neg held]
        exact ⟨_, if_pos ⟨Nat.one_pos, by omega, by omega⟩⟩
  next => exact ⟨_, rfl⟩

omit [DecidableEq Name] in
theorem read_one (taken : s.read p n = some t) : ∃ u, s.read p 1 = some u := by
  unfold State.read at taken ⊢
  split at taken
  next =>
    split at taken
    next empty =>
      rw [if_pos empty]
      exact ⟨t, taken⟩
    next more =>
      split at taken <;> cases taken
      next room =>
        rw [if_neg more]
        exact ⟨_, if_pos ⟨Nat.one_pos, by omega⟩⟩
  next => exact ⟨_, rfl⟩

theorem step_one (taken : step capacity s (p, n) = some t) : ∃ u, step capacity s (p, 1) = some u := by
  simp only [step, State.next] at taken ⊢
  split at taken
  next =>
    split at taken
    next => exact ⟨t, taken⟩
    next =>
      split at taken
      next => cases taken
      all_goals
        split at taken
        next nothing =>
          rw [if_pos nothing]
          first | exact ⟨t, taken⟩ | exact read_one taken
        next something =>
          rw [if_neg something]
          exact write_one taken
  next => cases taken

theorem step_eq_none (blocked : ∀ p, step capacity s (p, 1) = none) (l : Pid × Nat) : step capacity s l = none := by
  by_contra more
  obtain ⟨t, taken⟩ := Option.ne_none_iff_exists'.mp more
  obtain ⟨u, one⟩ := step_one taken
  rw [blocked l.1] at one
  cases one

end Inversion

/-! ## Programs as far as they have come -/

def tableAfter (fds : Table Name Pipe) (calls : List (Call Pid Name Pipe)) : Table Name Pipe :=
  calls.foldl (fun fds c => c.table fds) fds

/-- The process has made the first `k` calls of its program, beginning with these descriptors. -/
structure Process.At (fds : Table Name Pipe) (program : List (Call Pid Name Pipe)) (k : Nat)
    (proc : Process Pid Name Pipe) : Prop where
  within : k ≤ program.length
  calls : proc.calls = program.drop k
  fds : proc.fds = tableAfter fds (program.take k)

omit [DecidableEq Pid] [DecidableEq Pipe] in
theorem Process.At.next {fds : Table Name Pipe} {program rest : List (Call Pid Name Pipe)} {k : Nat}
    {proc : Process Pid Name Pipe} (here : proc.At fds program k) {c : Call Pid Name Pipe} (calls : proc.calls = c :: rest) :
    Process.At fds program (k + 1) { proc with fds := c.table proc.fds, calls := rest } := by
  have ahead : program.drop k = c :: rest := here.calls.symm.trans calls
  have more : k < program.length := by
    by_contra past
    rw [List.drop_eq_nil_of_le (not_lt.mp past)] at ahead
    cases ahead
  rw [List.drop_eq_getElem_cons more, List.cons.injEq] at ahead
  refine ⟨more, ahead.2.symm, ?_⟩
  rw [here.fds, tableAfter, tableAfter, ← List.take_append_getElem more, List.foldl_append, ahead.1]
  rfl

section Calls

variable {s : State Pid Name Pipe} {p q : Pid} {c : Call Pid Name Pipe} {rest : List (Call Pid Name Pipe)}

theorem procs_born : (s.born p c).procs q =
    if c = .fork q then { s.procs q with phase := .running, fds := (s.procs p).fds } else s.procs q := by
  cases c with
  | fork child =>
    by_cases same : q = child
    · subst same
      rw [if_pos rfl]
      exact Function.update_self ..
    · have other : (Call.fork child : Call Pid Name Pipe) ≠ .fork q := fun equal => same (Call.fork.inj equal).symm
      rw [if_neg other]
      exact Function.update_of_ne same ..
  | _ => rfl

omit [DecidableEq Pipe] in
theorem procs_call_self : (s.call p c rest).procs p = { s.procs p with fds := c.table (s.procs p).fds, calls := rest } :=
  Function.update_self ..

theorem procs_call_of_ne (other : q ≠ p) : (s.call p c rest).procs q =
    if c = .fork q then { s.procs q with phase := .running, fds := (s.procs p).fds } else s.procs q := by
  rw [← procs_born]
  exact Function.update_of_ne other ..

omit [DecidableEq Name] [DecidableEq Pipe] in
theorem procs_exit_of_ne (other : q ≠ p) : (s.exit p).procs q = s.procs q := Function.update_of_ne other ..

end Calls

/-! ## Every run ends -/

theorem sum_update {ι α : Type*} [Fintype ι] [DecidableEq ι] (f : ι → α → Nat) (g : ι → α) (i : ι) (a : α) :
    ∑ j, f j (Function.update g i a j) + f i (g i) = ∑ j, f j (g j) + f i a := by
  have rest : ∑ j ∈ Finset.univ.erase i, f j (Function.update g i a j) = ∑ j ∈ Finset.univ.erase i, f j (g j) :=
    Finset.sum_congr rfl fun j member => by rw [Function.update_of_ne (Finset.ne_of_mem_erase member)]
  rw [← Finset.add_sum_erase _ _ (Finset.mem_univ i), ← Finset.add_sum_erase _ (fun j => f j (g j)) (Finset.mem_univ i),
    rest, Function.update_self]
  omega

/-- The steps a process may still take: a byte counts as often as it is still to be moved. -/
def Process.weight (height : Nat) (proc : Process Pid Name Pipe) : Nat :=
  proc.calls.length + (if proc.phase = .exited then 0 else 1) + height * proc.held.length

section Weight

variable [Fintype Pid] [Fintype Pipe] (height : Pid → Nat) (depth : Pipe → Nat)

def State.weight (s : State Pid Name Pipe) : Nat :=
  ∑ p, (s.procs p).weight (height p) + ∑ q, depth q * (s.buffers q).length

/-- Bytes pass from the process on to lower pipes and from higher pipes to the process. -/
structure Downhill (s : State Pid Name Pipe) (p : Pid) : Prop where
  positive : 0 < height p
  output : ∀ q, (s.procs p).fds .stdout = some (.writeEnd q) → depth q < height p
  input : ∀ q, (s.procs p).fds .stdin = some (.readEnd q) → height p < depth q

variable {s t : State Pid Name Pipe} {p : Pid}

omit [DecidableEq Name] [DecidableEq Pipe] in
theorem weight_set (s : State Pid Name Pipe) (p : Pid) (proc : Process Pid Name Pipe) : (s.set p proc).weight height depth + (s.procs p).weight (height p) =
    s.weight height depth + proc.weight (height p) := by
  have procs := sum_update (fun p (proc : Process Pid Name Pipe) => proc.weight (height p)) s.procs p proc
  simp only [State.weight, State.set]
  omega

omit [DecidableEq Pid] [DecidableEq Name] in
theorem weight_buffer (s : State Pid Name Pipe) (q : Pipe) (bytes : List UInt8) :
    State.weight height depth { s with buffers := Function.update s.buffers q bytes } + depth q * (s.buffers q).length =
      s.weight height depth + depth q * bytes.length := by
  have buffers := sum_update (fun q (bytes : List UInt8) => depth q * bytes.length) s.buffers q bytes
  simp only [State.weight]
  omega

omit [DecidableEq Name] [DecidableEq Pipe] in
theorem weight_born {c : Call Pid Name Pipe} (ready : s.Ready c) :
    (s.born p c).weight height depth = s.weight height depth := by
  cases c with
  | fork child =>
    have unborn : (s.procs child).phase = .unborn := ready
    have moved := weight_set height depth s child
      { s.procs child with phase := .running, fds := (s.procs p).fds }
    simp only [Process.weight, unborn, reduceCtorEq, if_false] at moved
    simp only [State.born, State.fork]
    omega
  | _ => rfl

omit [DecidableEq Name] [DecidableEq Pipe] [Fintype Pid] [Fintype Pipe] in
theorem procs_born_self {c : Call Pid Name Pipe} (running : (s.procs p).phase = .running) (ready : s.Ready c) :
    (s.born p c).procs p = s.procs p := by
  cases c with
  | fork child =>
    have other : p ≠ child := by
      rintro rfl
      have unborn : (s.procs p).phase = .unborn := ready
      cases running.symm.trans unborn
    exact Function.update_of_ne other _ _
  | _ => rfl

/-! One lemma for each kind of step. -/

omit [DecidableEq Pipe] in
theorem weight_call (running : (s.procs p).phase = .running) {c : Call Pid Name Pipe} {rest : List (Call Pid Name Pipe)}
    (calls : (s.procs p).calls = c :: rest) (ready : s.Ready c) :
    (s.call p c rest).weight height depth + 1 = s.weight height depth := by
  have same : (s.born p c).weight height depth = s.weight height depth := weight_born height depth ready
  have own : (s.born p c).procs p = s.procs p := procs_born_self running ready
  have moved := weight_set height depth (s.born p c) p
    { s.procs p with fds := c.table (s.procs p).fds, calls := rest }
  rw [same, own] at moved
  simp only [Process.weight, calls, List.length_cons] at moved
  simp only [State.call]
  omega

omit [DecidableEq Name] [DecidableEq Pipe] in
theorem weight_exit (running : (s.procs p).phase = .running) : (s.exit p).weight height depth < s.weight height depth := by
  have moved := weight_set height depth s p { s.procs p with phase := .exited, fds := fun _ => none, held := [] }
  simp only [Process.weight, running, reduceCtorEq, if_false, if_true, List.length_nil, Nat.mul_zero] at moved
  simp only [State.exit]
  omega

theorem mul_sub_add {n m : Nat} (h : Nat) (few : n ≤ m) : h * (m - n) + h * n = h * m := by
  rw [← Nat.mul_add, Nat.sub_add_cancel few]

omit [DecidableEq Name] [DecidableEq Pipe] in
theorem weight_print {n : Nat} (few : n ≤ (s.procs p).held.length) :
    (s.print p n).weight height depth + height p * n = s.weight height depth := by
  have moved := weight_set height depth s p { s.procs p with held := (s.procs p).held.drop n }
  have bytes := mul_sub_add (height p) few
  simp only [Process.weight, List.length_drop] at moved
  simp only [State.print]
  omega

omit [DecidableEq Name] in
theorem weight_send {q : Pipe} {n : Nat} (few : n ≤ (s.procs p).held.length) :
    (s.send p q n).weight height depth + height p * n = s.weight height depth + depth q * n := by
  have moved := weight_print height depth few
  have filled := weight_buffer height depth (s.print p n) q (s.buffers q ++ (s.procs p).held.take n)
  have buffers : (s.print p n).buffers = s.buffers := rfl
  simp only [buffers, List.length_append, List.length_take, Nat.min_eq_left few, Nat.mul_add] at filled
  simp only [State.send]
  omega

omit [DecidableEq Name] in
theorem weight_receive {q : Pipe} {n : Nat} (nothing : (s.procs p).held = []) (few : n ≤ (s.buffers q).length) :
    (s.receive p q n).weight height depth + depth q * n = s.weight height depth + height p * n := by
  have moved := weight_set height depth s p { s.procs p with held := (s.buffers q).take n }
  have emptied := weight_buffer height depth (s.set p { s.procs p with held := (s.buffers q).take n }) q
    ((s.buffers q).drop n)
  have buffers : (s.set p { s.procs p with held := (s.buffers q).take n }).buffers = s.buffers := rfl
  have bytes := mul_sub_add (depth q) few
  simp only [Process.weight, nothing, List.length_take, Nat.min_eq_left few, List.length_nil, Nat.mul_zero] at moved
  simp only [buffers, List.length_drop] at emptied
  simp only [State.receive]
  omega

/-- Where bytes only pass downhill every step leaves fewer steps to take. -/
theorem did_lowers (running : (s.procs p).phase = .running)
    (downhill : (s.procs p).calls = [] → Downhill height depth s p) (did : Did s p t) :
    t.weight height depth < s.weight height depth := by
  cases did with
  | called calls ready =>
    have fewer := weight_call height depth running calls ready
    omega
  | exited => exact weight_exit height depth running
  | printed calls some_ few =>
    have gone := weight_print height depth few
    have less := Nat.mul_pos (downhill calls).positive some_
    omega
  | @sent q n calls output some_ few =>
    have passed := weight_send height depth (q := q) few
    have less := Nat.mul_lt_mul_of_pos_right ((downhill calls).output q output) some_
    omega
  | @received q n calls input nothing some_ few =>
    have passed := weight_receive height depth nothing few
    have less := Nat.mul_lt_mul_of_pos_right ((downhill calls).input q input) some_
    omega

end Weight

end OsLabs.Lib.Pipes
