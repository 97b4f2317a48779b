import Mathlib.Tactic.Common
import OsLabs.Files.Moves
import OsLabs.Lib.Holdings

/-! The reference count of a file is the number of descriptors that hold it, in whatever tables, and
of references that calls have in hand. -/

set_option autoImplicit false

namespace OsLabs.Files

open OsLabs.Lib Kernel

variable {Pid Pipe Inode : Type}

section Shares

def share {α : Type} [DecidableEq α] (x : Option α) (a : α) : Int := if x = some a then 1 else 0

def slots (ofile : Fin NOFILE → Option FileId) (f : FileId) : Int := ∑ fd, share (ofile fd) f

def Drop.files (f : FileId) : Drop Pipe Inode → Int
  | .fileclose g => share (some g) f
  | _ => 0

/-- The references that a process has in hand; where it has a descriptor without one, less than none. -/
def Point.files (ofile : Fin NOFILE → Option FileId) (f : FileId) : Point Pid Pipe Inode → Int
  | .filedup g => -share (some g) f
  | .openFd _ _ g | .pipeFile1 g => share (some g) f
  | .pipePage g h | .pipeFd0 g h => share (some g) f + share (some h) f
  | .pipeFd1 _ _ h => share (some h) f
  | .exitClear fd => -share (ofile fd) f
  | _ => 0

def Proc.files (x : Proc Pid Pipe Inode) (f : FileId) : Int :=
  slots x.ofile f + (x.drops.map (Drop.files f)).sum + x.point.files x.ofile f

section

variable {α : Type} [DecidableEq α]

theorem share_nonneg (x : Option α) (a : α) : 0 ≤ share x a := by
  rw [share]
  split <;> decide

@[simp] theorem share_none (a : α) : share none a = 0 := rfl

@[simp] theorem share_self (a : α) : share (some a) a = 1 := if_pos rfl

theorem share_of_ne {a b : α} (other : b ≠ a) : share (some b) a = 0 :=
  if_neg fun same => other (Option.some.inj same)

end

theorem slots_update (ofile : Fin NOFILE → Option FileId) (fd : Fin NOFILE) (x : Option FileId) (f : FileId) :
    slots (Function.update ofile fd x) f + share (ofile fd) f = slots ofile f + share x f :=
  Holdings.sum_update_add (Finset.mem_univ fd) ofile x fun y => share y f

theorem slots_nonneg (ofile : Fin NOFILE → Option FileId) (f : FileId) : 0 ≤ slots ofile f :=
  Finset.sum_nonneg fun fd _ => share_nonneg (ofile fd) f

theorem share_le_slots (ofile : Fin NOFILE → Option FileId) (fd : Fin NOFILE) (f : FileId) :
    share (ofile fd) f ≤ slots ofile f :=
  Finset.single_le_sum (f := fun fd => share (ofile fd) f) (fun fd _ => share_nonneg (ofile fd) f) (Finset.mem_univ fd)

end Shares

section Processes

variable {x y : Proc Pid Pipe Inode} {f : FileId}

structure Fine (x : Proc Pid Pipe Inode) : Prop where
  idle : x.state ≠ .runnable → x.drops = [] ∧ x.point = .user ∧ x.cwd = none
  empty : x.state = .unused ∨ x.state = .zombie → ∀ fd, x.ofile fd = none
  cwd : x.state = .runnable → x.cwd.isSome
  due : x.drops ≠ [] → x.point = .user ∨ ∃ i, x.point = .exitClear i
  /-- `sys_dup` has put the file in a second place before it takes the reference. -/
  filedup : ∀ f, x.point = .filedup f → 2 ≤ slots x.ofile f
  pipeFd1 : ∀ fd rf wf, x.point = .pipeFd1 fd rf wf → x.ofile fd = some rf
  exit : ∀ i, x.point = .exit i → ∀ j : Fin NOFILE, j < i → x.ofile j = none
  exitClear : ∀ i, x.point = .exitClear i → ∀ j : Fin NOFILE, j < i → x.ofile j = none

theorem drops_nonneg (ds : List (Drop Pipe Inode)) (f : FileId) : 0 ≤ (ds.map (Drop.files f)).sum := by
  induction ds with
  | nil => exact Int.le_refl 0
  | cons d ds ih =>
    have here : 0 ≤ d.files f := by
      cases d with
      | fileclose g => exact share_nonneg ..
      | pipeclose q writable => exact Int.le_refl 0
      | iput i => exact Int.le_refl 0
    rw [List.map_cons, List.sum_cons]
    omega

theorem Fine.point_files (fine : Fine x) (f : FileId) : 0 ≤ slots x.ofile f + x.point.files x.ofile f := by
  have some_slots := slots_nonneg x.ofile f
  cases here : x.point with
  | filedup g =>
    have twice := fine.filedup g here
    rw [Point.files, share]
    split
    · rename_i same
      cases same
      omega
    · omega
  | exitClear fd =>
    have one := share_le_slots x.ofile fd f
    rw [Point.files]
    omega
  | openFd i omode g | pipeFile1 g | pipeFd1 fd0 rf g =>
    have := share_nonneg (some g) f
    rw [Point.files]
    omega
  | pipePage g h | pipeFd0 g h =>
    have := share_nonneg (some g) f
    have := share_nonneg (some h) f
    rw [Point.files]
    omega
  | _ =>
    rw [Point.files]
    · omega
    all_goals simp

theorem Fine.files_nonneg (fine : Fine x) (f : FileId) : 0 ≤ x.files f := by
  have held := fine.point_files f
  have due := drops_nonneg x.drops f
  rw [Proc.files]
  omega

theorem Moves.files [DecidableEq Pid] [DecidableEq Pipe] [DecidableEq Inode] {s : Kernel Pid Pipe Inode}
    (moves : Moves s x y) (fine : Fine x) (idle : x.drops = []) (f : FileId) : y.files f = x.files f := by
  cases moves with
  | @dup fd fd' g user held free =>
    have more := slots_update x.ofile fd' (some g) f
    rw [free, share_none] at more
    simp only [Proc.files, Point.files, user]
    omega
  | @close fd g user held =>
    have less := slots_update x.ofile fd none f
    rw [held, share_none] at less
    simp only [Proc.files, Point.files, Drop.files, user, idle, List.map_cons, List.map_nil, List.sum_cons,
      List.sum_nil]
    omega
  | pipe user => simp [Proc.files, Point.files, user]
  | exit user => simp [Proc.files, Point.files, user]
  | access user held type allowed => simp [Proc.files, Point.files, user]
  | accessed inside => simp [Proc.files, Point.files, inside]
  | openNoFile here => simp [Proc.files, Point.files, Drop.files, here, idle]
  | openNoFd here => simp [Proc.files, Point.files, Drop.files, here, idle]
  | @openFd i omode g fd here free =>
    have more := slots_update x.ofile fd (some g) f
    rw [free, share_none] at more
    simp only [Proc.files, Point.files, here]
    omega
  | pipeNoFile0 here => simp [Proc.files, Point.files, here]
  | pipeNoFile1 here => simp [Proc.files, Point.files, Drop.files, here, idle]
  | pipeNoPage here => simp [Proc.files, Point.files, Drop.files, here, idle]
  | pipeNoFd0 here => simp [Proc.files, Point.files, Drop.files, here, idle]
  | @pipeFd0 rf wf fd here free =>
    have more := slots_update x.ofile fd (some rf) f
    rw [free, share_none] at more
    simp only [Proc.files, Point.files, here]
    omega
  | @pipeNoFd1 fd0 rf wf here =>
    have less := slots_update x.ofile fd0 none f
    rw [fine.pipeFd1 fd0 rf wf here, share_none] at less
    simp only [Proc.files, Point.files, Drop.files, here, idle, List.map_cons, List.map_nil, List.sum_cons,
      List.sum_nil]
    omega
  | @pipeFd1 fd0 fd rf wf here free =>
    have more := slots_update x.ofile fd (some wf) f
    rw [free, share_none] at more
    simp only [Proc.files, Point.files, here]
    omega
  | forkSkip here none_there => simp [Proc.files, Point.files, here]
  | exitSkip here none_there => simp [Proc.files, Point.files, here]
  | exitClose here held => simp [Proc.files, Point.files, Drop.files, here, held, idle]
  | @exitClear i here =>
    have less := slots_update x.ofile i none f
    rw [share_none] at less
    simp only [Proc.files, Point.files, here]
    omega

def Point.Free : Point Pid Pipe Inode → Prop
  | .filedup _ | .pipeFd1 _ _ _ | .exit _ | .exitClear _ => False
  | _ => True

theorem fine_of_free (running : y.state = .runnable) (cwd : y.cwd.isSome) (free : y.point.Free)
    (due : y.drops = [] ∨ y.point = .user) : Fine y where
  idle stopped := absurd running stopped
  empty stopped := by
    rw [running] at stopped
    rcases stopped with stopped | stopped <;> cases stopped
  cwd _ := cwd
  due some_due := .inl (due.resolve_left some_due)
  filedup f here := by
    rw [here] at free
    exact free.elim
  pipeFd1 fd rf wf here := by
    rw [here] at free
    exact free.elim
  exit i here := by
    rw [here] at free
    exact free.elim
  exitClear i here := by
    rw [here] at free
    exact free.elim

theorem Moves.fine [DecidableEq Pid] [DecidableEq Pipe] [DecidableEq Inode] {s : Kernel Pid Pipe Inode}
    (moves : Moves s x y) (fine : Fine x) (running : x.state = .runnable) (idle : x.drops = []) : Fine y := by
  have cwd := fine.cwd running
  have awake : ∀ {P : Prop}, x.state = .unused ∨ x.state = .zombie → P := by
    rintro P (stopped | stopped) <;> rw [running] at stopped <;> cases stopped
  cases moves with
  | @dup fd fd' f user held free =>
    refine ⟨fun stopped => absurd running stopped, awake, fun _ => cwd, by simp [idle], ?_, by simp, by simp, by simp⟩
    rintro g ⟨⟩
    have more := slots_update x.ofile fd' (some f) f
    have one := share_le_slots x.ofile fd f
    rw [free, share_none, share_self] at more
    rw [held, share_self] at one
    dsimp only
    omega
  | close user held => exact fine_of_free running cwd (by simp [Point.Free, user]) (.inr user)
  | exit user =>
    refine ⟨fun stopped => absurd running stopped, awake, fun _ => cwd, by simp [idle], by simp, by simp, ?_, by simp⟩
    rintro i ⟨⟩ j before
    exact absurd before (Nat.not_lt_zero _)
  | @pipeFd0 rf wf fd here free =>
    refine ⟨fun stopped => absurd running stopped, awake, fun _ => cwd, by simp [idle], by simp, ?_, by simp, by simp⟩
    rintro fd' rf' wf' ⟨⟩
    exact Function.update_self ..
  | @exitSkip i here none_there =>
    refine ⟨fun stopped => absurd running stopped, awake, fun _ => cwd, by simp [idle], by simp, by simp, ?_, by simp⟩
    rintro k ⟨⟩ j before
    rcases Nat.lt_succ_iff_lt_or_eq.mp before with before | same
    · exact fine.exit i here j before
    · exact (Fin.ext same : j = i) ▸ none_there
  | @exitClose i f here held =>
    refine ⟨fun stopped => absurd running stopped, awake, fun _ => cwd, by simp, by simp, by simp, by simp, ?_⟩
    rintro k ⟨⟩ j before
    exact fine.exit i here j before
  | @exitClear i here =>
    refine ⟨fun stopped => absurd running stopped, awake, fun _ => cwd, by simp [idle], by simp, by simp, ?_, by simp⟩
    rintro k ⟨⟩ j before
    by_cases same : j = i
    · rw [same]
      exact Function.update_self ..
    · have other : j.val ≠ i.val := fun equal => same (Fin.ext equal)
      dsimp only
      rw [Function.update_of_ne same]
      exact fine.exitClear i here j (by omega)
  | _ => exact fine_of_free running cwd trivial (by simp [idle])

end Processes

section Kernel

variable [DecidableEq Pid] [DecidableEq Pipe] [DecidableEq Inode] [Fintype Pid] {s t : Kernel Pid Pipe Inode} {p : Pid}

/-- A child that is not complete has the descriptors its parent has gone through. -/
structure Forks (s : Kernel Pid Pipe Inode) (p np : Pid) (i : Nat) : Prop where
  embryo : (s.proc np).state = .embryo
  done : ∀ j : Fin NOFILE, j < i → (s.proc np).ofile j = (s.proc p).ofile j
  left : ∀ j : Fin NOFILE, i ≤ j → (s.proc np).ofile j = none

/-- The references of every file are all in some table or some hand. -/
structure Counted (s : Kernel Pid Pipe Inode) : Prop where
  fine : ∀ p, Fine (s.proc p)
  forks : ∀ p np i, (s.proc p).point = .fork np i → Forks s p np i
  parent : ∀ p q np i j, (s.proc p).point = .fork np i → (s.proc q).point = .fork np j → p = q
  count : ∀ f, ((s.file f).ref : Int) = ∑ p, (s.proc p).files f

omit [DecidableEq Pipe] [DecidableEq Inode] in
theorem sum_setProc (s : Kernel Pid Pipe Inode) (p : Pid) (y : Proc Pid Pipe Inode) (f : FileId) :
    ∑ q, ((s.setProc p y).proc q).files f + (s.proc p).files f = ∑ q, (s.proc q).files f + y.files f :=
  Holdings.sum_update_add (Finset.mem_univ p) s.proc y fun x => x.files f

omit [DecidableEq Pid] [DecidableEq Pipe] [DecidableEq Inode] in
theorem Counted.le_ref (c : Counted s) (p : Pid) (f : FileId) : (s.proc p).files f ≤ (s.file f).ref := by
  rw [c.count f]
  exact Finset.single_le_sum (f := fun q => (s.proc q).files f) (fun q _ => (c.fine q).files_nonneg f)
    (Finset.mem_univ p)

omit [DecidableEq Pid] [DecidableEq Pipe] [DecidableEq Inode] in
theorem Counted.childless (c : Counted s) {np : Pid} (other : (s.proc np).state ≠ .embryo) (q : Pid) (i : Nat) :
    (s.proc q).point ≠ .fork np i :=
  fun here => other (c.forks q np i here).embryo

omit [DecidableEq Pipe] [DecidableEq Inode] in
theorem Counted.change (c : Counted s) {y : Proc Pid Pipe Inode}
    (nobody : ∀ q i, (s.proc q).point ≠ .fork p i) (procs : t.proc = Function.update s.proc p y)
    (fine : Fine y)
    (forking : ∀ np i, y.point = .fork np i → np ≠ p ∧ y.ofile = (s.proc p).ofile ∧ Forks s p np i ∧
      ∀ q j, (s.proc q).point = .fork np j → q = p)
    (balance : ∀ f, ((t.file f).ref : Int) - (s.file f).ref = y.files f - (s.proc p).files f) : Counted t := by
  have self : t.proc p = y := by rw [procs, Function.update_self]
  have other : ∀ q, q ≠ p → t.proc q = s.proc q := fun q apart => by rw [procs, Function.update_of_ne apart]
  refine ⟨fun q => ?_, fun q np i here => ?_, fun q r np i j first second => ?_, fun f => ?_⟩
  · by_cases same : q = p
    · rw [same, self]
      exact fine
    · rw [other q same]
      exact c.fine q
  · by_cases same : q = p
    · subst same
      rw [self] at here
      obtain ⟨apart, table, forks, -⟩ := forking np i here
      refine ⟨?_, ?_, ?_⟩
      · rw [other np apart]
        exact forks.embryo
      · rw [other np apart, self, table]
        exact forks.done
      · rw [other np apart]
        exact forks.left
    · rw [other q same] at here
      have apart : np ≠ p := fun equal => nobody q i (equal ▸ here)
      have forks := c.forks q np i here
      refine ⟨?_, ?_, ?_⟩
      · rw [other np apart]
        exact forks.embryo
      · rw [other np apart, other q same]
        exact forks.done
      · rw [other np apart]
        exact forks.left
  · by_cases left : q = p
    · by_cases right : r = p
      · rw [left, right]
      · rw [other r right] at second
        rw [left, self] at first
        exact left.trans ((forking np i first).2.2.2 r j second).symm
    · rw [other q left] at first
      by_cases right : r = p
      · rw [right, self] at second
        exact ((forking np j second).2.2.2 q i first).trans right.symm
      · rw [other r right] at second
        exact c.parent q r np i j first second
  · have moved := sum_setProc s p y f
    have same : ∑ q, (t.proc q).files f = ∑ q, ((s.setProc p y).proc q).files f := by rw [procs]; rfl
    have before := c.count f
    have change := balance f
    omega

omit [DecidableEq Pipe] [DecidableEq Inode] in
theorem Counted.change_own (c : Counted s) {y : Proc Pid Pipe Inode} (running : (s.proc p).state = .runnable)
    (procs : t.proc = Function.update s.proc p y) (fine : Fine y)
    (none_forked : ∀ np i, y.point ≠ .fork np i)
    (balance : ∀ f, ((t.file f).ref : Int) - (s.file f).ref = y.files f - (s.proc p).files f) : Counted t :=
  c.change (c.childless (by rw [running]; decide)) procs fine (fun np i here => absurd here (none_forked np i)) balance

theorem Counted.moves (c : Counted s) (running : (s.proc p).state = .runnable) (idle : (s.proc p).drops = [])
    {y : Proc Pid Pipe Inode} (moves : Moves s (s.proc p) y) : Counted (s.setProc p y) := by
  refine c.change (c.childless (by rw [running]; decide)) rfl (moves.fine (c.fine p) running idle) ?_ fun f => ?_
  · intro np k forked
    cases moves with
    | @forkSkip np' i here none_there =>
      cases forked
      have forks := c.forks p np i here
      refine ⟨fun same => ?_, rfl, ⟨forks.embryo, fun j before => ?_, fun j behind => ?_⟩, fun q j there => ?_⟩
      · have embryo := forks.embryo
        rw [same, running] at embryo
        cases embryo
      · rcases Nat.lt_succ_iff_lt_or_eq.mp before with before | same
        · exact forks.done j before
        · obtain rfl : j = i := Fin.ext same
          rw [none_there, forks.left j (Nat.le_refl _)]
      · exact forks.left j (by omega)
      · exact c.parent q p np j i there here
    | close user held =>
      dsimp only at forked
      rw [user] at forked
      cases forked
    | _ => cases forked
  · rw [moves.files (c.fine p) idle f]
    exact (Int.sub_self _).trans (Int.sub_self _).symm

end Kernel

end OsLabs.Files
