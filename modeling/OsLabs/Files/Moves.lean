import Mathlib.Tactic.Common
import OsLabs.Files.Kernel

/-! What a step of a process does, with what lets it happen. -/

set_option autoImplicit false

namespace OsLabs.Files

open OsLabs.Lib Kernel

variable {Pid Pipe Inode : Type} [DecidableEq Pid] [DecidableEq Pipe] [DecidableEq Inode]

inductive Moves (s : Kernel Pid Pipe Inode) (x : Proc Pid Pipe Inode) : Proc Pid Pipe Inode → Prop where
  | dup {fd fd' : Fin NOFILE} {f : FileId} (user : x.point = .user) (held : x.ofile fd = some f)
      (free : x.ofile fd' = none) :
    Moves s x { x with ofile := Function.update x.ofile fd' (some f), point := .filedup f }
  | close {fd : Fin NOFILE} {f : FileId} (user : x.point = .user) (held : x.ofile fd = some f) :
    Moves s x { x with ofile := Function.update x.ofile fd none, drops := [.fileclose f] }
  | pipe (user : x.point = .user) : Moves s x { x with point := .pipeFile0 }
  | exit (user : x.point = .user) : Moves s x { x with point := .exit 0 }
  | access {fd : Fin NOFILE} {f : FileId} {q : Pipe} {writable : Bool} (user : x.point = .user)
      (held : x.ofile fd = some f) (type : (s.file f).type = .pipe q)
      (allowed : (if writable then (s.file f).writable else (s.file f).readable) = true) :
    Moves s x { x with point := .inPipe f q writable }
  | accessed {f : FileId} {q : Pipe} {writable : Bool} (inside : x.point = .inPipe f q writable) :
    Moves s x { x with point := .user }
  | openNoFile {i : Inode} {omode : Nat} (here : x.point = .openFile i omode) :
    Moves s x { x with drops := [.iput i], point := .user }
  | openNoFd {i : Inode} {omode : Nat} {f : FileId} (here : x.point = .openFd i omode f) :
    Moves s x { x with drops := [.fileclose f, .iput i], point := .user }
  | openFd {i : Inode} {omode : Nat} {f : FileId} {fd : Fin NOFILE} (here : x.point = .openFd i omode f)
      (free : x.ofile fd = none) :
    Moves s x { x with ofile := Function.update x.ofile fd (some f), point := .openSet i omode f }
  | pipeNoFile0 (here : x.point = .pipeFile0) : Moves s x { x with point := .user }
  | pipeNoFile1 {f0 : FileId} (here : x.point = .pipeFile1 f0) :
    Moves s x { x with drops := [.fileclose f0], point := .user }
  | pipeNoPage {f0 f1 : FileId} (here : x.point = .pipePage f0 f1) :
    Moves s x { x with drops := [.fileclose f0, .fileclose f1], point := .user }
  | pipeNoFd0 {rf wf : FileId} (here : x.point = .pipeFd0 rf wf) :
    Moves s x { x with drops := [.fileclose rf, .fileclose wf], point := .user }
  | pipeFd0 {rf wf : FileId} {fd : Fin NOFILE} (here : x.point = .pipeFd0 rf wf) (free : x.ofile fd = none) :
    Moves s x { x with ofile := Function.update x.ofile fd (some rf), point := .pipeFd1 fd rf wf }
  | pipeNoFd1 {fd0 : Fin NOFILE} {rf wf : FileId} (here : x.point = .pipeFd1 fd0 rf wf) :
    Moves s x
      { x with ofile := Function.update x.ofile fd0 none, drops := [.fileclose rf, .fileclose wf], point := .user }
  | pipeFd1 {fd0 fd : Fin NOFILE} {rf wf : FileId} (here : x.point = .pipeFd1 fd0 rf wf) (free : x.ofile fd = none) :
    Moves s x { x with ofile := Function.update x.ofile fd (some wf), point := .user }
  | forkSkip {np : Pid} {i : Fin NOFILE} (here : x.point = .fork np i) (none_there : x.ofile i = none) :
    Moves s x { x with point := .fork np (i + 1) }
  | exitSkip {i : Fin NOFILE} (here : x.point = .exit i) (none_there : x.ofile i = none) :
    Moves s x { x with point := .exit (i + 1) }
  | exitClose {i : Fin NOFILE} {f : FileId} (here : x.point = .exit i) (held : x.ofile i = some f) :
    Moves s x { x with drops := [.fileclose f], point := .exitClear i }
  | exitClear {i : Fin NOFILE} (here : x.point = .exitClear i) :
    Moves s x { x with ofile := Function.update x.ofile i none, point := .exit (i + 1) }

/-- The steps of process `p`, by what they change. -/
inductive Did (s : Kernel Pid Pipe Inode) (p : Pid) : Kernel Pid Pipe Inode → Prop where
  | nothing : Did s p s
  | noRef {f : FileId} (zero : (s.file f).ref < 1)
      (wanted : (∃ rest, (s.proc p).drops = .fileclose f :: rest) ∨
        (s.proc p).drops = [] ∧ ((s.proc p).point = .filedup f ∨ ∃ np i, (s.proc p).point = .fork np i ∧
          ∃ fd, (s.proc p).ofile fd = some f)) :
    Did s p s.panic
  | noType {f : FileId} {fd : Fin NOFILE} (idle : (s.proc p).drops = []) (user : (s.proc p).point = .user)
      (held : (s.proc p).ofile fd = some f) (type : (s.file f).type = .none) : Did s p s.panic
  | moves {y : Proc Pid Pipe Inode} (idle : (s.proc p).drops = []) (moves : Moves s (s.proc p) y) :
    Did s p (s.setProc p y)
  | fileclose {f : FileId} {rest : List (Drop Pipe Inode)} (due : (s.proc p).drops = .fileclose f :: rest)
      (more : 1 < (s.file f).ref) :
    Did s p ((s.setFile f { s.file f with ref := (s.file f).ref - 1 }).setProc p { s.proc p with drops := rest })
  | lastClose {f : FileId} {rest : List (Drop Pipe Inode)} (due : (s.proc p).drops = .fileclose f :: rest)
      (last : (s.file f).ref = 1) :
    Did s p ((s.setFile f { s.file f with ref := 0, type := .none }).setProc p
      { s.proc p with drops := (s.file f).type.drops (s.file f).writable ++ rest })
  | pipeclose {q : Pipe} {writable : Bool} {rest : List (Drop Pipe Inode)}
      (due : (s.proc p).drops = .pipeclose q writable :: rest) : Did s p (drop s p rest (.pipeclose q writable))
  | iput {i : Inode} {rest : List (Drop Pipe Inode)} (due : (s.proc p).drops = .iput i :: rest) :
    Did s p ((s.setRef i (s.iref i - 1)).setProc p { s.proc p with drops := rest })
  | filedup {f : FileId} (idle : (s.proc p).drops = []) (here : (s.proc p).point = .filedup f) :
    Did s p ((s.setFile f { s.file f with ref := (s.file f).ref + 1 }).setProc p { s.proc p with point := .user })
  /-- `sys_open` or `sys_chdir` gives up on the inode. -/
  | refused (i : Inode) (idle : (s.proc p).drops = []) (user : (s.proc p).point = .user) :
    Did s p ((s.setRef i (s.iref i + 1)).setProc p { s.proc p with drops := [.iput i] })
  | open (i : Inode) (omode : Nat) (idle : (s.proc p).drops = []) (user : (s.proc p).point = .user) :
    Did s p ((s.setRef i (s.iref i + 1)).setProc p { s.proc p with point := .openFile i omode })
  | openFile {i : Inode} {omode : Nat} {f : FileId} (idle : (s.proc p).drops = [])
      (here : (s.proc p).point = .openFile i omode) (free : (s.file f).ref = 0) :
    Did s p ((s.take f).setProc p { s.proc p with point := .openFd i omode f })
  | openSet {i : Inode} {omode : Nat} {f : FileId} (idle : (s.proc p).drops = [])
      (here : (s.proc p).point = .openSet i omode f) (readable writable : Bool) :
    Did s p ((s.setFile f { s.file f with type := .inode i, readable, writable }).setProc p
      { s.proc p with point := .user })
  | pipeFile0 {f : FileId} (idle : (s.proc p).drops = []) (here : (s.proc p).point = .pipeFile0)
      (free : (s.file f).ref = 0) : Did s p ((s.take f).setProc p { s.proc p with point := .pipeFile1 f })
  | pipeFile1 {f0 f : FileId} (idle : (s.proc p).drops = []) (here : (s.proc p).point = .pipeFile1 f0)
      (free : (s.file f).ref = 0) : Did s p ((s.take f).setProc p { s.proc p with point := .pipePage f0 f })
  | pipePage {f0 f1 : FileId} {q : Pipe} {t : Kernel Pid Pipe Inode} (idle : (s.proc p).drops = [])
      (here : (s.proc p).point = .pipePage f0 f1) (fresh : s.pipe q = none)
      (set : t = s.setFile f0 { s.file f0 with type := .pipe q, readable := true, writable := false }) :
    Did s p (((t.setFile f1 { t.file f1 with type := .pipe q, readable := false, writable := true }).setPipe q
      (some (true, true))).setProc p { s.proc p with point := .pipeFd0 f0 f1 })
  | chdirStart (i : Inode) (idle : (s.proc p).drops = []) (user : (s.proc p).point = .user) :
    Did s p ((s.setRef i (s.iref i + 1)).setProc p { s.proc p with point := .chdir i })
  | chdir {i c : Inode} (idle : (s.proc p).drops = []) (here : (s.proc p).point = .chdir i)
      (old : (s.proc p).cwd = some c) :
    Did s p ((s.setRef c (s.iref c - 1)).setProc p { s.proc p with cwd := some i, point := .user })
  | forkStart {np : Pid} (idle : (s.proc p).drops = []) (user : (s.proc p).point = .user)
      (unused : (s.proc np).state = .unused) :
    Did s p ((s.setProc np { s.proc np with state := .embryo }).setProc p { s.proc p with point := .fork np 0 })
  | forkDup {np : Pid} {i : Fin NOFILE} {f : FileId} (idle : (s.proc p).drops = [])
      (here : (s.proc p).point = .fork np i) (held : (s.proc p).ofile i = some f) :
    Did s p (((s.setFile f { s.file f with ref := (s.file f).ref + 1 }).setProc np
      { s.proc np with ofile := Function.update (s.proc np).ofile i (some f) }).setProc p
        { s.proc p with point := .fork np (i + 1) })
  | forkEnd {np : Pid} {i : Nat} {c : Inode} (idle : (s.proc p).drops = []) (here : (s.proc p).point = .fork np i)
      (all : NOFILE ≤ i) (cwd : (s.proc p).cwd = some c) :
    Did s p (((s.setRef c (s.iref c + 1)).setProc np { s.proc np with cwd := some c, state := .runnable }).setProc p
      { s.proc p with point := .user })
  | exitEnd {i : Nat} {c : Inode} (idle : (s.proc p).drops = []) (here : (s.proc p).point = .exit i)
      (all : NOFILE ≤ i) (cwd : (s.proc p).cwd = some c) :
    Did s p ((s.setRef c (s.iref c - 1)).setProc p { s.proc p with cwd := none, state := .zombie, point := .user })
  | wait {q : Pid} (zombie : (s.proc q).state = .zombie) : Did s p (s.setProc q { s.proc q with state := .unused })

variable {s t : Kernel Pid Pipe Inode} {p : Pid}

omit [DecidableEq Pid] [DecidableEq Pipe] [DecidableEq Inode] in
theorem ref_of_filealloc {f : FileId} (found : s.filealloc = some f) : (s.file f).ref = 0 := by
  simpa using List.find?_some found

theorem free_of_fdalloc {ofile : Fin NOFILE → Option FileId} {fd : Fin NOFILE} (found : fdalloc ofile = some fd) :
    ofile fd = none := by
  have free := List.find?_some found
  rwa [decide_eq_true_eq] at free

theorem did_of_drop {d : Drop Pipe Inode} {rest : List (Drop Pipe Inode)} (due : (s.proc p).drops = d :: rest) :
    Did s p (drop s p rest d) := by
  cases d with
  | fileclose f =>
    rw [drop]
    dsimp only
    split
    · rename_i zero
      exact .noRef zero (.inl ⟨rest, due⟩)
    · split
      · exact .fileclose due (by omega)
      · exact .lastClose due (by omega)
  | pipeclose q writable => exact .pipeclose due
  | iput i => exact .iput due

theorem did_of_access {fd : Fin NOFILE} {f : FileId} (writable : Bool) (idle : (s.proc p).drops = [])
    (user : (s.proc p).point = .user) (held : (s.proc p).ofile fd = some f) : Did s p (access s p f writable) := by
  rw [access]
  by_cases allowed : (if writable then (s.file f).writable else (s.file f).readable) = false
  · rw [if_pos allowed]
    exact .nothing
  · rw [if_neg allowed]
    cases type : (s.file f).type with
    | none => exact .noType idle user held type
    | pipe q => exact .moves idle (.access user held type (Bool.eq_true_of_not_eq_false allowed))
    | inode i => exact .nothing

theorem did_of_enter {call : Call Pid Pipe Inode} (idle : (s.proc p).drops = []) (user : (s.proc p).point = .user)
    (entered : enter s p call = some t) : Did s p t := by
  cases call with
  | dup fd =>
    cases Option.some.inj entered
    rw [argfd]
    split
    · exact .nothing
    · rename_i f held
      split
      · exact .nothing
      · rename_i fd' free
        exact .moves idle (.dup user held (free_of_fdalloc free))
  | close fd =>
    cases Option.some.inj entered
    rw [argfd]
    split
    · exact .nothing
    · rename_i f held
      exact .moves idle (.close user held)
  | «open» i omode type =>
    cases Option.some.inj entered
    split
    · exact .refused i idle user
    · exact .open i omode idle user
  | pipe =>
    cases Option.some.inj entered
    exact .moves idle (.pipe user)
  | read fd =>
    cases Option.some.inj entered
    rw [argfd]
    split
    · exact .nothing
    · rename_i f held
      exact did_of_access false idle user held
  | write fd =>
    cases Option.some.inj entered
    rw [argfd]
    split
    · exact .nothing
    · rename_i f held
      exact did_of_access true idle user held
  | chdir i type =>
    cases Option.some.inj entered
    split
    · exact .refused i idle user
    · exact .chdirStart i idle user
  | fork np =>
    rw [enter] at entered
    split at entered
    · cases Option.some.inj entered
      exact .forkStart idle user ‹_›
    · cases entered
  | exit =>
    cases Option.some.inj entered
    exact .moves idle (.exit user)
  | wait q =>
    rw [enter] at entered
    split at entered
    · cases Option.some.inj entered
      exact .wait ‹_›
    · cases entered
  | go page => cases entered

theorem did_of_advance {page : Option Pipe} (idle : (s.proc p).drops = [])
    (advanced : advance s p page (s.proc p).point = some t) : Did s p t := by
  generalize here : (s.proc p).point = point at advanced
  cases point with
  | user => cases advanced
  | filedup f =>
    rw [advance] at advanced
    dsimp only at advanced
    split at advanced
    · rename_i zero
      cases Option.some.inj advanced
      exact .noRef zero (.inr ⟨idle, .inl here⟩)
    · cases Option.some.inj advanced
      exact .filedup idle here
  | openFile i omode =>
    rw [advance] at advanced
    split at advanced
    · cases Option.some.inj advanced
      exact .moves idle (.openNoFile here)
    · cases Option.some.inj advanced
      exact .openFile idle here (ref_of_filealloc ‹_›)
  | openFd i omode f =>
    rw [advance] at advanced
    split at advanced
    · cases Option.some.inj advanced
      exact .moves idle (.openNoFd here)
    · cases Option.some.inj advanced
      exact .moves idle (.openFd here (free_of_fdalloc ‹_›))
  | openSet i omode f =>
    cases Option.some.inj advanced
    exact .openSet idle here _ _
  | pipeFile0 =>
    rw [advance] at advanced
    split at advanced
    · cases Option.some.inj advanced
      exact .moves idle (.pipeNoFile0 here)
    · cases Option.some.inj advanced
      exact .pipeFile0 idle here (ref_of_filealloc ‹_›)
  | pipeFile1 f0 =>
    rw [advance] at advanced
    split at advanced
    · cases Option.some.inj advanced
      exact .moves idle (.pipeNoFile1 here)
    · cases Option.some.inj advanced
      exact .pipeFile1 idle here (ref_of_filealloc ‹_›)
  | pipePage f0 f1 =>
    cases page with
    | none =>
      cases Option.some.inj advanced
      exact .moves idle (.pipeNoPage here)
    | some q =>
      simp only [advance] at advanced
      split at advanced
      · cases Option.some.inj advanced
        exact .pipePage idle here ‹_› rfl
      · cases advanced
  | pipeFd0 rf wf =>
    rw [advance] at advanced
    split at advanced
    · cases Option.some.inj advanced
      exact .moves idle (.pipeNoFd0 here)
    · cases Option.some.inj advanced
      exact .moves idle (.pipeFd0 here (free_of_fdalloc ‹_›))
  | pipeFd1 fd0 rf wf =>
    rw [advance] at advanced
    split at advanced
    · cases Option.some.inj advanced
      exact .moves idle (.pipeNoFd1 here)
    · cases Option.some.inj advanced
      exact .moves idle (.pipeFd1 here (free_of_fdalloc ‹_›))
  | fork np i =>
    rw [advance] at advanced
    split at advanced
    · rename_i below
      split at advanced
      · rename_i none_there
        cases Option.some.inj advanced
        exact .moves idle (.forkSkip (i := ⟨i, below⟩) here none_there)
      · rename_i f held
        dsimp only at advanced
        split at advanced
        · rename_i zero
          cases Option.some.inj advanced
          exact .noRef zero (.inr ⟨idle, .inr ⟨np, i, here, _, held⟩⟩)
        · cases Option.some.inj advanced
          exact .forkDup (i := ⟨i, below⟩) idle here held
    · rename_i all
      split at advanced
      · cases advanced
      · cases Option.some.inj advanced
        exact .forkEnd idle here (Nat.le_of_not_lt all) ‹_›
  | exit fd =>
    rw [advance] at advanced
    split at advanced
    · rename_i below
      split at advanced
      · rename_i none_there
        cases Option.some.inj advanced
        exact .moves idle (.exitSkip (i := ⟨fd, below⟩) here none_there)
      · rename_i f held
        cases Option.some.inj advanced
        exact .moves idle (.exitClose (i := ⟨fd, below⟩) here held)
    · rename_i all
      split at advanced
      · cases advanced
      · cases Option.some.inj advanced
        exact .exitEnd idle here (Nat.le_of_not_lt all) ‹_›
  | exitClear fd =>
    cases Option.some.inj advanced
    exact .moves idle (.exitClear here)
  | inPipe f q writable =>
    cases Option.some.inj advanced
    exact .moves idle (.accessed here)
  | chdir i =>
    rw [advance] at advanced
    split at advanced
    · cases advanced
    · cases Option.some.inj advanced
      exact .chdir idle here ‹_›

theorem did_of_step {call : Call Pid Pipe Inode} (taken : step s (p, call) = some t) :
    s.panicked = false ∧ (s.proc p).state = .runnable ∧ Did s p t := by
  by_cases stopped : (s.panicked || (s.proc p).state != .runnable) = true
  · simp only [step, if_pos stopped] at taken
    cases taken
  · simp only [step, if_neg stopped] at taken
    simp only [Bool.or_eq_true, bne_iff_ne, ne_eq, not_or, Bool.not_eq_true, not_not] at stopped
    refine ⟨stopped.1, stopped.2, ?_⟩
    cases due : (s.proc p).drops with
    | cons d rest =>
      simp only [due] at taken
      cases call with
      | go page =>
        cases Option.some.inj taken
        exact did_of_drop due
      | _ => cases taken
    | nil =>
      simp only [due] at taken
      cases call with
      | go page => exact did_of_advance due taken
      | _ =>
        dsimp only at taken
        split at taken
        · exact did_of_enter due ‹_› taken
        · cases taken

end OsLabs.Files
