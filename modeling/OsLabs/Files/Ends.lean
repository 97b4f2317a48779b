import Mathlib.Algebra.BigOperators.Ring.Finset
import Mathlib.Data.Fintype.BigOperators
import OsLabs.Files.Settled

/-! What the files refer to. A pipe has an end open, and an inode a reference, for each file open for it
and each process that has it in hand. -/

set_option autoImplicit false

namespace OsLabs.Files

open OsLabs.Lib Kernel

variable {Pid Pipe Inode : Type}

section Objects

abbrev Object (Pipe Inode : Type) := (Pipe × Bool) ⊕ Inode

def File.object (x : File Pipe Inode) : Option (Object Pipe Inode) :=
  match x.type with
  | .none => none
  | .pipe q => some (.inl (q, x.writable))
  | .inode i => some (.inr i)

def Drop.object : Drop Pipe Inode → Option (Object Pipe Inode)
  | .fileclose _ => none
  | .pipeclose q writable => some (.inl (q, writable))
  | .iput i => some (.inr i)

def Point.object : Point Pid Pipe Inode → Option (Object Pipe Inode)
  | .openFile i _ | .openFd i _ _ | .openSet i _ _ | .chdir i => some (.inr i)
  | _ => none

variable [DecidableEq Pipe] [DecidableEq Inode]

/-- The references that a process has itself: those it has to drop, its working directory and the inode
of the call it is in. -/
def Proc.objects (x : Proc Pid Pipe Inode) (o : Object Pipe Inode) : Int :=
  (x.drops.map fun d => share d.object o).sum + share (x.cwd.map .inr) o + share x.point.object o

def Kernel.isOpen (s : Kernel Pid Pipe Inode) (q : Pipe) (writable : Bool) : Bool :=
  if writable then ((s.pipe q).getD (false, false)).2 else ((s.pipe q).getD (false, false)).1

def Kernel.references (s : Kernel Pid Pipe Inode) : Object Pipe Inode → Int
  | .inl (q, writable) => if s.isOpen q writable then 1 else 0
  | .inr i => s.iref i

theorem sum_shares_nonneg (ds : List (Drop Pipe Inode)) (o : Object Pipe Inode) :
    0 ≤ (ds.map fun d => share d.object o).sum := by
  induction ds with
  | nil => exact Int.le_refl 0
  | cons d ds ih =>
    have here := share_nonneg d.object o
    rw [List.map_cons, List.sum_cons]
    omega

theorem Proc.objects_nonneg (x : Proc Pid Pipe Inode) (o : Object Pipe Inode) : 0 ≤ x.objects o := by
  have due := sum_shares_nonneg x.drops o
  have cwd := share_nonneg (x.cwd.map .inr) o
  have inside := share_nonneg x.point.object o
  rw [Proc.objects]
  omega

theorem sum_drops_object (x : File Pipe Inode) (o : Object Pipe Inode) :
    ((x.type.drops x.writable).map fun d => share d.object o).sum = share x.object o := by
  cases type : x.type <;> simp [FileType.drops, File.object, Drop.object, type]

theorem Moves.objects {s : Kernel Pid Pipe Inode} {x y : Proc Pid Pipe Inode} (moves : Moves s x y)
    (idle : x.drops = []) (o : Object Pipe Inode) : y.objects o = x.objects o := by
  cases moves with
  | close user held => simp [Proc.objects, Drop.object, idle]
  | dup user held free => simp [Proc.objects, Point.object, user]
  | pipe user => simp [Proc.objects, Point.object, user]
  | exit user => simp [Proc.objects, Point.object, user]
  | access user held type allowed => simp [Proc.objects, Point.object, user]
  | accessed inside => simp [Proc.objects, Point.object, inside]
  | openNoFile here =>
    simp [Proc.objects, Point.object, Drop.object, here, idle]
    omega
  | openNoFd here =>
    simp [Proc.objects, Point.object, Drop.object, here, idle]
    omega
  | openFd here free => simp [Proc.objects, Point.object, here]
  | pipeNoFile0 here => simp [Proc.objects, Point.object, here]
  | pipeNoFile1 here => simp [Proc.objects, Point.object, Drop.object, here, idle]
  | pipeNoPage here => simp [Proc.objects, Point.object, Drop.object, here, idle]
  | pipeNoFd0 here => simp [Proc.objects, Point.object, Drop.object, here, idle]
  | pipeFd0 here free => simp [Proc.objects, Point.object, here]
  | pipeNoFd1 here => simp [Proc.objects, Point.object, Drop.object, here, idle]
  | pipeFd1 here free => simp [Proc.objects, Point.object, here]
  | forkSkip here none_there => simp [Proc.objects, Point.object, here]
  | exitSkip here none_there => simp [Proc.objects, Point.object, here]
  | exitClose here held => simp [Proc.objects, Point.object, Drop.object, here, idle]
  | exitClear here => simp [Proc.objects, Point.object, here]

end Objects

section Account

variable [DecidableEq Pid] [DecidableEq Pipe] [DecidableEq Inode] [Fintype Pid] {s t : Kernel Pid Pipe Inode} {p : Pid}

/-- Everything that is open is open for a file or in the hand of a process. -/
structure Balanced (s : Kernel Pid Pipe Inode) : Prop extends Kept s where
  account : ∀ o, ∑ f, share (s.file f).object o + ∑ p, (s.proc p).objects o = s.references o

theorem objects_setProc (s : Kernel Pid Pipe Inode) (p : Pid) (y : Proc Pid Pipe Inode) (o : Object Pipe Inode) :
    ∑ q, ((s.setProc p y).proc q).objects o + (s.proc p).objects o = ∑ q, (s.proc q).objects o + y.objects o :=
  Holdings.sum_update_add (Finset.mem_univ p) s.proc y fun x => x.objects o

omit [DecidableEq Pid] [Fintype Pid] in
theorem object_setFile (s : Kernel Pid Pipe Inode) (g : FileId) (x : File Pipe Inode) (o : Object Pipe Inode) :
    ∑ f, share ((s.setFile g x).file f).object o + share (s.file g).object o =
      ∑ f, share (s.file f).object o + share x.object o :=
  Holdings.sum_update_add (Finset.mem_univ g) s.file x fun y => share y.object o

omit [DecidableEq Pid] in
theorem Balanced.file_le (b : Balanced s) (f : FileId) (o : Object Pipe Inode) :
    share (s.file f).object o ≤ s.references o := by
  have one := Finset.single_le_sum (f := fun f => share (s.file f).object o) (fun f _ => share_nonneg _ o)
    (Finset.mem_univ f)
  have rest := Finset.sum_nonneg fun (p : Pid) (_ : p ∈ Finset.univ) => (s.proc p).objects_nonneg o
  have total := b.account o
  omega

omit [DecidableEq Pid] in
theorem Balanced.proc_le (b : Balanced s) (p : Pid) (o : Object Pipe Inode) :
    (s.proc p).objects o ≤ s.references o := by
  have one := Finset.single_le_sum (f := fun p => (s.proc p).objects o) (fun p _ => (s.proc p).objects_nonneg o)
    (Finset.mem_univ p)
  have rest := Finset.sum_nonneg fun (f : FileId) (_ : f ∈ Finset.univ) => share_nonneg (s.file f).object o
  have total := b.account o
  omega

omit [DecidableEq Pid] in
theorem Balanced.of_sums (b : Balanced s) (kept : Kept t) (F P : Object Pipe Inode → Int)
    (files : ∀ o, ∑ f, share (t.file f).object o = ∑ f, share (s.file f).object o + F o)
    (procs : ∀ o, ∑ p, (t.proc p).objects o = ∑ p, (s.proc p).objects o + P o)
    (references : ∀ o, t.references o - s.references o = F o + P o) : Balanced t where
  toKept := kept
  account o := by
    have before := b.account o
    have change := references o
    rw [files o, procs o]
    omega

theorem sum_objects {y : Proc Pid Pipe Inode} (procs : t.proc = (s.setProc p y).proc) (o : Object Pipe Inode) :
    ∑ q, (t.proc q).objects o = ∑ q, (s.proc q).objects o + (y.objects o - (s.proc p).objects o) := by
  have right := objects_setProc s p y o
  rw [procs]
  omega

theorem Balanced.change (b : Balanced s) {y : Proc Pid Pipe Inode} {g : FileId} {x : File Pipe Inode} (kept : Kept t)
    (procs : t.proc = (s.setProc p y).proc) (files : t.file = (s.setFile g x).file)
    (balance : ∀ o, t.references o - s.references o =
      share x.object o - share (s.file g).object o + (y.objects o - (s.proc p).objects o)) : Balanced t := by
  refine b.of_sums kept _ _ (fun o => ?_) (sum_objects procs) balance
  have left := object_setFile s g x o
  rw [files]
  omega

theorem Balanced.change_proc (b : Balanced s) {y : Proc Pid Pipe Inode} (kept : Kept t)
    (procs : t.proc = (s.setProc p y).proc) (files : t.file = s.file)
    (balance : ∀ o, t.references o - s.references o = y.objects o - (s.proc p).objects o) : Balanced t := by
  refine b.of_sums kept (fun _ => 0) _ (fun o => ?_) (sum_objects procs) fun o => ?_
  · rw [files, Int.add_zero]
  · rw [balance o, Int.zero_add]

omit [DecidableEq Pid] in
theorem Balanced.keep (b : Balanced s) (kept : Kept t) (procs : ∀ q o, (t.proc q).objects o = (s.proc q).objects o)
    (files : ∀ f, (t.file f).object = (s.file f).object) (same : ∀ o, t.references o = s.references o) :
    Balanced t := by
  refine b.of_sums kept (fun _ => 0) (fun _ => 0) (fun o => ?_) (fun o => ?_) fun o => ?_
  · rw [Int.add_zero]
    refine Finset.sum_congr rfl fun f _ => ?_
    rw [files f]
  · rw [Int.add_zero]
    exact Finset.sum_congr rfl fun q _ => procs q o
  · rw [same o, Int.sub_self, Int.add_zero]

omit [DecidableEq Pid] [DecidableEq Pipe] [DecidableEq Inode] [Fintype Pid] in
theorem object_recount (file : FileId → File Pipe Inode) (g : FileId) (n : Nat) (f : FileId) :
    (Function.update file g { file g with ref := n } f).object = (file f).object := by
  rw [File.object, type_recount, writable_recount, File.object]

theorem Balanced.go_on (b : Balanced s) {y : Proc Pid Pipe Inode} (kept : Kept t)
    (procs : t.proc = (s.setProc p y).proc) (files : ∀ f, (t.file f).object = (s.file f).object)
    (references : ∀ o, t.references o = s.references o) (same : ∀ o, y.objects o = (s.proc p).objects o) :
    Balanced t := by
  refine b.keep kept (fun q o => ?_) files references
  rw [procs]
  by_cases here : q = p
  · rw [here, setProc_self]
    exact same o
  · rw [setProc_of_ne here]

omit [DecidableEq Pid] [Fintype Pid] in
theorem references_setRef (s : Kernel Pid Pipe Inode) (i : Inode) (n : Nat) (o : Object Pipe Inode) :
    (s.setRef i n).references o - s.references o = ((n : Int) - s.iref i) * share (some (.inr i)) o := by
  cases o with
  | inl e => simp [Kernel.references, setRef, isOpen, share]
  | inr j =>
    by_cases same : i = j
    · subst same
      simp [Kernel.references, setRef]
    · have other : (Sum.inr i : Object Pipe Inode) ≠ Sum.inr j := fun equal => same (Sum.inr.inj equal)
      rw [share_of_ne other]
      simp [Kernel.references, setRef, Function.update_of_ne (Ne.symm same)]

omit [DecidableEq Pid] [Fintype Pid] in
theorem references_idup (s : Kernel Pid Pipe Inode) (i : Inode) (o : Object Pipe Inode) :
    (s.setRef i (s.iref i + 1)).references o - s.references o = share (some (.inr i)) o := by
  have by_one : ((s.iref i + 1 : Nat) : Int) - s.iref i = 1 := by omega
  rw [references_setRef, by_one, Int.one_mul]

omit [DecidableEq Pid] [Fintype Pid] in
theorem references_iput {i : Inode} (one : 1 ≤ s.references (.inr i)) (o : Object Pipe Inode) :
    (s.setRef i (s.iref i - 1)).references o - s.references o = -share (some (.inr i)) o := by
  have by_one : ((s.iref i - 1 : Nat) : Int) - s.iref i = -1 := by
    rw [Kernel.references] at one
    omega
  rw [references_setRef, by_one, Int.neg_one_mul]

omit [DecidableEq Pid] [DecidableEq Inode] [Fintype Pid] in
theorem isOpen_setPipe (s : Kernel Pid Pipe Inode) (q : Pipe) (ends : Bool × Bool) (writable : Bool) :
    (s.setPipe q (if ends = (false, false) then none else some ends)).isOpen q writable =
      if writable then ends.2 else ends.1 := by
  have kept : (if ends = (false, false) then none else some ends : Option (Bool × Bool)).getD (false, false) =
      ends := by
    split
    · exact Eq.symm ‹_›
    · rfl
  simp only [isOpen, setPipe, Function.update_self, kept]

omit [DecidableEq Pid] [DecidableEq Inode] [Fintype Pid] in
theorem isOpen_setPipe_of_ne (s : Kernel Pid Pipe Inode) {q r : Pipe} (other : r ≠ q) (x : Option (Bool × Bool))
    (writable : Bool) : (s.setPipe q x).isOpen r writable = s.isOpen r writable := by
  simp only [isOpen, setPipe, Function.update_of_ne other]

omit [DecidableEq Pid] [Fintype Pid] in
theorem references_pipeclose (q : Pipe) (writable : Bool) (open_still : s.isOpen q writable = true)
    (ends : Bool × Bool) (first : ends = (s.pipe q).getD (false, false)) (left : Bool × Bool)
    (closed : left = if writable then (ends.1, false) else (false, ends.2)) (o : Object Pipe Inode) :
    (s.setPipe q (if left = (false, false) then none else some left)).references o - s.references o =
      -share (some (.inl (q, writable))) o := by
  cases o with
  | inr i => simp [Kernel.references, setPipe, share]
  | inl e =>
    obtain ⟨r, w⟩ := e
    by_cases same : r = q
    · subst same
      rw [Kernel.references, isOpen_setPipe, closed, Kernel.references, isOpen, ← first]
      rw [isOpen, ← first] at open_still
      cases writable <;> cases w <;> simp_all [share]
    · have other : (Sum.inl (q, writable) : Object Pipe Inode) ≠ Sum.inl (r, w) := by
        rintro ⟨⟩
        exact same rfl
      rw [share_of_ne other, Kernel.references, isOpen_setPipe_of_ne s same, Kernel.references]
      exact Int.sub_self _

omit [DecidableEq Pid] [Fintype Pid] in
theorem references_newPipe {q : Pipe} (fresh : s.pipe q = none) (o : Object Pipe Inode) :
    (s.setPipe q (some (true, true))).references o - s.references o =
      share (some (.inl (q, false))) o + share (some (.inl (q, true))) o := by
  cases o with
  | inr i => simp [Kernel.references, setPipe, share]
  | inl e =>
    obtain ⟨r, w⟩ := e
    by_cases same : r = q
    · subst same
      cases w <;> simp [Kernel.references, isOpen, setPipe, fresh, share]
    · have other : ∀ v, (Sum.inl (q, v) : Object Pipe Inode) ≠ Sum.inl (r, w) := by
        rintro v ⟨⟩
        exact same rfl
      rw [share_of_ne (other false), share_of_ne (other true), Kernel.references, isOpen_setPipe_of_ne s same,
        Kernel.references]
      exact Int.sub_self _

omit [DecidableEq Pid] in
theorem Balanced.one_of_object (b : Balanced s) {o : Object Pipe Inode} (hand : 1 ≤ (s.proc p).objects o) :
    1 ≤ s.references o :=
  hand.trans (b.proc_le p o)

omit [DecidableEq Pid] [DecidableEq Pipe] [DecidableEq Inode] [Fintype Pid] in
theorem isOpen_of_references {q : Pipe} {writable : Bool}
    (one : 1 ≤ s.references (.inl (q, writable))) : s.isOpen q writable = true := by
  rw [Kernel.references] at one
  split at one
  · assumption
  · omega

omit [DecidableEq Pid] [Fintype Pid] in
theorem Proc.one_of_due {x : Proc Pid Pipe Inode} {d : Drop Pipe Inode} {rest : List (Drop Pipe Inode)}
    {o : Object Pipe Inode} (due : x.drops = d :: rest) (object : d.object = some o) : 1 ≤ x.objects o := by
  have others := sum_shares_nonneg rest o
  have cwd := share_nonneg (x.cwd.map .inr) o
  have inside := share_nonneg x.point.object o
  rw [Proc.objects, due, List.map_cons, List.sum_cons, object, share_self]
  omega

omit [DecidableEq Pid] [Fintype Pid] in
theorem Proc.one_of_cwd {x : Proc Pid Pipe Inode} {c : Inode} (cwd : x.cwd = some c) :
    1 ≤ x.objects (.inr c : Object Pipe Inode) := by
  have due := sum_shares_nonneg x.drops (.inr c)
  have inside := share_nonneg x.point.object (.inr c)
  rw [Proc.objects, cwd, Option.map_some, share_self]
  omega

theorem Balanced.idup (b : Balanced s) {i : Inode} {y : Proc Pid Pipe Inode}
    (kept : Kept ((s.setRef i (s.iref i + 1)).setProc p y))
    (more : ∀ o, share (some (.inr i)) o = y.objects o - (s.proc p).objects o) :
    Balanced ((s.setRef i (s.iref i + 1)).setProc p y) :=
  b.change_proc kept rfl rfl fun o => (references_idup s i o).trans (more o)

theorem Balanced.iput (b : Balanced s) {i : Inode} {y : Proc Pid Pipe Inode}
    (kept : Kept ((s.setRef i (s.iref i - 1)).setProc p y)) (had : 1 ≤ (s.proc p).objects (.inr i))
    (less : ∀ o, -share (some (.inr i)) o = y.objects o - (s.proc p).objects o) :
    Balanced ((s.setRef i (s.iref i - 1)).setProc p y) :=
  b.change_proc kept rfl rfl fun o => (references_iput (b.one_of_object had) o).trans (less o)

/-- The two files of a pipe get their types, and the pipe its ends. -/
theorem Balanced.pipePage (b : Balanced s) {f0 f1 : FileId} {q : Pipe} {u : Kernel Pid Pipe Inode}
    (here : (s.proc p).point = .pipePage f0 f1) (fresh : s.pipe q = none)
    (set : u = s.setFile f0 { s.file f0 with type := .pipe q, readable := true, writable := false })
    (kept : Kept (((u.setFile f1 { u.file f1 with type := .pipe q, readable := false, writable := true }).setPipe q
      (some (true, true))).setProc p { s.proc p with point := .pipeFd0 f0 f1 })) :
    Balanced (((u.setFile f1 { u.file f1 with type := .pipe q, readable := false, writable := true }).setPipe q
      (some (true, true))).setProc p { s.proc p with point := .pipeFd0 f0 f1 }) := by
  have apart := (b.settled p).pipePage f0 f1 here
  have raw0 := ((b.settled p).raw f0 (by rw [here]; exact .pipePage0)).2
  have raw1 := ((b.settled p).raw f1 (by rw [here]; exact .pipePage1)).2
  have empty0 : (s.file f0).object = none := by simp [File.object, raw0]
  have empty1 : (u.file f1).object = none := by
    rw [set]
    simp [File.object, setFile, Function.update_of_ne (Ne.symm apart), raw1]
  refine b.of_sums kept (fun o => share (some (.inl (q, false))) o + share (some (.inl (q, true))) o) (fun o => 0)
    (fun o => ?_) (fun o => ?_) fun o => ?_
  · have first := object_setFile s f0 { s.file f0 with type := .pipe q, readable := true, writable := false } o
    have second := object_setFile u f1 { u.file f1 with type := .pipe q, readable := false, writable := true } o
    rw [← set, empty0, share_none, Int.add_zero] at first
    rw [empty1, share_none, Int.add_zero, first, Int.add_assoc] at second
    exact second
  · have procs := objects_setProc s p { s.proc p with point := .pipeFd0 f0 f1 } o
    have still : ({ s.proc p with point := .pipeFd0 f0 f1 } : Proc Pid Pipe Inode).objects o =
        (s.proc p).objects o := by
      simp [Proc.objects, here, Point.object]
    rw [still] at procs
    have total := add_right_cancel procs
    rw [set, Int.add_zero]
    exact total
  · rw [set, Int.add_zero]
    exact references_newPipe fresh o

/-- The child gets a working directory and runs. -/
theorem Balanced.forkEnd (b : Balanced s) {np : Pid} {i : Nat} {c : Inode} (running : (s.proc p).state = .runnable)
    (here : (s.proc p).point = .fork np i)
    (kept : Kept (((s.setRef c (s.iref c + 1)).setProc np { s.proc np with cwd := some c, state := .runnable }).setProc p
      { s.proc p with point := .user })) :
    Balanced (((s.setRef c (s.iref c + 1)).setProc np { s.proc np with cwd := some c, state := .runnable }).setProc p
      { s.proc p with point := .user }) := by
  have embryo := (b.forks p np i here).embryo
  have resting := (b.fine np).idle (by rw [embryo]; decide)
  have apart : p ≠ np := by
    rintro rfl
    rw [embryo] at running
    cases running
  refine b.of_sums kept (fun o => 0) (fun o => share (some (.inr c)) o) (fun o => (Int.add_zero _).symm)
    (fun o => ?_) fun o => ?_
  · have first := objects_setProc s np { s.proc np with cwd := some c, state := .runnable } o
    have second := objects_setProc (s.setProc np { s.proc np with cwd := some c, state := .runnable }) p
      { s.proc p with point := .user } o
    have child : ({ s.proc np with cwd := some c, state := .runnable } : Proc Pid Pipe Inode).objects o =
        (s.proc np).objects o + share (some (.inr c)) o := by
      simp [Proc.objects, resting.1, resting.2.1, resting.2.2, Point.object]
    have parent : ({ s.proc p with point := .user } : Proc Pid Pipe Inode).objects o = (s.proc p).objects o := by
      simp [Proc.objects, here, Point.object]
    rw [setProc_of_ne apart, parent] at second
    rw [child] at first
    have total := add_right_cancel second
    refine total.trans ?_
    omega
  · rw [Int.zero_add]
    exact references_idup s c o

theorem Balanced.did (b : Balanced s) (running : (s.proc p).state = .runnable) (did : Did s p t) : Balanced t := by
  have kept := b.toKept.did running did
  cases did with
  | nothing => exact b
  | noRef zero wanted => exact b.keep kept (fun q o => rfl) (fun f => rfl) fun o => rfl
  | noType idle user held type => exact b.keep kept (fun q o => rfl) (fun f => rfl) fun o => rfl
  | moves idle moves =>
    refine b.change_proc kept rfl rfl fun o => ?_
    rw [moves.objects idle o]
    exact (Int.sub_self _).trans (Int.sub_self _).symm
  | @fileclose f rest due more =>
    refine b.go_on kept rfl (object_recount s.file f _) (fun o => rfl) fun o => ?_
    simp [Proc.objects, due, Drop.object]
  | @lastClose f rest due last =>
    refine b.change kept rfl rfl fun o => ?_
    have gone : ({ s.file f with ref := 0, type := .none } : File Pipe Inode).object = none := rfl
    have left := sum_drops_object (s.file f) o
    have same : ((s.setFile f { s.file f with ref := 0, type := .none }).setProc p
      { s.proc p with drops := (s.file f).type.drops (s.file f).writable ++ rest }).references o = s.references o := rfl
    rw [same, gone, share_none, Proc.objects, Proc.objects, due, List.map_append, List.sum_append, left, List.map_cons,
      List.sum_cons, Drop.object, share_none]
    dsimp only
    omega
  | @pipeclose q writable rest due =>
    refine b.change_proc kept (y := { s.proc p with drops := rest }) rfl rfl fun o => ?_
    have one := b.one_of_object (Proc.one_of_due due rfl)
    have less := references_pipeclose q writable (isOpen_of_references one) _ rfl _ rfl o
    rw [Proc.objects, Proc.objects, due, List.map_cons, List.sum_cons, Drop.object]
    dsimp only
    refine less.trans ?_
    omega
  | @iput i rest due =>
    refine b.iput kept (Proc.one_of_due due rfl) fun o => ?_
    rw [Proc.objects, Proc.objects, due, List.map_cons, List.sum_cons, Drop.object]
    dsimp only
    omega
  | @filedup f idle here =>
    refine b.go_on kept rfl (object_recount s.file f _) (fun o => rfl) fun o => ?_
    simp [Proc.objects, here, Point.object]
  | «open» i omode idle user =>
    refine b.idup kept fun o => ?_
    simp [Proc.objects, Point.object, user]
  | @openFile i omode f idle here free =>
    refine b.go_on kept rfl (object_recount s.file f 1) (fun o => rfl) fun o => ?_
    simp [Proc.objects, here, Point.object]
  | @openSet i omode f idle here readable writable =>
    refine b.change kept rfl rfl fun o => ?_
    have raw := ((b.settled p).raw f (by rw [here]; exact .openSet)).2
    have before : (s.file f).object = none := by simp [File.object, raw]
    have after : ({ s.file f with type := .inode i, readable, writable } : File Pipe Inode).object = some (.inr i) :=
      rfl
    have same : ((s.setFile f { s.file f with type := .inode i, readable, writable }).setProc p
      { s.proc p with point := .user }).references o = s.references o := rfl
    rw [same, before, after, Proc.objects, Proc.objects, here, Point.object, Point.object, share_none]
    · dsimp only
      omega
    all_goals simp
  | @pipeFile0 f idle here free =>
    refine b.go_on kept rfl (object_recount s.file f 1) (fun o => rfl) fun o => ?_
    simp [Proc.objects, here, Point.object]
  | @pipeFile1 f0 f idle here free =>
    refine b.go_on kept rfl (object_recount s.file f 1) (fun o => rfl) fun o => ?_
    simp [Proc.objects, here, Point.object]
  | pipePage idle here fresh set => exact b.pipePage here fresh set kept
  | refused i idle user =>
    refine b.idup kept fun o => ?_
    simp [Proc.objects, Drop.object, idle]
  | chdirStart i idle user =>
    refine b.idup kept fun o => ?_
    simp [Proc.objects, Point.object, user]
  | @chdir i c idle here old =>
    refine b.iput kept (Proc.one_of_cwd old) fun o => ?_
    simp [Proc.objects, Point.object, here, old]
  | @forkStart np idle user unused =>
    refine b.keep kept (fun q o => ?_) (fun f => rfl) fun o => rfl
    simp only [setProc, Function.update_apply]
    split
    · rename_i same
      simp [Proc.objects, Point.object, user, same]
    · split
      · rename_i same
        rw [same]
        rfl
      · rfl
  | @forkDup np i f idle here held =>
    refine b.keep kept (fun q o => ?_) (fun g => ?_) fun o => rfl
    · simp only [setProc, setFile, Function.update_apply]
      split
      · rename_i same
        simp [Proc.objects, Point.object, here, same]
      · split
        · rename_i same
          rw [same]
          rfl
        · rfl
    · simp only [setProc, setFile]
      rw [Function.update_apply]
      split
      · rename_i same
        rw [same]
        rfl
      · rfl
  | forkEnd idle here all cwd => exact b.forkEnd running here kept
  | @exitEnd i c idle here all had =>
    refine b.iput kept (Proc.one_of_cwd had) fun o => ?_
    simp [Proc.objects, Point.object, here, had]
  | @wait q zombie =>
    refine b.keep kept (fun r o => ?_) (fun f => rfl) fun o => rfl
    simp only [setProc, Function.update_apply]
    split
    · rename_i same
      rw [same]
      rfl
    · rfl

end Account

section Runs

variable [DecidableEq Pid] [DecidableEq Pipe] [DecidableEq Inode] [Fintype Pid] {initproc : Pid} {root : Inode}
  {s : Kernel Pid Pipe Inode} {calls : List (Pid × Call Pid Pipe Inode)}

omit [DecidableEq Pipe] in
theorem counted_userinit (initproc : Pid) (root : Inode) :
    Counted (userinit initproc root : Kernel Pid Pipe Inode) where
  fine p := by
    refine ⟨fun stopped => ?_, by simp [userinit], fun running => ?_, by simp [userinit], by simp [userinit],
      by simp [userinit], by simp [userinit], by simp [userinit]⟩
    · by_cases first : p = initproc <;> simp_all [userinit]
    · by_cases first : p = initproc <;> simp_all [userinit]
  forks p np i here := by cases here
  parent p q np i j here := by cases here
  count f := by simp [userinit, Proc.files, slots, Point.files]

omit [DecidableEq Pipe] in
theorem kept_userinit (initproc : Pid) (root : Inode) : Kept (userinit initproc root : Kernel Pid Pipe Inode) where
  toCounted := counted_userinit initproc root
  settled p := settled_of_calm trivial (by simp [userinit])
  unused f _ := rfl
  oneWay f q type := by cases type

theorem balanced_userinit (initproc : Pid) (root : Inode) :
    Balanced (userinit initproc root : Kernel Pid Pipe Inode) where
  toKept := kept_userinit initproc root
  account o := by
    have files : ∀ f, share ((userinit initproc root : Kernel Pid Pipe Inode).file f).object o = 0 := fun f => rfl
    have procs : ∀ p, ((userinit initproc root : Kernel Pid Pipe Inode).proc p).objects o =
        if p = initproc then share (some (.inr root)) o else 0 := by
      intro p
      split <;> simp_all [userinit, Proc.objects, Point.object]
    rw [Finset.sum_eq_zero fun f _ => files f, Finset.sum_congr rfl fun p _ => procs p, Finset.sum_ite_eq',
      if_pos (Finset.mem_univ initproc), Int.zero_add]
    cases o with
    | inl e => simp [share, Kernel.references, isOpen, userinit]
    | inr i =>
      by_cases same : i = root
      · simp [share, Kernel.references, userinit, same]
      · simp [share, Kernel.references, userinit, same, Ne.symm same]

/-- Along every run the references are counted, and no step of it panics. -/
theorem balanced_of_run (reached : Machine.run step (userinit initproc root) calls = some s) :
    Balanced s ∧ s.panicked = false := by
  refine Machine.invariant (I := fun s => Balanced s ∧ s.panicked = false) ?_
    ⟨balanced_userinit initproc root, rfl⟩ reached
  rintro s ⟨p, call⟩ t ⟨balanced, calm⟩ taken
  obtain ⟨-, running, did⟩ := did_of_step taken
  exact ⟨balanced.did running did, balanced.toKept.not_panicked calm did⟩

def Kernel.AtRest (s : Kernel Pid Pipe Inode) : Prop := ∀ p, (s.proc p).drops = [] ∧ (s.proc p).point = .user

omit [DecidableEq Pid] [DecidableEq Pipe] [DecidableEq Inode] [Fintype Pid] in
theorem Kernel.AtRest.files (rest : s.AtRest) (p : Pid) (f : FileId) :
    (s.proc p).files f = slots (s.proc p).ofile f := by
  simp [Proc.files, Point.files, (rest p).1, (rest p).2]

omit [DecidableEq Pid] [Fintype Pid] in
theorem Kernel.AtRest.objects (rest : s.AtRest) (p : Pid) (o : Object Pipe Inode) :
    (s.proc p).objects o = share ((s.proc p).cwd.map .inr) o := by
  simp [Proc.objects, Point.object, (rest p).1, (rest p).2]

theorem sum_shares {ι α : Type} [Fintype ι] [DecidableEq α] (x : ι → Option α) (a : α) :
    ∑ i, share (x i) a = (Finset.univ.filter fun i => x i = some a).card := by
  simp [share, Finset.sum_boole]

/-- However the calls of processes interleave, and whichever of them fail: no call finds a file without
references or without a type, a file in a table has a reference, and once every process is back from its
call the count of a file is the number of descriptors there are for it. -/
theorem counts_exact (reached : Machine.run step (userinit initproc root) calls = some s) :
    s.panicked = false ∧
      (∀ p fd f, (s.proc p).ofile fd = some f → (s.proc p).point ≠ .exitClear fd → 0 < (s.file f).ref) ∧
      (s.AtRest → ∀ f, (s.file f).ref =
        (Finset.univ.filter fun d : Pid × Fin NOFILE => (s.proc d.1).ofile d.2 = some f).card) := by
  obtain ⟨balanced, calm⟩ := balanced_of_run reached
  refine ⟨calm, fun p fd f held away => ?_, fun rest f => ?_⟩
  · have one := ((balanced.fine p).one_of_slot held).resolve_left away
    have total := balanced.le_ref p f
    omega
  · have total := balanced.count f
    have counted := sum_shares (fun d : Pid × Fin NOFILE => (s.proc d.1).ofile d.2) f
    rw [Fintype.sum_prod_type] at counted
    rw [Finset.sum_congr rfl fun p _ => rest.files p f] at total
    exact Int.ofNat.inj (total.trans counted)

scoped instance neZeroOne : NeZero 1 := ⟨by decide⟩

scoped instance neZeroTwo : NeZero 2 := ⟨by decide⟩

scoped instance neZeroNofile : NeZero NOFILE := ⟨by decide⟩

def forkedPipe : List (Fin 2 × Call (Fin 2) (Fin 1) (Fin 1)) :=
  [(0, .pipe), (0, .go none), (0, .go none), (0, .go (some 0)), (0, .go none), (0, .go none), (0, .fork 1)] ++
    List.replicate 17 (0, .go none) ++ [(1, .close 1), (0, .close 0), (1, .go none), (0, .go none)]

theorem forkedPipe_ends : (Machine.run step (userinit 0 0) forkedPipe).any (fun s =>
    decide (∀ p, (s.proc p).drops = [] ∧ (s.proc p).point = .user) && (s.file 0).ref == 1 && s.isOpen 0 false) := by
  decide +kernel

theorem counts_exact_forkedPipe : ∃ s, Machine.run step (userinit 0 0) forkedPipe = some s ∧ s.panicked = false ∧
    (Finset.univ.filter fun d : Fin 2 × Fin NOFILE => (s.proc d.1).ofile d.2 = some 0).card = 1 := by
  obtain ⟨s, reached, last⟩ := (Option.any_eq_true _ _).mp forkedPipe_ends
  simp only [Bool.and_eq_true, beq_iff_eq, decide_eq_true_eq] at last
  obtain ⟨calm, -, exact_count⟩ := counts_exact reached
  exact ⟨s, reached, calm, (exact_count last.1.1 0).symm.trans last.1.2⟩

/-- However the calls of processes interleave, and whichever of them fail: a descriptor for an end of a
pipe finds it open, and so does a read or write in progress. Once every process is back from its call an
end is open just when some process has a descriptor for it, and the count of an inode is the number of
files open for it and of processes in it. -/
theorem ends_open (reached : Machine.run step (userinit initproc root) calls = some s) :
    (∀ p fd f q, (s.proc p).ofile fd = some f → (s.file f).type = .pipe q → s.isOpen q (s.file f).writable) ∧
    (∀ p f q writable, (s.proc p).point = .inPipe f q writable → s.isOpen q writable) ∧
    (s.AtRest →
      (∀ q writable, s.isOpen q writable ↔ ∃ p fd f, (s.proc p).ofile fd = some f ∧ (s.file f).type = .pipe q ∧
        (s.file f).writable = writable) ∧
      ∀ i, s.iref i = (Finset.univ.filter fun f => (s.file f).type = .inode i).card +
        (Finset.univ.filter fun p => (s.proc p).cwd = some i).card) := by
  obtain ⟨balanced, -⟩ := balanced_of_run reached
  -- a file open for an end keeps it open, whoever has the file
  have open_file : ∀ f q, (s.file f).type = .pipe q → s.isOpen q (s.file f).writable := by
    intro f q type
    have one := balanced.file_le f (.inl (q, (s.file f).writable))
    have object : (s.file f).object = some (.inl (q, (s.file f).writable)) := by simp [File.object, type]
    rw [object, share_self] at one
    exact isOpen_of_references one
  refine ⟨fun p fd f q _ type => open_file f q type, fun p f q writable inside => ?_, fun rest => ⟨fun q writable =>
    ⟨fun opened => ?_, ?_⟩, fun i => ?_⟩⟩
  · obtain ⟨-, type, direction⟩ := (balanced.settled p).inPipe f q writable inside
    rw [← direction]
    exact open_file f q type
  · have total := balanced.account (.inl (q, writable))
    have nobody : ∀ p, (s.proc p).objects (.inl (q, writable)) = 0 := by
      intro p
      rw [rest.objects]
      cases (s.proc p).cwd <;> simp [share]
    rw [Finset.sum_eq_zero fun p _ => nobody p, Int.add_zero, Kernel.references, if_pos opened] at total
    obtain ⟨f, -, some_share⟩ := Finset.exists_ne_zero_of_sum_ne_zero (by rw [total]; decide)
    have object : (s.file f).object = some (.inl (q, writable)) := by
      by_contra other
      exact some_share (if_neg other)
    have used : (s.file f).type = .pipe q ∧ (s.file f).writable = writable := by
      cases type : (s.file f).type <;> simp_all [File.object]
    have counted := balanced.count f
    have positive : (s.file f).ref ≠ 0 := by
      intro zero
      have none_there := balanced.unused f zero
      rw [used.1] at none_there
      cases none_there
    obtain ⟨p, -, some_files⟩ := Finset.exists_ne_zero_of_sum_ne_zero (s := Finset.univ)
      (f := fun p => (s.proc p).files f) (by rw [← counted]; omega)
    rw [rest.files, slots] at some_files
    obtain ⟨fd, -, some_slot⟩ := Finset.exists_ne_zero_of_sum_ne_zero some_files
    refine ⟨p, fd, f, ?_, used⟩
    by_contra other
    exact some_slot (if_neg other)
  · rintro ⟨p, fd, f, -, type, direction⟩
    rw [← direction]
    exact open_file f q type
  · have total := balanced.account (.inr i)
    rw [sum_shares, Finset.sum_congr rfl fun p _ => rest.objects p (.inr i), sum_shares, Kernel.references] at total
    have files : ∀ f, (s.file f).object = some (.inr i) ↔ (s.file f).type = .inode i := by
      intro f
      cases type : (s.file f).type <;> simp [File.object, type]
    have procs : ∀ p, (s.proc p).cwd.map (Sum.inr : Inode → Object Pipe Inode) = some (.inr i) ↔
        (s.proc p).cwd = some i := by
      intro p
      cases (s.proc p).cwd <;> simp
    simp only [files, procs] at total
    omega

theorem ends_open_forkedPipe : ∃ s, Machine.run step (userinit 0 0) forkedPipe = some s ∧
    ∃ p fd f, (s.proc p).ofile fd = some f ∧ (s.file f).type = .pipe 0 ∧ (s.file f).writable = false := by
  obtain ⟨s, reached, last⟩ := (Option.any_eq_true _ _).mp forkedPipe_ends
  simp only [Bool.and_eq_true, beq_iff_eq, decide_eq_true_eq] at last
  obtain ⟨-, -, at_rest⟩ := ends_open reached
  exact ⟨s, reached, ((at_rest last.1.1).1 0 false).mp last.2⟩

end Runs

end OsLabs.Files
