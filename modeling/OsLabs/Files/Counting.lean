import OsLabs.Files.References

/-! Every step of a process keeps the references counted. -/

set_option autoImplicit false

namespace OsLabs.Files

open OsLabs.Lib Kernel

variable {Pid Pipe Inode : Type}

section Entries

variable {x : Proc Pid Pipe Inode} {f : FileId}

theorem Fine.drops (fine : Fine x) (some_due : x.drops ≠ []) (ds : List (Drop Pipe Inode)) :
    Fine { x with drops := ds } where
  idle stopped := absurd (fine.idle stopped).1 some_due
  empty := fine.empty
  cwd := fine.cwd
  due _ := fine.due some_due
  filedup := fine.filedup
  pipeFd1 := fine.pipeFd1
  exit := fine.exit
  exitClear := fine.exitClear

theorem Fine.not_forking (fine : Fine x) (some_due : x.drops ≠ []) (np : Pid) (i : Nat) : x.point ≠ .fork np i := by
  intro here
  rcases fine.due some_due with user | ⟨fd, clear⟩
  · rw [user] at here
    cases here
  · rw [clear] at here
    cases here

theorem files_drops (x : Proc Pid Pipe Inode) (ds : List (Drop Pipe Inode)) (f : FileId) :
    Proc.files { x with drops := ds } f = slots x.ofile f + (ds.map (Drop.files f)).sum + x.point.files x.ofile f :=
  rfl

theorem sum_typeDrops (type : FileType Pipe Inode) (writable : Bool) (f : FileId) :
    ((type.drops writable).map (Drop.files f)).sum = 0 := by
  cases type <;> rfl

theorem Fine.one_of_due (fine : Fine x) {rest : List (Drop Pipe Inode)} (due : x.drops = .fileclose f :: rest) :
    1 ≤ x.files f := by
  have held := fine.point_files f
  have others := drops_nonneg rest f
  rw [Proc.files, due, List.map_cons, List.sum_cons, Drop.files, share_self]
  omega

theorem Fine.one_of_filedup (fine : Fine x) (here : x.point = .filedup f) : 1 ≤ x.files f := by
  have twice := fine.filedup f here
  have due := drops_nonneg x.drops f
  rw [Proc.files, here, Point.files, share_self]
  omega

theorem one_of_fork {np : Pid} {i : Nat} {fd : Fin NOFILE} (here : x.point = .fork np i)
    (held : x.ofile fd = some f) : 1 ≤ x.files f := by
  have one := share_le_slots x.ofile fd f
  have due := drops_nonneg x.drops f
  rw [held, share_self] at one
  rw [Proc.files, here, Point.files]
  · omega
  all_goals simp

end Entries

section Steps

variable [DecidableEq Pid] [DecidableEq Pipe] [DecidableEq Inode] [Fintype Pid] {s t : Kernel Pid Pipe Inode} {p : Pid}

omit [DecidableEq Pid] [DecidableEq Pipe] [DecidableEq Inode] [Fintype Pid] in
theorem ref_update (file : FileId → File Pipe Inode) (g : FileId) (x : File Pipe Inode) (f : FileId) :
    ((Function.update file g x f).ref : Int) - (file f).ref = ((x.ref : Int) - (file g).ref) * share (some g) f := by
  by_cases same : f = g
  · rw [same, Function.update_self, share_self, Int.mul_one]
  · rw [Function.update_of_ne same, share_of_ne (Ne.symm same), Int.mul_zero, Int.sub_self]

omit [DecidableEq Pipe] [DecidableEq Inode] [Fintype Pid] in
@[simp] theorem setProc_self (s : Kernel Pid Pipe Inode) (p : Pid) (x : Proc Pid Pipe Inode) :
    (s.setProc p x).proc p = x :=
  Function.update_self ..

omit [DecidableEq Pipe] [DecidableEq Inode] [Fintype Pid] in
theorem setProc_of_ne {q : Pid} (other : q ≠ p) (x : Proc Pid Pipe Inode) : (s.setProc p x).proc q = s.proc q :=
  Function.update_of_ne other ..

omit [DecidableEq Pipe] [DecidableEq Inode] in
theorem Counted.keep (c : Counted s) {y : Proc Pid Pipe Inode} (running : (s.proc p).state = .runnable)
    (procs : t.proc = Function.update s.proc p y) (fine : Fine y) (none_forked : ∀ np i, y.point ≠ .fork np i)
    (refs : ∀ f, (t.file f).ref = (s.file f).ref) (same : ∀ f, y.files f = (s.proc p).files f) : Counted t :=
  c.change_own running procs fine none_forked fun f => by rw [refs f, same f, Int.sub_self, Int.sub_self]

omit [DecidableEq Pipe] [DecidableEq Inode] in
theorem Counted.adjust (c : Counted s) {y : Proc Pid Pipe Inode} {g : FileId} {x : File Pipe Inode}
    (running : (s.proc p).state = .runnable) (procs : t.proc = Function.update s.proc p y)
    (files : t.file = Function.update s.file g x) (fine : Fine y) (none_forked : ∀ np i, y.point ≠ .fork np i)
    (balance : ∀ f, y.files f = (s.proc p).files f + ((x.ref : Int) - (s.file g).ref) * share (some g) f) :
    Counted t := by
  refine c.change_own running procs fine none_forked fun f => ?_
  rw [files, ref_update, balance f]
  omega

omit [DecidableEq Pipe] [DecidableEq Inode] in
theorem Counted.forkStart (c : Counted s) {np : Pid} (running : (s.proc p).state = .runnable)
    (idle : (s.proc p).drops = []) (user : (s.proc p).point = .user) (unused : (s.proc np).state = .unused) :
    Counted ((s.setProc np { s.proc np with state := .embryo }).setProc p { s.proc p with point := .fork np 0 }) := by
  have fine := c.fine np
  have apart : p ≠ np := by
    rintro rfl
    rw [running] at unused
    cases unused
  have resting := fine.idle (by rw [unused]; decide)
  have not_embryo : (s.proc np).state ≠ .embryo := by
    rw [unused]
    decide
  have childless := c.childless not_embryo
  have begun : Counted (s.setProc np { s.proc np with state := .embryo }) := by
    refine c.change childless rfl ⟨fun _ => resting, ?_, by simp, by simp [resting.1], fine.filedup, fine.pipeFd1,
      fine.exit, fine.exitClear⟩ ?_ fun f => ?_
    · simp
    · intro np' i here
      dsimp only at here
      rw [resting.2.1] at here
      cases here
    · exact (Int.sub_self _).trans (Int.sub_self _).symm
  have parent : (s.setProc np { s.proc np with state := .embryo }).proc p = s.proc p := setProc_of_ne apart _
  have child : (s.setProc np { s.proc np with state := .embryo }).proc np = { s.proc np with state := .embryo } :=
    setProc_self ..
  have nobody : ∀ q j, ((s.setProc np { s.proc np with state := .embryo }).proc q).point ≠ .fork np j := by
    intro q j here
    by_cases same : q = np
    · rw [same, child] at here
      exact childless np j here
    · rw [setProc_of_ne same] at here
      exact childless q j here
  have cwd := (c.fine p).cwd running
  refine begun.change (begun.childless (by rw [parent, running]; decide)) rfl
    (fine_of_free running cwd trivial (.inl idle)) ?_ fun f => ?_
  · rintro np' i ⟨⟩
    refine ⟨Ne.symm apart, by rw [parent], ⟨by rw [child], ?_, ?_⟩, fun q j here => absurd here (nobody q j)⟩
    · intro j before
      exact absurd before (Nat.not_lt_zero _)
    · intro j _
      rw [child]
      exact fine.empty (.inl unused) j
  · rw [parent]
    simp [Proc.files, Point.files, user, setProc]

omit [DecidableEq Pipe] [DecidableEq Inode] in
theorem Counted.forkEnd (c : Counted s) {np : Pid} {i : Nat} {cwd : Inode}
    (running : (s.proc p).state = .runnable) (idle : (s.proc p).drops = []) (here : (s.proc p).point = .fork np i)
    (files : t.file = s.file) (procs : t.proc = Function.update (Function.update s.proc np
      { s.proc np with cwd := some cwd, state := .runnable }) p { s.proc p with point := .user }) : Counted t := by
  have forks := c.forks p np i here
  have apart : np ≠ p := by
    rintro rfl
    rw [forks.embryo] at running
    cases running
  have resting := (c.fine np).idle (by rw [forks.embryo]; decide)
  have returned : Counted (s.setProc p { s.proc p with point := .user }) := by
    refine c.keep running rfl (fine_of_free running ((c.fine p).cwd running) trivial (.inl idle)) (by simp)
      (fun f => rfl) fun f => ?_
    simp [Proc.files, Point.files, here]
  have child : (s.setProc p { s.proc p with point := .user }).proc np = s.proc np := setProc_of_ne apart _
  have nobody : ∀ q j, ((s.setProc p { s.proc p with point := .user }).proc q).point ≠ .fork np j := by
    intro q j there
    by_cases same : q = p
    · rw [same, setProc_self] at there
      cases there
    · rw [setProc_of_ne same] at there
      exact same (c.parent q p np j i there here)
  refine returned.change (y := { s.proc np with cwd := some cwd, state := .runnable }) nobody
    (by rw [procs, Function.update_comm apart]; rfl) (fine_of_free rfl rfl ?_ (.inl resting.1)) ?_ fun f => ?_
  · simp [Point.Free, resting.2.1]
  · intro np' j there
    dsimp only at there
    rw [resting.2.1] at there
    cases there
  · rw [child, files]
    exact (Int.sub_self _).trans (Int.sub_self _).symm

omit [DecidableEq Pid] [DecidableEq Pipe] [DecidableEq Inode] [Fintype Pid] in
/-- The next descriptor of the parent is copied. -/
theorem Forks.copy {np : Pid} {i : Fin NOFILE} {f : FileId} (forks : Forks s p np i) (held : (s.proc p).ofile i = some f)
    (parent : (t.proc p).ofile = (s.proc p).ofile) (state : (t.proc np).state = (s.proc np).state)
    (child : (t.proc np).ofile = Function.update (s.proc np).ofile i (some f)) : Forks t p np (i + 1) := by
  refine ⟨state.trans forks.embryo, fun j before => ?_, fun j behind => ?_⟩
  · rw [child, parent]
    rcases Nat.lt_succ_iff_lt_or_eq.mp before with before | same
    · have ahead : j ≠ i := fun equal => by rw [equal] at before; exact Nat.lt_irrefl _ before
      rw [Function.update_of_ne ahead]
      exact forks.done j before
    · obtain rfl : j = i := Fin.ext same
      rw [Function.update_self, held]
  · have ahead : j ≠ i := by
      rintro rfl
      omega
    rw [child, Function.update_of_ne ahead]
    exact forks.left j (by omega)

omit [DecidableEq Pipe] [DecidableEq Inode] in
theorem Counted.forkDup (c : Counted s) {np : Pid} {i : Fin NOFILE} {f : FileId}
    (running : (s.proc p).state = .runnable) (idle : (s.proc p).drops = []) (here : (s.proc p).point = .fork np i)
    (held : (s.proc p).ofile i = some f) :
    Counted (((s.setFile f { s.file f with ref := (s.file f).ref + 1 }).setProc np
      { s.proc np with ofile := Function.update (s.proc np).ofile i (some f) }).setProc p
        { s.proc p with point := .fork np (i + 1) }) := by
  have forks := c.forks p np i here
  have apart : np ≠ p := by
    rintro rfl
    rw [forks.embryo] at running
    cases running
  have resting := (c.fine np).idle (by rw [forks.embryo]; decide)
  -- the two tables between which the descriptor is copied, and the points of all processes
  generalize after : ((s.setFile f { s.file f with ref := (s.file f).ref + 1 }).setProc np
      { s.proc np with ofile := Function.update (s.proc np).ofile i (some f) }).setProc p
        { s.proc p with point := .fork np (i + 1) } = t
  have self : t.proc p = { s.proc p with point := .fork np (i + 1) } := by rw [← after, setProc_self]
  have child : t.proc np = { s.proc np with ofile := Function.update (s.proc np).ofile i (some f) } := by
    rw [← after, setProc_of_ne apart, setProc_self]
  have other : ∀ q, q ≠ p → q ≠ np → t.proc q = s.proc q := by
    intro q first second
    rw [← after, setProc_of_ne first, setProc_of_ne second]
    rfl
  have point : ∀ q a k, (t.proc q).point = .fork a k → ∃ k', (s.proc q).point = .fork a k' := by
    intro q a k there
    by_cases first : q = p
    · subst first
      rw [self] at there
      cases there
      exact ⟨i, here⟩
    · by_cases second : q = np
      · rw [second, child] at there
        exact ⟨k, second ▸ there⟩
      · rw [other q first second] at there
        exact ⟨k, there⟩
  refine ⟨fun q => ?_, fun q a k there => ?_, fun q r a j k first second => ?_, fun g => ?_⟩
  · by_cases first : q = p
    · rw [first, self]
      exact fine_of_free running ((c.fine p).cwd running) trivial (.inl idle)
    · by_cases second : q = np
      · rw [second, child]
        refine ⟨fun _ => resting, by simp [forks.embryo], by simp [forks.embryo], by simp [resting.1], ?_, ?_, ?_, ?_⟩
        all_goals simp [resting.2.1]
      · rw [other q first second]
        exact c.fine q
  · by_cases first : q = p
    · subst first
      rw [self] at there
      cases there
      exact forks.copy held (by rw [self]) (by rw [child]) (by rw [child])
    · obtain ⟨k', before⟩ := point q a k there
      have theirs := c.forks q a k' before
      have not_child : a ≠ np := by
        rintro rfl
        exact first (c.parent q p a k' i before here)
      have not_parent : a ≠ p := by
        rintro rfl
        have embryo := theirs.embryo
        rw [running] at embryo
        cases embryo
      have not_embryo : q ≠ np := by
        rintro rfl
        rw [resting.2.1] at before
        cases before
      rw [other q first not_embryo] at there
      have still := c.forks q a k there
      refine ⟨?_, ?_, ?_⟩
      · rw [other a not_parent not_child]
        exact still.embryo
      · rw [other a not_parent not_child, other q first not_embryo]
        exact still.done
      · rw [other a not_parent not_child]
        exact still.left
  · obtain ⟨j', first'⟩ := point q a j first
    obtain ⟨k', second'⟩ := point r a k second
    exact c.parent q r a j' k' first' second'
  · have before := c.count g
    have changed := ref_update s.file f { s.file f with ref := (s.file f).ref + 1 } g
    have first := sum_setProc s np { s.proc np with ofile := Function.update (s.proc np).ofile i (some f) } g
    have second := sum_setProc (s.setProc np
      { s.proc np with ofile := Function.update (s.proc np).ofile i (some f) }) p
        { s.proc p with point := .fork np (i + 1) } g
    have more := slots_update (s.proc np).ofile i (some f) g
    rw [setProc_of_ne (Ne.symm apart)] at second
    rw [forks.left i (Nat.le_refl _), share_none] at more
    have parent : Proc.files { s.proc p with point := .fork np (i + 1) } g = (s.proc p).files g := by
      simp [Proc.files, Point.files, here]
    have gained : Proc.files { s.proc np with ofile := Function.update (s.proc np).ofile i (some f) } g =
        (s.proc np).files g + share (some f) g := by
      simp only [Proc.files, Point.files, resting.2.1]
      omega
    have files : t.file g = Function.update s.file f { s.file f with ref := (s.file f).ref + 1 } g := by
      rw [← after]
      rfl
    have procs : ∑ q, (t.proc q).files g = ∑ q, (((s.setProc np
        { s.proc np with ofile := Function.update (s.proc np).ofile i (some f) }).setProc p
          { s.proc p with point := .fork np (i + 1) }).proc q).files g := by
      rw [← after]
      rfl
    have by_one : ((({ s.file f with ref := (s.file f).ref + 1 } : File Pipe Inode).ref : Int) - (s.file f).ref) *
        share (some f) g = share (some f) g := by
      dsimp only
      rw [Int.natCast_succ, add_sub_cancel_left, Int.one_mul]
    rw [files, procs]
    omega

omit [DecidableEq Pid] [DecidableEq Pipe] [DecidableEq Inode] in
theorem Counted.panic (c : Counted s) : Counted s.panic where
  fine := c.fine
  forks p np i here := { embryo := (c.forks p np i here).embryo, done := (c.forks p np i here).done,
                         left := (c.forks p np i here).left }
  parent := c.parent
  count := c.count

/-- What one step of a process does to the references. -/
theorem Counted.did (c : Counted s) (running : (s.proc p).state = .runnable) (did : Did s p t) : Counted t := by
  have fine := c.fine p
  have cwd := fine.cwd running
  cases did with
  | nothing => exact c
  | noRef zero wanted => exact c.panic
  | noType idle user held type => exact c.panic
  | moves idle moves => exact c.moves running idle moves
  | @fileclose f rest due more =>
    have some_due : (s.proc p).drops ≠ [] := by simp [due]
    refine c.adjust running rfl rfl (fine.drops some_due rest) (fine.not_forking some_due) fun g => ?_
    have less : (((s.file f).ref - 1 : Nat) : Int) - (s.file f).ref = -1 := by omega
    dsimp only
    rw [less, files_drops, Proc.files, due, List.map_cons, List.sum_cons, Drop.files]
    omega
  | @lastClose f rest due last =>
    have some_due : (s.proc p).drops ≠ [] := by simp [due]
    refine c.adjust running rfl rfl (fine.drops some_due _) (fine.not_forking some_due) fun g => ?_
    dsimp only
    rw [last, files_drops, Proc.files, due, List.map_append, List.sum_append, sum_typeDrops, List.map_cons,
      List.sum_cons, Drop.files]
    omega
  | @pipeclose q writable rest due =>
    have some_due : (s.proc p).drops ≠ [] := by simp [due]
    refine c.keep running (t := drop s p rest (.pipeclose q writable)) rfl (fine.drops some_due rest)
      (fine.not_forking some_due) (fun g => rfl) fun g => ?_
    simp [Proc.files, due, Drop.files]
  | @iput i rest due =>
    have some_due : (s.proc p).drops ≠ [] := by simp [due]
    refine c.keep running rfl (fine.drops some_due rest) (fine.not_forking some_due) (fun g => rfl) fun g => ?_
    simp [Proc.files, due, Drop.files]
  | @filedup f idle here =>
    refine c.adjust running rfl rfl (fine_of_free running cwd trivial (.inl idle)) (by simp) fun g => ?_
    have more : (((s.file f).ref + 1 : Nat) : Int) - (s.file f).ref = 1 := by omega
    dsimp only
    rw [more, Proc.files, Proc.files, here, Point.files, Point.files]
    · dsimp only
      omega
    all_goals simp
  | «open» i omode idle user =>
    refine c.keep running rfl (fine_of_free running cwd trivial (.inl idle)) (by simp) (fun g => rfl) fun g => ?_
    simp [Proc.files, Point.files, user]
  | @openFile i omode f idle here free =>
    refine c.adjust running rfl rfl (fine_of_free running cwd trivial (.inl idle)) (by simp) fun g => ?_
    simp [Proc.files, Point.files, here, free]
  | @openSet i omode f idle here readable writable =>
    refine c.adjust running rfl rfl (fine_of_free running cwd trivial (.inl idle)) (by simp) fun g => ?_
    simp [Proc.files, Point.files, here]
  | @pipeFile0 f idle here free =>
    refine c.adjust running rfl rfl (fine_of_free running cwd trivial (.inl idle)) (by simp) fun g => ?_
    simp [Proc.files, Point.files, here, free]
  | @pipeFile1 f0 f idle here free =>
    refine c.adjust running rfl rfl (fine_of_free running cwd trivial (.inl idle)) (by simp) fun g => ?_
    simp [Proc.files, Point.files, here, free, add_assoc]
  | @pipePage f0 f1 q u idle here fresh set =>
    subst set
    refine c.keep running rfl (fine_of_free running cwd trivial (.inl idle)) (by simp) (fun g => ?_) fun g => ?_
    · simp only [setPipe, setProc, setFile, Function.update_apply]
      split <;> split <;> simp_all
    · simp [Proc.files, Point.files, here]
  | refused i idle user =>
    refine c.keep running rfl (fine_of_free running cwd (by simp [user, Point.Free]) (.inr user)) (by simp [user])
      (fun g => rfl) fun g => ?_
    simp [Proc.files, Drop.files, idle]
  | chdirStart i idle user =>
    refine c.keep running rfl (fine_of_free running cwd trivial (.inl idle)) (by simp) (fun g => rfl) fun g => ?_
    simp [Proc.files, Point.files, user]
  | chdir idle here old =>
    refine c.keep running rfl (fine_of_free running rfl trivial (.inl idle)) (by simp) (fun g => rfl) fun g => ?_
    simp [Proc.files, Point.files, here]
  | forkStart idle user unused => exact c.forkStart running idle user unused
  | forkDup idle here held => exact c.forkDup running idle here held
  | forkEnd idle here all cwd => exact c.forkEnd running idle here rfl rfl
  | @exitEnd i old idle here all had =>
    have empty : ∀ fd, (s.proc p).ofile fd = none := fun fd => fine.exit i here fd (Nat.lt_of_lt_of_le fd.isLt all)
    refine c.keep running rfl ⟨fun _ => ⟨idle, rfl, rfl⟩, fun _ => empty, ?_, ?_, ?_, ?_, ?_, ?_⟩ (by simp)
      (fun g => rfl) fun g => ?_
    all_goals simp [Proc.files, Point.files, here, idle]
  | @wait q zombie =>
    have still := c.fine q
    have resting := still.idle (by rw [zombie]; decide)
    refine c.change (c.childless (by rw [zombie]; decide)) rfl ⟨fun _ => resting, fun _ => still.empty (.inr zombie),
      ?_, fun some_due => absurd resting.1 some_due, still.filedup, still.pipeFd1, still.exit, still.exitClear⟩ ?_
      fun g => ?_
    · simp
    · intro np i here
      dsimp only at here
      rw [resting.2.1] at here
      cases here
    · exact (Int.sub_self _).trans (Int.sub_self _).symm

end Steps

end OsLabs.Files
