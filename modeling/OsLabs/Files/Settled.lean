import OsLabs.Files.Counting

/-! What a process relies on in the files it has references to, while others go on. While a process has
a reference to a file nobody else gives it another type. -/

set_option autoImplicit false

namespace OsLabs.Files

open OsLabs.Lib Kernel

variable {Pid Pipe Inode : Type}

section Entries

variable {x y : Proc Pid Pipe Inode} {f : FileId} {file file' : FileId → File Pipe Inode}

/-- The points at which a process has a file that is its own and has no type yet. -/
inductive Point.Raw : Point Pid Pipe Inode → FileId → Prop where
  | openFd {i : Inode} {omode : Nat} {f : FileId} : Point.Raw (.openFd i omode f) f
  | openSet {i : Inode} {omode : Nat} {f : FileId} : Point.Raw (.openSet i omode f) f
  | pipeFile1 {f : FileId} : Point.Raw (.pipeFile1 f) f
  | pipePage0 {f g : FileId} : Point.Raw (.pipePage f g) f
  | pipePage1 {f g : FileId} : Point.Raw (.pipePage f g) g

structure Settled (file : FileId → File Pipe Inode) (x : Proc Pid Pipe Inode) : Prop where
  slot : ∀ fd f, x.ofile fd = some f →
    (file f).type ≠ .none ∨ (∃ i omode, x.point = .openSet i omode f) ∨ x.point = .exitClear fd
  raw : ∀ f, x.point.Raw f → (file f).ref = 1 ∧ (file f).type = .none
  openSet : ∀ i omode f, x.point = .openSet i omode f → ∃ fd, x.ofile fd = some f
  pipePage : ∀ f g, x.point = .pipePage f g → f ≠ g
  pipeFd0 : ∀ rf wf, x.point = .pipeFd0 rf wf → (file rf).type ≠ .none ∧ (file wf).type ≠ .none
  pipeFd1 : ∀ fd0 rf wf, x.point = .pipeFd1 fd0 rf wf → (file wf).type ≠ .none
  inPipe : ∀ f q writable, x.point = .inPipe f q writable →
    (∃ fd, x.ofile fd = some f) ∧ (file f).type = .pipe q ∧ (file f).writable = writable

def Point.Calm : Point Pid Pipe Inode → Prop
  | .user | .filedup _ | .openFile _ _ | .pipeFile0 | .fork _ _ | .exit _ | .chdir _ => True
  | _ => False

theorem settled_of_calm (calm : x.point.Calm) (typed : ∀ fd f, x.ofile fd = some f → (file f).type ≠ .none) :
    Settled file x where
  slot fd f held := .inl (typed fd f held)
  raw f raw := by
    cases here : x.point with
    | _ => rw [here] at raw calm; first | exact calm.elim | cases raw
  openSet i omode f here := by
    rw [here] at calm
    exact calm.elim
  pipePage f g here := by
    rw [here] at calm
    exact calm.elim
  pipeFd0 rf wf here := by
    rw [here] at calm
    exact calm.elim
  pipeFd1 fd0 rf wf here := by
    rw [here] at calm
    exact calm.elim
  inPipe f q writable here := by
    rw [here] at calm
    exact calm.elim

theorem Settled.congr (settled : Settled file x) (table : y.ofile = x.ofile) (point : y.point = x.point) :
    Settled file y := by
  refine ⟨?_, ?_, ?_, ?_, ?_, ?_, ?_⟩
  all_goals rw [point]
  · rw [table]
    exact settled.slot
  · exact settled.raw
  · rw [table]
    exact settled.openSet
  · exact settled.pipePage
  · exact settled.pipeFd0
  · exact settled.pipeFd1
  · rw [table]
    exact settled.inPipe

theorem Settled.typed (settled : Settled file x) (set : ∀ i omode f, x.point ≠ .openSet i omode f)
    (clear : ∀ fd, x.point ≠ .exitClear fd) (fd : Fin NOFILE) (f : FileId) (held : x.ofile fd = some f) :
    (file f).type ≠ .none := by
  rcases settled.slot fd f held with type | ⟨i, omode, here⟩ | here
  · exact type
  · exact absurd here (set i omode f)
  · exact absurd here (clear fd)

/-- A process with a file in its table has a reference to it, but for the descriptor that `exit` clears. -/
theorem Fine.one_of_slot (fine : Fine x) {fd : Fin NOFILE} (held : x.ofile fd = some f) :
    x.point = .exitClear fd ∨ 1 ≤ x.files f := by
  have one := share_le_slots x.ofile fd f
  have due := drops_nonneg x.drops f
  rw [held, share_self] at one
  cases here : x.point with
  | filedup g =>
    have twice := fine.filedup g here
    rw [Proc.files, here, Point.files, share]
    split
    · rename_i same
      cases same
      exact .inr (by omega)
    · exact .inr (by omega)
  | exitClear fd' =>
    by_cases same : fd' = fd
    · rw [same]
      exact .inl rfl
    · have both := slots_update x.ofile fd' none f
      have other := share_le_slots (Function.update x.ofile fd' none) fd f
      rw [Function.update_of_ne (Ne.symm same), held, share_self] at other
      rw [share_none] at both
      rw [Proc.files, here, Point.files]
      exact .inr (by omega)
  | openFd i omode g | pipeFile1 g | pipeFd1 fd0 rf g =>
    have := share_nonneg (some g) f
    rw [Proc.files, here, Point.files]
    exact .inr (by omega)
  | pipePage g h | pipeFd0 g h =>
    have := share_nonneg (some g) f
    have := share_nonneg (some h) f
    rw [Proc.files, here, Point.files]
    exact .inr (by omega)
  | _ =>
    rw [Proc.files, here, Point.files]
    · exact .inr (by omega)
    all_goals simp

theorem one_of_hand (hand : 1 ≤ x.point.files x.ofile f) : 1 ≤ x.files f := by
  have held := slots_nonneg x.ofile f
  have due := drops_nonneg x.drops f
  rw [Proc.files]
  omega

theorem Settled.one_of_raw (settled : Settled file x) (fine : Fine x) (raw : x.point.Raw f) : 1 ≤ x.files f := by
  cases here : x.point with
  | openSet i omode g =>
    rw [here] at raw
    cases raw
    obtain ⟨fd, held⟩ := settled.openSet i omode f here
    rcases fine.one_of_slot held with clear | one
    · rw [here] at clear
      cases clear
    · exact one
  | openFd i omode g | pipeFile1 g =>
    rw [here] at raw
    cases raw
    refine one_of_hand ?_
    rw [here, Point.files, share_self]
  | pipePage g h =>
    have := share_nonneg (some g) f
    have := share_nonneg (some h) f
    refine one_of_hand ?_
    rw [here] at raw ⊢
    rw [Point.files]
    cases raw <;> rw [share_self] <;> omega
  | _ =>
    rw [here] at raw
    cases raw

theorem Settled.frame (settled : Settled file x) (fine : Fine x)
    (types : ∀ f, 1 ≤ x.files f → (file' f).type = (file f).type ∧ (file' f).writable = (file f).writable)
    (refs : ∀ f, x.point.Raw f → (file' f).ref = (file f).ref) : Settled file' x where
  slot fd f held := by
    rcases fine.one_of_slot held with clear | one
    · exact .inr (.inr clear)
    · rw [(types f one).1]
      exact settled.slot fd f held
  raw f raw := by
    rw [refs f raw, (types f (settled.one_of_raw fine raw)).1]
    exact settled.raw f raw
  openSet := settled.openSet
  pipePage := settled.pipePage
  pipeFd0 rf wf here := by
    have other := share_nonneg (some wf) rf
    have other' := share_nonneg (some rf) wf
    have first : 1 ≤ x.files rf := one_of_hand (by rw [here, Point.files, share_self]; omega)
    have second : 1 ≤ x.files wf := one_of_hand (by rw [here, Point.files, share_self]; omega)
    rw [(types rf first).1, (types wf second).1]
    exact settled.pipeFd0 rf wf here
  pipeFd1 fd0 rf wf here := by
    have one : 1 ≤ x.files wf := one_of_hand (by rw [here, Point.files, share_self])
    rw [(types wf one).1]
    exact settled.pipeFd1 fd0 rf wf here
  inPipe f q writable here := by
    obtain ⟨⟨fd, held⟩, type, direction⟩ := settled.inPipe f q writable here
    rcases fine.one_of_slot held with clear | one
    · rw [here] at clear
      cases clear
    · rw [(types f one).1, (types f one).2]
      exact ⟨⟨fd, held⟩, type, direction⟩

end Entries

section Moves

variable {s : Kernel Pid Pipe Inode}
  {x y : Proc Pid Pipe Inode}

def OneWay (x : File Pipe Inode) : Prop := ∀ q, x.type = .pipe q → x.readable = !x.writable

theorem typed_update {file : FileId → File Pipe Inode} {ofile : Fin NOFILE → Option FileId}
    (typed : ∀ fd f, ofile fd = some f → (file f).type ≠ .none) {fd' : Fin NOFILE} {g : Option FileId}
    (type : ∀ f, g = some f → (file f).type ≠ .none) :
    ∀ fd f, Function.update ofile fd' g fd = some f → (file f).type ≠ .none := by
  intro fd f held
  rw [Function.update_apply] at held
  split at held
  · exact type f held
  · exact typed fd f held

theorem Moves.settled (moves : Moves s x y) (settled : Settled s.file x) (oneWay : ∀ f, OneWay (s.file f)) :
    Settled s.file y := by
  have no_file : ∀ f, (none : Option FileId) = some f → (s.file f).type ≠ .none := by simp
  cases moves with
  | @dup fd fd' f user held free =>
    have typed := settled.typed (by simp [user]) (by simp [user])
    refine settled_of_calm trivial (typed_update typed ?_)
    rintro g ⟨⟩
    exact typed fd f held
  | close user held =>
    have typed := settled.typed (by simp [user]) (by simp [user])
    exact settled_of_calm (by simp [user, Point.Calm]) (typed_update typed no_file)
  | pipe user => exact settled_of_calm trivial (settled.typed (by simp [user]) (by simp [user]))
  | exit user => exact settled_of_calm trivial (settled.typed (by simp [user]) (by simp [user]))
  | @access fd f q writable user held type allowed =>
    have typed := settled.typed (by simp [user]) (by simp [user])
    refine ⟨fun fd f held => .inl (typed fd f held), ?_, by simp, by simp, by simp, by simp, ?_⟩
    · intro g raw
      cases raw
    · rintro g r w ⟨⟩
      refine ⟨⟨fd, held⟩, type, ?_⟩
      have apart := oneWay f q type
      cases writable <;> simp_all
  | accessed inside => exact settled_of_calm trivial (settled.typed (by simp [inside]) (by simp [inside]))
  | openNoFile here => exact settled_of_calm trivial (settled.typed (by simp [here]) (by simp [here]))
  | openNoFd here => exact settled_of_calm trivial (settled.typed (by simp [here]) (by simp [here]))
  | @openFd i omode f fd here free =>
    have typed := settled.typed (by simp [here]) (by simp [here])
    refine ⟨fun fd' g held => ?_, ?_, ?_, by simp, by simp, by simp, by simp⟩
    · dsimp only at held
      rw [Function.update_apply] at held
      split at held
      · cases held
        exact .inr (.inl ⟨i, omode, rfl⟩)
      · exact .inl (typed fd' g held)
    · intro g raw
      cases raw
      exact settled.raw f (by rw [here]; exact .openFd)
    · rintro i' omode' g ⟨⟩
      exact ⟨fd, Function.update_self ..⟩
  | pipeNoFile0 here => exact settled_of_calm trivial (settled.typed (by simp [here]) (by simp [here]))
  | pipeNoFile1 here => exact settled_of_calm trivial (settled.typed (by simp [here]) (by simp [here]))
  | pipeNoPage here => exact settled_of_calm trivial (settled.typed (by simp [here]) (by simp [here]))
  | pipeNoFd0 here => exact settled_of_calm trivial (settled.typed (by simp [here]) (by simp [here]))
  | @pipeFd0 rf wf fd here free =>
    have typed := settled.typed (by simp [here]) (by simp [here])
    have both := settled.pipeFd0 rf wf here
    have more : ∀ f, some rf = some f → (s.file f).type ≠ .none := by
      rintro f ⟨⟩
      exact both.1
    refine ⟨fun fd' g held => .inl (typed_update typed more fd' g held), ?_, by simp, by simp, by simp, ?_, by simp⟩
    · intro g raw
      cases raw
    · rintro fd' rf' wf' ⟨⟩
      exact both.2
  | pipeNoFd1 here =>
    have typed := settled.typed (by simp [here]) (by simp [here])
    exact settled_of_calm trivial (typed_update typed no_file)
  | @pipeFd1 fd0 fd rf wf here free =>
    have typed := settled.typed (by simp [here]) (by simp [here])
    refine settled_of_calm trivial (typed_update typed ?_)
    rintro f ⟨⟩
    exact settled.pipeFd1 fd0 rf wf here
  | forkSkip here none_there => exact settled_of_calm trivial (settled.typed (by simp [here]) (by simp [here]))
  | exitSkip here none_there => exact settled_of_calm trivial (settled.typed (by simp [here]) (by simp [here]))
  | exitClose here held =>
    have typed := settled.typed (by simp [here]) (by simp [here])
    refine ⟨fun fd f held => .inl (typed fd f held), ?_, by simp, by simp, by simp, by simp, by simp⟩
    intro g raw
    cases raw
  | @exitClear i here =>
    refine settled_of_calm trivial fun fd f held => ?_
    dsimp only at held
    rw [Function.update_apply] at held
    split at held
    · cases held
    · rename_i other
      rcases settled.slot fd f held with type | ⟨j, omode, set⟩ | clear
      · exact type
      · rw [here] at set
        cases set
      · rw [here] at clear
        cases clear
        exact absurd rfl other

end Moves

section Kernel

variable [DecidableEq Pid] [DecidableEq Pipe] [DecidableEq Inode] [Fintype Pid] {s t : Kernel Pid Pipe Inode} {p : Pid}

/-- Beside the counts: what every process relies on, and files that nobody has are without a type. -/
structure Kept (s : Kernel Pid Pipe Inode) : Prop extends Counted s where
  settled : ∀ p, Settled s.file (s.proc p)
  unused : ∀ f, (s.file f).ref = 0 → (s.file f).type = .none
  oneWay : ∀ f, OneWay (s.file f)

omit [DecidableEq Pid] [DecidableEq Pipe] [DecidableEq Inode] in
theorem Counted.two (c : Counted s) {q : Pid} (apart : q ≠ p) {f : FileId} (first : 1 ≤ (s.proc p).files f)
    (second : 1 ≤ (s.proc q).files f) : 2 ≤ (s.file f).ref := by
  have total := c.count f
  have others := Finset.add_le_sum (s := Finset.univ) (f := fun q => (s.proc q).files f)
    (fun r _ => (c.fine r).files_nonneg f) (Finset.mem_univ p) (Finset.mem_univ q) (Ne.symm apart)
  omega

section Updates

variable {Pipe Inode : Type} (file : FileId → File Pipe Inode) (g : FileId) (n : Nat) (f : FileId)

@[simp] theorem type_recount : (Function.update file g { file g with ref := n } f).type = (file f).type := by
  rw [Function.update_apply]
  split <;> simp_all

@[simp] theorem writable_recount :
    (Function.update file g { file g with ref := n } f).writable = (file f).writable := by
  rw [Function.update_apply]
  split <;> simp_all

@[simp] theorem readable_recount :
    (Function.update file g { file g with ref := n } f).readable = (file f).readable := by
  rw [Function.update_apply]
  split <;> simp_all

end Updates

omit [DecidableEq Pid] [DecidableEq Pipe] [DecidableEq Inode] [Fintype Pid] in
theorem oneWay_recount (oneWay : ∀ f, OneWay (s.file f)) (g : FileId) (n : Nat) (f : FileId) :
    OneWay (Function.update s.file g { s.file g with ref := n } f) := by
  intro q type
  rw [type_recount] at type
  rw [readable_recount, writable_recount]
  exact oneWay f q type

omit [DecidableEq Pid] [DecidableEq Pipe] [DecidableEq Inode] [Fintype Pid] in
theorem unused_recount (unused : ∀ f, (s.file f).ref = 0 → (s.file f).type = .none) (g : FileId) {n : Nat}
    (some_left : n ≠ 0) (f : FileId) (zero : (Function.update s.file g { s.file g with ref := n } f).ref = 0) :
    (Function.update s.file g { s.file g with ref := n } f).type = .none := by
  rw [type_recount]
  rw [Function.update_apply] at zero
  split at zero
  · exact absurd zero some_left
  · exact unused f zero

omit [DecidableEq Pid] [DecidableEq Pipe] [DecidableEq Inode] in
theorem Kept.sole (k : Kept s) {f : FileId} (raw : (s.proc p).point.Raw f) {q : Pid} (apart : q ≠ p) :
    ¬1 ≤ (s.proc q).files f := by
  intro one
  have more := k.two apart ((k.settled p).one_of_raw (k.fine p) raw) one
  have just_one := ((k.settled p).raw f raw).1
  omega

omit [DecidableEq Pid] [DecidableEq Pipe] [DecidableEq Inode] in
theorem Kept.not_raw (k : Kept s) {f : FileId} (one : 1 ≤ (s.proc p).files f) {q : Pid} (apart : q ≠ p) :
    ¬(s.proc q).point.Raw f := by
  intro raw
  exact k.sole raw (Ne.symm apart) one

omit [DecidableEq Pipe] [DecidableEq Inode] in
theorem Kept.one_entry (k : Kept s) {y : Proc Pid Pipe Inode} (procs : t.proc = Function.update s.proc p y)
    (own : Settled t.file y)
    (types : ∀ q, q ≠ p → ∀ f, 1 ≤ (s.proc q).files f →
      (t.file f).type = (s.file f).type ∧ (t.file f).writable = (s.file f).writable)
    (refs : ∀ q, q ≠ p → ∀ f, (s.proc q).point.Raw f → (t.file f).ref = (s.file f).ref) (q : Pid) :
    Settled t.file (t.proc q) := by
  rw [procs, Function.update_apply]
  split
  · exact own
  · rename_i other
    exact (k.settled q).frame (k.fine q) (types q other) (refs q other)

omit [DecidableEq Pipe] [DecidableEq Inode] in
theorem Kept.same_files (k : Kept s) {y : Proc Pid Pipe Inode} (procs : t.proc = Function.update s.proc p y)
    (files : t.file = s.file) (counted : Counted t) (own : Settled s.file y) : Kept t where
  toCounted := counted
  settled := k.one_entry procs (by rw [files]; exact own) (fun q _ f _ => by rw [files]; exact ⟨rfl, rfl⟩)
    (fun q _ f _ => by rw [files])
  unused := by
    rw [files]
    exact k.unused
  oneWay := by
    rw [files]
    exact k.oneWay

omit [DecidableEq Pipe] [DecidableEq Inode] in
theorem Kept.recount (k : Kept s) {y : Proc Pid Pipe Inode} {g : FileId} {n : Nat}
    (procs : t.proc = Function.update s.proc p y)
    (files : t.file = Function.update s.file g { s.file g with ref := n }) (counted : Counted t) (some_left : n ≠ 0)
    (shared : ∀ q, q ≠ p → ¬(s.proc q).point.Raw g) (own : Settled t.file y) : Kept t where
  toCounted := counted
  settled := by
    refine k.one_entry procs own (fun q _ f _ => ?_) (fun q other f raw => ?_)
    · rw [files]
      exact ⟨type_recount .., writable_recount ..⟩
    · have apart : f ≠ g := by
        rintro rfl
        exact shared q other raw
      rw [files, Function.update_of_ne apart]
  unused := by
    rw [files]
    exact unused_recount k.unused g some_left
  oneWay := by
    rw [files]
    exact oneWay_recount k.oneWay g n

end Kernel

section Steps

variable [DecidableEq Pid] [DecidableEq Pipe] [DecidableEq Inode] [Fintype Pid] {s t : Kernel Pid Pipe Inode} {p : Pid}

omit [DecidableEq Pid] [DecidableEq Pipe] [DecidableEq Inode] [Fintype Pid] in
theorem Fine.not_raw (fine : Fine (s.proc p)) (some_due : (s.proc p).drops ≠ []) (f : FileId) :
    ¬(s.proc p).point.Raw f := by
  intro raw
  rcases fine.due some_due with user | ⟨fd, clear⟩
  · rw [user] at raw
    cases raw
  · rw [clear] at raw
    cases raw

omit [DecidableEq Pipe] [DecidableEq Inode] in
theorem Kept.lastClose (k : Kept s) {f : FileId} {rest : List (Drop Pipe Inode)}
    (due : (s.proc p).drops = .fileclose f :: rest) (last : (s.file f).ref = 1)
    (counted : Counted ((s.setFile f { s.file f with ref := 0, type := .none }).setProc p
      { s.proc p with drops := (s.file f).type.drops (s.file f).writable ++ rest })) :
    Kept ((s.setFile f { s.file f with ref := 0, type := .none }).setProc p
      { s.proc p with drops := (s.file f).type.drops (s.file f).writable ++ rest }) := by
  have fine := k.fine p
  have some_due : (s.proc p).drops ≠ [] := by simp [due]
  have one := fine.one_of_due due
  have others : ∀ q, q ≠ p → ¬1 ≤ (s.proc q).files f := by
    intro q apart theirs
    have more := k.two apart one theirs
    omega
  refine ⟨counted, k.one_entry rfl ?_ (fun q apart g theirs => ?_) (fun q apart g raw => ?_), fun g zero => ?_,
    fun g q type => ?_⟩
  · have still : Settled s.file { s.proc p with drops := (s.file f).type.drops (s.file f).writable ++ rest } :=
      (k.settled p).congr rfl rfl
    refine still.frame (fine.drops some_due _) (fun g mine => ?_) fun g raw => absurd raw (fine.not_raw some_due g)
    have apart : g ≠ f := by
      rintro rfl
      have total := k.le_ref p g
      rw [files_drops, List.map_append, List.sum_append, sum_typeDrops] at mine
      rw [Proc.files, due, List.map_cons, List.sum_cons, Drop.files, share_self] at total
      omega
    simp [setFile, setProc, Function.update_of_ne apart]
  · have other : g ≠ f := by
      rintro rfl
      exact others q apart theirs
    simp [setFile, setProc, Function.update_of_ne other]
  · have other : g ≠ f := by
      rintro rfl
      exact k.not_raw one apart raw
    simp [setFile, setProc, Function.update_of_ne other]
  · simp only [setFile, setProc, Function.update_apply] at zero ⊢
    split
    · rfl
    · rename_i other
      rw [if_neg other] at zero
      exact k.unused g zero
  · simp only [setFile, setProc, Function.update_apply] at type ⊢
    split
    · rename_i same
      rw [if_pos same] at type
      cases type
    · rename_i other
      rw [if_neg other] at type
      exact k.oneWay g q type

omit [DecidableEq Pipe] [DecidableEq Inode] in
theorem Kept.openSet (k : Kept s) {i : Inode} {omode : Nat} {f : FileId} {readable writable : Bool}
    (here : (s.proc p).point = .openSet i omode f)
    (counted : Counted ((s.setFile f { s.file f with type := .inode i, readable, writable }).setProc p
      { s.proc p with point := .user })) :
    Kept ((s.setFile f { s.file f with type := .inode i, readable, writable }).setProc p
      { s.proc p with point := .user }) := by
  have raw : (s.proc p).point.Raw f := by
    rw [here]
    exact .openSet
  refine ⟨counted, k.one_entry rfl ?_ (fun q apart g theirs => ?_) (fun q apart g theirs => ?_), fun g zero => ?_,
    fun g q type => ?_⟩
  · refine settled_of_calm trivial fun fd g held => ?_
    simp only [setFile, setProc, Function.update_apply]
    split
    · simp
    · rename_i other
      rcases (k.settled p).slot fd g held with type | ⟨j, omode', set⟩ | clear
      · exact type
      · rw [here] at set
        cases set
        exact absurd rfl other
      · rw [here] at clear
        cases clear
  · have other : g ≠ f := by
      rintro rfl
      exact k.sole raw apart theirs
    simp [setFile, setProc, Function.update_of_ne other]
  · have other : g ≠ f := by
      rintro rfl
      exact k.sole raw apart ((k.settled q).one_of_raw (k.fine q) theirs)
    simp [setFile, setProc, Function.update_of_ne other]
  · simp only [setFile, setProc, Function.update_apply] at zero ⊢
    split
    · rename_i same
      have one := ((k.settled p).raw f raw).1
      rw [if_pos same] at zero
      dsimp only at zero
      omega
    · rename_i other
      rw [if_neg other] at zero
      exact k.unused g zero
  · simp only [setFile, setProc, Function.update_apply] at type ⊢
    split
    · rename_i same
      rw [if_pos same] at type
      cases type
    · rename_i other
      rw [if_neg other] at type
      exact k.oneWay g q type

omit [DecidableEq Inode] in
theorem Kept.pipePage (k : Kept s) {f0 f1 : FileId} {q : Pipe} {u : Kernel Pid Pipe Inode}
    (here : (s.proc p).point = .pipePage f0 f1)
    (set : u = s.setFile f0 { s.file f0 with type := .pipe q, readable := true, writable := false })
    (counted : Counted (((u.setFile f1
      { u.file f1 with type := .pipe q, readable := false, writable := true }).setPipe q (some (true, true))).setProc p
        { s.proc p with point := .pipeFd0 f0 f1 })) :
    Kept (((u.setFile f1 { u.file f1 with type := .pipe q, readable := false, writable := true }).setPipe q
      (some (true, true))).setProc p { s.proc p with point := .pipeFd0 f0 f1 }) := by
  have first : (s.proc p).point.Raw f0 := by
    rw [here]
    exact .pipePage0
  have second : (s.proc p).point.Raw f1 := by
    rw [here]
    exact .pipePage1
  have apart := (k.settled p).pipePage f0 f1 here
  generalize after : ((u.setFile f1 { u.file f1 with type := .pipe q, readable := false, writable := true }).setPipe q
      (some (true, true))).setProc p { s.proc p with point := .pipeFd0 f0 f1 } = t at counted ⊢
  have file0 : t.file f0 = { s.file f0 with type := .pipe q, readable := true, writable := false } := by
    rw [← after, set]
    simp [setFile, setPipe, setProc, Function.update_of_ne apart]
  have file1 : t.file f1 = { s.file f1 with type := .pipe q, readable := false, writable := true } := by
    rw [← after, set]
    simp [setFile, setPipe, setProc, Function.update_of_ne (Ne.symm apart)]
  have other : ∀ g, g ≠ f0 → g ≠ f1 → t.file g = s.file g := by
    intro g not0 not1
    rw [← after, set]
    simp [setFile, setPipe, setProc, Function.update_of_ne not0, Function.update_of_ne not1]
  have procs : t.proc = Function.update s.proc p { s.proc p with point := .pipeFd0 f0 f1 } := by
    rw [← after, set]
    rfl
  refine ⟨counted, k.one_entry procs ?_ (fun r away g theirs => ?_) (fun r away g theirs => ?_), fun g zero => ?_,
    fun g r type => ?_⟩
  · have typed := (k.settled p).typed (by simp [here]) (by simp [here])
    refine ⟨fun fd g held => .inl ?_, ?_, by simp, by simp, ?_, by simp, by simp⟩
    · by_cases zeroth : g = f0
      · rw [zeroth, file0]
        simp
      · by_cases last : g = f1
        · rw [last, file1]
          simp
        · rw [other g zeroth last]
          exact typed fd g held
    · intro g raw
      cases raw
    · rintro rf wf ⟨⟩
      rw [file0, file1]
      simp
  · rw [other g]
    · exact ⟨rfl, rfl⟩
    · rintro rfl
      exact k.sole first away theirs
    · rintro rfl
      exact k.sole second away theirs
  · have one := (k.settled r).one_of_raw (k.fine r) theirs
    rw [other g]
    · rintro rfl
      exact k.sole first away one
    · rintro rfl
      exact k.sole second away one
  · by_cases zeroth : g = f0
    · have one := ((k.settled p).raw f0 first).1
      rw [zeroth, file0] at zero
      dsimp only at zero
      omega
    · by_cases last : g = f1
      · have one := ((k.settled p).raw f1 second).1
        rw [last, file1] at zero
        dsimp only at zero
        omega
      · rw [other g zeroth last] at zero ⊢
        exact k.unused g zero
  · by_cases zeroth : g = f0
    · rw [zeroth, file0]
      rfl
    · by_cases last : g = f1
      · rw [last, file1]
        rfl
      · rw [other g zeroth last] at type ⊢
        exact k.oneWay g r type

omit [DecidableEq Pipe] [DecidableEq Inode] in
theorem Kept.take (k : Kept s) {y : Proc Pid Pipe Inode} {f : FileId} (free : (s.file f).ref = 0)
    (counted : Counted ((s.take f).setProc p y))
    (own : Settled (Function.update s.file f { s.file f with ref := 1 }) y) : Kept ((s.take f).setProc p y) := by
  refine k.recount rfl rfl counted Nat.one_ne_zero (fun q _ raw => ?_) own
  have one := ((k.settled q).raw f raw).1
  omega

omit [DecidableEq Pipe] [DecidableEq Inode] in
theorem Kept.forkDup (k : Kept s) {np : Pid} {i : Fin NOFILE} {f : FileId} (here : (s.proc p).point = .fork np i)
    (held : (s.proc p).ofile i = some f)
    (counted : Counted (((s.setFile f { s.file f with ref := (s.file f).ref + 1 }).setProc np
      { s.proc np with ofile := Function.update (s.proc np).ofile i (some f) }).setProc p
        { s.proc p with point := .fork np (i + 1) })) :
    Kept (((s.setFile f { s.file f with ref := (s.file f).ref + 1 }).setProc np
      { s.proc np with ofile := Function.update (s.proc np).ofile i (some f) }).setProc p
        { s.proc p with point := .fork np (i + 1) }) := by
  have embryo := (k.forks p np i here).embryo
  have resting := (k.fine np).idle (by rw [embryo]; decide)
  have typed := (k.settled p).typed (by simp [here]) (by simp [here])
  have one : 1 ≤ (s.proc p).files f := one_of_fork here held
  refine ⟨counted, fun q => ?_, unused_recount k.unused f (Nat.succ_ne_zero _), oneWay_recount k.oneWay f _⟩
  simp only [setProc, setFile, Function.update_apply]
  split
  · refine settled_of_calm trivial fun fd g there => ?_
    rw [type_recount]
    exact typed fd g there
  · rename_i not_parent
    split
    · refine settled_of_calm (by simp [resting.2.1, Point.Calm]) (typed_update (fun fd g there => ?_) ?_)
      · rw [type_recount]
        exact (k.settled np).typed (by simp [resting.2.1]) (by simp [resting.2.1]) fd g there
      · rintro g ⟨⟩
        rw [type_recount]
        exact typed i f held
    · refine (k.settled q).frame (k.fine q) (fun g _ => ⟨type_recount .., writable_recount ..⟩) fun g raw => ?_
      have apart : g ≠ f := by
        rintro rfl
        exact k.not_raw one not_parent raw
      rw [Function.update_of_ne apart]

theorem Kept.did (k : Kept s) (running : (s.proc p).state = .runnable) (did : Did s p t) : Kept t := by
  have counted := k.toCounted.did running did
  have settled := k.settled p
  have fine := k.fine p
  cases did with
  | nothing => exact k
  | noRef zero wanted => exact ⟨counted, k.settled, k.unused, k.oneWay⟩
  | noType idle user held type => exact ⟨counted, k.settled, k.unused, k.oneWay⟩
  | moves idle moves => exact k.same_files rfl rfl counted (moves.settled settled k.oneWay)
  | @fileclose f rest due more =>
    have some_due : (s.proc p).drops ≠ [] := by simp [due]
    refine k.recount rfl rfl counted (by omega) (fun q apart => k.not_raw (fine.one_of_due due) apart) ?_
    have still : Settled s.file { s.proc p with drops := rest } := settled.congr rfl rfl
    exact still.frame (fine.drops some_due rest) (fun g _ => ⟨type_recount .., writable_recount ..⟩)
      fun g raw => absurd raw (fine.not_raw some_due g)
  | lastClose due last => exact k.lastClose due last counted
  | pipeclose due => exact k.same_files rfl rfl counted (settled.congr rfl rfl)
  | iput due => exact k.same_files rfl rfl counted (settled.congr rfl rfl)
  | @filedup f idle here =>
    refine k.recount rfl rfl counted (Nat.succ_ne_zero _)
      (fun q apart => k.not_raw (fine.one_of_filedup here) apart) (settled_of_calm trivial fun fd g held => ?_)
    simp only [setProc, setFile, type_recount]
    exact settled.typed (by simp [here]) (by simp [here]) fd g held
  | «open» i omode idle user =>
    exact k.same_files rfl rfl counted (settled_of_calm trivial (settled.typed (by simp [user]) (by simp [user])))
  | @openFile i omode f idle here free =>
    have typed := settled.typed (by simp [here]) (by simp [here])
    refine k.take free counted ⟨fun fd g held => .inl ?_, ?_, by simp, by simp, by simp, by simp, by simp⟩
    · rw [type_recount]
      exact typed fd g held
    · intro g raw
      cases raw
      rw [type_recount, Function.update_self]
      exact ⟨rfl, k.unused f free⟩
  | openSet idle here readable writable => exact k.openSet here counted
  | @pipeFile0 f idle here free =>
    have typed := settled.typed (by simp [here]) (by simp [here])
    refine k.take free counted ⟨fun fd g held => .inl ?_, ?_, by simp, by simp, by simp, by simp, by simp⟩
    · rw [type_recount]
      exact typed fd g held
    · intro g raw
      cases raw
      rw [type_recount, Function.update_self]
      exact ⟨rfl, k.unused f free⟩
  | @pipeFile1 f0 f idle here free =>
    have typed := settled.typed (by simp [here]) (by simp [here])
    have mine := settled.raw f0 (by rw [here]; exact .pipeFile1)
    have apart : f0 ≠ f := by
      rintro rfl
      omega
    refine k.take free counted ⟨fun fd g held => .inl ?_, ?_, by simp, ?_, by simp, by simp, by simp⟩
    · rw [type_recount]
      exact typed fd g held
    · intro g raw
      rw [type_recount]
      cases raw with
      | pipePage0 =>
        rw [Function.update_of_ne apart]
        exact mine
      | pipePage1 =>
        rw [Function.update_self]
        exact ⟨rfl, k.unused f free⟩
    · rintro g h ⟨⟩
      exact apart
  | pipePage idle here fresh set => exact k.pipePage here set counted
  | refused i idle user =>
    exact k.same_files rfl rfl counted (settled_of_calm (by simp [user, Point.Calm]) (settled.typed (by simp [user]) (by simp [user])))
  | chdirStart i idle user =>
    exact k.same_files rfl rfl counted (settled_of_calm trivial (settled.typed (by simp [user]) (by simp [user])))
  | chdir idle here old =>
    exact k.same_files rfl rfl counted (settled_of_calm trivial (settled.typed (by simp [here]) (by simp [here])))
  | @forkStart np idle user unused =>
    refine ⟨counted, fun q => ?_, k.unused, k.oneWay⟩
    simp only [setProc, Function.update_apply]
    split
    · exact settled_of_calm trivial (settled.typed (by simp [user]) (by simp [user]))
    · split
      · exact (k.settled np).congr rfl rfl
      · exact k.settled q
  | forkDup idle here held => exact k.forkDup here held counted
  | @forkEnd np i c idle here all cwd =>
    refine ⟨counted, fun q => ?_, k.unused, k.oneWay⟩
    simp only [setProc, setRef, Function.update_apply]
    split
    · exact settled_of_calm trivial (settled.typed (by simp [here]) (by simp [here]))
    · split
      · exact (k.settled np).congr rfl rfl
      · exact k.settled q
  | exitEnd idle here all had =>
    exact k.same_files rfl rfl counted (settled_of_calm trivial (settled.typed (by simp [here]) (by simp [here])))
  | @wait q zombie => exact k.same_files rfl rfl counted ((k.settled q).congr rfl rfl)

theorem Kept.not_panicked (k : Kept s) (calm : s.panicked = false) (did : Did s p t) : t.panicked = false := by
  have fine := k.fine p
  cases did with
  | @noRef f zero wanted =>
    have one : 1 ≤ (s.proc p).files f := by
      rcases wanted with ⟨rest, due⟩ | ⟨-, here | ⟨np, i, here, fd, held⟩⟩
      · exact fine.one_of_due due
      · exact fine.one_of_filedup here
      · exact one_of_fork here held
    have total := k.le_ref p f
    omega
  | @noType f fd idle user held type =>
    exact absurd type ((k.settled p).typed (by simp [user]) (by simp [user]) fd f held)
  | pipePage idle here fresh set =>
    rw [set]
    exact calm
  | _ => exact calm

end Steps

end OsLabs.Files
