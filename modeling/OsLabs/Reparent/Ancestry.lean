import OsLabs.Reparent.Invariant

/-! Every linked process has a parent that lives, the search of `exit` finds it, and nobody
sleeps in `wait` beside a dead child. -/

set_option autoImplicit false

namespace OsLabs.Reparent

open OsLabs.Lib

structure Kernel.Sound (s : Kernel) : Prop where
  family : s.family.Sound initproc
  guarded : s.Guarded

theorem boot_sound : boot.Sound where
  family := by
    constructor <;> simp only [boot, Kernel.family]
    · simp [ProcState.life]
    all_goals grind [ProcState.life, Point.builds]
  guarded := by
    constructor <;> simp only [boot] <;> grind [ProcState.life, Point.holds, Point.inKernel, Point.exits, Point.hasWoken]

namespace Kernel

theorem family_congr {s t : Kernel} (next : t.nextpid = s.nextpid)
    (same : ∀ q, (t.proc q).state.life = (s.proc q).state.life ∧ (t.proc q).pid = (s.proc q).pid ∧
      (t.proc q).parent = (s.proc q).parent ∧ (t.proc q).point.builds = (s.proc q).point.builds) :
    t.family = s.family := by
  simp only [family, next, same]

theorem schedule_ready {s t : Kernel} {p : Slot} (taken : s.schedule p = some t) :
    s.lock = none ∧ (s.proc p).state = .runnable ∧ ¬ ((0 : Word).slt (s.proc p).ft ∧ s.ticks ≤ (s.proc p).ft) := by
  simp only [Kernel.schedule] at taken
  split at taken
  · cases taken
  · next ready =>
    obtain ⟨free, stays, picked⟩ := not_or.mp ready |>.imp_right not_or.mp
    exact ⟨not_not.mp free, not_not.mp (not_or.mp picked).1, stays⟩

namespace Sound

variable {s t : Kernel} {p q : Slot}

theorem quiet (sound : s.Sound) (guarded : t.Guarded) (next : t.nextpid = s.nextpid)
    (same : ∀ q, (t.proc q).state.life = (s.proc q).state.life ∧ (t.proc q).pid = (s.proc q).pid ∧
      (t.proc q).parent = (s.proc q).parent ∧ (t.proc q).point.builds = (s.proc q).point.builds) : t.Sound where
  family := by
    rw [family_congr next same]
    exact sound.family
  guarded := guarded

theorem becomes (sound : s.Sound) {f : Family Slot} (change : Family.Change initproc s.family f) (same : t.family = f)
    (guarded : t.Guarded) : t.Sound where
  family := by
    rw [same]
    exact sound.family.change change
  guarded := guarded

theorem child (sound : s.Sound) {np : Slot} {linked : Bool} (builds : (s.proc p).point.builds = some (np, linked)) :
    (s.proc np).state = .embryo ∧ ∃ ret, (s.proc np).point = .user ret := by
  have claimed : (s.proc np).state.life = .claimed := (sound.family.building p np linked builds).2.1
  refine ⟨ProcState.life_eq_claimed.mp claimed, sound.guarded.idle ?_⟩
  rw [claimed]
  decide

/-! ## One step of a process -/

theorem goto (sound : s.Sound) {y : Point} {lock : Option Slot} (builds : y.builds = (s.proc p).point.builds)
    (guarded : Guarded { s.goto p y with lock }) : Sound { s.goto p y with lock } := by
  apply sound.quiet guarded rfl
  intro q
  simp only [goto_proc]
  split
  · next same => simp [same, builds]
  · simp

theorem goto_plain (sound : s.Sound) {y : Point} {lock : Option Slot} (running : (s.proc p).state = .running)
    (lock_eq : lock = if y.holds then some p else if (s.proc p).point.holds then none else s.lock)
    (takes : y.holds = true → (s.proc p).point.holds = true ∨ s.lock = none) (stays : y.exits = false)
    (waits : y ≠ .waitSleep) (builds : y.builds = (s.proc p).point.builds) : Sound { s.goto p y with lock } :=
  sound.goto builds (sound.guarded.goto_plain running lock_eq takes stays waits)

theorem acquire (sound : s.Sound) {y : Point} (running : (s.proc p).state = .running)
    (taken : s.acquire p y = some t) (holds : y.holds = true) (stays : y.exits = false ∧ y ≠ .waitSleep)
    (builds : y.builds = (s.proc p).point.builds) : t.Sound := by
  unfold Kernel.acquire at taken
  split at taken
  · next free =>
    cases taken
    exact sound.goto_plain running (by simp [holds]) (fun _ => .inr free) stays.1 stays.2 builds
  · cases taken

theorem unlock (sound : s.Sound) {y : Point} (running : (s.proc p).state = .running)
    (holds : (s.proc p).point.holds = true) (lets : y.holds = false) (stays : y.exits = false)
    (builds : y.builds = (s.proc p).point.builds) : (s.unlock p y).Sound := by
  apply sound.goto_plain running
  · simp [holds, lets]
  · simp [lets]
  · exact stays
  · rintro rfl
    cases lets
  · exact builds

theorem keep (sound : s.Sound) {y : Point} (running : (s.proc p).state = .running)
    (holds : (s.proc p).point.holds = true) (keeps : y.holds = true) (stays : y.exits = false ∧ y ≠ .waitSleep)
    (builds : y.builds = (s.proc p).point.builds) : (s.goto p y).Sound := by
  have lock : s.lock = some p := (sound.guarded.holder p).mp holds
  exact sound.goto_plain running (by simp [keeps, lock]) (fun _ => .inl holds) stays.1 stays.2 builds

theorem goto_child (sound : s.Sound) {np : Slot} {x : Proc} {y : Point} (running : (s.proc p).state = .running)
    (idle : (s.proc np).point.inKernel = false) (stays : x.point.inKernel = false) (awake : x.state ≠ .sleeping)
    (lives : x.state ≠ .zombie) (other : p ≠ np) (parent : x.parent = (s.proc np).parent ∨ x.parent = some p)
    (notDying : (s.proc p).point ≠ .exitZombie) (plain : y.exits = false ∧ y ≠ .waitSleep)
    (lock : y.holds = (s.proc p).point.holds) : ((s.set np x).goto p y).Guarded := by
  have guarded : (s.set np x).Guarded := by
    apply sound.guarded.set (.inr ⟨idle, stays⟩)
    · simp [Point.holds_eq_false stays]
    · simp [stays]
    · exact fun asleep => absurd asleep awake
    · exact fun zombie => absurd zombie lives
    · rcases parent with same | new
      · exact .inl same
      · refine .inr ⟨stays, lives, fun r is => ?_⟩
        cases new.symm.trans is
        exact notDying
  have here : (s.set np x).proc p = s.proc p := by rw [set_proc, if_neg other]
  have holder := sound.guarded.holder p
  apply guarded.goto_plain (by rw [here]; exact running) ?_ ?_ plain.1 plain.2
  · rw [here, set_lock]
    grind
  · rw [here]
    exact fun holds => .inl (lock ▸ holds)

theorem allocScan (sound : s.Sound) {i : Nat} (running : (s.proc p).state = .running)
    (point : (s.proc p).point = .allocScan i) : (s.allocScan p i).Sound := by
  have holds : (s.proc p).point.holds = true := by rw [point]; rfl
  have keep : ∀ y, y.holds = true → y.exits = false ∧ y ≠ .waitSleep → y.builds = none → (s.goto p y).Sound :=
    fun y keeps stays builds => sound.keep running holds keeps stays (by rw [builds, point]; rfl)
  unfold Kernel.allocScan
  split
  · next inside =>
    split
    · next unused =>
      generalize (⟨i, inside⟩ : Slot) = np at unused ⊢
      have other : p ≠ np := by
        rintro rfl
        simp [running] at unused
      obtain ⟨ret, idle⟩ := sound.guarded.idle (q := np) (by rw [unused]; decide)
      have claim : Family.Change initproc s.family (s.family.claim p np) := by
        apply Family.Change.claim
        · simp [Kernel.family, running, ProcState.life]
        · simp [Kernel.family, point, Point.builds]
        · simp [Kernel.family, unused, ProcState.life]
      apply sound.becomes claim
      · simp only [Kernel.family, Family.claim]
        congr 1 <;> funext r <;> grind [ProcState.life, Point.builds, Function.update_apply]
      · have guarded := sound.goto_child (x := { s.proc np with state := .embryo, pid := s.nextpid })
          (y := .allocRelease np) running (by rw [idle]; rfl) (by simp [idle, Point.inKernel]) (by simp) (by simp) other (.inl rfl)
          (by simp [point]) ⟨rfl, by simp⟩ (by rw [point]; rfl)
        exact guarded.congr rfl rfl
    · exact keep _ rfl ⟨rfl, by simp⟩ rfl
  · exact keep _ rfl ⟨rfl, by simp⟩ rfl

theorem giveUp (sound : s.Sound) {np : Slot} (running : (s.proc p).state = .running)
    (builds : (s.proc p).point.builds = some (np, false)) (free : (s.proc p).point.holds = false) :
    (s.giveUp p np).Sound := by
  obtain ⟨embryo, ret, idle⟩ := sound.child builds
  have other : p ≠ np := by
    rintro rfl
    simp [running] at embryo
  apply sound.becomes (Family.Change.giveUp p np builds)
  · simp only [Kernel.family, Family.giveUp, Kernel.giveUp]
    congr 1 <;> funext r <;> grind [ProcState.life, Point.builds, Function.update_apply]
  · have notDying : (s.proc p).point ≠ .exitZombie := by
      intro dying
      simp [dying, Point.holds] at free
    exact sound.goto_child (x := { s.proc np with state := .unused }) (y := .user (-1)) running (by rw [idle]; rfl)
      (by simp [idle, Point.inKernel]) (by simp) (by simp) other (.inl rfl) notDying ⟨rfl, by simp⟩ free.symm

theorem link (sound : s.Sound) {np : Slot} (running : (s.proc p).state = .running)
    (point : (s.proc p).point = .forkLink np) :
    ((s.set np { s.proc np with parent := some p, point := .user 0 }).goto p
      (.forkAcquire np (s.proc np).pid)).Sound := by
  have builds : (s.proc p).point.builds = some (np, false) := by rw [point]; rfl
  obtain ⟨embryo, ret, idle⟩ := sound.child builds
  have other : p ≠ np := by
    rintro rfl
    simp [running] at embryo
  have link : Family.Change initproc s.family (s.family.link p np) := by
    apply Family.Change.link
    · simp [Kernel.family, running, ProcState.life]
    · exact builds
  apply sound.becomes link
  · simp only [Kernel.family, Family.link]
    congr 1 <;> funext r <;> grind [Point.builds, Function.update_apply]
  · exact sound.goto_child running (by rw [idle]; rfl) rfl (by simp [embryo]) (by simp [embryo]) other (.inr rfl)
      (by simp [point]) ⟨rfl, by simp⟩ (by rw [point]; rfl)

theorem publish (sound : s.Sound) {np : Slot} {pid : Int} (running : (s.proc p).state = .running)
    (point : (s.proc p).point = .forkPublish np pid) :
    ((s.set np { s.proc np with state := .runnable, sig := 0, ft := -1 }).goto p (.release pid)).Sound := by
  have builds : (s.proc p).point.builds = some (np, true) := by rw [point]; rfl
  obtain ⟨embryo, ret, idle⟩ := sound.child builds
  have other : p ≠ np := by
    rintro rfl
    simp [running] at embryo
  apply sound.becomes (Family.Change.publish p np builds)
  · simp only [Kernel.family, Family.publish]
    congr 1 <;> funext r <;> grind [ProcState.life, Point.builds, Function.update_apply]
  · exact sound.goto_child running (by rw [idle]; rfl) (by simp [idle, Point.inKernel]) (by simp) (by simp) other (.inl rfl)
      (by simp [point]) ⟨rfl, by simp⟩ (by rw [point]; rfl)

theorem wakeup1 (sound : s.Sound) (chan : Option Slot) : (s.wakeup1 chan).Sound := by
  apply sound.quiet (sound.guarded.wakeup1 chan) rfl
  intro q
  rw [wakeup1_proc]
  split
  · next asleep => simp [asleep.1, ProcState.life]
  · simp

theorem exitWake (sound : s.Sound) (running : (s.proc p).state = .running) (point : (s.proc p).point = .exitWake) :
    ((s.wakeup1 (s.proc p).parent).goto p .exitSearch).Sound := by
  have woken := sound.wakeup1 (s.proc p).parent
  have here : (s.wakeup1 (s.proc p).parent).proc p = s.proc p := by simp [running]
  have lock : s.lock = some p := (sound.guarded.holder p).mp (by rw [point]; rfl)
  apply woken.goto (by rw [here, point]; rfl)
  apply woken.guarded.goto (by rw [here]; exact running)
  · exact lock
  · exact fun _ => .inl (by rw [here, point]; rfl)
  · exact fun _ => sound.guarded.mortal p (by rw [point]; rfl)
  · intro _ r parent
    rw [here] at parent
    rw [wakeup1_proc]
    split
    · nofun
    · next awake =>
      -- one that sleeps sleeps on its own address
      intro asleep
      exact awake ⟨asleep, by rw [parent, (sound.guarded.asleep r asleep).2]⟩
  all_goals nofun

theorem find_live (sound : s.Sound) {r : Slot} (alive : (s.proc r).state.life = .live) :
    s.find (s.proc r).pid = some r := by
  unfold Kernel.find
  cases found : (List.finRange NPROC).find? fun q => (s.proc q).pid = (s.proc r).pid with
  | none =>
    have missing := List.find?_eq_none.mp found r (List.mem_finRange r)
    simp at missing
  | some q =>
    have same : (s.proc q).pid = (s.proc r).pid := by simpa using List.find?_some found
    rw [sound.family.slot_of_pid (q := q) (r := r) (by simp [Kernel.family, alive]) same]

/-- The search of `exit` breaks off at the parent. -/
theorem find_parent (sound : s.Sound) {r : Slot} (parent : (s.proc p).parent = some r) :
    s.find (s.proc r).pid = some r :=
  sound.find_live (sound.family.parentLives p r parent)

theorem exitSearch (sound : s.Sound) {parent : Slot} (running : (s.proc p).state = .running)
    (point : (s.proc p).point = .exitSearch) (child : (s.proc p).parent = some parent) :
    (s.goto p (.exitPass (s.find (s.proc parent).pid))).Sound := by
  have lock : s.lock = some p := (sound.guarded.holder p).mp (by rw [point]; rfl)
  rw [sound.find_parent child]
  apply sound.goto (by rw [point]; rfl)
  apply sound.guarded.goto running
  · exact lock
  · exact fun _ => .inl (by rw [point]; rfl)
  · exact fun _ => sound.guarded.mortal p (by rw [point]; rfl)
  · exact fun _ r => sound.guarded.woken p r (by rw [point]; rfl)
  · rintro temp ⟨⟩
    exact child.symm
  all_goals nofun

theorem readyToDie (sound : s.Sound) (temp : Option Slot) (running : (s.proc p).state = .running)
    (point : (s.proc p).point = .exitPass temp) (childless : ∀ q, (s.proc q).parent ≠ some p) :
    (s.goto p .exitZombie).Sound := by
  have lock : s.lock = some p := (sound.guarded.holder p).mp (by rw [point]; rfl)
  apply sound.goto (by rw [point]; rfl)
  apply sound.guarded.goto running
  · exact lock
  · exact fun _ => .inl (by rw [point]; rfl)
  · exact fun _ => sound.guarded.mortal p (by rw [point]; rfl)
  · exact fun _ r => sound.guarded.woken p r (by rw [point]; rfl)
  · nofun
  · exact fun _ => childless
  · nofun

theorem exitPass (sound : s.Sound) {temp : Slot} (running : (s.proc p).state = .running)
    (point : (s.proc p).point = .exitPass (some temp)) : ((s.passChildren p temp).goto p .exitZombie).Sound := by
  have parent : (s.proc p).parent = some temp := (sound.guarded.found p _ point).symm
  have change : Family.Change initproc s.family (s.family.handOver p temp) := by
    apply Family.Change.handOver p temp parent
    simp [Kernel.family, point, Point.builds]
  have childless : ∀ q, (if (s.proc q).parent = some p then some temp else (s.proc q).parent) ≠ some p :=
    sound.family.handOver_childless (p := p) (t := temp) parent
  have passed : Sound
      { s with
        proc := fun q => if (s.proc q).parent = some p then { s.proc q with parent := some temp } else s.proc q } := by
    apply sound.becomes change
    · simp only [Kernel.family, Family.handOver]
      congr 1 <;> funext q <;> grind
    · exact sound.guarded.handOver point
  unfold passChildren
  dsimp only
  split
  · apply (passed.wakeup1 _).readyToDie (some temp)
    · grind
    · grind
    · grind
  · apply passed.readyToDie (some temp)
    · grind
    · grind
    · grind

theorem exitZombie (sound : s.Sound) (running : (s.proc p).state = .running) (point : (s.proc p).point = .exitZombie) :
    Sound { s.set p { s.proc p with state := .zombie, point := .user 0 } with lock := none } := by
  have die : Family.Change initproc s.family (s.family.die p) := by
    apply Family.Change.die
    · exact sound.guarded.mortal p (by rw [point]; rfl)
    · simp [Kernel.family, running, ProcState.life]
    · simp [Kernel.family, point, Point.builds]
    · exact fun q => sound.guarded.childless p q point
  apply sound.becomes die
  · simp only [Kernel.family, Family.die]
    congr 1 <;> funext r <;> grind [ProcState.life, Point.builds, Function.update_apply]
  · exact sound.guarded.die point

theorem waitScan (sound : s.Sound) (running : (s.proc p).state = .running) (point : (s.proc p).point = .waitScan) :
    (s.waitScan p).Sound := by
  have holds : (s.proc p).point.holds = true := by rw [point]; rfl
  have lock : s.lock = some p := (sound.guarded.holder p).mp holds
  unfold Kernel.waitScan
  split
  · next q found =>
    have child : (s.proc q).parent = some p ∧ (s.proc q).state = .zombie := by simpa using List.find?_some found
    have other : p ≠ q := by
      rintro rfl
      simp [running] at child
    obtain ⟨ret, idle⟩ := sound.guarded.idle (q := q) (by rw [child.2]; decide)
    have reap : Family.Change initproc s.family (s.family.reap q) := by
      apply Family.Change.reap
      simp [Kernel.family, child.2, ProcState.life]
    have reaped : (s.set q { s.proc q with pid := 0, parent := none, killed := false, state := .unused }).Sound := by
      apply sound.becomes reap
      · simp only [Kernel.family, Family.reap]
        congr 1 <;> funext r <;> grind [ProcState.life, Function.update_apply]
      · apply sound.guarded.set
        · exact .inl rfl
        · simp [idle, Point.holds]
        · simp [idle, Point.inKernel]
        · simp
        · simp
        · exact .inr ⟨by simp [idle, Point.inKernel], by simp, by simp⟩
    have here : (s.set q { s.proc q with pid := 0, parent := none, killed := false, state := .unused }).proc p = s.proc p := by
      rw [set_proc, if_neg other]
    apply reaped.keep
    · rw [here]
      exact running
    · rw [here]
      exact holds
    · rfl
    · exact ⟨rfl, by simp⟩
    · rw [here, point]
      rfl
  · next none =>
    have unreaped : ∀ q, (s.proc q).parent = some p → (s.proc q).state ≠ .zombie := by
      intro q child zombie
      have missing := List.find?_eq_none.mp none q (List.mem_finRange q)
      simp [child, zombie] at missing
    split
    · exact sound.keep running holds rfl ⟨rfl, by simp⟩ (by rw [point]; rfl)
    · apply sound.goto (by rw [point]; rfl)
      apply sound.guarded.goto running
      · exact lock
      · exact fun _ => .inl holds
      · simp [Point.exits]
      · simp [Point.hasWoken]
      · simp
      · simp
      · exact fun _ => unreaped

theorem waitSleep (sound : s.Sound) (running : (s.proc p).state = .running) (point : (s.proc p).point = .waitSleep) :
    Sound { s.set p { s.proc p with chan := some p, state := .sleeping, point := .waitAsleep } with lock := none } := by
  apply sound.quiet (sound.guarded.sleep running point) rfl
  intro q
  simp only [set_proc]
  split
  · next same => simp [same, running, point, ProcState.life, Point.builds]
  · simp

theorem adjust (sound : s.Sound) {x : Proc} (point : x.point = (s.proc q).point) (pid : x.pid = (s.proc q).pid)
    (parent : x.parent = (s.proc q).parent) (life : x.state.life = (s.proc q).state.life)
    (runs : x.point.holds = true → x.state = .running)
    (asleep : x.state = .sleeping → (s.proc q).state = .sleeping ∧ x.chan = (s.proc q).chan) : (s.set q x).Sound := by
  apply sound.quiet
  · apply sound.guarded.set (.inl point) runs
    · rw [point, life]
      exact sound.guarded.inKernel q
    · exact fun sleeps => ⟨(asleep sleeps).1, (asleep sleeps).2, point⟩
    · intro zombie
      rw [zombie] at life
      exact ProcState.life_eq_dead.mp life.symm
    · exact .inl parent
  · rfl
  · intro r
    rw [set_proc]
    split
    · next same => simp [same, point, pid, parent, life]
    · simp

theorem goto_release (sound : s.Sound) {ret : Int} (running : (s.proc p).state = .running)
    (holds : (s.proc p).point.holds = true) (builds : (s.proc p).point.builds = none) :
    (s.goto p (.release ret)).Sound :=
  sound.keep running holds rfl ⟨rfl, nofun⟩ builds.symm

theorem set_release (sound : s.Sound) {x : Proc} {ret : Int} (running : (s.proc p).state = .running)
    (holds : (s.proc p).point.holds = true) (builds : (s.proc p).point.builds = none)
    (point : x.point = (s.proc q).point) (pid : x.pid = (s.proc q).pid) (parent : x.parent = (s.proc q).parent)
    (state : x.state = (s.proc q).state ∨ (s.proc q).state = .sleeping ∧ x.state = .runnable)
    (chan : x.chan = (s.proc q).chan) : ((s.set q x).goto p (.release ret)).Sound := by
  have adjusted : (s.set q x).Sound := by
    apply sound.adjust point pid parent
    · rcases state with same | ⟨asleep, woken⟩
      · rw [same]
      · rw [asleep, woken]
        rfl
    · have runs := sound.guarded.runs q
      grind
    · grind
  have here : ((s.set q x).proc p).point = (s.proc p).point ∧ ((s.set q x).proc p).state = .running := by
    rw [set_proc]
    split
    · next same => grind
    · exact ⟨rfl, running⟩
  apply adjusted.goto_release here.2
  · rw [here.1]
    exact holds
  · rw [here.1]
    exact builds

theorem kill (sound : s.Sound) {pid : Int} (running : (s.proc p).state = .running)
    (point : (s.proc p).point = .killScan pid) : (s.kill p pid).Sound := by
  have holds : (s.proc p).point.holds = true := by rw [point]; rfl
  have builds : (s.proc p).point.builds = none := by rw [point]; rfl
  unfold Kernel.kill
  split
  · apply sound.set_release running holds builds
    · rfl
    · rfl
    · rfl
    · dsimp only
      grind
    · rfl
  · exact sound.goto_release running holds builds

theorem signalProcess (sound : s.Sound) {pid : Int} {signal : Word} (running : (s.proc p).state = .running)
    (point : (s.proc p).point = .signalScan pid signal) : (s.signalProcess p pid signal).Sound := by
  have holds : (s.proc p).point.holds = true := by rw [point]; rfl
  have builds : (s.proc p).point.builds = none := by rw [point]; rfl
  unfold Kernel.signalProcess
  split
  · exact sound.set_release running holds builds rfl rfl rfl (.inl rfl) rfl
  · exact sound.goto_release running holds builds

theorem pause (sound : s.Sound) {pid : Int} {duration : Word} (running : (s.proc p).state = .running)
    (point : (s.proc p).point = .pauseScan pid duration) : (s.pause p pid duration).Sound := by
  have holds : (s.proc p).point.holds = true := by rw [point]; rfl
  have builds : (s.proc p).point.builds = none := by rw [point]; rfl
  unfold Kernel.pause
  split
  · exact sound.set_release running holds builds rfl rfl rfl (.inl rfl) rfl
  · exact sound.goto_release running holds builds

theorem exitAcquire (sound : s.Sound) (running : (s.proc p).state = .running) (point : (s.proc p).point = .exitAcquire)
    (taken : s.acquire p .exitWake = some t) : t.Sound := by
  unfold Kernel.acquire at taken
  split at taken
  · next free =>
    cases taken
    apply sound.goto (by rw [point]; rfl)
    apply sound.guarded.goto running
    · rfl
    · exact fun _ => .inr free
    · exact fun _ => sound.guarded.mortal p (by rw [point]; rfl)
    all_goals nofun
  · cases taken

theorem advance (sound : s.Sound) {succeeds : Bool} (running : (s.proc p).state = .running)
    (taken : s.advance p succeeds = some t) : t.Sound := by
  cases point : (s.proc p).point with simp only [Kernel.advance, point, Option.some.injEq, Option.map_eq_some_iff, reduceCtorEq] at taken
  | allocAcquire => exact sound.acquire running taken rfl ⟨rfl, by simp⟩ (by rw [point]; rfl)
  | allocScan i => exact taken ▸ sound.allocScan running point
  | allocRelease np => exact taken ▸ sound.unlock running (by rw [point]; rfl) rfl rfl (by rw [point]; rfl)
  | allocStack np =>
    have builds : (s.proc p).point.builds = some (np, false) := by rw [point]; rfl
    split at taken
    · exact taken ▸ sound.goto_plain running (by simp [point, Point.holds]) (by simp [Point.holds]) rfl (by simp)
        builds.symm
    · exact taken ▸ sound.giveUp running builds (by rw [point]; rfl)
  | forkCopy np =>
    have builds : (s.proc p).point.builds = some (np, false) := by rw [point]; rfl
    split at taken
    · exact taken ▸ sound.goto_plain running (by simp [point, Point.holds]) (by simp [Point.holds]) rfl (by simp)
        builds.symm
    · exact taken ▸ sound.giveUp running builds (by rw [point]; rfl)
  | forkLink np => exact taken ▸ sound.link running point
  | forkAcquire np pid => exact sound.acquire running taken rfl ⟨rfl, by simp⟩ (by rw [point]; rfl)
  | forkPublish np pid => exact taken ▸ sound.publish running point
  | exitAcquire => exact sound.exitAcquire running point taken
  | exitWake => exact taken ▸ sound.exitWake running point
  | exitSearch =>
    obtain ⟨parent, child, rfl⟩ := taken
    exact sound.exitSearch running point child
  | exitPass temp =>
    obtain ⟨slot, rfl, rfl⟩ := taken
    exact sound.exitPass running point
  | exitZombie => exact taken ▸ sound.exitZombie running point
  | waitAcquire => exact sound.acquire running taken rfl ⟨rfl, by simp⟩ (by rw [point]; rfl)
  | waitScan => exact taken ▸ sound.waitScan running point
  | waitSleep => exact taken ▸ sound.waitSleep running point
  | killAcquire pid => exact sound.acquire running taken rfl ⟨rfl, by simp⟩ (by rw [point]; rfl)
  | killScan pid => exact taken ▸ sound.kill running point
  | signalAcquire pid signal => exact sound.acquire running taken rfl ⟨rfl, by simp⟩ (by rw [point]; rfl)
  | signalScan pid signal => exact taken ▸ sound.signalProcess running point
  | pauseAcquire pid duration => exact sound.acquire running taken rfl ⟨rfl, by simp⟩ (by rw [point]; rfl)
  | pauseScan pid duration => exact taken ▸ sound.pause running point
  | release ret => exact taken ▸ sound.unlock running (by rw [point]; rfl) rfl rfl (by rw [point]; rfl)

theorem schedule (sound : s.Sound) (taken : s.schedule p = some t) : t.Sound := by
  obtain ⟨free, runnable, -⟩ := schedule_ready taken
  simp only [Kernel.schedule] at taken
  split at taken
  · cases taken
  · next ready =>
    -- a process without the processor does not hold the lock
    have outside : (s.proc p).point.holds = false := by
      by_contra holds
      have running := sound.guarded.runs p (by simpa using holds)
      simp [runnable] at running
    have picked : ∀ chan : Option Slot, (s.set p
        { s.proc p with killed := (s.proc p).killed || (s.proc p).sig == SIGNAL_KILL, state := .running, chan }).Sound := by
      intro chan
      apply sound.adjust
      · rfl
      · rfl
      · rfl
      · rw [runnable]
        rfl
      · exact fun _ => rfl
      · nofun
    split at taken
    · next asleep =>
      cases taken
      apply (picked none).goto_plain
      · simp
      · rfl
      · exact fun _ => .inr free
      · rfl
      · nofun
      · simp [asleep, Point.builds]
    · cases taken
      exact picked (s.proc p).chan

theorem step {e : Event} (sound : s.Sound) (taken : step s e = some t) : t.Sound := by
  cases e with
  | tick =>
    cases taken
    exact sound.quiet (sound.guarded.congr rfl rfl) rfl fun q => ⟨rfl, rfl, rfl, rfl⟩
  | yield p =>
    simp only [Reparent.step] at taken
    split at taken
    · next running =>
      cases taken
      have outside : (s.proc p).point.holds = false := by
        by_contra holds
        have lock := (sound.guarded.holder p).mp (by simpa using holds)
        simp [running.1] at lock
      apply sound.adjust
      · rfl
      · rfl
      · rfl
      · rw [running.2]
        rfl
      · simp [outside]
      · nofun
    · cases taken
  | schedule p => exact sound.schedule taken
  | call p request =>
    simp only [Reparent.step] at taken
    split at taken
    · next ret running user =>
      split at taken
      · cases taken
      · next mortal =>
        cases taken
        apply sound.goto
        · cases request <;> simp [user, Request.entry, Point.builds]
        · apply sound.guarded.goto running
          · cases request <;> simp [user, Request.entry, Point.holds]
          · cases request <;> simp [Request.entry, Point.holds]
          · cases request <;> simp_all [Request.entry, Point.exits]
          all_goals cases request <;> simp [Request.entry, Point.hasWoken]
    · cases taken
  | go p succeeds =>
    simp only [Reparent.step] at taken
    split at taken
    · next running => exact sound.advance running taken
    · cases taken


end Sound

/-- The slot holds a process on which the fork that makes it has stored the parent. -/
def Linked (s : Kernel) (q : Slot) : Prop :=
  (s.proc q).state ≠ .unused ∧ ∀ p, (s.proc p).point.builds ≠ some (q, false)

theorem Sound.parent_of_linked {s : Kernel} (sound : s.Sound) {q : Slot} (linked : s.Linked q) (other : q ≠ initproc) :
    ∃ r, (s.proc q).parent = some r := by
  obtain ⟨used, stored⟩ := linked
  cases state : (s.proc q).state with
  | unused => exact absurd state used
  | embryo =>
    obtain ⟨p, done, builds⟩ := sound.family.builder q (by simp [Kernel.family, state, ProcState.life])
    cases done with
    | false => exact absurd builds (stored p)
    | true => exact ⟨p, (sound.family.building p q true builds).2.2.1⟩
  | sleeping | runnable | running => exact sound.family.adopted q (.inl (by simp [Kernel.family, state, ProcState.life])) other
  | zombie => exact sound.family.adopted q (.inr (by simp [Kernel.family, state, ProcState.life])) other

end Kernel

theorem run_sound {es : List Event} {s : Kernel} (reached : Machine.run step boot es = some s) : s.Sound :=
  Machine.invariant (fun _ _ _ sound taken => sound.step taken) boot_sound reached

/-- In every state reached, whether the lock is free or not, a linked process other than
`init` has a parent that is in use and not dead, the search of `exit` ends at the parent of
the exiting process, and no process sleeps in `wait` that has a dead child. -/
theorem reparenting_loses_no_exit {es : List Event} {s : Kernel} (reached : Machine.run step boot es = some s) :
    (∀ q, s.Linked q → q ≠ initproc →
      ∃ r, (s.proc q).parent = some r ∧ (s.proc r).state ≠ .unused ∧ (s.proc r).state ≠ .zombie) ∧
    (∀ p, (s.proc p).point = .exitSearch →
      ∃ r, (s.proc p).parent = some r ∧ s.find (s.proc r).pid = (s.proc p).parent) ∧
    ∀ p q, (s.proc p).state = .sleeping → (s.proc q).parent = some p → (s.proc q).state ≠ .zombie := by
  have sound := run_sound reached
  refine ⟨fun q linked other => ?_, fun p searches => ?_, fun p q asleep => sound.guarded.watched p q (.inr asleep)⟩
  · obtain ⟨r, parent⟩ := sound.parent_of_linked linked other
    have alive : (s.proc r).state.life = .live := sound.family.parentLives q r parent
    refine ⟨r, parent, ?_, ?_⟩ <;>
    · intro state
      simp [state, ProcState.life] at alive
  · have running := sound.guarded.runs p (by rw [searches]; rfl)
    have mortal := sound.guarded.mortal p (by rw [searches]; rfl)
    have live : s.family.life p = .live := by simp [Kernel.family, running, ProcState.life]
    obtain ⟨r, parent⟩ := sound.family.adopted p (.inl live) mortal
    exact ⟨r, parent, (sound.find_parent parent).trans parent.symm⟩

def forks (p : Slot) (scans : Nat) : List Event := .call p .fork :: List.replicate (scans + 8) (.go p true)

/-- Four generations: the last exits, the second waits, and the third begins to exit. -/
def generations : List Event :=
  .schedule 0 :: forks 0 2 ++ .schedule 1 :: forks 1 3 ++ .schedule 2 :: forks 2 4 ++
    .schedule 3 :: .call 3 .exit :: List.replicate 5 (.go 3 true) ++
    .call 1 .wait :: List.replicate 3 (.go 1 true) ++ .call 2 .exit :: List.replicate 2 (.go 2 true)

theorem reparenting_loses_no_exit_generations :
    ∃ s, Machine.run step boot generations = some s ∧ (s.proc 2).point = .exitSearch ∧ (s.proc 3).state = .zombie ∧
      s.find 2 = some 1 ∧
      ∃ r, (s.proc 2).parent = some r ∧ s.find (s.proc r).pid = (s.proc 2).parent := by
  have facts : (Machine.run step boot generations).any (fun s =>
      decide ((s.proc 2).point = .exitSearch ∧ (s.proc 3).state = .zombie ∧ s.find 2 = some 1)) = true := by
    decide +kernel
  obtain ⟨s, reached, stands⟩ := (Option.any_eq_true _ _).mp facts
  obtain ⟨searches, zombie, found⟩ := of_decide_eq_true stands
  exact ⟨s, reached, searches, zombie, found, (reparenting_loses_no_exit reached).2.1 2 searches⟩

end OsLabs.Reparent
