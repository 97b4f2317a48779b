import OsLabs.Reparent.Ancestry

/-! The marks that `signal_process` and `pause` leave on a process, `sig` and `ft`, belong to
the process and not to its slot: who signalled or paused is told apart by pid alone, and a
slot that is used again starts without marks. -/

set_option autoImplicit false

namespace OsLabs.Reparent

open OsLabs.Lib

inductive Store where
  | claim (np : Slot)
  | publish (np : Slot)
  | signal (pid : Int) (signal : Word)
  | pause (pid : Int) (duration : Word)

namespace Kernel

def Live (s : Kernel) (q : Slot) : Prop := (s.proc q).state.life = .live

instance (s : Kernel) (q : Slot) : Decidable (s.Live q) := inferInstanceAs (Decidable (_ = _))

theorem live_of_state {s : Kernel} {q : Slot} {x : ProcState} (state : (s.proc q).state = x) (alive : x.life = .live) :
    s.Live q := by
  rw [Live, state, alive]

theorem Live.used {s : Kernel} {q : Slot} (live : s.Live q) : (s.proc q).state ≠ .unused := by
  intro unused
  rw [Live, unused] at live
  cases live

def store (s : Kernel) : Event → Option Store
  | .go p _ =>
    match (s.proc p).point with
    | .allocScan i =>
      if inside : i < NPROC then
        if (s.proc ⟨i, inside⟩).state = .unused then some (.claim ⟨i, inside⟩) else none
      else none
    | .forkPublish np _ => some (.publish np)
    | .signalScan pid signal => some (.signal pid signal)
    | .pauseScan pid duration => some (.pause pid duration)
    | _ => none
  | _ => none

/-- Whoever lives after a step lived before and has kept the marks. -/
def Keeps (s t : Kernel) : Prop :=
  ∀ q, t.Live q → s.Live q ∧ (t.proc q).sig = (s.proc q).sig ∧ (t.proc q).ft = (s.proc q).ft

def Effect (s t : Kernel) : Option Store → Prop
  | none => s.Keeps t
  | some (.claim np) => ¬ t.Live np ∧ s.Keeps t
  | some (.publish np) =>
    t.Live np ∧ ∀ q, t.Live q →
      if q = np then (t.proc q).sig = 0 ∧ (t.proc q).ft = -1
      else s.Live q ∧ (t.proc q).sig = (s.proc q).sig ∧ (t.proc q).ft = (s.proc q).ft
  | some (.signal pid signal) =>
    ∀ q, (t.Live q ↔ s.Live q) ∧ (s.Live q → (t.proc q).ft = (s.proc q).ft ∧
      (t.proc q).sig = if (s.proc q).pid = pid then signal else (s.proc q).sig)
  | some (.pause pid duration) =>
    ∀ q, (t.Live q ↔ s.Live q) ∧ (s.Live q → (t.proc q).sig = (s.proc q).sig ∧
      (t.proc q).ft = if (s.proc q).pid = pid then pauseUntil s.ticks (s.proc q).ft duration else (s.proc q).ft)

section Projections

variable (s : Kernel) (p q : Slot) (y : Point)

@[simp] theorem goto_state : ((s.goto p y).proc q).state = (s.proc q).state := by
  rw [goto_proc]
  split <;> simp_all

@[simp] theorem goto_sig : ((s.goto p y).proc q).sig = (s.proc q).sig := by
  rw [goto_proc]
  split <;> simp_all

@[simp] theorem goto_ft : ((s.goto p y).proc q).ft = (s.proc q).ft := by
  rw [goto_proc]
  split <;> simp_all

end Projections

section Searches

variable {s : Kernel} {p q r : Slot} {pid : Int}

theorem Sound.eq_found_iff (sound : s.Sound) (found : s.find pid = some r) (live : s.Live q) :
    q = r ↔ (s.proc q).pid = pid := by
  constructor
  · rintro rfl
    simpa using List.find?_some found
  · rintro rfl
    rw [sound.find_live live] at found
    exact Option.some.inj found

theorem Sound.pid_ne_of_missing (sound : s.Sound) (missing : s.find pid = none) (live : s.Live q) :
    (s.proc q).pid ≠ pid := by
  rintro rfl
  rw [sound.find_live live] at missing
  cases missing

theorem Sound.signal_effect (sound : s.Sound) (signal : Word) :
    Effect s (s.signalProcess p pid signal) (some (.signal pid signal)) := by
  intro q
  unfold Kernel.signalProcess
  cases found : s.find pid with simp only [Live, goto_state, goto_sig, goto_ft, set_proc]
  | none => exact ⟨trivial, fun live => by simp [sound.pid_ne_of_missing found live]⟩
  | some r =>
    constructor
    · split <;> simp_all
    · intro live
      have same := sound.eq_found_iff found live
      split <;> simp_all

theorem Sound.pause_effect (sound : s.Sound) (duration : Word) :
    Effect s (s.pause p pid duration) (some (.pause pid duration)) := by
  intro q
  unfold Kernel.pause
  cases found : s.find pid with simp only [Live, goto_state, goto_sig, goto_ft, set_proc]
  | none => exact ⟨trivial, fun live => by simp [sound.pid_ne_of_missing found live]⟩
  | some r =>
    constructor
    · split <;> simp_all
    · intro live
      have same := sound.eq_found_iff found live
      split <;> simp_all

end Searches

namespace Keeps

variable {s t u : Kernel} {p q : Slot}

theorem refl (s : Kernel) : s.Keeps s := fun _ live => ⟨live, rfl, rfl⟩

theorem trans (first : s.Keeps t) (second : t.Keeps u) : s.Keeps u := by
  intro q live
  obtain ⟨between, sig, ft⟩ := second q live
  obtain ⟨before, sig', ft'⟩ := first q between
  exact ⟨before, sig.trans sig', ft.trans ft'⟩

theorem goto (kept : s.Keeps t) (y : Point) : s.Keeps (t.goto p y) := by
  intro q live
  rw [Live, goto_state] at live
  rw [goto_sig, goto_ft]
  exact kept q live

theorem set {x : Proc} (alive : x.state.life = .live → s.Live q) (sig : x.sig = (s.proc q).sig)
    (ft : x.ft = (s.proc q).ft) : s.Keeps (s.set q x) := by
  intro r live
  rw [Live, set_proc] at live
  rw [set_proc]
  split at live
  · next same =>
    subst same
    simpa using ⟨alive live, sig, ft⟩
  · next other =>
    rw [if_neg other]
    exact ⟨live, rfl, rfl⟩

theorem wakeup1 (kept : s.Keeps t) (chan : Option Slot) : s.Keeps (t.wakeup1 chan) := by
  intro q live
  rw [Live, wakeup1_proc] at live
  rw [wakeup1_proc]
  split at live
  · next asleep =>
    rw [if_pos asleep]
    exact kept q (live_of_state asleep.1 rfl)
  · next awake =>
    rw [if_neg awake]
    exact kept q live

end Keeps

section Steps

variable {s t : Kernel} {p : Slot}

theorem keeps_acquire {y : Point} (taken : s.acquire p y = some t) : s.Keeps t := by
  unfold Kernel.acquire at taken
  split at taken
  · cases taken
    exact (Keeps.refl s).goto y
  · cases taken

theorem keeps_allocScan (i : Nat) : s.Keeps (s.allocScan p i) := by
  unfold Kernel.allocScan
  split
  · split
    · apply Keeps.goto (t := s.set _ _)
      exact Keeps.set nofun rfl rfl
    · exact (Keeps.refl s).goto _
  · exact (Keeps.refl s).goto _

theorem keeps_giveUp (np : Slot) : s.Keeps (s.giveUp p np) := by
  apply Keeps.goto
  exact Keeps.set nofun rfl rfl

theorem keeps_passChildren (temp : Slot) : s.Keeps (s.passChildren p temp) := by
  have passed : s.Keeps
      { s with
        proc := fun q => if (s.proc q).parent = some p then { s.proc q with parent := some temp } else s.proc q } := by
    intro q live
    rw [Live] at live
    dsimp only at live ⊢
    split at live
    · next child =>
      rw [if_pos child]
      exact ⟨live, rfl, rfl⟩
    · next other =>
      rw [if_neg other]
      exact ⟨live, rfl, rfl⟩
  unfold Kernel.passChildren
  dsimp only
  split
  · exact passed.wakeup1 _
  · exact passed

theorem keeps_waitScan : s.Keeps (s.waitScan p) := by
  unfold Kernel.waitScan
  split
  · apply Keeps.goto
    exact Keeps.set nofun rfl rfl
  · split
    · exact (Keeps.refl s).goto _
    · exact (Keeps.refl s).goto _

theorem keeps_kill (pid : Int) : s.Keeps (s.kill p pid) := by
  unfold Kernel.kill
  split
  · next q _ =>
    apply Keeps.goto
    refine Keeps.set (fun live => ?_) rfl rfl
    dsimp only at live
    split at live
    · next asleep => exact live_of_state asleep rfl
    · exact live
  · exact (Keeps.refl s).goto _

theorem publish_effect (np : Slot) (pid : Int) :
    Effect s ((s.set np { s.proc np with state := .runnable, sig := 0, ft := -1 }).goto p (.release pid))
      (some (.publish np)) := by
  simp only [Effect, Live, goto_state, goto_sig, goto_ft, set_proc]
  refine ⟨by simp [ProcState.life], fun q live => ?_⟩
  split
  · simp
  · next other => simpa [other] using live

theorem Sound.advance_effect (sound : s.Sound) {succeeds : Bool} (running : (s.proc p).state = .running)
    (taken : s.advance p succeeds = some t) : Effect s t (s.store (.go p succeeds)) := by
  have live : s.Live p := live_of_state running rfl
  cases point : (s.proc p).point with
    simp only [Kernel.advance, Kernel.store, point, Option.some.injEq, Option.map_eq_some_iff, reduceCtorEq] at taken ⊢
  | allocScan i =>
    have kept := taken ▸ keeps_allocScan (s := s) (p := p) i
    split
    · next inside =>
      split
      · next unused =>
        refine ⟨?_, kept⟩
        rw [← taken, Kernel.allocScan, dif_pos inside, if_pos unused]
        simp only [Live, goto_state, set_proc, if_pos, ProcState.life]
        decide
      · exact kept
    · exact kept
  | allocAcquire | forkAcquire | exitAcquire | waitAcquire | killAcquire | signalAcquire | pauseAcquire =>
    exact keeps_acquire taken
  | allocRelease | release => exact taken ▸ (Keeps.refl s).goto _
  | allocStack np | forkCopy np =>
    split at taken
    · exact taken ▸ (Keeps.refl s).goto _
    · exact taken ▸ keeps_giveUp np
  | forkLink np =>
    subst taken
    apply Keeps.goto
    exact Keeps.set id rfl rfl
  | forkPublish np pid => exact taken ▸ publish_effect np pid
  | exitWake => exact taken ▸ ((Keeps.refl s).wakeup1 _).goto _
  | exitSearch =>
    obtain ⟨parent, _, rfl⟩ := taken
    exact (Keeps.refl s).goto _
  | exitPass temp =>
    obtain ⟨slot, _, rfl⟩ := taken
    exact (keeps_passChildren slot).goto _
  | exitZombie => exact taken ▸ Keeps.set (by simp [ProcState.life]) rfl rfl
  | waitScan => exact taken ▸ keeps_waitScan
  | waitSleep => exact taken ▸ Keeps.set (fun _ => live) rfl rfl
  | killScan pid => exact taken ▸ keeps_kill pid
  | signalScan pid signal => exact taken ▸ sound.signal_effect signal
  | pauseScan pid duration => exact taken ▸ sound.pause_effect duration

theorem keeps_schedule (taken : s.schedule p = some t) : s.Keeps t := by
  have live : s.Live p := live_of_state (schedule_ready taken).2.1 rfl
  simp only [Kernel.schedule] at taken
  split at taken
  · cases taken
  · split at taken
    · cases taken
      apply Keeps.goto
      exact Keeps.set (fun _ => live) rfl rfl
    · cases taken
      exact Keeps.set (fun _ => live) rfl rfl

theorem Sound.step_effect (sound : s.Sound) {e : Event} (taken : Reparent.step s e = some t) : Effect s t (s.store e) := by
  cases e with
  | tick =>
    cases taken
    exact Keeps.refl s
  | yield p =>
    simp only [Reparent.step] at taken
    split at taken
    · next running =>
      cases taken
      exact Keeps.set (fun _ => live_of_state running.2 rfl) rfl rfl
    · cases taken
  | schedule p => exact keeps_schedule taken
  | call p request =>
    simp only [Reparent.step] at taken
    split at taken
    · split at taken
      · cases taken
      · cases taken
        exact (Keeps.refl s).goto _
    · cases taken
  | go p succeeds =>
    simp only [Reparent.step] at taken
    split at taken
    · next running => exact sound.advance_effect running taken
    · cases taken

end Steps

end Kernel

/-- What has reached a process since it became RUNNABLE: the latest signal, and whether any pause. -/
structure Marks where
  signal : Option Word
  paused : Bool
  deriving DecidableEq

abbrev History := Slot → Marks

/-- Of the calls, who made them is not told, nor what they found: a call under a pid is noted
for every slot with that pid. -/
def note (s : Kernel) (e : Event) (history : History) : History :=
  match s.store e with
  | some (.publish np) => Function.update history np ⟨none, false⟩
  | some (.signal pid signal) =>
    fun q => if (s.proc q).pid = pid then { history q with signal := some signal } else history q
  | some (.pause pid _) => fun q => if (s.proc q).pid = pid then { history q with paused := true } else history q
  | some (.claim _) | none => history

def noted : Machine (Kernel × History) Event := Machine.watch note step

def unmarked : History := fun _ => ⟨none, false⟩

/-- `sig` and `ft` are what the calls have made them. -/
def Attributed (s : Kernel) (history : History) : Prop :=
  ∀ q, s.Live q → (s.proc q).sig = (history q).signal.getD 0 ∧ ((history q).paused = false → (s.proc q).ft = -1)

theorem boot_attributed : Attributed boot unmarked := by
  intro q live
  simp only [Kernel.Live, boot] at live ⊢
  split at live
  · next first => simp [first, unmarked]
  · cases live

theorem Attributed.step {s t : Kernel} {e : Event} {history : History} (attributed : Attributed s history)
    (effect : s.Effect t (s.store e)) : Attributed t (note s e history) := by
  have kept : s.Keeps t → Attributed t history := by
    intro kept q live
    obtain ⟨before, sig, ft⟩ := kept q live
    rw [sig, ft]
    exact attributed q before
  unfold note
  generalize s.store e = store at effect
  cases store with
  | none => exact kept effect
  | some store =>
    cases store with
    | claim np => exact kept effect.2
    | publish np =>
      intro q live
      have marks := effect.2 q live
      dsimp only
      rw [Function.update_apply]
      split at marks
      · next same =>
        rw [if_pos same]
        exact ⟨marks.1, fun _ => marks.2⟩
      · next other =>
        obtain ⟨before, sig, ft⟩ := marks
        rw [if_neg other, sig, ft]
        exact attributed q before
    | signal pid signal =>
      intro q live
      obtain ⟨lives, marks⟩ := effect q
      have before := lives.mp live
      obtain ⟨ft, sig⟩ := marks before
      have was := attributed q before
      rw [sig, ft]
      dsimp only
      split
      · exact ⟨rfl, was.2⟩
      · exact was
    | pause pid duration =>
      intro q live
      obtain ⟨lives, marks⟩ := effect q
      have before := lives.mp live
      obtain ⟨sig, ft⟩ := marks before
      have was := attributed q before
      rw [sig, ft]
      dsimp only
      split
      · exact ⟨was.1, nofun⟩
      · exact was

theorem noted_sound {es : List Event} {s : Kernel} {history : History}
    (reached : Machine.run noted (boot, unmarked) es = some (s, history)) : s.Sound ∧ Attributed s history := by
  refine Machine.invariant (I := fun x => x.1.Sound ∧ Attributed x.1 x.2) ?_ ⟨boot_sound, boot_attributed⟩ reached
  rintro x e y ⟨sound, attributed⟩ taken
  obtain ⟨step, history⟩ := Machine.watch_eq_some.mp taken
  refine ⟨sound.step step, ?_⟩
  rw [history]
  exact attributed.step (sound.step_effect step)

/-- In every state reached, whether the lock is free or not, a process that is SLEEPING,
RUNNABLE or RUNNING has the latest signal sent to its pid since it became RUNNABLE in `sig`,
0 without one, and -1 in `ft` where nobody has paused its pid since. -/
theorem marks_never_leak {es : List Event} {s : Kernel} {history : History}
    (reached : Machine.run noted (boot, unmarked) es = some (s, history)) {q : Slot}
    (alive : (s.proc q).state = .sleeping ∨ (s.proc q).state = .runnable ∨ (s.proc q).state = .running) :
    (s.proc q).sig = (history q).signal.getD 0 ∧ ((history q).paused = false → (s.proc q).ft = -1) := by
  apply (noted_sound reached).2 q
  rcases alive with state | state | state <;> exact Kernel.live_of_state state rfl

def recycled : List Event :=
  .schedule 0 :: forks 0 2 ++ .call 0 (.signalProcess 2 7) :: List.replicate 3 (.go 0 true) ++
    .call 0 (.pause 2 0) :: List.replicate 3 (.go 0 true) ++
    .schedule 1 :: .call 1 .exit :: List.replicate 5 (.go 1 true) ++
    .call 0 .wait :: List.replicate 3 (.go 0 true) ++ forks 0 2 ++
    .call 0 (.signalProcess 3 4) :: List.replicate 3 (.go 0 true) ++
    .call 0 (.signalProcess 2 9) :: List.replicate 3 (.go 0 true)

theorem marks_never_leak_recycled :
    ∃ s history, Machine.run noted (boot, unmarked) recycled = some (s, history) ∧ (s.proc 1).pid = 3 ∧
      (s.proc 1).sig = 4 ∧ (s.proc 1).ft = -1 := by
  have facts : (Machine.run noted (boot, unmarked) recycled).any (fun x =>
      decide ((x.1.proc 1).pid = 3 ∧ (x.1.proc 1).state = .runnable ∧ x.2 1 = ⟨some 4, false⟩)) = true := by
    decide +kernel
  obtain ⟨⟨s, history⟩, reached, stands⟩ := (Option.any_eq_true _ _).mp facts
  obtain ⟨pid, runnable, marks⟩ := of_decide_eq_true stands
  obtain ⟨sig, ft⟩ := marks_never_leak reached (.inr (.inl runnable))
  dsimp only at marks
  rw [marks] at sig ft
  exact ⟨s, history, reached, pid, sig, ft rfl⟩

end OsLabs.Reparent
