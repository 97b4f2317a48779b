import OsLabs.Reparent.Marks

/-! Whether a pause lasts. `ft` is a signed word in the test of the scheduler for a pause and an
unsigned one in its comparison with `ticks`: a deadline past the largest `int` ends at once. -/

set_option autoImplicit false

namespace OsLabs.Reparent

open OsLabs.Lib

def INT_MAX : Nat := 2 ^ 31 - 1

deriving instance DecidableEq for Event

/-- The tick to which a process is paused, its deadline before a call and the tick of the call given. -/
def extend (now duration : Nat) : Option Nat → Nat
  | none => now + duration
  | some deadline => max deadline now + duration

def Stops (ticks ft : Word) : Prop := (0 : Word).slt ft ∧ ticks ≤ ft

/-- What `ft` is for a process with the deadline. -/
def Tracks (ticks ft : Word) : Option Nat → Prop
  | none => ft = -1
  | some deadline =>
    deadline ≤ ticks.toNat ∧ (ft = -1 ∨ ft ≤ ticks) ∨ ft.toNat = deadline ∧ deadline ≤ INT_MAX

section Words

variable {ticks ft duration : Word} {deadline : Option Nat}

theorem zero_slt_iff (x : Word) : (0 : Word).slt x = true ↔ 0 < x.toNat ∧ x.toNat ≤ INT_MAX := by
  have sign := BitVec.toInt_eq_toNat_cond x
  have small := x.isLt
  have zero : (0 : Word).toInt = 0 := rfl
  rw [BitVec.slt_iff_toInt_lt, zero]
  unfold INT_MAX
  split at sign <;> omega

theorem Tracks.stops {d : Nat} (tracks : Tracks ticks ft (some d)) (early : ticks.toNat < d) : Stops ticks ft := by
  rcases tracks with ⟨late, _⟩ | ⟨rfl, small⟩
  · omega
  · exact ⟨(zero_slt_iff ft).mpr ⟨by omega, small⟩, by rw [BitVec.le_def]; omega⟩

theorem pauseUntil_of_past (past : ft = -1 ∨ ft ≤ ticks) : Kernel.pauseUntil ticks ft duration = ticks + duration := by
  unfold Kernel.pauseUntil
  split
  · rfl
  · next other =>
    rw [if_neg]
    rw [BitVec.not_lt]
    exact past.resolve_left other

theorem pauseUntil_of_future (small : ft.toNat ≤ INT_MAX) (early : ticks < ft) :
    Kernel.pauseUntil ticks ft duration = ft + duration := by
  unfold Kernel.pauseUntil
  rw [if_neg, if_pos early]
  rintro rfl
  exact absurd small (by decide)

theorem Tracks.start (tracks : Tracks ticks ft deadline) (duration : Word) :
    ∃ start : Word, Kernel.pauseUntil ticks ft duration = start + duration ∧ ticks ≤ start ∧
      (start = ticks ∨ start.toNat ≤ INT_MAX) ∧
      extend ticks.toNat duration.toNat deadline = start.toNat + duration.toNat := by
  cases deadline with
  | none => exact ⟨ticks, pauseUntil_of_past (.inl tracks), BitVec.le_refl _, .inl rfl, rfl⟩
  | some d =>
    have past : d ≤ ticks.toNat → extend ticks.toNat duration.toNat (some d) = ticks.toNat + duration.toNat := by
      intro late
      rw [extend, max_eq_right late]
    rcases tracks with ⟨late, stale⟩ | ⟨rfl, small⟩
    · exact ⟨ticks, pauseUntil_of_past stale, BitVec.le_refl _, .inl rfl, past late⟩
    · rcases Nat.lt_or_ge ticks.toNat ft.toNat with early | late
      · refine ⟨ft, pauseUntil_of_future small early, ?_, .inr small, ?_⟩
        · exact BitVec.le_of_lt early
        · rw [extend, max_eq_left (Nat.le_of_lt early)]
      · exact ⟨ticks, pauseUntil_of_past (.inr late), BitVec.le_refl _, .inl rfl, past late⟩

/-- A new deadline that an `int` holds, or that has come already, is kept. -/
theorem Tracks.pause (tracks : Tracks ticks ft deadline)
    (fits : extend ticks.toNat duration.toNat deadline ≤ INT_MAX ∨
      extend ticks.toNat duration.toNat deadline ≤ ticks.toNat) :
    Tracks ticks (Kernel.pauseUntil ticks ft duration) (some (extend ticks.toNat duration.toNat deadline)) := by
  obtain ⟨start, until_eq, later, -, extended⟩ := tracks.start duration
  rw [until_eq, extended]
  rw [extended] at fits
  rw [BitVec.le_def] at later
  have below := ticks.isLt
  rcases fits with small | passed
  · exact .inr ⟨BitVec.toNat_add_of_lt (by unfold INT_MAX at small; omega), small⟩
  · refine .inl ⟨passed, .inr ?_⟩
    rw [BitVec.le_def, BitVec.toNat_add_of_lt (by omega)]
    exact passed

theorem Tracks.tick (tracks : Tracks ticks ft deadline) (counts : ticks ≠ -1) : Tracks (ticks + 1) ft deadline := by
  have next : (ticks + 1).toNat = ticks.toNat + 1 := by
    apply BitVec.toNat_add_of_lt
    have below := ticks.isLt
    have last : ticks.toNat ≠ (-1 : Word).toNat := fun same => counts (BitVec.eq_of_toNat_eq same)
    simp at last ⊢
    omega
  cases deadline with
  | none => exact tracks
  | some d =>
    rcases tracks with ⟨late, stale⟩ | ahead
    · refine .inl ⟨by omega, stale.imp_right fun past => ?_⟩
      rw [BitVec.le_def] at past ⊢
      omega
    · exact .inr ahead

theorem Tracks.not_stops (tracks : Tracks ticks ft deadline) (positive : duration.toNat ≤ INT_MAX)
    (large : INT_MAX < extend ticks.toNat duration.toNat deadline) :
    ¬ Stops ticks (Kernel.pauseUntil ticks ft duration) := by
  obtain ⟨start, until_eq, later, origin, extended⟩ := tracks.start duration
  rw [until_eq, Stops, zero_slt_iff, BitVec.le_def]
  rw [extended] at large
  rw [BitVec.le_def] at later
  rintro ⟨⟨-, small⟩, waits⟩
  unfold INT_MAX at *
  rcases Nat.lt_or_ge (start.toNat + duration.toNat) (2 ^ 32) with fits | wraps
  -- the sum is negative for the test
  · rw [BitVec.toNat_add_of_lt fits] at small
    omega
  -- or it has wrapped around to a tick long past
  · rw [BitVec.toNat_add] at waits
    rcases origin with rfl | inside
    · omega
    · omega

end Words

/-- The deadline of the process in a slot, none before the first pause under its pid. -/
abbrev Deadlines := Slot → Option Nat

def noteDeadline (s : Kernel) (e : Event) (deadlines : Deadlines) : Deadlines :=
  match s.store e with
  | some (.claim np) => Function.update deadlines np none
  | some (.pause pid duration) => fun q =>
    if (s.proc q).state ≠ .unused ∧ (s.proc q).pid = pid then
      some (extend s.ticks.toNat duration.toNat (deadlines q))
    else deadlines q
  | some (.publish _) | some (.signal _ _) | none => deadlines

def timed : Machine (Kernel × Deadlines) Event := Machine.watch noteDeadline step

def unpaused : Deadlines := fun _ => none

/-- `ticks` does not wrap around, and a pause is not for a negative time. -/
def Regular (x : Kernel × Deadlines) (e : Event) : Prop :=
  (e = .tick → x.1.ticks ≠ -1) ∧
    match x.1.store e with
    | some (.pause _ duration) => duration.toNat ≤ INT_MAX
    | _ => True

instance (x : Kernel × Deadlines) (e : Event) : Decidable (Regular x e) :=
  have : Decidable (match x.1.store e with | some (.pause _ duration) => duration.toNat ≤ INT_MAX | _ => True) :=
    match x.1.store e with
    | some (.pause _ duration) => inferInstanceAs (Decidable (duration.toNat ≤ INT_MAX))
    | some (.claim _) | some (.publish _) | some (.signal _ _) | none => inferInstanceAs (Decidable True)
  inferInstanceAs (Decidable (_ ∧ _))

/-- A pause of a process leaves it a deadline that an `int` holds, or that has come; and a
process that was paused while `fork` made it becomes RUNNABLE after its deadline. -/
def Fits (x : Kernel × Deadlines) (e : Event) : Prop :=
  match x.1.store e with
  | some (.pause pid duration) => ∀ q, x.1.Live q → (x.1.proc q).pid = pid →
    extend x.1.ticks.toNat duration.toNat (x.2 q) ≤ INT_MAX ∨
      extend x.1.ticks.toNat duration.toNat (x.2 q) ≤ x.1.ticks.toNat
  | some (.publish np) => ∀ deadline ∈ x.2 np, deadline ≤ x.1.ticks.toNat
  | some (.claim _) | some (.signal _ _) | none => True

instance (x : Kernel × Deadlines) (e : Event) : Decidable (Fits x e) :=
  match store : x.1.store e with
  | some (.pause pid duration) => decidable_of_iff (∀ q, x.1.Live q → (x.1.proc q).pid = pid →
      extend x.1.ticks.toNat duration.toNat (x.2 q) ≤ INT_MAX ∨
        extend x.1.ticks.toNat duration.toNat (x.2 q) ≤ x.1.ticks.toNat) (by simp only [Fits, store])
  | some (.publish np) => decidable_of_iff (∀ deadline ∈ x.2 np, deadline ≤ x.1.ticks.toNat) (by simp only [Fits, store])
  | some (.claim _) | some (.signal _ _) | none => decidable_of_iff True (by simp only [Fits, store])

def OnTime (x : Kernel × Deadlines) (e : Event) : Prop :=
  ∀ p t, e = .schedule p → x.1.schedule p = some t → ∀ deadline ∈ x.2 p, deadline ≤ x.1.ticks.toNat

/-- The test of the scheduler for a pause keeps every process back that could run before its deadline. -/
def Held (x : Kernel × Deadlines) : Prop :=
  ∀ q, x.1.Live q → ∀ deadline ∈ x.2 q, x.1.ticks.toNat < deadline → Stops x.1.ticks (x.1.proc q).ft

def Tracked (x : Kernel × Deadlines) : Prop := ∀ q, x.1.Live q → Tracks x.1.ticks (x.1.proc q).ft (x.2 q)

theorem boot_tracked : Tracked (boot, unpaused) := by
  intro q live
  simp only [Kernel.Live, boot] at live ⊢
  split at live
  · next first => simp [first, unpaused, Tracks]
  · cases live

theorem Tracked.held {x : Kernel × Deadlines} (tracked : Tracked x) : Held x := by
  intro q live deadline is early
  have tracks := tracked q live
  rw [is] at tracks
  exact tracks.stops early

theorem Kernel.acquire_ticks {s t : Kernel} {p : Slot} {y : Point} (taken : s.acquire p y = some t) :
    t.ticks = s.ticks := by
  unfold Kernel.acquire at taken
  split at taken
  · cases taken
    rfl
  · cases taken

theorem Kernel.advance_ticks {s t : Kernel} {p : Slot} {succeeds : Bool} (taken : s.advance p succeeds = some t) :
    t.ticks = s.ticks := by
  cases point : (s.proc p).point with
    simp only [Kernel.advance, point, Option.some.injEq, Option.map_eq_some_iff, reduceCtorEq] at taken
  | allocAcquire | forkAcquire | exitAcquire | waitAcquire | killAcquire | signalAcquire | pauseAcquire =>
    exact Kernel.acquire_ticks taken
  | allocScan i =>
    subst taken
    unfold Kernel.allocScan
    split
    · split <;> rfl
    · rfl
  | allocRelease | forkLink | forkPublish | exitWake | exitZombie | waitSleep | release => exact taken ▸ rfl
  | allocStack np | forkCopy np => split at taken <;> exact taken ▸ rfl
  | exitSearch =>
    obtain ⟨parent, _, rfl⟩ := taken
    rfl
  | exitPass temp =>
    obtain ⟨slot, _, rfl⟩ := taken
    simp only [Kernel.passChildren, Kernel.goto, Kernel.set]
    split <;> rfl
  | waitScan =>
    subst taken
    unfold Kernel.waitScan
    split
    · rfl
    · split <;> rfl
  | killScan pid =>
    subst taken
    unfold Kernel.kill
    split <;> rfl
  | signalScan pid signal =>
    subst taken
    unfold Kernel.signalProcess
    split <;> rfl
  | pauseScan pid duration =>
    subst taken
    unfold Kernel.pause
    split <;> rfl

theorem step_ticks {s t : Kernel} {e : Event} (taken : step s e = some t) (other : e ≠ .tick) : t.ticks = s.ticks := by
  cases e with
  | tick => exact absurd rfl other
  | yield p =>
    simp only [step] at taken
    split at taken <;> cases taken
    rfl
  | schedule p =>
    simp only [step, Kernel.schedule] at taken
    split at taken
    · cases taken
    · split at taken <;> cases taken <;> rfl
  | call p request =>
    simp only [step] at taken
    split at taken
    · split at taken <;> cases taken
      rfl
    · cases taken
  | go p succeeds =>
    simp only [step] at taken
    split at taken
    · exact Kernel.advance_ticks taken
    · cases taken

theorem noteDeadline_pause {s : Kernel} {e : Event} {pid : Int} {duration : Word} {q : Slot} (deadlines : Deadlines)
    (store : s.store e = some (.pause pid duration)) (live : s.Live q) :
    noteDeadline s e deadlines q =
      if (s.proc q).pid = pid then some (extend s.ticks.toNat duration.toNat (deadlines q)) else deadlines q := by
  unfold noteDeadline
  simp only [store, live.used, ne_eq, not_false_eq_true, true_and]

theorem noteDeadline_publish {s : Kernel} {e : Event} {np : Slot} (deadlines : Deadlines)
    (store : s.store e = some (.publish np)) : noteDeadline s e deadlines = deadlines := by
  unfold noteDeadline
  simp only [store]

theorem Tracked.note {s t : Kernel} {e : Event} {deadlines : Deadlines} (tracked : Tracked (s, deadlines))
    (ticks : t.ticks = s.ticks) (effect : s.Effect t (s.store e)) (fits : Fits (s, deadlines) e) :
    Tracked (t, noteDeadline s e deadlines) := by
  intro q live
  unfold Fits at fits
  dsimp only at live fits ⊢
  rw [ticks]
  split at fits
  · next pid duration store =>
    rw [store] at effect
    obtain ⟨lives, marks⟩ := effect q
    have before := lives.mp live
    have was := tracked q before
    rw [(marks before).2, noteDeadline_pause deadlines store before]
    split
    · next same => exact was.pause (fits q before same)
    · exact was
  · next np store =>
    rw [store] at effect
    have marks := effect.2 q live
    rw [noteDeadline_publish deadlines store]
    split at marks
    · next same =>
      subst same
      rw [marks.2]
      cases due : deadlines q with
      | none => rfl
      | some deadline => exact .inl ⟨fits deadline due, .inl rfl⟩
    · obtain ⟨before, -, ft⟩ := marks
      rw [ft]
      exact tracked q before
  · next np store =>
    rw [store] at effect
    obtain ⟨before, -, ft⟩ := effect.2 q live
    have other : q ≠ np := fun same => effect.1 (same ▸ live)
    unfold noteDeadline
    simp only [store]
    rw [ft, Function.update_of_ne other]
    exact tracked q before
  · next pid signal store =>
    rw [store] at effect
    obtain ⟨lives, marks⟩ := effect q
    have before := lives.mp live
    unfold noteDeadline
    simp only [store]
    rw [(marks before).1]
    exact tracked q before
  · next store =>
    rw [store] at effect
    obtain ⟨before, -, ft⟩ := effect q live
    unfold noteDeadline
    simp only [store]
    rw [ft]
    exact tracked q before

theorem Tracked.step {x y : Kernel × Deadlines} {e : Event} (tracked : Tracked x) (sound : x.1.Sound)
    (regular : Regular x e) (fits : Fits x e) (taken : timed x e = some y) : Tracked y := by
  obtain ⟨s, deadlines⟩ := x
  obtain ⟨t, deadlines'⟩ := y
  obtain ⟨step, rfl⟩ := Machine.watch_eq_some.mp taken
  by_cases tick : e = .tick
  · subst tick
    cases step
    exact fun q live => (tracked q live).tick (regular.1 rfl)
  · exact tracked.note (step_ticks step tick) (sound.step_effect step) fits

/-- Once a pause does not fit, or a process that `fork` has made runs too early, the test of
the scheduler does not keep it back. -/
theorem Held.fits {x y : Kernel × Deadlines} {e : Event} (held : Held y) (tracked : Tracked x) (sound : x.1.Sound)
    (regular : Regular x e) (taken : timed x e = some y) : Fits x e := by
  obtain ⟨s, deadlines⟩ := x
  obtain ⟨t, deadlines'⟩ := y
  obtain ⟨step, rfl⟩ := Machine.watch_eq_some.mp taken
  have effect := sound.step_effect step
  have ticks : ∀ stored, s.store e = some stored → t.ticks = s.ticks := by
    intro stored store
    apply step_ticks step
    rintro rfl
    cases store
  unfold Fits
  split
  · next pid duration store =>
    rw [store] at effect
    intro q live same
    by_contra unfit
    obtain ⟨large, ahead⟩ := not_or.mp unfit
    have due : noteDeadline s e deadlines q = some (extend s.ticks.toNat duration.toNat (deadlines q)) := by
      rw [noteDeadline_pause deadlines store live, if_pos same]
    have kept := held q ((effect q).1.mpr live) _ due
    dsimp only at kept
    rw [((effect q).2 live).2, if_pos same, ticks _ store] at kept
    exact (tracked q live).not_stops (by simpa only [store] using regular.2) (not_le.mp large) (kept (not_le.mp ahead))
  · next np store =>
    rw [store] at effect
    intro deadline due
    by_contra early
    have kept := held np effect.1 deadline (by rw [noteDeadline_publish deadlines store]; exact due)
    have marks := effect.2 np effect.1
    rw [if_pos rfl] at marks
    dsimp only at kept
    rw [ticks _ store, marks.2] at kept
    exact absurd (kept (not_le.mp early)).1 (by decide)
  · trivial
  · trivial
  · trivial

section Runs

variable {es : List Event}

/-- The condition is exact: from the first step that misses it there is a process that the
test of the scheduler does not keep back though its deadline is to come. -/
theorem held_iff_fits {z : Kernel × Deadlines} (reached : Machine.run timed (boot, unpaused) es = some z)
    (regular : Machine.EveryStep timed Regular (boot, unpaused) es) :
    Machine.EveryStep timed (fun x e => ∀ y, timed x e = some y → Held y) (boot, unpaused) es ↔
      Machine.EveryStep timed Fits (boot, unpaused) es := by
  have domain := Machine.everyStep_and.mpr ⟨regular, Machine.everyStep_taken reached⟩
  refine Machine.everyStep_iff_of_invariant (I := fun x => x.1.Sound ∧ Tracked x) ?_ ?_ ⟨boot_sound, boot_tracked⟩ domain
  · rintro x e ⟨sound, tracked⟩ ⟨regular, y, taken⟩
    constructor
    · exact fun held => (held y taken).fits tracked sound regular taken
    · exact fun fits z next => (tracked.step sound regular fits next).held
  · rintro x e y ⟨sound, tracked⟩ ⟨regular, -⟩ fits taken
    exact ⟨sound.step (Machine.watch_eq_some.mp taken).1, tracked.step sound regular fits taken⟩

/-- In a run in which the deadlines fit, the scheduler switches to no process before its deadline. -/
theorem never_early (met : Machine.EveryStep timed (fun x e => Regular x e ∧ Fits x e) (boot, unpaused) es) :
    Machine.EveryStep timed OnTime (boot, unpaused) es := by
  refine Machine.EveryStep.imp_of_invariant (I := fun x => x.1.Sound ∧ Tracked x) ?_ ?_ ⟨boot_sound, boot_tracked⟩ met
  · rintro x e ⟨sound, tracked⟩ - p t rfl taken deadline due
    obtain ⟨-, runnable, passes⟩ := Kernel.schedule_ready taken
    by_contra early
    exact passes (tracked.held p (Kernel.live_of_state runnable rfl) deadline due (not_le.mp early))
  · rintro x e y ⟨sound, tracked⟩ ⟨regular, fits⟩ taken
    exact ⟨sound.step (Machine.watch_eq_some.mp taken).1, tracked.step sound regular fits taken⟩

end Runs

def stacked : List Event :=
  .schedule 0 :: .call 0 (.pause 1 2) :: List.replicate 3 (.go 0 true) ++
    .call 0 (.pause 1 1) :: List.replicate 3 (.go 0 true) ++ .yield 0 :: List.replicate 4 .tick ++ [.schedule 0]

theorem never_early_stacked :
    (Machine.run timed (boot, unpaused) stacked).isSome ∧ Machine.EveryStep timed OnTime (boot, unpaused) stacked := by
  have fits : Machine.checkRun timed (fun x e => decide (Regular x e ∧ Fits x e)) (boot, unpaused) stacked = true := by
    decide +kernel
  refine ⟨by decide +kernel, never_early ?_⟩
  exact Machine.everyStep_of_checkRun (fun _ _ checked => of_decide_eq_true checked) fits

def longest : List Event :=
  .schedule 0 :: .tick :: .call 0 (.pause 1 0x7fffffff) :: List.replicate 3 (.go 0 true) ++ [.yield 0]

theorem not_never_early :
    Machine.EveryStep timed Regular (boot, unpaused) (longest ++ [.schedule 0]) ∧
      ¬Machine.EveryStep timed OnTime (boot, unpaused) (longest ++ [.schedule 0]) := by
  have regular : Machine.checkRun timed (fun x e => decide (Regular x e)) (boot, unpaused) (longest ++ [.schedule 0]) = true := by
    decide +kernel
  have facts : (Machine.run timed (boot, unpaused) longest).any (fun x =>
      decide ((x.1.schedule 0).isSome ∧ x.2 0 = some 0x80000000 ∧ x.1.ticks = 1)) = true := by
    decide +kernel
  refine ⟨Machine.everyStep_of_checkRun (fun _ _ checked => of_decide_eq_true checked) regular, fun met => ?_⟩
  obtain ⟨x, reached, stands⟩ := (Option.any_eq_true _ _).mp facts
  obtain ⟨picked, due, tick⟩ := of_decide_eq_true stands
  obtain ⟨t, taken⟩ := Option.isSome_iff_exists.mp picked
  have onTime := Machine.everyStep_iff.mp met longest (.schedule 0) [] x rfl reached 0 t rfl taken _ due
  rw [tick] at onTime
  exact absurd onTime (by decide)

end OsLabs.Reparent
