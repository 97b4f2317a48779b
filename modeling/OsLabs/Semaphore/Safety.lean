import OsLabs.Semaphore.Events

/-! Safety of the semaphores. `cv_sleep` takes `ptable.lock` before it lets go of the
spinlock, and `sem_up` keeps the spinlock over its wakeup, so between the two locks no
wakeup is lost and no unit is counted twice. -/

set_option autoImplicit false

namespace OsLabs.Semaphore

open OsLabs.Lib OsLabs.Lib.Threads

variable {Pid : Type*} [DecidableEq Pid]

/-- A semaphore is initialised to a value that is not negative, and used only after that. -/
def BeforeUse (s : Threads Pid Shared Proc) (l : Pid × Choice) : Prop :=
  match l.2 with
  | .call (.semInit index value) => ∀ i, lookup index = some i → 0 ≤ value.toInt ∧ s.shared.used i = false
  | .call (.semDown index) | .call (.semUp index) => ∀ i, lookup index = some i →
    s.shared.given i ≠ none ∧ ∀ q, (s.points q).point.initialises ≠ some i
  | _ => True

instance [Fintype Pid] (s : Threads Pid Shared Proc) : ∀ l : Pid × Choice, Decidable (BeforeUse s l)
  | (_, .call (.semInit _ _)) | (_, .call (.semDown _)) | (_, .call (.semUp _)) =>
    inferInstanceAs (Decidable (∀ _ : Index, _ → _))
  | (_, .call (.kill _ _)) | (_, .go) => inferInstanceAs (Decidable True)

structure Sound (i : Index) (s : Threads Pid Shared Proc) : Prop where
  ptable : Exclusive Shared.ptable (fun x => x.point.HoldsPtable) s
  spin : Exclusive (fun t => (t.semaphores i).locked) (fun x => x.point.holdsSpin = some i) s
  unused : s.shared.used i = false →
    (∀ q, (s.points q).point.uses ≠ some i) ∧ s.shared.ups i = 0 ∧ s.shared.downs i = 0
  used : s.shared.used i = true → ∀ q, (s.points q).point.initialises ≠ some i
  storing : ∀ q value, (s.points q).point = .initValue i value → 0 ≤ value.toInt
  given : ∀ n, s.shared.given i = some n → 0 ≤ n.toInt
  units : ∀ q, (s.points q).point.takes = some i → (s.shared.semaphores i).semValue ≠ 0
  attended : (s.shared.semaphores i).semValue = 0 ∨ (∃ q, (s.points q).point.owes = some i) ∨
    ∀ q, (s.points q).point.sleeps ≠ some i
  counted : ∀ n, s.shared.given i = some n → s.shared.downs i ≤ n.toNat + s.shared.ups i ∧
    (s.shared.semaphores i).semValue = BitVec.ofNat 32 (n.toNat + s.shared.ups i - s.shared.downs i)
  raising : ∃ n, s.shared.ups i + n ≤ s.shared.calls i ∧ AtMost n (fun x => x.point.raises = some i) s

section Views

variable {x : Point} {i : Index}

theorem uses_of_holdsSpin (holds : x.holdsSpin = some i) : x.uses = some i := by
  cases x <;> first | exact holds | cases holds

theorem holdsSpin_of_takes (takes : x.takes = some i) : x.holdsSpin = some i := by
  cases x <;> first | exact takes | cases takes

theorem holdsSpin_of_owes (owes : x.owes = some i) : x.holdsSpin = some i := by
  cases x <;> first | exact owes | cases owes

theorem uses_of_sleeps (sleeps : x.sleeps = some i) : x.uses = some i := by
  cases x <;> first | exact sleeps | cases sleeps

theorem asleep_of_sleeps (sleeps : x.sleeps = some i) : x.holdsSpin = some i ∨ x.HoldsPtable ∨ x = .asleep i := by
  cases x with
  | sleepPtable j | sleepRelease j => exact Or.inl sleeps
  | doze j | resting j => exact Or.inr (Or.inl trivial)
  | asleep j =>
    cases sleeps
    exact Or.inr (Or.inr rfl)
  | _ => cases sleeps

end Views

theorem Event.spin {i : Index} {c : Choice} {s t : Shared} {x y : Point} (event : Event i c s x t y)
    (other : x ≠ .initLocked i) :
    LockStep (s.semaphores i).locked (t.semaphores i).locked (x.holdsSpin = some i) (y.holdsSpin = some i) := by
  cases event with
  | quiet still => exact still.spin
  | initCall | downCall | upCall => exact .keep rfl nofun
  | initValue => exact .keep (by simp [Shared.setValue]) nofun
  | initLocked => exact absurd rfl other
  | sleep | find | wake => exact .keep rfl id
  | take | put => exact .keep (by simp [Shared.setValue]) id

section Step

variable {s : Threads Pid Shared Proc} {p : Pid} {m : Move Shared Proc} {c : Choice} {i : Index}

theorem forall_point_after (step : act c s.shared (s.points p) = some m) {P : Point → Prop}
    (woken : ∀ j, P (.asleep j) → P (.woken j)) (here : P m.point.point) (there : ∀ q, q ≠ p → P (s.points q).point)
    (q : Pid) : P ((s.after p m).points q).point := by
  refine s.forall_after p m (P := fun x => P x.point) here (fun q other => ?_) q
  rcases act_others step (s.points q) with same | ⟨j, asleep, awake⟩
  · rw [same]
    exact there q other
  · rw [awake]
    apply woken
    rw [← asleep]
    exact there q other

namespace Sound

omit [DecidableEq Pid] in
theorem idle_of_initialises (inv : Sound i s) (initialises : (s.points p).point.initialises = some i) :
    s.shared.used i = false ∧ ∀ q, (s.points q).point.uses ≠ some i := by
  have unused : s.shared.used i = false := by
    cases used : s.shared.used i with
    | false => rfl
    | true => exact absurd initialises (inv.used used p)
  exact ⟨unused, (inv.unused unused).1⟩

theorem ptable_step (inv : Sound i s) (step : act c s.shared (s.points p) = some m) :
    Exclusive Shared.ptable (fun x => x.point.HoldsPtable) (s.after p m) := by
  apply inv.ptable.after ?_ (act_ptable step)
  intro y holds
  rcases act_others step y with same | ⟨j, asleep, awake⟩
  · exact same ▸ holds
  · rw [awake] at holds
    exact False.elim holds

theorem spin_step (inv : Sound i s) (step : act c s.shared (s.points p) = some m) :
    Exclusive (fun t => (t.semaphores i).locked) (fun x => x.point.holdsSpin = some i) (s.after p m) := by
  by_cases here : (s.points p).point = .initLocked i
  · -- nobody has used the semaphore yet, so nobody can hold the lock that is cleared here
    have nobody : ∀ q, ((s.after p m).points q).point.holdsSpin ≠ some i := by
      have idle := (inv.idle_of_initialises (p := p) (by rw [here]; rfl)).2
      apply forall_point_after step (P := fun x => x.holdsSpin ≠ some i)
      · exact fun _ _ => nofun
      · have event := act_event step i
        rw [here] at event
        generalize m.point.point = y at event
        generalize m.shared = t at event
        cases event with
        | quiet still =>
          intro holds
          exact absurd (still.calm.uses (uses_of_holdsSpin holds)) nofun
        | initLocked => exact nofun
      · exact fun q _ holds => idle q (uses_of_holdsSpin holds)
    exact ⟨fun q _ holds => absurd holds (nobody q), fun q holds => absurd holds (nobody q)⟩
  · apply inv.spin.after ?_ ((act_event step i).spin here)
    intro y holds
    rcases act_others step y with same | ⟨j, asleep, awake⟩
    · exact same ▸ holds
    · rw [awake] at holds
      cases holds

theorem unused_step (inv : Sound i s) (step : act c s.shared (s.points p) = some m)
    (unused : m.shared.used i = false) :
    (∀ q, ((s.after p m).points q).point.uses ≠ some i) ∧ m.shared.ups i = 0 ∧ m.shared.downs i = 0 := by
  have event := act_event step i
  have quiet : s.shared.used i = false → m.point.point.uses ≠ some i →
      ∀ q, ((s.after p m).points q).point.uses ≠ some i := fun before here =>
    forall_point_after step (P := fun x => x.uses ≠ some i) (fun _ => id) here
      fun q _ => (inv.unused before).1 q
  have using_ : (s.points p).point.uses = some i → s.shared.used i ≠ false := fun uses before =>
    (inv.unused before).1 p uses
  generalize here : (s.points p).point = x at event using_
  generalize now : m.point.point = y at event quiet
  generalize after : m.shared = t at event unused ⊢
  cases event with
  | quiet still =>
    rw [still.kept.used] at unused
    rw [still.kept.ups, still.kept.downs]
    refine ⟨quiet unused fun uses => ?_, (inv.unused unused).2⟩
    exact using_ (still.calm.uses uses) unused
  | initCall | initValue | initLocked => exact ⟨quiet unused nofun, (inv.unused unused).2⟩
  | downCall | upCall => simp [Shared.use] at unused
  | sleep | find | take | put | wake => exact absurd unused (using_ rfl)

theorem used_step (inv : Sound i s) (before : BeforeUse s (p, c)) (step : act c s.shared (s.points p) = some m)
    (used : m.shared.used i = true) (q : Pid) : ((s.after p m).points q).point.initialises ≠ some i := by
  have event := act_event step i
  have idle : (s.points p).point.initialises = some i → s.shared.used i = false := fun initialises =>
    (inv.idle_of_initialises initialises).1
  have quiet : (∀ r, (s.points r).point.initialises ≠ some i) → m.point.point.initialises ≠ some i →
      ((s.after p m).points q).point.initialises ≠ some i := fun others here =>
    forall_point_after step (P := fun x => x.initialises ≠ some i) (fun _ _ => nofun) here (fun r _ => others r) q
  generalize here : (s.points p).point = x at event idle
  generalize now : m.point.point = y at event quiet
  generalize after : m.shared = t at event used
  cases event with
  | quiet still => exact quiet (inv.used (still.kept.used.symm.trans used)) still.calm.initialises
  | initCall call found =>
    subst call
    cases (before i found).2.symm.trans used
  | initValue | initLocked => cases (idle rfl).symm.trans used
  | downCall call found | upCall call found =>
    subst call
    exact quiet (before i found).2 nofun
  | sleep | find | take | put | wake => exact quiet (inv.used used) nofun

theorem storing_step (inv : Sound i s) (before : BeforeUse s (p, c)) (step : act c s.shared (s.points p) = some m)
    (q : Pid) (value : Word) (storing : ((s.after p m).points q).point = .initValue i value) : 0 ≤ value.toInt := by
  revert storing
  apply forall_point_after step (P := fun x => x = .initValue i value → 0 ≤ value.toInt) (fun _ _ => nofun)
  · have event := act_event step i
    generalize (s.points p).point = x at event
    generalize m.point.point = y at event
    generalize m.shared = t at event
    rintro rfl
    cases event with
    | quiet still => exact absurd rfl still.calm.initialises
    | initCall call found =>
      subst call
      exact (before i found).1
  · exact fun r _ => inv.storing r value

omit [DecidableEq Pid] in
theorem given_step (inv : Sound i s) (step : act c s.shared (s.points p) = some m) (n : Word)
    (given : m.shared.given i = some n) : 0 ≤ n.toInt := by
  have event := act_event step i
  generalize here : (s.points p).point = x at event
  generalize m.point.point = y at event
  generalize m.shared = t at event given
  cases event with
  | quiet still => exact inv.given n (still.kept.given.symm.trans given)
  | @initValue value =>
    simp only [Function.update_self, Option.some.injEq] at given
    exact given ▸ inv.storing p value here
  | initCall | initLocked | downCall | upCall | sleep | find | take | put | wake => exact inv.given n given

omit [DecidableEq Pid] in
theorem alone (inv : Sound i s) (here : (s.points p).point.holdsSpin = some i) {q : Pid}
    (there : (s.points q).point.holdsSpin = some i) : q = p :=
  inv.spin.one q p there here

theorem units_step (inv : Sound i s) (step : act c s.shared (s.points p) = some m) (q : Pid)
    (takes : ((s.after p m).points q).point.takes = some i) : (m.shared.semaphores i).semValue ≠ 0 := by
  revert takes
  have event := act_event step i
  have alone : (s.points p).point.holdsSpin = some i → ∀ q, q ≠ p → (s.points q).point.takes ≠ some i :=
    fun holds q other takes => other (inv.alone holds (holdsSpin_of_takes takes))
  have idle : (s.points p).point.initialises = some i → ∀ q, (s.points q).point.takes ≠ some i :=
    fun initialises q takes => (inv.idle_of_initialises initialises).2 q (uses_of_holdsSpin (holdsSpin_of_takes takes))
  refine forall_point_after step (P := fun x => x.takes = some i → (m.shared.semaphores i).semValue ≠ 0)
    (fun _ _ => nofun) ?_ (fun q other takes => ?_) q
  · generalize (s.points p).point = x at event
    generalize m.point.point = y at event
    generalize m.shared = t at event
    cases event with
    | quiet still => exact fun takes => absurd takes still.calm.takes
    | find units => exact fun _ => units
    | _ => exact nofun
  · have units := inv.units q takes
    generalize (s.points p).point = x at event alone idle
    generalize m.point.point = y at event
    generalize m.shared = t at event ⊢
    cases event with
    | quiet still => rwa [still.kept.value]
    | initValue => exact absurd takes (idle rfl q)
    | take | put => exact absurd takes (alone rfl q other)
    | initLocked => simpa [Shared.setLocked] using units
    | initCall | downCall | upCall | sleep | find | wake => exact units

theorem keep_attended (inv : Sound i s) (step : act c s.shared (s.points p) = some m)
    (value : (m.shared.semaphores i).semValue = (s.shared.semaphores i).semValue)
    (sleeps : m.point.point.sleeps = some i → (s.points p).point.sleeps = some i)
    (owes : (s.points p).point.owes = some i → m.point.point.owes = some i) :
    (m.shared.semaphores i).semValue = 0 ∨ (∃ q, ((s.after p m).points q).point.owes = some i) ∨
      ∀ q, ((s.after p m).points q).point.sleeps ≠ some i := by
  rw [value]
  rcases inv.attended with empty | ⟨q, owing⟩ | awake
  · exact Or.inl empty
  · refine Or.inr (Or.inl ⟨q, ?_⟩)
    by_cases same : q = p
    · subst same
      rw [after_self]
      exact owes owing
    · rw [after_of_ne s p m same]
      rcases act_others step (s.points q) with still | ⟨j, asleep, -⟩
      · rw [still, owing]
      · rw [asleep] at owing
        cases owing
  · exact Or.inr (Or.inr (forall_point_after step (P := fun x => x.sleeps ≠ some i) (fun _ _ => nofun)
      (fun here => awake p (sleeps here)) fun q _ => awake q))

/-- The wakeup of `sem_up` misses nobody: who has found no units holds a lock that the
waker holds, or is asleep. -/
theorem awake_of_wake (inv : Sound i s) (here : (s.points p).point = .wakeScan i)
    (step : act c s.shared (s.points p) = some m) (q : Pid) :
    ((s.after p m).points q).point.sleeps ≠ some i := by
  rcases act_cases step with ⟨request, ret, -, user, -⟩ | ⟨-, call, others⟩
  · cases here.symm.trans user
  · refine s.forall_after p m (P := fun x => x.point.sleeps ≠ some i) ?_ (fun q other sleeps => ?_) q
    · simp only [here, Shared.access, Option.some.injEq, Prod.mk.injEq] at call
      rw [← call.2]
      simp [Point.sleeps]
    · rw [others, here] at sleeps
      simp only [Point.scan, Proc.wakeup] at sleeps
      split at sleeps
      next asleep =>
        rw [asleep] at sleeps
        cases sleeps
      -- passed over by the scan, yet bound to sleep
      next awake =>
        rcases asleep_of_sleeps sleeps with spin | ptable | asleep
        · exact other (inv.alone (by rw [here]; rfl) spin)
        · exact other (inv.ptable.one q p ptable (by rw [here]; trivial))
        · exact awake asleep

theorem attended_step (inv : Sound i s) (step : act c s.shared (s.points p) = some m) :
    (m.shared.semaphores i).semValue = 0 ∨ (∃ q, ((s.after p m).points q).point.owes = some i) ∨
      ∀ q, ((s.after p m).points q).point.sleeps ≠ some i := by
  have event := act_event step i
  have keep := inv.keep_attended step
  have woken := fun here => inv.awake_of_wake (p := p) here step
  have quiet : (∀ q, (s.points q).point.sleeps ≠ some i) → m.point.point.sleeps ≠ some i →
      ∀ q, ((s.after p m).points q).point.sleeps ≠ some i := fun before here =>
    forall_point_after step (P := fun x => x.sleeps ≠ some i) (fun _ _ => by simp [Point.sleeps]) here fun q _ => before q
  have self := after_self s p m
  generalize here : (s.points p).point = x at event keep woken
  generalize now : m.point.point = y at event keep quiet
  generalize m.shared = t at event keep ⊢
  cases event with
  | quiet still => exact keep still.kept.value still.calm.sleeps still.calm.owes
  | initCall | downCall | upCall | find => exact keep rfl (by simp [Point.sleeps]) (by simp [Point.owes])
  | initLocked => exact keep (by simp [Shared.setLocked]) (by simp [Point.sleeps]) (by simp [Point.owes])
  | initValue =>
    have idle := (inv.idle_of_initialises (p := p) (by rw [here]; rfl)).2
    exact Or.inr (Or.inr (quiet (fun q sleeps => idle q (uses_of_sleeps sleeps)) (by simp [Point.sleeps])))
  | sleep empty => exact Or.inl empty
  | take =>
    -- p takes a unit under the lock, so no other process owes a wakeup at this moment
    have units := inv.units p (by rw [here]; rfl)
    refine Or.inr (Or.inr (quiet ?_ (by simp [Point.sleeps])))
    rcases inv.attended with empty | ⟨q, owing⟩ | awake
    · exact absurd empty units
    · have same := inv.alone (p := p) (by rw [here]; rfl) (holdsSpin_of_owes owing)
      rw [same, here] at owing
      cases owing
    · exact awake
  | put =>
    refine Or.inr (Or.inl ⟨p, ?_⟩)
    rw [self, now]
    rfl
  | wake => exact Or.inr (Or.inr (woken rfl))

omit [DecidableEq Pid] in
theorem counted_step (inv : Sound i s) (step : act c s.shared (s.points p) = some m) (n : Word)
    (given : m.shared.given i = some n) : m.shared.downs i ≤ n.toNat + m.shared.ups i ∧
      (m.shared.semaphores i).semValue = BitVec.ofNat 32 (n.toNat + m.shared.ups i - m.shared.downs i) := by
  have event := act_event step i
  have idle : (s.points p).point.initialises = some i → s.shared.ups i = 0 ∧ s.shared.downs i = 0 :=
    fun initialises => (inv.unused (inv.idle_of_initialises initialises).1).2
  have units := inv.units p
  generalize (s.points p).point = x at event idle units
  generalize m.point.point = y at event
  generalize m.shared = t at event given ⊢
  cases event with
  | quiet still =>
    rw [still.kept.given] at given
    rw [still.kept.ups, still.kept.downs, still.kept.value]
    exact inv.counted n given
  | initCall | downCall | upCall | sleep | find | wake => exact inv.counted n given
  | initLocked => simpa [Shared.setLocked] using inv.counted n given
  | @initValue value =>
    simp only [Function.update_self, Option.some.injEq] at given
    subst given
    have blank := idle rfl
    simp [Shared.setValue, blank.1, blank.2]
  | take =>
    obtain ⟨enough, value⟩ := inv.counted n given
    have more : s.shared.downs i ≠ n.toNat + s.shared.ups i := by
      intro level
      rw [level, Nat.sub_self] at value
      exact units rfl value
    simp only [Shared.setValue, Function.update_self, value]
    refine ⟨by omega, ?_⟩
    have split : n.toNat + s.shared.ups i - s.shared.downs i =
        (n.toNat + s.shared.ups i - (s.shared.downs i + 1)) + 1 := by
      omega
    rw [split, BitVec.ofNat_add]
    simp
  | put =>
    obtain ⟨enough, value⟩ := inv.counted n given
    simp only [Shared.setValue, Function.update_self, value]
    refine ⟨by omega, ?_⟩
    have split : n.toNat + (s.shared.ups i + 1) - s.shared.downs i =
        (n.toNat + s.shared.ups i - s.shared.downs i) + 1 := by
      omega
    rw [split, BitVec.ofNat_add]
    rfl

theorem raising_step (inv : Sound i s) (step : act c s.shared (s.points p) = some m) :
    ∃ n, m.shared.ups i + n ≤ m.shared.calls i ∧ AtMost n (fun x => x.point.raises = some i) (s.after p m) := by
  have others : ∀ y, (m.others y).point.raises = some i → y.point.raises = some i := by
    intro y raises
    rcases act_others step y with same | ⟨j, asleep, awake⟩
    · exact same ▸ raises
    · rw [awake] at raises
      cases raises
  obtain ⟨n, below, few⟩ := inv.raising
  have keep := fun here => few.keep (p := p) others here
  have enter := few.enter (p := p) others
  have leave := few.leave (p := p) others
  have event := act_event step i
  generalize here : (s.points p).point = x at event keep leave
  generalize m.point.point = y at event keep leave
  generalize m.shared = t at event ⊢
  cases event with
  | quiet still =>
    rw [still.kept.ups, still.kept.calls]
    exact ⟨n, below, keep still.calm.raises⟩
  | initCall | initValue | initLocked | downCall | sleep | find | take | wake =>
    exact ⟨n, below, keep (by simp [Point.raises])⟩
  | upCall =>
    refine ⟨n + 1, ?_, enter⟩
    simp only [Shared.use, Function.update_self]
    omega
  | put =>
    obtain ⟨k, same, fewer⟩ := leave rfl (by simp [Point.raises])
    refine ⟨k, ?_, fewer⟩
    simp only [Shared.setValue, Function.update_self]
    omega

theorem step (inv : Sound i s) (before : BeforeUse s (p, c)) (step : act c s.shared (s.points p) = some m) :
    Sound i (s.after p m) where
  ptable := inv.ptable_step step
  spin := inv.spin_step step
  unused := inv.unused_step step
  used := inv.used_step before step
  storing := inv.storing_step before step
  given := inv.given_step step
  units := inv.units_step step
  attended := inv.attended_step step
  counted := inv.counted_step step
  raising := inv.raising_step step

end Sound

omit [DecidableEq Pid] in
theorem sound_boot (semaphores : Index → Cell) (pid : Pid → Word) (i : Index) : Sound i (boot semaphores pid) where
  ptable := ⟨fun p q held => (by cases held), fun p held => (by cases held)⟩
  spin := ⟨fun p q held => (by cases held), fun p held => (by cases held)⟩
  unused _ := ⟨fun _ => nofun, rfl, rfl⟩
  used used := by cases used
  storing q value here := by cases here
  given n given := by cases given
  units q takes := by cases takes
  attended := Or.inr (Or.inr fun _ => nofun)
  counted n given := by cases given
  raising := ⟨0, Nat.le_refl 0, ∅, fun p raises => (by cases raises), Nat.le_refl 0⟩

theorem sound_of_run {semaphores : Index → Cell} {pid : Pid → Word} {ls : List (Pid × Choice)}
    (disciplined : Machine.EveryStep (Threads.step act) BeforeUse (boot semaphores pid) ls)
    (reached : Machine.run (Threads.step act) (boot semaphores pid) ls = some s) (i : Index) : Sound i s :=
  Threads.invariant_of_everyStep (I := Sound i) (fun _ _ _ _ inv before call => inv.step before call)
    (sound_boot semaphores pid i) disciplined reached

end Step

/-! ## Results -/

theorem toInt_of_nonneg {n : Word} (positive : 0 ≤ n.toInt) : n.toInt = n.toNat := by
  rw [BitVec.toInt_eq_toNat_cond] at *
  have below := n.isLt
  split at positive
  next small => rw [if_pos small]
  next => omega

theorem toInt_ofNat_of_lt {k : Nat} (small : k < 2 ^ 31) : (BitVec.ofNat 32 k).toInt = k := by
  rw [BitVec.toInt_eq_toNat_of_lt] <;> rw [BitVec.toNat_ofNat, Nat.mod_eq_of_lt (by omega)]
  omega

def exchange : List (Bool × Choice) :=
  let go (p : Bool) (n : Nat) : List (Bool × Choice) := List.replicate n (p, .go)
  (false, .call (.semInit 0 1)) :: go false 2 ++ (false, .call (.semDown 0)) :: go false 4 ++
    (true, .call (.semDown 0)) :: go true 6 ++ (false, .call (.semUp 0)) :: go false 6

def fresh : Threads Bool Shared Proc := boot (fun _ => ⟨0, false⟩) fun p => if p then 4 else 3

theorem exchange_disciplined : Machine.EveryStep (Threads.step act) BeforeUse fresh exchange := by
  have checked : Machine.checkRun (Threads.step act) (fun s l => decide (BeforeUse s l)) fresh exchange = true := by
    decide +kernel
  exact Machine.everyStep_of_checkRun (fun _ _ => of_decide_eq_true) checked

theorem exchange_final : ∃ s, Machine.run (Threads.step act) fresh exchange = some s ∧
    (s.shared.semaphores 0).locked = false ∧ (s.shared.semaphores 0).semValue = 1 ∧ s.shared.given 0 = some 1 ∧
    s.shared.calls 0 = 1 ∧ s.shared.ups 0 = 1 ∧ s.shared.downs 0 = 1 ∧ (s.points true).point = .woken 0 := by
  have facts : (Machine.run (Threads.step act) fresh exchange).any (fun s =>
      decide ((s.shared.semaphores 0).locked = false ∧ (s.shared.semaphores 0).semValue = 1 ∧ s.shared.given 0 = some 1 ∧
        s.shared.calls 0 = 1 ∧ s.shared.ups 0 = 1 ∧ s.shared.downs 0 = 1 ∧ (s.points true).point = .woken 0)) = true := by
    decide +kernel
  obtain ⟨s, reached, final⟩ := (Option.any_eq_true _ _).mp facts
  exact ⟨s, reached, of_decide_eq_true final⟩

section Results

variable {semaphores : Index → Cell} {pid : Pid → Word} {ls : List (Pid × Choice)} {s : Threads Pid Shared Proc}

/-- Beside a free spinlock and a unit nobody is SLEEPING on the semaphore, or inside
`cv_sleep` about to be. -/
theorem no_sleeper_beside_units
    (disciplined : Machine.EveryStep (Threads.step act) BeforeUse (boot semaphores pid) ls)
    (reached : Machine.run (Threads.step act) (boot semaphores pid) ls = some s) (i : Index)
    (free : (s.shared.semaphores i).locked = false) (units : 0 < (s.shared.semaphores i).semValue.toInt) (p : Pid) :
    (s.points p).point ≠ .doze i ∧ (s.points p).point ≠ .resting i ∧ (s.points p).point ≠ .asleep i := by
  have inv := sound_of_run disciplined reached i
  have awake : (s.points p).point.sleeps ≠ some i := by
    rcases inv.attended with empty | ⟨q, owing⟩ | awake
    · rw [empty] at units
      cases units
    · cases (inv.spin.locked q (holdsSpin_of_owes owing)).symm.trans free
    · exact awake p
  refine ⟨fun here => ?_, fun here => ?_, fun here => ?_⟩ <;> exact awake (by rw [here]; rfl)

theorem no_sleeper_beside_units_exchange : ∃ s, Machine.run (Threads.step act) fresh exchange = some s ∧
    (s.shared.semaphores 0).semValue = 1 ∧ (s.points true).point = .woken 0 ∧
    (s.points true).point ≠ .doze 0 ∧ (s.points true).point ≠ .resting 0 ∧ (s.points true).point ≠ .asleep 0 := by
  obtain ⟨s, reached, free, value, -, -, -, -, woken⟩ := exchange_final
  exact ⟨s, reached, value, woken,
    no_sleeper_beside_units exchange_disciplined reached 0 free (by rw [value]; decide) true⟩

/-- The value is what the semaphore was given and the updates since make it, and one
process at a time is between taking the spinlock and giving it back. -/
theorem conserved (disciplined : Machine.EveryStep (Threads.step act) BeforeUse (boot semaphores pid) ls)
    (reached : Machine.run (Threads.step act) (boot semaphores pid) ls = some s) (i : Index) {n : Word}
    (given : s.shared.given i = some n) (few : s.shared.calls i < 2 ^ 31 - n.toInt) :
    (s.shared.semaphores i).semValue.toInt = n.toInt + s.shared.ups i - s.shared.downs i ∧
      0 ≤ (s.shared.semaphores i).semValue.toInt ∧ AtMostOne (fun x : Proc => x.point.holdsSpin = some i) s := by
  have inv := sound_of_run disciplined reached i
  have start := toInt_of_nonneg (inv.given n given)
  obtain ⟨enough, value⟩ := inv.counted n given
  obtain ⟨raisers, below, -⟩ := inv.raising
  have now : (s.shared.semaphores i).semValue.toInt = ((n.toNat + s.shared.ups i - s.shared.downs i : Nat) : Int) := by
    rw [value]
    exact toInt_ofNat_of_lt (by omega)
  exact ⟨by omega, by omega, inv.spin.one⟩

theorem conserved_exchange : ∃ s, Machine.run (Threads.step act) fresh exchange = some s ∧
    (s.shared.semaphores 0).semValue.toInt = (1 : Word).toInt + (1 : Nat) - (1 : Nat) ∧
    0 ≤ (s.shared.semaphores 0).semValue.toInt ∧ AtMostOne (fun x : Proc => x.point.holdsSpin = some 0) s := by
  obtain ⟨s, reached, -, -, given, calls, ups, downs, -⟩ := exchange_final
  have final := conserved exchange_disciplined reached 0 given (by rw [calls]; decide)
  rw [ups, downs] at final
  exact ⟨s, reached, final⟩

end Results

end OsLabs.Semaphore
