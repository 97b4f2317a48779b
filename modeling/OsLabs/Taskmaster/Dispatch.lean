import OsLabs.Taskmaster.Interleaved

/-! Who may claim and who may fill a slot when every access interleaves. The check of
a status and the write that follows it are two steps; runs in which no second process
checks in between are at most once. -/

set_option autoImplicit false

namespace OsLabs.Taskmaster

open OsLabs.Lib

/-- The slot a `do_task` call has found free in its last loop, until it returns. -/
def Point.fills : Point → Option Slot
  | .putStatus _ i | .putTaskId _ i | .putArg1 _ i | .putArg2 _ i | .putFptr _ i => some i
  | .wakeLock (.doTask stored) | .wakeScan (.doTask stored) | .wakeUnlock (.doTask stored) => stored
  | _ => none

def Point.chooses : Point → Option Slot
  | .putStatus _ i => some i
  | _ => none

def Point.claims : Point → Option Slot
  | .claim i _ => some i
  | _ => none

@[simp] theorem fills_wake (x : Point) : x.wake.fills = x.fills := by cases x <;> rfl
@[simp] theorem chooses_wake (x : Point) : x.wake.chooses = x.chooses := by cases x <;> rfl
@[simp] theorem claims_wake (x : Point) : x.wake.claims = x.claims := by cases x <;> rfl

inductive Dispatching (s : Shared) : Point → Move Shared Point → Prop where
  | quiet {x : Point} {m : Move Shared Point} : (∀ i, (m.shared.tasks i).status = (s.tasks i).status) →
      m.shared.issues = s.issues → m.shared.claims = s.claims → m.shared.accepted = s.accepted →
      m.point.fills = x.fills → m.point.chooses = x.chooses → m.point.claims = x.claims → Dispatching s x m
  | choose {issue : Issue} {i : Slot} : (s.tasks i).status = .free →
      Dispatching s (.storeStatus issue i) ⟨s, .putStatus issue i, id⟩
  | fill {issue : Issue} {i : Slot} : Dispatching s (.putStatus issue i)
      ⟨{ s.write i ({ · with status := .pending }) with issues := Function.update s.issues i (s.issues i + 1) },
        .putTaskId issue i, id⟩
  | accept {i : Slot} : Dispatching s (.wakeUnlock (.doTask (some i)))
      ⟨{ s with ptable := false, accepted := i :: s.accepted }, .user 1 none, id⟩
  | see {i : Slot} : (s.tasks i).status = .pending →
      Dispatching s (.waitStatus i) ⟨s, .claim i (s.issues i), id⟩
  | claim {i : Slot} {n : Nat} : Dispatching s (.claim i n)
      ⟨{ s.write i ({ · with status := .allocated }) with claims := (i, n) :: s.claims }, .takeArg2 i, id⟩
  | complete {taskId result : Word} {i : Slot} : Dispatching s (.retStatus taskId result i)
      ⟨s.write i ({ · with status := .completed }), .retResult taskId result i, id⟩

theorem write_status (s : Shared) (i : Slot) (f : Task → Task) (j : Slot) :
    ((s.write i f).tasks j).status = if j = i then (f (s.tasks i)).status else (s.tasks j).status := by
  rw [Shared.write_tasks]
  split <;> rfl

theorem status_write {s : Shared} {i : Slot} {f : Task → Task} (kept : ∀ t : Task, (f t).status = t.status) (j : Slot) :
    ((s.write i f).tasks j).status = (s.tasks j).status :=
  s.write_view i (fun t => t.status) kept j

theorem Dispatching.of_tasks {s : Shared} {x : Point} {m : Move Shared Point} (tasks : m.shared.tasks = s.tasks)
    (issues : m.shared.issues = s.issues) (claims : m.shared.claims = s.claims)
    (accepted : m.shared.accepted = s.accepted) (fills : m.point.fills = x.fills)
    (chooses : m.point.chooses = x.chooses) (claims_ : m.point.claims = x.claims) : Dispatching s x m :=
  .quiet (fun _ => by rw [tasks]) issues claims accepted fills chooses claims_

theorem Dispatching.of_loop {s : Shared} {x past : Point} {i : Slot} {round : Slot → Point}
    (fills : ∀ j, (round j).fills = x.fills) (chooses : ∀ j, (round j).chooses = x.chooses)
    (claims : ∀ j, (round j).claims = x.claims) (fills_past : past.fills = x.fills)
    (chooses_past : past.chooses = x.chooses) (claims_past : past.claims = x.claims) :
    Dispatching s x ⟨s, i.loop round past, id⟩ :=
  .of_tasks rfl rfl rfl rfl (i.loop_view _ fills fills_past) (i.loop_view _ chooses chooses_past)
    (i.loop_view _ claims claims_past)

theorem access_dispatching {s : Shared} {x : Point} {m : Move Shared Point} (call : s.access x = some m) :
    Dispatching s x m := by
  cases x <;> simp only [Shared.access, Shared.go] at call
  case putStatus issue i => cases call; exact .fill
  case claim i n => cases call; exact .claim
  case retStatus taskId result i => cases call; exact .complete
  case storeStatus issue i =>
    split at call <;> cases call
    next free => exact .choose free
    next => exact .of_loop (fun _ => rfl) (fun _ => rfl) (fun _ => rfl) rfl rfl rfl
  case waitStatus i =>
    split at call <;> cases call
    next pending => exact .see pending
    next => exact .of_loop (fun _ => rfl) (fun _ => rfl) (fun _ => rfl) rfl rfl rfl
  case wakeUnlock w =>
    cases w with
    | doTask stored =>
      cases stored with
      | none => cases call; exact .of_tasks rfl rfl rfl rfl rfl rfl rfl
      | some i => cases call; exact .accept
    | taskRet taskId i => cases call; exact .of_tasks rfl rfl rfl rfl rfl rfl rfl
  case wakeScan w => cases call; cases w <;> exact .of_tasks rfl rfl rfl rfl rfl rfl rfl
  case unlock z => cases call; cases z <;> exact .of_tasks rfl rfl rfl rfl rfl rfl rfl
  case putTaskId | putArg1 | putArg2 | putFptr | retResult =>
    cases call
    refine .quiet (fun j => ?_) rfl rfl rfl rfl rfl rfl
    dsimp only
    apply status_write
    exact fun _ => rfl
  case findFree | usedStatus | existsId | retId =>
    split at call <;> cases call
    · exact .of_tasks rfl rfl rfl rfl rfl rfl rfl
    · exact .of_loop (fun _ => rfl) (fun _ => rfl) (fun _ => rfl) rfl rfl rfl
  case usedId =>
    split at call
    · split at call <;> cases call <;> exact .of_tasks rfl rfl rfl rfl rfl rfl rfl
    · cases call
      exact .of_loop (fun _ => rfl) (fun _ => rfl) (fun _ => rfl) rfl rfl rfl
  case wakeLock w =>
    split at call <;> cases call
    cases w <;> exact .of_tasks rfl rfl rfl rfl rfl rfl rfl
  case lock | sleepLock | woken | relock =>
    split at call <;> cases call
    exact .of_tasks rfl rfl rfl rfl rfl rfl rfl
  case completeId | completeStatus =>
    split at call <;> cases call <;> exact .of_tasks rfl rfl rfl rfl rfl rfl rfl
  case user | asleep => cases call
  all_goals
    cases call
    exact .of_tasks rfl rfl rfl rfl rfl rfl rfl

theorem act_dispatching {c : Choice} {s : Shared} {x : Point} {m : Move Shared Point}
    (call : Shared.act c s x = some m) : Dispatching s x m := by
  cases c with
  | call request =>
    cases x with
    | user ret task =>
      cases request <;> cases call <;> exact .of_tasks rfl rfl rfl rfl rfl rfl rfl
    | _ => cases call
  | go => exact access_dispatching call

/-! ## The invariant -/

section Invariant

variable {Pid : Type*} [DecidableEq Pid] {s : Threads Pid Shared Point} {p : Pid} {m : Move Shared Point}

structure Dispatched (s : Threads Pid Shared Point) : Prop where
  filling : s.CarriedOnce Point.fills s.shared.accepted
  claiming : s.CarriedOnce Point.claims (s.shared.claims.map Prod.fst)
  fresh : ∀ i p, (s.points p).chooses = some i → s.shared.issues i = 0
  filled : ∀ i p, (s.points p).fills = some i → (s.points p).chooses = none → s.shared.issues i ≠ 0
  accepted : ∀ i ∈ s.shared.accepted, s.shared.issues i ≠ 0
  pending : ∀ i, (s.shared.tasks i).status = .pending → s.shared.issues i ≠ 0
  seen : ∀ i p, (s.points p).claims = some i → s.shared.issues i ≠ 0
  claimed : ∀ i ∈ s.shared.claims.map Prod.fst, s.shared.issues i ≠ 0 ∧
    ((s.shared.tasks i).status = .allocated ∨ (s.shared.tasks i).status = .completed)
  taken : ∀ i, s.shared.issues i ≠ 0 → (s.shared.tasks i).status ≠ .free

/-- The step opens no race: it finds no slot pending, or free, that another process has
found so and not yet marked. -/
def Unraced (s : Threads Pid Shared Point) (l : Pid × Choice) : Prop :=
  (∀ i, s.points l.1 = .waitStatus i → (s.shared.tasks i).status = .pending → ∀ q, (s.points q).claims ≠ some i) ∧
  ∀ issue i, s.points l.1 = .storeStatus issue i → (s.shared.tasks i).status = .free →
    ∀ q, (s.points q).chooses ≠ some i

theorem fills_of_chooses {x : Point} {i : Slot} (chooses : x.chooses = some i) : x.fills = some i := by
  cases x with
  | putStatus issue j => exact chooses
  | _ => cases chooses

section Others

variable (others : m.others = id ∨ m.others = Point.wake) (x : Point)
include others

theorem fills_others : (m.others x).fills = x.fills := by rcases others with same | same <;> simp [same]
theorem chooses_others : (m.others x).chooses = x.chooses := by rcases others with same | same <;> simp [same]
theorem claims_others : (m.others x).claims = x.claims := by rcases others with same | same <;> simp [same]

end Others

namespace Dispatched

theorem quiet (inv : Dispatched s) (others : m.others = id ∨ m.others = Point.wake)
    (statuses : ∀ i, (m.shared.tasks i).status = (s.shared.tasks i).status)
    (issues : m.shared.issues = s.shared.issues) (claims : m.shared.claims = s.shared.claims)
    (accepted : m.shared.accepted = s.shared.accepted) (fills : m.point.fills = (s.points p).fills)
    (chooses : m.point.chooses = (s.points p).chooses) (claims_ : m.point.claims = (s.points p).claims) :
    Dispatched (s.after p m) := by
  -- the roles of all processes are what they were, those of p included
  have fills_all := s.view_after_of_eq p m (fills_others others) fills
  have chooses_all := s.view_after_of_eq p m (chooses_others others) chooses
  have claims_all := s.view_after_of_eq p m (claims_others others) claims_
  refine ⟨?_, ?_, ?_, ?_, ?_, ?_, ?_, ?_, ?_⟩ <;> simp only [Threads.after_shared, issues, claims, accepted, statuses]
  · exact inv.filling.keep (fills_others others) fun k held => fills ▸ held
  · exact inv.claiming.keep (claims_others others) fun k held => claims_ ▸ held
  · simp only [chooses_all]
    exact inv.fresh
  · simp only [fills_all, chooses_all]
    exact inv.filled
  · exact inv.accepted
  · exact inv.pending
  · simp only [claims_all]
    exact inv.seen
  · exact inv.claimed
  · exact inv.taken

section Moves

variable (inv : Dispatched s) {issue : Issue} {i : Slot} {n : Nat}
include inv

omit [DecidableEq Pid] in
theorem not_filling (unissued : s.shared.issues i = 0) (alone : ∀ q, (s.points q).chooses ≠ some i) (q : Pid) :
    (s.points q).fills ≠ some i := by
  intro held
  cases choosing : (s.points q).chooses with
  | none => exact inv.filled i q held choosing unissued
  | some j =>
    rw [fills_of_chooses choosing, Option.some.injEq] at held
    exact alone q (held ▸ choosing)

theorem choose (free : (s.shared.tasks i).status = .free)
    (alone : ∀ q, (s.points q).chooses ≠ some i) : Dispatched (s.after p ⟨s.shared, .putStatus issue i, id⟩) := by
  have unissued : s.shared.issues i = 0 := by
    by_contra issued
    exact inv.taken i issued free
  refine
    { filling := inv.filling.take (fun _ => rfl) rfl (fun member => inv.accepted i member unissued)
        fun q _ => inv.not_filling unissued alone q
      claiming := inv.claiming.keep (fun _ => rfl) fun k held => by cases held
      fresh := fun j => s.forall_after p _ (P := fun x => x.chooses = some j → s.shared.issues j = 0) ?_
        fun q _ => inv.fresh j q
      filled := fun j => s.forall_after p _ (P := fun x => x.fills = some j → x.chooses = none → s.shared.issues j ≠ 0)
        (fun _ chooses => by cases chooses) fun q _ => inv.filled j q
      accepted := inv.accepted
      pending := inv.pending
      seen := fun j => s.forall_after p _ (P := fun x => x.claims = some j → s.shared.issues j ≠ 0)
        (fun claims => by cases claims) fun q _ => inv.seen j q
      claimed := inv.claimed
      taken := inv.taken }
  intro chooses
  cases chooses
  exact unissued

theorem see (pending : (s.shared.tasks i).status = .pending)
    (alone : ∀ q, (s.points q).claims ≠ some i) :
    Dispatched (s.after p ⟨s.shared, .claim i (s.shared.issues i), id⟩) := by
  -- a claimed slot is allocated or completed, and never pending again
  have unclaimed : i ∉ s.shared.claims.map Prod.fst := by
    intro member
    rcases (inv.claimed i member).2 with status | status <;>
    · rw [pending] at status
      cases status
  refine
    { filling := inv.filling.keep (fun _ => rfl) fun k held => by cases held
      claiming := inv.claiming.take (fun _ => rfl) rfl unclaimed fun q _ => alone q
      fresh := fun j => s.forall_after p _ (P := fun x => x.chooses = some j → s.shared.issues j = 0)
        (fun chooses => by cases chooses) fun q _ => inv.fresh j q
      filled := fun j => s.forall_after p _ (P := fun x => x.fills = some j → x.chooses = none → s.shared.issues j ≠ 0)
        (fun fills => by cases fills) fun q _ => inv.filled j q
      accepted := inv.accepted
      pending := inv.pending
      seen := fun j => s.forall_after p _ (P := fun x => x.claims = some j → s.shared.issues j ≠ 0) ?_
        fun q _ => inv.seen j q
      claimed := inv.claimed
      taken := inv.taken }
  intro claims
  cases claims
  exact inv.pending i pending

theorem accept (here : s.points p = .wakeUnlock (.doTask (some i))) :
    Dispatched (s.after p ⟨{ s.shared with ptable := false, accepted := i :: s.shared.accepted }, .user 1 none, id⟩) where
  filling := inv.filling.record (fun _ => rfl) (by rw [here]; rfl) rfl
  claiming := inv.claiming.keep (fun _ => rfl) fun k held => by cases held
  fresh j := s.forall_after p _ (P := fun x => x.chooses = some j → s.shared.issues j = 0)
    (fun chooses => by cases chooses) fun q _ => inv.fresh j q
  filled j := s.forall_after p _ (P := fun x => x.fills = some j → x.chooses = none → s.shared.issues j ≠ 0)
    (fun fills => by cases fills) fun q _ => inv.filled j q
  accepted j member := by
    rcases List.mem_cons.mp member with rfl | old
    · exact inv.filled j p (by rw [here]; rfl) (by rw [here]; rfl)
    · exact inv.accepted j old
  pending := inv.pending
  seen j := s.forall_after p _ (P := fun x => x.claims = some j → s.shared.issues j ≠ 0)
    (fun claims => by cases claims) fun q _ => inv.seen j q
  claimed := inv.claimed
  taken := inv.taken

theorem fill (here : s.points p = .putStatus issue i) {shared : Shared}
    (statuses : ∀ j, (shared.tasks j).status = if j = i then .pending else (s.shared.tasks j).status)
    (issues : shared.issues = Function.update s.shared.issues i (s.shared.issues i + 1))
    (claims : shared.claims = s.shared.claims) (accepted : shared.accepted = s.shared.accepted) :
    Dispatched (s.after p ⟨shared, .putTaskId issue i, id⟩) := by
  have unissued : s.shared.issues i = 0 := inv.fresh i p (by rw [here]; rfl)
  -- choosing is the first part of filling, which at most one process does
  have alone : ∀ q, q ≠ p → (s.points q).chooses ≠ some i := fun q other chooses =>
    other (inv.filling.one i q p (fills_of_chooses chooses) (by rw [here]; rfl))
  have kept : ∀ j, j ≠ i → shared.issues j = s.shared.issues j := fun j other => by
    rw [issues, Function.update_of_ne other]
  -- a count of issues only grows, so what is issued stays issued
  have grown : ∀ j, s.shared.issues j ≠ 0 → shared.issues j ≠ 0 := by
    intro j issued
    by_cases same : j = i
    · exact absurd (same ▸ unissued) issued
    · rwa [kept j same]
  have now : shared.issues i ≠ 0 := by simp [issues]
  refine
    { filling := accepted ▸ inv.filling.keep (fun _ => rfl) fun k held => by rw [here]; exact held
      claiming := ?_
      fresh := fun j q chooses => ?_
      filled := fun j => s.forall_after p _
        (P := fun x => x.fills = some j → x.chooses = none → shared.issues j ≠ 0)
        (fun fills _ => by cases fills; exact now) fun q _ fills choosing => grown j (inv.filled j q fills choosing)
      accepted := fun j member => grown j (inv.accepted j (accepted ▸ member))
      pending := fun j pending => ?_
      seen := fun j => s.forall_after p _ (P := fun x => x.claims = some j → shared.issues j ≠ 0)
        (fun claims => by cases claims) fun q _ claims => grown j (inv.seen j q claims)
      claimed := fun j member => ?_
      taken := fun j issued => ?_ }
  · rw [Threads.after_shared, claims]
    exact inv.claiming.keep (fun _ => rfl) fun k held => by cases held
  · by_cases same : q = p
    · rw [same, Threads.after_self] at chooses
      cases chooses
    · rw [Threads.after_of_ne _ _ _ same] at chooses
      have apart : j ≠ i := fun equal => alone q same (equal ▸ chooses)
      exact (kept j apart).trans (inv.fresh j q chooses)
  · by_cases same : j = i
    · exact same ▸ now
    · rw [Threads.after_shared, statuses, if_neg same] at pending
      exact grown j (inv.pending j pending)
  · rw [Threads.after_shared, claims] at member
    obtain ⟨issued, status⟩ := inv.claimed j member
    have apart : j ≠ i := fun same => issued (same ▸ unissued)
    rw [Threads.after_shared, statuses, if_neg apart]
    exact ⟨grown j issued, status⟩
  · rw [Threads.after_shared, statuses]
    split
    · exact TaskStatus.noConfusion
    next other =>
      rw [Threads.after_shared, kept j other] at issued
      exact inv.taken j issued

theorem mark {shared : Shared} {x : Point} {v : TaskStatus} (marked : v = .allocated ∨ v = .completed)
    (statuses : ∀ j, (shared.tasks j).status = if j = i then v else (s.shared.tasks j).status)
    (issues : shared.issues = s.shared.issues) (accepted : shared.accepted = s.shared.accepted)
    (fills : x.fills = none) (chooses : x.chooses = none) (claims : x.claims = none)
    (claiming : (s.after p ⟨shared, x, id⟩).CarriedOnce Point.claims (shared.claims.map Prod.fst))
    (known : ∀ j ∈ shared.claims.map Prod.fst, (j = i ∧ s.shared.issues i ≠ 0) ∨ j ∈ s.shared.claims.map Prod.fst) :
    Dispatched (s.after p ⟨shared, x, id⟩) := by
  refine
    { filling := accepted ▸ inv.filling.keep (fun _ => rfl) fun k held => by rw [fills] at held; cases held
      claiming := claiming
      fresh := fun j => s.forall_after p _ (P := fun x => x.chooses = some j → shared.issues j = 0)
        (fun held => by rw [chooses] at held; cases held) fun q _ => issues ▸ inv.fresh j q
      filled := fun j => s.forall_after p _ (P := fun x => x.fills = some j → x.chooses = none → shared.issues j ≠ 0)
        (fun held => by rw [fills] at held; cases held) fun q _ => issues ▸ inv.filled j q
      accepted := fun j member => issues ▸ inv.accepted j (accepted ▸ member)
      pending := fun j pending => ?_
      seen := fun j => s.forall_after p _ (P := fun x => x.claims = some j → shared.issues j ≠ 0)
        (fun held => by rw [claims] at held; cases held) fun q _ => issues ▸ inv.seen j q
      claimed := fun j member => ?_
      taken := fun j issued => ?_ } <;> simp only [Threads.after_shared, statuses, issues] at *
  · split at pending
    · rcases marked with rfl | rfl <;> cases pending
    · exact inv.pending j pending
  · rcases known j member with ⟨rfl, issued⟩ | old
    · rw [if_pos rfl]
      exact ⟨issued, marked⟩
    · obtain ⟨issued, status⟩ := inv.claimed j old
      split
      · exact ⟨issued, marked⟩
      · exact ⟨issued, status⟩
  · split
    · rcases marked with rfl | rfl <;> exact TaskStatus.noConfusion
    · exact inv.taken j issued

theorem claim (here : s.points p = .claim i n) {shared : Shared}
    (statuses : ∀ j, (shared.tasks j).status = if j = i then .allocated else (s.shared.tasks j).status)
    (issues : shared.issues = s.shared.issues) (claims : shared.claims = (i, n) :: s.shared.claims)
    (accepted : shared.accepted = s.shared.accepted) : Dispatched (s.after p ⟨shared, .takeArg2 i, id⟩) := by
  apply inv.mark (Or.inl rfl) statuses issues accepted rfl rfl rfl
  · rw [claims]
    exact inv.claiming.record (fun _ => rfl) (by rw [here]; rfl) rfl
  · intro j member
    rw [claims] at member
    rcases List.mem_cons.mp member with same | old
    · exact Or.inl ⟨same, inv.seen i p (by rw [here]; rfl)⟩
    · exact Or.inr old

theorem complete {taskId result : Word} {shared : Shared}
    (statuses : ∀ j, (shared.tasks j).status = if j = i then .completed else (s.shared.tasks j).status)
    (issues : shared.issues = s.shared.issues) (claims : shared.claims = s.shared.claims)
    (accepted : shared.accepted = s.shared.accepted) :
    Dispatched (s.after p ⟨shared, .retResult taskId result i, id⟩) := by
  apply inv.mark (Or.inr rfl) statuses issues accepted rfl rfl rfl
  · rw [claims]
    exact inv.claiming.keep (fun _ => rfl) fun k held => by cases held
  · intro j member
    exact Or.inr (claims ▸ member)

end Moves

theorem step (inv : Dispatched s) {c : Choice} (unraced : Unraced s (p, c))
    (call : Shared.act c s.shared (s.points p) = some m) : Dispatched (s.after p m) := by
  have others := Shared.act_others call
  have move := act_dispatching call
  -- only a choice and a sight can open a race: the other cases do not use unraced
  generalize here : s.points p = x at move
  cases move with
  | quiet statuses issues claims accepted fills chooses claims_ =>
    subst here
    exact inv.quiet others statuses issues claims accepted fills chooses claims_
  | choose free => exact inv.choose free (unraced.2 _ _ here free)
  | @fill issue i => exact inv.fill here (write_status s.shared i ({ · with status := .pending })) rfl rfl rfl
  | accept => exact inv.accept here
  | see pending => exact inv.see pending (unraced.1 _ here pending)
  | @claim i n => exact inv.claim here (write_status s.shared i ({ · with status := .allocated })) rfl rfl rfl
  | @complete taskId result i => exact inv.complete (write_status s.shared i ({ · with status := .completed })) rfl rfl rfl

end Dispatched

omit [DecidableEq Pid] in
theorem dispatched_initialised (tasks : Table) : Dispatched (initialised Pid tasks) where
  filling := ⟨fun k p q held => (by cases held), fun k member => (by cases member), List.nodup_nil⟩
  claiming := ⟨fun k p q held => (by cases held), fun k member => (by cases member), List.nodup_nil⟩
  fresh i p _ := rfl
  filled i p held := by cases held
  accepted i member := by cases member
  pending i status := by cases status
  seen i p held := by cases held
  claimed i member := by cases member
  taken i issued := absurd rfl issued

/-- No two `wait_for_task` calls have claimed the same issue of a slot, and no two
`do_task` calls that returned 1 have filled the same slot. -/
def AtMostOnce (s : Threads Pid Shared Point) : Prop := s.shared.claims.Nodup ∧ s.shared.accepted.Nodup

/-- Along every run whose steps open no race dispatch is at most once. -/
theorem atMostOnce_of_unraced {tasks : Table} {ls : List (Pid × Choice)} {s : Threads Pid Shared Point}
    (unraced : Machine.EveryStep (Threads.step Shared.act) Unraced (initialised Pid tasks) ls)
    (reached : Machine.run (Threads.step Shared.act) (initialised Pid tasks) ls = some s) : AtMostOnce s := by
  have inv : Dispatched s := Threads.invariant_of_everyStep (I := Dispatched)
    (fun _ _ _ _ inv unraced call => inv.step unraced call)
    (dispatched_initialised tasks) unraced reached
  exact ⟨List.Nodup.of_map Prod.fst inv.claiming.once, inv.filling.once⟩

end Invariant

/-! ## Runs -/

def Task.zero : Task where
  fptr := 0
  taskId := 0
  arg1 := 0
  arg2 := 0
  status := .free
  result := 0

def accesses {Pid : Type*} (p : Pid) (n : Nat) : List (Pid × Choice) := List.replicate n (p, .go)

def turns (n : Nat) : List (Bool × Choice) := (List.replicate n [(false, .go), (true, .go)]).flatten

/-- Two processes issue a task each, the stores of one between those of the other, and take them up. -/
def twoServed : List (Bool × Choice) :=
  (false, .call (.doTask ⟨64, 5, 3, 4⟩)) :: accesses false 104 ++ (true, .call (.doTask ⟨64, 6, 3, 4⟩)) ::
    accesses true 104 ++ turns 6 ++ accesses true 3 ++
    (false, .call .waitForTask) :: accesses false 2 ++ (true, .call .waitForTask) :: turns 4 ++ accesses true 3

def checkUnraced (s : Threads Bool Shared Point) (l : Bool × Choice) : Bool :=
  match s.points l.1 with
  | .waitStatus i => decide ((s.shared.tasks i).status = .pending → ∀ q, (s.points q).claims ≠ some i)
  | .storeStatus _ i => decide ((s.shared.tasks i).status = .free → ∀ q, (s.points q).chooses ≠ some i)
  | _ => true

theorem unraced_of_check {s : Threads Bool Shared Point} {l : Bool × Choice} (checked : checkUnraced s l = true) :
    Unraced s l := by
  constructor
  · intro i here
    rw [checkUnraced, here] at checked
    exact of_decide_eq_true checked
  · intro issue i here
    rw [checkUnraced, here] at checked
    exact of_decide_eq_true checked

theorem atMostOnce_twoServed :
    ∃ s, Machine.run (Threads.step Shared.act) (initialised Bool fun _ => .zero) twoServed = some s ∧
      s.shared.claims = [(1, 1), (0, 1)] ∧ s.shared.accepted = [1, 0] ∧ AtMostOnce s := by
  have facts : (Machine.run (Threads.step Shared.act) (initialised Bool fun _ => .zero) twoServed).any
      (fun s => decide (s.shared.claims = [(1, 1), (0, 1)] ∧ s.shared.accepted = [1, 0])) = true := by decide +kernel
  obtain ⟨s, reached, final⟩ := (Option.any_eq_true _ _).mp facts
  obtain ⟨claims, accepted⟩ := of_decide_eq_true final
  have checked : Machine.checkRun (Threads.step Shared.act) checkUnraced (initialised Bool fun _ => .zero) twoServed =
      true := by
    decide +kernel
  have unraced := Machine.everyStep_of_checkRun (fun _ _ => unraced_of_check) checked
  exact ⟨s, reached, claims, accepted, atMostOnce_of_unraced unraced reached⟩

/-- Two masters find the same slot free before either fills it, and two workers find
it pending before either claims it. -/
def race : List (Bool × Choice) :=
  (false, .call (.doTask ⟨64, 5, 3, 4⟩)) :: (true, .call (.doTask ⟨64, 6, 3, 4⟩)) ::
    accesses false 102 ++ accesses true 102 ++ accesses false 8 ++ accesses true 8 ++
    (false, .call .waitForTask) :: (true, .call .waitForTask) ::
    accesses false 1 ++ accesses true 1 ++ accesses false 1 ++ accesses true 1

theorem not_atMostOnce_race :
    ∃ s, Machine.run (Threads.step Shared.act) (initialised Bool fun _ => .zero) race = some s ∧
      s.shared.claims = [(0, 2), (0, 2)] ∧ s.shared.accepted = [0, 0] ∧ ¬AtMostOnce s := by
  have facts : (Machine.run (Threads.step Shared.act) (initialised Bool fun _ => .zero) race).any
      (fun s => decide (s.shared.claims = [(0, 2), (0, 2)] ∧ s.shared.accepted = [0, 0])) = true := by decide +kernel
  obtain ⟨s, reached, final⟩ := (Option.any_eq_true _ _).mp facts
  obtain ⟨claims, accepted⟩ := of_decide_eq_true final
  refine ⟨s, reached, claims, accepted, fun once => ?_⟩
  have distinct := once.1
  rw [claims] at distinct
  exact absurd distinct (by decide)

end OsLabs.Taskmaster
