import OsLabs.Lib.Totals

/-! Threads that share data under one mutex and wait on condition variables: joining a
wait set releases the mutex in the same step, a broadcast notifies every thread in the
set, and a wait may also end with no broadcast. A notified thread takes the mutex again
before it goes on. -/

set_option autoImplicit false

namespace OsLabs.Lib.Monitor

open Threads

variable {Data Cond Out In Call Pid : Type*}

/-- Where a thread stands to the mutex, with the point of its code that comes next. -/
inductive Place (Cond Out In : Type*) where
  | out (o : Out)
  | locking (k : In)
  | inside (k : In)
  | waiting (c : Cond) (k : In)
  deriving DecidableEq

inductive Entry (Out In : Type*) where
  | lock (k : In)
  | skip (o : Out)

inductive Deed (Data Cond Out In : Type*) where
  | set (data : Data) (k : In)
  | broadcast (c : Cond) (k : In)
  | wait (c : Cond) (k : In)
  | unlock (o : Out)

structure Program (Data Cond Out In Call : Type*) where
  enter : Out → Call → Option (Entry Out In)
  deed : Data → In → Deed Data Cond Out In

inductive Turn (Call : Type*) where
  | call (a : Call)
  | go
  | spurious
  deriving DecidableEq

def Turn.map {Request : Type*} (f : Call → Request) : Turn Call → Turn Request
  | .call a => .call (f a)
  | .go => .go
  | .spurious => .spurious

structure Shared (Data : Type*) where
  locked : Bool
  data : Data

abbrev State (Pid Data Cond Out In : Type*) := Threads Pid (Shared Data) (Place Cond Out In)

namespace Place

variable [DecidableEq Cond]

def notify (c : Cond) : Place Cond Out In → Place Cond Out In
  | .waiting b k => if b = c then .locking k else .waiting b k
  | x => x

@[simp] theorem notify_out (c : Cond) (o : Out) : notify c (.out o : Place Cond Out In) = .out o := rfl

@[simp] theorem notify_locking (c : Cond) (k : In) : notify c (.locking k : Place Cond Out In) = .locking k := rfl

@[simp] theorem notify_inside (c : Cond) (k : In) : notify c (.inside k : Place Cond Out In) = .inside k := rfl

@[simp] theorem notify_waiting_self (c : Cond) (k : In) : notify c (.waiting c k : Place Cond Out In) = .locking k :=
  if_pos rfl

theorem notify_waiting_of_ne {b c : Cond} (other : b ≠ c) (k : In) :
    notify c (.waiting b k : Place Cond Out In) = .waiting b k :=
  if_neg other

omit [DecidableEq Cond] in
def Inside : Place Cond Out In → Prop
  | .inside _ => True
  | _ => False

theorem inside_notify {c : Cond} {x : Place Cond Out In} : (x.notify c).Inside ↔ x.Inside := by
  cases x with
  | waiting b k =>
    simp only [notify]
    split <;> exact Iff.rfl
  | _ => exact Iff.rfl

def weigh (idle : Out → Int) (busy : In → Int) : Place Cond Out In → Int
  | .out o => idle o
  | .locking k | .inside k | .waiting _ k => busy k

theorem weigh_notify (idle : Out → Int) (busy : In → Int) (c : Cond) (x : Place Cond Out In) :
    (x.notify c).weigh idle busy = x.weigh idle busy := by
  cases x with
  | waiting b k =>
    simp only [notify]
    split <;> rfl
  | _ => rfl

end Place

section Act

variable [DecidableEq Cond]

def Deed.move (s : Shared Data) : Deed Data Cond Out In → Move (Shared Data) (Place Cond Out In)
  | .set data k => { shared := { s with data }, point := .inside k, others := id }
  | .broadcast c k => { shared := s, point := .inside k, others := Place.notify c }
  | .wait c k => { shared := { s with locked := false }, point := .waiting c k, others := id }
  | .unlock o => { shared := { s with locked := false }, point := .out o, others := id }

def act (program : Program Data Cond Out In Call) (turn : Turn Call) (s : Shared Data) :
    Place Cond Out In → Option (Move (Shared Data) (Place Cond Out In))
  | .out o =>
    match turn with
    | .call a => (program.enter o a).map fun
      | .lock k => { shared := s, point := .locking k, others := id }
      | .skip o' => { shared := s, point := .out o', others := id }
    | _ => none
  | .locking k =>
    match turn with
    | .go => if s.locked then none else some { shared := { s with locked := true }, point := .inside k, others := id }
    | _ => none
  | .inside k =>
    match turn with
    | .go => some ((program.deed s.data k).move s)
    | _ => none
  | .waiting _ k =>
    match turn with
    | .spurious => some { shared := s, point := .locking k, others := id }
    | _ => none

/-- The steps of a thread, each with what lets it happen. -/
inductive Taken (program : Program Data Cond Out In Call) (s : Shared Data) :
    Turn Call → Place Cond Out In → Move (Shared Data) (Place Cond Out In) → Prop where
  | call {o : Out} {a : Call} {k : In} (entry : program.enter o a = some (.lock k)) :
    Taken program s (.call a) (.out o) { shared := s, point := .locking k, others := id }
  | skip {o o' : Out} {a : Call} (entry : program.enter o a = some (.skip o')) :
    Taken program s (.call a) (.out o) { shared := s, point := .out o', others := id }
  | lock {k : In} (free : s.locked = false) :
    Taken program s .go (.locking k) { shared := { s with locked := true }, point := .inside k, others := id }
  | set {k k' : In} {data : Data} (deed : program.deed s.data k = .set data k') :
    Taken program s .go (.inside k) { shared := { s with data }, point := .inside k', others := id }
  | broadcast {k k' : In} {c : Cond} (deed : program.deed s.data k = .broadcast c k') :
    Taken program s .go (.inside k) { shared := s, point := .inside k', others := Place.notify c }
  | wait {k k' : In} {c : Cond} (deed : program.deed s.data k = .wait c k') :
    Taken program s .go (.inside k) { shared := { s with locked := false }, point := .waiting c k', others := id }
  | unlock {k : In} {o : Out} (deed : program.deed s.data k = .unlock o) :
    Taken program s .go (.inside k) { shared := { s with locked := false }, point := .out o, others := id }
  | spurious {c : Cond} {k : In} :
    Taken program s .spurious (.waiting c k) { shared := s, point := .locking k, others := id }

theorem act_taken {program : Program Data Cond Out In Call} {turn : Turn Call} {s : Shared Data}
    {x : Place Cond Out In} {m : Move (Shared Data) (Place Cond Out In)} (call : act program turn s x = some m) :
    Taken program s turn x m := by
  cases x with
  | out o =>
    cases turn with
    | call a =>
      obtain ⟨entry, found, rfl⟩ := Option.map_eq_some_iff.mp call
      cases entry with
      | lock k => exact .call found
      | skip o' => exact .skip found
    | _ => cases call
  | locking k =>
    cases turn with
    | go =>
      simp only [act] at call
      split at call
      next => cases call
      next free =>
        cases call
        exact .lock (Bool.not_eq_true _ ▸ free)
    | _ => cases call
  | inside k =>
    cases turn with
    | go =>
      cases call
      generalize deed : program.deed s.data k = next
      cases next with
      | set data k' => exact .set deed
      | broadcast c k' => exact .broadcast deed
      | wait c k' => exact .wait deed
      | unlock o => exact .unlock deed
    | _ => cases call
  | waiting c k =>
    cases turn with
    | spurious =>
      cases call
      exact .spurious
    | _ => cases call

namespace Taken

variable {program : Program Data Cond Out In Call} {turn : Turn Call} {s : Shared Data} {x : Place Cond Out In}
  {m : Move (Shared Data) (Place Cond Out In)}

theorem inside_others (taken : Taken program s turn x m) (y : Place Cond Out In) : (m.others y).Inside ↔ y.Inside := by
  cases taken with
  | broadcast => exact Place.inside_notify
  | _ => exact Iff.rfl

theorem view_others {β : Type*} {view : Place Cond Out In → β} (same : ∀ c x, view (x.notify c) = view x)
    (taken : Taken program s turn x m) (y : Place Cond Out In) : view (m.others y) = view y := by
  cases taken with
  | broadcast => exact same _ y
  | _ => rfl

theorem weigh_others (taken : Taken program s turn x m) (idle : Out → Int) (busy : In → Int) (y : Place Cond Out In) :
    (m.others y).weigh idle busy = y.weigh idle busy := by
  cases taken with
  | broadcast => exact Place.weigh_notify idle busy _ y
  | _ => rfl

theorem waiting_of_others (taken : Taken program s turn x m) {y : Place Cond Out In} {c : Cond} {k : In}
    (waits : m.others y = .waiting c k) : y = .waiting c k := by
  cases taken with
  | broadcast =>
    cases y with
    | waiting b j =>
      simp only [Place.notify] at waits
      split at waits
      · cases waits
      · exact waits
    | _ => exact waits
  | _ => exact waits

end Taken

end Act

section Rules

variable [DecidableEq Cond] [DecidableEq Pid] {program : Program Data Cond Out In Call}
  {s : State Pid Data Cond Out In} {p : Pid} {turn : Turn Call} {m : Move (Shared Data) (Place Cond Out In)}

/-! ## The mutex -/

/-- One thread at most has the mutex, and one has it while it is locked. -/
structure Guarded (s : State Pid Data Cond Out In) : Prop where
  exclusive : Exclusive (fun shared : Shared Data => shared.locked) Place.Inside s
  holder : s.shared.locked = true → ∃ p, (s.points p).Inside

namespace Guarded

theorem step (inv : Guarded s) (taken : Taken program s.shared turn (s.points p) m) : Guarded (s.after p m) := by
  have others := taken.inside_others
  refine ⟨inv.exclusive.after (fun x => (others x).mp) ?_, ?_⟩
  · generalize s.points p = x at taken
    cases taken with
    | lock free => exact .acquire free rfl
    | wait | unlock => exact .release trivial id
    | set | broadcast => exact .keep rfl fun _ => trivial
    | call | skip | spurious => exact .keep rfl id
  · intro locked
    by_cases here : m.point.Inside
    · exact ⟨p, by rwa [after_self]⟩
    · have before : s.shared.locked = true ∧ ¬(s.points p).Inside := by
        generalize s.points p = x at taken
        cases taken with
        | lock | set | broadcast => exact absurd trivial here
        | wait | unlock => cases locked
        | call | skip | spurious => exact ⟨locked, id⟩
      obtain ⟨q, there⟩ := inv.holder before.1
      have other : q ≠ p := fun same => before.2 (same ▸ there)
      refine ⟨q, ?_⟩
      rw [after_of_ne s p m other, others]
      exact there

omit [DecidableEq Cond] [DecidableEq Pid] in
theorem not_inside (inv : Guarded s) (free : s.shared.locked = false) (q : Pid) : ¬(s.points q).Inside := fun there =>
  Bool.noConfusion (free.symm.trans (inv.exclusive.locked q there))

omit [DecidableEq Cond] [DecidableEq Pid] in
theorem alone (inv : Guarded s) (here : (s.points p).Inside) {q : Pid} (other : q ≠ p) : ¬(s.points q).Inside :=
  fun there => other (inv.exclusive.one q p there here)

end Guarded

/-- The thread waits to be notified or for a mutex that another one has. -/
def Blocked (s : State Pid Data Cond Out In) (p : Pid) : Prop :=
  (∃ c k, s.points p = .waiting c k) ∨ s.shared.locked = true ∧ ∃ k, s.points p = .locking k

omit [DecidableEq Cond] [DecidableEq Pid] in
/-- Where no thread can go on, the mutex is free and only waiting threads are left. -/
theorem Guarded.standstill (inv : Guarded s) (finished : Out → Prop)
    (still : ∀ q, Blocked s q ∨ ∃ o, s.points q = .out o ∧ finished o) :
    s.shared.locked = false ∧ ∀ q, (∃ c k, s.points q = .waiting c k) ∨ ∃ o, s.points q = .out o ∧ finished o := by
  have free : s.shared.locked = false := by
    by_contra locked
    obtain ⟨q, there⟩ := inv.holder (Bool.not_eq_false _ ▸ locked)
    rcases still q with (⟨c, k, here⟩ | ⟨-, k, here⟩) | ⟨o, here, -⟩
    all_goals
      rw [here] at there
      exact there
  refine ⟨free, fun q => ?_⟩
  rcases still q with (waits | ⟨locked, -⟩) | done
  · exact Or.inl waits
  · rw [free] at locked
    cases locked
  · exact Or.inr done

/-! ## Counters -/

/-- Every step changes a number kept in the data by what it changes the weight of the
code the thread is at. -/
structure Counts (program : Program Data Cond Out In Call) (value : Data → Int) (idle : Out → Int) (busy : In → Int) :
    Prop where
  call : ∀ {o a k}, program.enter o a = some (.lock k) → busy k = idle o
  skip : ∀ {o a o'}, program.enter o a = some (.skip o') → idle o' = idle o
  set : ∀ {d k d' k'}, program.deed d k = .set d' k' → value d' - busy k' = value d - busy k
  broadcast : ∀ {d k c k'}, program.deed d k = .broadcast c k' → busy k' = busy k
  wait : ∀ {d k c k'}, program.deed d k = .wait c k' → busy k' = busy k
  unlock : ∀ {d k o}, program.deed d k = .unlock o → idle o = busy k

theorem Counts.step [Fintype Pid] {value : Data → Int} {idle : Out → Int} {busy : In → Int}
    (counts : Counts program value idle busy) (equal : value s.shared.data = total (Place.weigh idle busy) s)
    (taken : Taken program s.shared turn (s.points p) m) :
    value (s.after p m).shared.data = total (Place.weigh idle busy) (s.after p m) := by
  rw [total_after (taken.weigh_others idle busy), after_shared, ← equal]
  generalize s.points p = x at taken
  cases taken with
  | call entry =>
    have same := counts.call entry
    simp only [Place.weigh]
    omega
  | skip entry =>
    have same := counts.skip entry
    simp only [Place.weigh]
    omega
  | set deed =>
    have same := counts.set deed
    simp only [Place.weigh]
    omega
  | broadcast deed =>
    have same := counts.broadcast deed
    simp only [Place.weigh]
    omega
  | wait deed =>
    have same := counts.wait deed
    simp only [Place.weigh]
    omega
  | unlock deed =>
    have same := counts.unlock deed
    simp only [Place.weigh]
    omega
  | lock | spurious =>
    simp only [Place.weigh]
    omega

/-! ## Proof outlines -/

/-- What may be said of the data whenever the mutex is free, and of every thread where it
stands and of the data: the thread's own steps keep it, and so do the steps of the thread
with the mutex for all the others. `C` is what is assumed of a step that takes the mutex
or ends a wait. -/
structure Outline (program : Program Data Cond Out In Call) (C : Data → Turn Call → Place Cond Out In → Prop)
    (J : Data → Prop) (P : Data → Place Cond Out In → Prop) : Prop where
  call : ∀ {d o a k}, program.enter o a = some (.lock k) → P d (.out o) → P d (.locking k)
  skip : ∀ {d o a o'}, program.enter o a = some (.skip o') → P d (.out o) → P d (.out o')
  lock : ∀ {d k}, C d .go (.locking k) → J d → P d (.locking k) → P d (.inside k)
  set : ∀ {d k d' k'}, program.deed d k = .set d' k' → P d (.inside k) → P d' (.inside k')
  stable : ∀ {d k d' k'}, program.deed d k = .set d' k' → P d (.inside k) → ∀ x, ¬x.Inside → P d x → P d' x
  broadcast : ∀ {d k c k'}, program.deed d k = .broadcast c k' → P d (.inside k) → P d (.inside k')
  notify : ∀ {d k c k'}, program.deed d k = .broadcast c k' → P d (.inside k) →
    ∀ j, P d (.waiting c j) → P d (.locking j)
  wait : ∀ {d k c k'}, program.deed d k = .wait c k' → P d (.inside k) → J d ∧ P d (.waiting c k')
  unlock : ∀ {d k o}, program.deed d k = .unlock o → P d (.inside k) → J d ∧ P d (.out o)
  spurious : ∀ {d c k}, C d .spurious (.waiting c k) → P d (.waiting c k) → P d (.locking k)

structure Outlined (J : Data → Prop) (P : Data → Place Cond Out In → Prop) (s : State Pid Data Cond Out In) : Prop where
  free : s.shared.locked = false → J s.shared.data
  place : ∀ q, P s.shared.data (s.points q)

theorem Outline.step {C : Data → Turn Call → Place Cond Out In → Prop} {J : Data → Prop}
    {P : Data → Place Cond Out In → Prop} (outline : Outline program C J P) (guarded : Guarded s)
    (inv : Outlined J P s) (met : C s.shared.data turn (s.points p))
    (taken : Taken program s.shared turn (s.points p) m) : Outlined J P (s.after p m) := by
  have here := inv.place p
  have alone : (s.points p).Inside → ∀ q, q ≠ p → ¬(s.points q).Inside := fun inside q => guarded.alone inside
  have locked := guarded.exclusive.locked p
  refine ⟨?_, s.forall_after p m (P := P m.shared.data) ?_ fun q other => ?_⟩
  · rw [after_shared]
    intro free
    generalize s.points p = x at taken here locked
    cases taken with
    | wait deed => exact (outline.wait deed here).1
    | unlock deed => exact (outline.unlock deed here).1
    | lock => cases free
    | set | broadcast => exact Bool.noConfusion (free.symm.trans (locked trivial))
    | call | skip | spurious => exact inv.free free
  · generalize s.points p = x at taken met here
    cases taken with
    | call entry => exact outline.call entry here
    | skip entry => exact outline.skip entry here
    | lock free => exact outline.lock met (inv.free free) here
    | set deed => exact outline.set deed here
    | broadcast deed => exact outline.broadcast deed here
    | wait deed => exact (outline.wait deed here).2
    | unlock deed => exact (outline.unlock deed here).2
    | spurious => exact outline.spurious met here
  · have there := inv.place q
    generalize s.points p = x at taken here alone
    cases taken with
    | set deed => exact outline.stable deed here _ (alone trivial q other) there
    | @broadcast k k' c deed =>
      generalize s.points q = y at there
      cases y with
      | waiting b j =>
        by_cases same : b = c
        · subst same
          simpa only [Place.notify_waiting_self] using outline.notify deed here j there
        · simpa only [Place.notify_waiting_of_ne same] using there
      | _ => exact there
    | _ => exact there

/-! ## Wait sets -/

/-- The thread with the mutex has still to broadcast on `c` wherever it makes a thread in
the wait set able to go on. -/
structure Wakes (program : Program Data Cond Out In Call) (P : Data → Place Cond Out In → Prop) (c : Cond)
    (blocked promises : Data → In → Prop) : Prop where
  wait : ∀ {d k k'}, program.deed d k = .wait c k' → P d (.inside k) → blocked d k'
  set : ∀ {d k d' k' j}, program.deed d k = .set d' k' → P d (.inside k) → P d (.waiting c j) →
    blocked d j ∨ promises d k → blocked d' j ∨ promises d' k'
  broadcast : ∀ {d k b k'}, program.deed d k = .broadcast b k' → b ≠ c → promises d k → promises d k'
  leave : ∀ {d k}, promises d k → (∀ b k', program.deed d k ≠ .wait b k') ∧ ∀ o, program.deed d k ≠ .unlock o

/-- Each thread in the wait set of `c` is rightly there, or about to be notified. -/
def Covered (c : Cond) (blocked promises : Data → In → Prop) (s : State Pid Data Cond Out In) : Prop :=
  ∀ q j, s.points q = .waiting c j → blocked s.shared.data j ∨ ∃ p k, s.points p = .inside k ∧ promises s.shared.data k

theorem Covered.step {c : Cond} {blocked promises : Data → In → Prop} (guarded : Guarded s)
    (covered : Covered c blocked promises s) (taken : Taken program s.shared turn (s.points p) m)
    (wait : ∀ {k k'}, s.points p = .inside k → program.deed s.shared.data k = .wait c k' → blocked s.shared.data k')
    (set : ∀ {k d' k' q j}, s.points p = .inside k → program.deed s.shared.data k = .set d' k' → s.points q = .waiting c j →
      blocked s.shared.data j ∨ promises s.shared.data k → blocked d' j ∨ promises d' k')
    (broadcast : ∀ {k b k'}, program.deed s.shared.data k = .broadcast b k' → b ≠ c → promises s.shared.data k →
      promises s.shared.data k')
    (leave : ∀ {k}, promises s.shared.data k →
      (∀ b k', program.deed s.shared.data k ≠ .wait b k') ∧ ∀ o, program.deed s.shared.data k ≠ .unlock o) :
    Covered c blocked promises (s.after p m) := by
  intro q j waits
  rw [after_shared]
  by_cases same : q = p
  · rw [same, after_self] at waits
    generalize point : s.points p = x at taken
    cases taken with
    | wait deed =>
      cases waits
      exact Or.inl (wait point deed)
    | _ => cases waits
  · rw [after_of_ne s p m same] at waits
    have waited : s.points q = .waiting c j := taken.waiting_of_others waits
    have before := covered q j waited
    have alone : (s.points p).Inside → ∀ r, r ≠ p → ¬(s.points r).Inside := fun inside r => guarded.alone inside
    have moved : m.others = id → ∀ r, r ≠ p → (s.after p m).points r = s.points r := fun others r apart => by
      rw [after_of_ne s p m apart, others, id]
    have now := after_self s p m
    generalize point : s.points p = x at taken alone
    -- the thread with the mutex is the only one whose promise counts
    have promised : x.Inside → ∀ k, x = .inside k → blocked s.shared.data j ∨ promises s.shared.data k := by
      intro inside k same
      rcases before with blocked | ⟨r, k', holds, promise⟩
      · exact Or.inl blocked
      · have owner : r = p := by
          by_contra apart
          have nobody := alone inside r apart
          rw [holds] at nobody
          exact nobody trivial
        rw [owner, point, same] at holds
        cases holds
        exact Or.inr promise
    have elsewhere : ¬x.Inside → m.others = id →
        blocked s.shared.data j ∨ ∃ r k, (s.after p m).points r = .inside k ∧ promises s.shared.data k := by
      intro outside others
      rcases before with blocked | ⟨r, k, holds, promise⟩
      · exact Or.inl blocked
      · have apart : r ≠ p := by
          rintro rfl
          rw [← point, holds] at outside
          exact outside trivial
        exact Or.inr ⟨r, k, by rw [moved others r apart, holds], promise⟩
    cases taken with
    | call | skip | lock | spurious => exact elsewhere id rfl
    | set deed =>
      exact (set point deed waited (promised trivial _ rfl)).imp_right fun promise => ⟨p, _, now, promise⟩
    | @broadcast k k' b deed =>
      have apart : b ≠ c := by
        rintro rfl
        rw [waited] at waits
        simp at waits
      exact (promised trivial _ rfl).imp_right fun promise => ⟨p, _, now, broadcast deed apart promise⟩
    | wait deed => exact (promised trivial _ rfl).imp_right fun promise => absurd deed ((leave promise).1 _ _)
    | unlock deed => exact (promised trivial _ rfl).imp_right fun promise => absurd deed ((leave promise).2 _)

theorem Wakes.step {J : Data → Prop} {P : Data → Place Cond Out In → Prop} {c : Cond}
    {blocked promises : Data → In → Prop} (wakes : Wakes program P c blocked promises) (guarded : Guarded s)
    (inv : Outlined J P s) (covered : Covered c blocked promises s)
    (taken : Taken program s.shared turn (s.points p) m) : Covered c blocked promises (s.after p m) := by
  refine covered.step guarded taken (fun point deed => wakes.wait deed ?_) (fun {_ _ _ q _} point deed waits => wakes.set deed ?_ ?_)
    wakes.broadcast wakes.leave
  · exact point ▸ inv.place p
  · exact point ▸ inv.place p
  · exact waits ▸ inv.place q

omit [DecidableEq Cond] [DecidableEq Pid] in
theorem Covered.blocked {c : Cond} {blocked promises : Data → In → Prop} (covered : Covered c blocked promises s)
    (guarded : Guarded s) (free : s.shared.locked = false) {q : Pid} {j : In} (waits : s.points q = .waiting c j) :
    blocked s.shared.data j := by
  rcases covered q j waits with blocked | ⟨p, k, inside, -⟩
  · exact blocked
  · have nobody := guarded.not_inside free p
    rw [inside] at nobody
    exact absurd trivial nobody

end Rules

end OsLabs.Lib.Monitor
