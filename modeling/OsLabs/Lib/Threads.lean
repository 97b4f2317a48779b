import Mathlib.Data.Finset.Card
import Mathlib.Logic.Function.Basic
import OsLabs.Lib.Machine

/-! Processes that share a state and interleave in any order. One step of a process
reads or writes the shared state and moves it to the next point of its program; it
may also move the others, as a wakeup does. -/

set_option autoImplicit false

namespace OsLabs.Lib

structure Threads (Pid Shared Point : Type*) where
  shared : Shared
  points : Pid → Point

/-- What one step of a process leaves: the shared state, the point it has reached and
where the points of the others have gone. -/
structure Move (Shared Point : Type*) where
  shared : Shared
  point : Point
  others : Point → Point

namespace Threads

variable {Pid Shared Point Choice : Type*} [DecidableEq Pid]

def after (s : Threads Pid Shared Point) (p : Pid) (m : Move Shared Point) : Threads Pid Shared Point where
  shared := m.shared
  points := Function.update (fun q => m.others (s.points q)) p m.point

/-- Any process moves next, with the choice its program leaves it. -/
def step (act : Choice → Shared → Point → Option (Move Shared Point)) :
    Machine (Threads Pid Shared Point) (Pid × Choice) :=
  fun s l => (act l.2 s.shared (s.points l.1)).map (s.after l.1)

section After

variable (s : Threads Pid Shared Point) (p : Pid) (m : Move Shared Point)

@[simp] theorem after_shared : (s.after p m).shared = m.shared := rfl

@[simp] theorem after_self : (s.after p m).points p = m.point := by
  simp [after]

theorem after_of_ne {q : Pid} (other : q ≠ p) : (s.after p m).points q = m.others (s.points q) := by
  simp [after, other]

theorem forall_after {P : Point → Prop} (here : P m.point) (others : ∀ q, q ≠ p → P (m.others (s.points q)))
    (q : Pid) : P ((s.after p m).points q) := by
  by_cases same : q = p
  · rw [same, after_self]
    exact here
  · rw [after_of_ne s p m same]
    exact others q same

theorem view_after {β : Type*} {view : Point → β} (others : ∀ x, view (m.others x) = view x) (q : Pid) :
    view ((s.after p m).points q) = if q = p then view m.point else view (s.points q) := by
  by_cases same : q = p
  · rw [same, after_self, if_pos rfl]
  · rw [after_of_ne s p m same, others, if_neg same]

theorem view_after_of_eq {β : Type*} {view : Point → β} (others : ∀ x, view (m.others x) = view x)
    (here : view m.point = view (s.points p)) (q : Pid) : view ((s.after p m).points q) = view (s.points q) := by
  rw [view_after s p m others, here]
  split
  next same => rw [same]
  next => rfl

end After

theorem step_eq_some {act : Choice → Shared → Point → Option (Move Shared Point)}
    {s t : Threads Pid Shared Point} {p : Pid} {c : Choice} :
    step act s (p, c) = some t ↔ ∃ m, act c s.shared (s.points p) = some m ∧ s.after p m = t :=
  Option.map_eq_some_iff

/-- What every step under `C` keeps, whichever process takes it, holds of every state reached. -/
theorem invariant_of_everyStep {act : Choice → Shared → Point → Option (Move Shared Point)}
    {C : Threads Pid Shared Point → Pid × Choice → Prop} {I : Threads Pid Shared Point → Prop}
    (keeps : ∀ s p c m, I s → C s (p, c) → act c s.shared (s.points p) = some m → I (s.after p m))
    {s t : Threads Pid Shared Point} {ls : List (Pid × Choice)} (start : I s)
    (met : Machine.EveryStep (step act) C s ls) (reached : Machine.run (step act) s ls = some t) : I t := by
  refine Machine.invariant_of_everyStep (fun s l t inv met next => ?_) start met reached
  obtain ⟨p, c⟩ := l
  obtain ⟨m, call, rfl⟩ := step_eq_some.mp next
  exact keeps s p c m inv met call

theorem invariant {act : Choice → Shared → Point → Option (Move Shared Point)} {I : Threads Pid Shared Point → Prop}
    (keeps : ∀ s p c m, I s → act c s.shared (s.points p) = some m → I (s.after p m))
    {s t : Threads Pid Shared Point} {ls : List (Pid × Choice)} (start : I s)
    (reached : Machine.run (step act) s ls = some t) : I t :=
  invariant_of_everyStep (C := fun _ _ => True) (fun s p c m inv _ => keeps s p c m inv) start
    (Machine.everyStep_of_forall fun _ _ => trivial) reached

/-! ## Roles -/

def AtMostOne (role : Point → Prop) (s : Threads Pid Shared Point) : Prop :=
  ∀ p q, role (s.points p) → role (s.points q) → p = q

theorem AtMostOne.after {role : Point → Prop} {s : Threads Pid Shared Point} (one : AtMostOne role s) {p : Pid}
    {m : Move Shared Point} (others : ∀ x, role (m.others x) → role x)
    (enters : role m.point → role (s.points p) ∨ ∀ q, q ≠ p → ¬role (s.points q)) : AtMostOne role (s.after p m) := by
  have alone : ∀ q, q ≠ p → role ((s.after p m).points q) → ¬role m.point := by
    intro q other there here
    rw [after_of_ne s p m other] at there
    rcases enters here with stays | empty
    · exact other (one q p (others _ there) stays)
    · exact empty q other (others _ there)
  intro q r first second
  by_cases left : q = p <;> by_cases right : r = p
  · rw [left, right]
  · rw [left, after_self] at first
    exact absurd first (alone r right second)
  · rw [right, after_self] at second
    exact absurd second (alone q left first)
  · rw [after_of_ne s p m left] at first
    rw [after_of_ne s p m right] at second
    exact one q r (others _ first) (others _ second)

def AtMost (n : Nat) (role : Point → Prop) (s : Threads Pid Shared Point) : Prop :=
  ∃ ps : Finset Pid, (∀ p, role (s.points p) → p ∈ ps) ∧ ps.card ≤ n

namespace AtMost

variable {n : Nat} {role : Point → Prop} {s : Threads Pid Shared Point} {p : Pid} {m : Move Shared Point}

theorem keep (few : AtMost n role s) (others : ∀ x, role (m.others x) → role x)
    (here : role m.point → role (s.points p)) : AtMost n role (s.after p m) := by
  obtain ⟨ps, all, card⟩ := few
  refine ⟨ps, fun q now => ?_, card⟩
  by_cases same : q = p
  · rw [same, after_self] at now
    exact same ▸ all p (here now)
  · rw [after_of_ne s p m same] at now
    exact all q (others _ now)

theorem enter (few : AtMost n role s) (others : ∀ x, role (m.others x) → role x) :
    AtMost (n + 1) role (s.after p m) := by
  obtain ⟨ps, all, card⟩ := few
  refine ⟨insert p ps, fun q now => ?_, (Finset.card_insert_le p ps).trans (Nat.succ_le_succ card)⟩
  by_cases same : q = p
  · exact same ▸ Finset.mem_insert_self q ps
  · rw [after_of_ne s p m same] at now
    exact Finset.mem_insert_of_mem (all q (others _ now))

theorem leave (few : AtMost n role s) (others : ∀ x, role (m.others x) → role x) (had : role (s.points p))
    (left : ¬role m.point) : ∃ k, n = k + 1 ∧ AtMost k role (s.after p m) := by
  obtain ⟨ps, all, card⟩ := few
  have member : p ∈ ps := all p had
  have positive : 0 < ps.card := Finset.card_pos.mpr ⟨p, member⟩
  refine ⟨n - 1, by omega, ps.erase p, fun q now => ?_, ?_⟩
  · by_cases same : q = p
    · rw [same, after_self] at now
      exact absurd now left
    · rw [after_of_ne s p m same] at now
      exact Finset.mem_erase.mpr ⟨same, all q (others _ now)⟩
  · rw [Finset.card_erase_of_mem member]
    omega

end AtMost

/-! ## Locks -/

/-- How a step stands to a lock: from the bit before to the bit after, and from whether
the process held it to whether it holds it now. -/
inductive LockStep (before now : Bool) (held holds : Prop) : Prop where
  | keep (same : now = before) (kept : holds → held)
  | acquire (free : before = false) (taken : now = true)
  | release (had : held) (left : ¬holds)

structure Exclusive (locked : Shared → Bool) (holds : Point → Prop) (s : Threads Pid Shared Point) : Prop where
  one : AtMostOne holds s
  locked : ∀ p, holds (s.points p) → locked s.shared = true

theorem Exclusive.after {locked : Shared → Bool} {holds : Point → Prop} {s : Threads Pid Shared Point}
    (inv : Exclusive locked holds s) {p : Pid} {m : Move Shared Point} (others : ∀ x, holds (m.others x) → holds x)
    (step : LockStep (locked s.shared) (locked m.shared) (holds (s.points p)) (holds m.point)) :
    Exclusive locked holds (s.after p m) := by
  cases step with
  | keep same kept =>
    refine ⟨inv.one.after others fun here => Or.inl (kept here),
      s.forall_after p m (P := fun x => holds x → locked m.shared = true) ?_ ?_⟩
    · exact fun here => same.trans (inv.locked p (kept here))
    · exact fun q _ there => same.trans (inv.locked q (others _ there))
  | acquire free taken =>
    have nobody : ∀ q, ¬holds (s.points q) := fun q there =>
      Bool.noConfusion ((inv.locked q there).symm.trans free)
    exact ⟨inv.one.after others fun _ => Or.inr fun q _ => nobody q, fun _ _ => taken⟩
  | release had left =>
    refine ⟨inv.one.after others fun here => absurd here left,
      s.forall_after p m (P := fun x => holds x → locked m.shared = true) ?_ ?_⟩
    · exact fun here => absurd here left
    · exact fun q other there => absurd (inv.one q p (others _ there) had) other

/-! ## Carrying a key -/

/-- A key is carried by at most one process and, once it is logged, by none; it is
logged once. -/
structure CarriedOnce {Key : Type*} (carries : Point → Option Key) (log : List Key)
    (s : Threads Pid Shared Point) : Prop where
  one : ∀ k, AtMostOne (fun x => carries x = some k) s
  past : ∀ k ∈ log, ∀ p, carries (s.points p) ≠ some k
  once : log.Nodup

namespace CarriedOnce

variable {Key : Type*} {carries : Point → Option Key} {log : List Key} {s : Threads Pid Shared Point} {p : Pid}
  {m : Move Shared Point}

theorem keep (carried : CarriedOnce carries log s) (others : ∀ x, carries (m.others x) = carries x)
    (here : ∀ k, carries m.point = some k → carries (s.points p) = some k) : CarriedOnce carries log (s.after p m) where
  one k := (carried.one k).after (fun x held => (others x).symm.trans held) fun held => Or.inl (here k held)
  past k member := s.forall_after p m (P := fun x => carries x ≠ some k)
    (fun held => carried.past k member p (here k held))
    fun q _ held => carried.past k member q ((others _).symm.trans held)
  once := carried.once

theorem take (carried : CarriedOnce carries log s) (others : ∀ x, carries (m.others x) = carries x) {k : Key}
    (here : carries m.point = some k) (fresh : k ∉ log) (free : ∀ q, q ≠ p → carries (s.points q) ≠ some k) :
    CarriedOnce carries log (s.after p m) where
  one l := by
    apply (carried.one l).after fun x held => (others x).symm.trans held
    intro held
    rw [here, Option.some.injEq] at held
    rw [← held]
    exact Or.inr free
  past l member := by
    refine s.forall_after p m (P := fun x => carries x ≠ some l) ?_
      fun q _ held => carried.past l member q ((others _).symm.trans held)
    rw [here]
    intro same
    exact fresh (Option.some.inj same ▸ member)
  once := carried.once

theorem record (carried : CarriedOnce carries log s) (others : ∀ x, carries (m.others x) = carries x) {k : Key}
    (held : carries (s.points p) = some k) (here : carries m.point = none) :
    CarriedOnce carries (k :: log) (s.after p m) where
  one l := (carried.one l).after (fun x held => (others x).symm.trans held) fun held => by
    rw [here] at held
    cases held
  past l member := by
    refine s.forall_after p m (P := fun x => carries x ≠ some l) (by simp [here]) fun q other held' => ?_
    rw [others] at held'
    rcases List.mem_cons.mp member with rfl | old
    · exact other (carried.one l q p held' held)
    · exact carried.past l old q held'
  once := List.nodup_cons.mpr ⟨fun member => carried.past k member p held, carried.once⟩

end CarriedOnce

end Threads

end OsLabs.Lib
