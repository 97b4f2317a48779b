import OsLabs.Rwlock.Exclusion

/-! No reader or writer is left in a wait set when nothing keeps it there: every
statement that lets one in is followed by a broadcast under the same hold of the mutex. -/

set_option autoImplicit false

namespace OsLabs.Rwlock

open OsLabs.Lib OsLabs.Lib.Monitor OsLabs.Lib.Threads

/-- What keeps a thread in each of the two loops. -/
def Keeps (rw : ReadWriteLock) : Cond → Prop
  | .cond_r => 0 < rw.w
  | .cond_w => 0 < rw.r ∨ 0 < rw.inw

def Promises (rw : ReadWriteLock) : Cond → In → Prop
  | .cond_r, k => k = .writerLeave ∨ k = .writerWakeWriters ∨ k = .writerWakeReaders
  | .cond_w, k => k = .readerCheck ∧ rw.r = 0 ∨ k = .readerWake ∨ k = .writerWakeWriters

theorem wakes (c : Cond) : Wakes rwlock Tested c (fun rw _ => Keeps rw c) fun rw k => Promises rw c k where
  wait deed _ := by
    rcases wait_cases deed with ⟨-, rfl, -, taken⟩ | ⟨-, rfl, -, taken⟩ <;> exact taken
  set deed _ _ before := by
    cases c with
    | cond_r =>
      simp only [Keeps, Promises] at before ⊢
      cases set_cases deed <;> simp at before ⊢ <;> omega
    | cond_w =>
      simp only [Keeps, Promises] at before ⊢
      cases set_cases deed <;> simp at before ⊢ <;> omega
  broadcast deed other promise := by
    rcases broadcast_cases deed with ⟨rfl, rfl, rfl⟩ | ⟨rfl, rfl, rfl⟩ | ⟨rfl, rfl, rfl⟩ <;>
      cases c <;> simp_all [Promises]
  leave promise := by
    constructor
    · intro b k' deed
      rcases wait_cases deed with ⟨rfl, -, -, -⟩ | ⟨rfl, -, -, -⟩ <;> cases c <;> simp [Promises] at promise
    · intro o deed
      rcases unlock_cases deed with ⟨rfl, -⟩ | ⟨rfl, -⟩ | ⟨rfl | rfl, -⟩ <;> cases c <;> simp [Promises] at promise

section Waiting

variable {Pid : Type*} [DecidableEq Pid] [Fintype Pid] {s : State Pid} {p : Pid} {turn : Turn Call}
  {m : Move (Shared ReadWriteLock) Point}

/-- The counters are right, and whoever waits is kept waiting or about to be notified. -/
structure Attended (s : State Pid) : Prop where
  ordered : Ordered s
  covered : ∀ c, Covered c (fun rw _ => Keeps rw c) (fun rw k => Promises rw c k) s

namespace Attended

theorem step (inv : Attended s) (taken : Taken rwlock s.shared turn (s.points p) m) : Attended (s.after p m) where
  ordered := inv.ordered.step taken
  covered c := (wakes c).step inv.ordered.guarded inv.ordered.tested (inv.covered c) taken

omit [DecidableEq Pid] in
theorem keeps (inv : Attended s) (free : s.shared.locked = false) {c : Cond} {k : In}
    (waits : s.points p = .waiting c k) : Keeps s.shared.data c :=
  (inv.covered c).blocked inv.ordered.guarded free waits

omit [DecidableEq Pid] in
/-- Threads that have finished or wait are not counted as inside; writers that wait are
counted in `w`. -/
theorem none_waiting (inv : Attended s) (still : ∀ q, Blocked s q ∨ s.points q = .out .finished) (c : Cond) (k : In) :
    s.points p ≠ .waiting c k := by
  obtain ⟨free, all⟩ := inv.ordered.guarded.standstill (fun o => o = .finished) fun q =>
    (still q).imp_right fun done => ⟨_, done, rfl⟩
  have places : ∀ q, s.points q = .waiting .cond_r .readerTest ∨ s.points q = .waiting .cond_w .writerTest ∨
      s.points q = .out .finished := by
    intro q
    rcases all q with ⟨c, k, here⟩ | ⟨o, here, rfl⟩
    · have tests := inv.ordered.tested.place q
      rw [here] at tests ⊢
      rcases tests with ⟨rfl, rfl⟩ | ⟨rfl, rfl⟩ <;> simp
    · exact Or.inr (Or.inr here)
  have no_readers : s.shared.data.r = 0 := by
    rw [inv.ordered.readers]
    refine Finset.sum_eq_zero fun q _ => ?_
    rcases places q with here | here | here <;> rw [here] <;> rfl
  have no_writers : s.shared.data.inw = 0 := by
    rw [inv.ordered.writers]
    refine Finset.sum_eq_zero fun q _ => ?_
    rcases places q with here | here | here <;> rw [here] <;> rfl
  -- no one is inside, so nothing keeps a writer in its loop, nor then a reader
  have writers_gone : ∀ q k, s.points q ≠ .waiting .cond_w k := by
    intro q k waits
    rcases inv.keeps free waits with some_reader | some_writer <;> omega
  have none_counted : s.shared.data.w = 0 := by
    rw [inv.ordered.counted]
    refine Finset.sum_eq_zero fun q _ => ?_
    rcases places q with here | here | here
    · rw [here]
      rfl
    · exact absurd here (writers_gone q _)
    · rw [here]
      rfl
  intro waits
  cases c with
  | cond_r =>
    have ahead : 0 < s.shared.data.w := inv.keeps free waits
    omega
  | cond_w => exact writers_gone p k waits

end Attended

theorem attended_of_run {ls : List (Pid × Turn Call)} (reached : Machine.run step initial ls = some s) : Attended s :=
  Threads.invariant (I := Attended) (fun _ _ _ _ inv call => inv.step (act_taken call))
    ⟨ordered_initial, fun _ _ _ => nofun⟩ reached

/-- With the mutex free nobody waits whom the counters would let in, and no thread waits
where all others have finished or are blocked too. -/
theorem nobody_stranded {ls : List (Pid × Turn Call)} (reached : Machine.run step initial ls = some s) :
    (s.shared.locked = false →
      (s.shared.data.r = 0 ∧ s.shared.data.inw = 0 → ∀ p k, s.points p ≠ .waiting .cond_w k) ∧
      (s.shared.data.w = 0 → ∀ p k, s.points p ≠ .waiting .cond_r k)) ∧
    ((∀ q, Blocked s q ∨ s.points q = .out .finished) → ∀ p c k, s.points p ≠ .waiting c k) := by
  have inv := attended_of_run reached
  refine ⟨fun free => ⟨?_, ?_⟩, fun still p c k => inv.none_waiting still c k⟩
  · rintro ⟨no_readers, no_writers⟩ p k waits
    rcases inv.keeps free waits with some_reader | some_writer <;> omega
  · intro no_writers p k waits
    have ahead : 0 < s.shared.data.w := inv.keeps free waits
    omega

end Waiting

def readerLeaves : List (Fin 2 × Turn Call) :=
  let go (p : Fin 2) (n : Nat) : List (Fin 2 × Turn Call) := List.replicate n (p, .go)
  readerThenWriter ++ [(0, .call .readerUnlock)] ++ go 0 5 ++ [(0, .call .finish)] ++ go 1 4 ++
    [(1, .call .writerUnlock)] ++ go 1 6 ++ [(1, .call .finish)]

theorem nobody_stranded_reader_leaves : ∃ s, Machine.run step initial readerLeaves = some s ∧
    s.shared.locked = false ∧ (∀ p k, s.points p ≠ .waiting .cond_w k) ∧ ∀ p c k, s.points p ≠ .waiting c k := by
  have facts : (Machine.run step initial readerLeaves).any (fun s =>
      decide (s.shared.locked = false ∧ (s.shared.data.r = 0 ∧ s.shared.data.inw = 0) ∧
        ∀ p, s.points p = .out .finished)) = true := by
    decide +kernel
  obtain ⟨s, reached, last⟩ := (Option.any_eq_true _ _).mp facts
  obtain ⟨free, empty, finished⟩ := of_decide_eq_true last
  obtain ⟨stranded, still⟩ := nobody_stranded reached
  exact ⟨s, reached, free, (stranded free).1 empty, still fun p => Or.inr (finished p)⟩

end OsLabs.Rwlock
