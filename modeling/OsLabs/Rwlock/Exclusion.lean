import OsLabs.Rwlock.Program

/-! Who may be inside the reader-writer lock together. The three counters count threads
at every point of a run, and the tests of `ReaderLock` and `WriterLock` still hold when
the thread that made them counts itself in. -/

set_option autoImplicit false

namespace OsLabs.Rwlock

open OsLabs.Lib OsLabs.Lib.Monitor OsLabs.Lib.Threads

/-! ## The statements by kind -/

section Statements

variable {rw rw' : ReadWriteLock} {k k' : In} {o o' : Out} {a : Call} {c : Cond}

theorem lock_cases (entry : enter o a = some (.lock k)) :
    o = .idle ∧ (k = .readerTest ∨ k = .writerCount) ∨ o = .reading ∧ k = .readerLeave ∨
      o = .writing ∧ k = .writerUncount := by
  cases o <;> cases a <;> simp_all [enter]

theorem skip_cases (entry : enter o a = some (.skip o')) : o = .idle ∧ o' = .finished := by
  cases o <;> cases a <;> simp_all [enter]

inductive Sets (rw : ReadWriteLock) : In → ReadWriteLock → In → Prop where
  | readerTest (free : rw.w ≤ 0) : Sets rw .readerTest rw .readerEnter
  | readerEnter : Sets rw .readerEnter { rw with r := rw.r + 1 } .readerAdmitted
  | readerLeave : Sets rw .readerLeave { rw with r := rw.r - 1 } .readerCheck
  | readerLast (last : rw.r = 0) : Sets rw .readerCheck rw .readerWake
  | readerMore (more : rw.r ≠ 0) : Sets rw .readerCheck rw .readerLeft
  | writerCount : Sets rw .writerCount { rw with w := rw.w + 1 } .writerTest
  | writerTest (free : rw.r ≤ 0 ∧ rw.inw ≤ 0) : Sets rw .writerTest rw .writerEnter
  | writerEnter : Sets rw .writerEnter { rw with inw := rw.inw + 1 } .writerAdmitted
  | writerUncount : Sets rw .writerUncount { rw with w := rw.w - 1 } .writerLeave
  | writerLeave : Sets rw .writerLeave { rw with inw := rw.inw - 1 } .writerWakeWriters

theorem set_cases (set : deed rw k = .set rw' k') : Sets rw k rw' k' := by
  cases k with
  | readerTest =>
    simp only [deed] at set
    split at set
    next => cases set
    next free =>
      cases set
      exact .readerTest (Int.not_lt.mp free)
  | readerCheck =>
    simp only [deed] at set
    cases set
    split
    next last => exact .readerLast last
    next more => exact .readerMore more
  | writerTest =>
    simp only [deed] at set
    split at set
    next => cases set
    next free =>
      cases set
      exact .writerTest ⟨by omega, by omega⟩
  | readerEnter | readerLeave | writerCount | writerEnter | writerUncount | writerLeave =>
    cases set
    constructor
  | _ => cases set

theorem broadcast_cases (broadcast : deed rw k = .broadcast c k') :
    k = .readerWake ∧ c = .cond_w ∧ k' = .readerLeft ∨ k = .writerWakeWriters ∧ c = .cond_w ∧ k' = .writerWakeReaders ∨
      k = .writerWakeReaders ∧ c = .cond_r ∧ k' = .writerLeft := by
  cases k with
  | readerTest | writerTest =>
    simp only [deed] at broadcast
    split at broadcast <;> cases broadcast
  | readerWake | writerWakeWriters | writerWakeReaders =>
    cases broadcast
    simp
  | _ => cases broadcast

theorem wait_cases (wait : deed rw k = .wait c k') :
    k = .readerTest ∧ c = .cond_r ∧ k' = .readerTest ∧ 0 < rw.w ∨
      k = .writerTest ∧ c = .cond_w ∧ k' = .writerTest ∧ (0 < rw.r ∨ 0 < rw.inw) := by
  cases k with
  | readerTest | writerTest =>
    simp only [deed] at wait
    split at wait
    next taken =>
      cases wait
      simp [taken]
    next => cases wait
  | _ => cases wait

theorem unlock_cases (unlock : deed rw k = .unlock o) :
    k = .readerAdmitted ∧ o = .reading ∨ k = .writerAdmitted ∧ o = .writing ∨
      (k = .readerLeft ∨ k = .writerLeft) ∧ o = .idle := by
  cases k with
  | readerTest | writerTest =>
    simp only [deed] at unlock
    split at unlock <;> cases unlock
  | readerAdmitted | writerAdmitted | readerLeft | writerLeft =>
    cases unlock
    simp
  | _ => cases unlock

end Statements

/-! ## The counters -/

section Counters

def Out.readers (o : Out) : Int := if o = .reading then 1 else 0

def Out.writers (o : Out) : Int := if o = .writing then 1 else 0

def In.readers : In → Int
  | .readerAdmitted | .readerLeave => 1
  | _ => 0

def In.writers : In → Int
  | .writerAdmitted | .writerUncount | .writerLeave => 1
  | _ => 0

def In.counted : In → Int
  | .writerTest | .writerEnter | .writerAdmitted | .writerUncount => 1
  | _ => 0

def readers : Point → Int := Place.weigh Out.readers In.readers

def writers : Point → Int := Place.weigh Out.writers In.writers

def counted : Point → Int := Place.weigh Out.writers In.counted

theorem readers_eq (x : Point) : readers x = if ReaderInside x then 1 else 0 := by
  cases x with
  | out o => rfl
  | locking k | inside k | waiting c k => cases k <;> rfl

theorem writers_eq (x : Point) : writers x = if WriterInside x then 1 else 0 := by
  cases x with
  | out o => rfl
  | locking k | inside k | waiting c k => cases k <;> rfl

theorem readers_nonneg (x : Point) : 0 ≤ readers x := by
  rw [readers_eq]
  split <;> decide

theorem writers_nonneg (x : Point) : 0 ≤ writers x := by
  rw [writers_eq]
  split <;> decide

theorem counts_of_sets {value : ReadWriteLock → Int} {idle : Out → Int} {busy : In → Int}
    (sets : ∀ rw k rw' k', Sets rw k rw' k' → value rw' - busy k' = value rw - busy k)
    (outside : idle .idle = 0 ∧ idle .finished = 0 ∧ busy .readerTest = 0 ∧ busy .writerCount = 0 ∧
      busy .readerLeft = 0 ∧ busy .writerLeft = 0 ∧ busy .readerWake = 0 ∧ busy .writerWakeWriters = 0 ∧
      busy .writerWakeReaders = 0)
    (inside : busy .readerLeave = idle .reading ∧ busy .readerAdmitted = idle .reading ∧
      busy .writerUncount = idle .writing ∧ busy .writerAdmitted = idle .writing) : Counts rwlock value idle busy where
  call entry := by
    rcases lock_cases entry with ⟨rfl, rfl | rfl⟩ | ⟨rfl, rfl⟩ | ⟨rfl, rfl⟩ <;> omega
  skip entry := by
    obtain ⟨rfl, rfl⟩ := skip_cases entry
    omega
  set deed := sets _ _ _ _ (set_cases deed)
  broadcast deed := by
    rcases broadcast_cases deed with ⟨rfl, rfl, rfl⟩ | ⟨rfl, rfl, rfl⟩ | ⟨rfl, rfl, rfl⟩ <;> omega
  wait deed := by
    rcases wait_cases deed with ⟨rfl, -, rfl, -⟩ | ⟨rfl, -, rfl, -⟩ <;> rfl
  unlock deed := by
    rcases unlock_cases deed with ⟨rfl, rfl⟩ | ⟨rfl, rfl⟩ | ⟨rfl | rfl, rfl⟩ <;> omega

theorem readers_count : Counts rwlock (fun rw => rw.r) Out.readers In.readers := by
  refine counts_of_sets (fun rw k rw' k' set => ?_) (by decide) (by decide)
  cases set <;> simp [In.readers]

theorem writers_count : Counts rwlock (fun rw => rw.inw) Out.writers In.writers := by
  refine counts_of_sets (fun rw k rw' k' set => ?_) (by decide) (by decide)
  cases set <;> simp [In.writers]

theorem counted_count : Counts rwlock (fun rw => rw.w) Out.writers In.counted := by
  refine counts_of_sets (fun rw k rw' k' set => ?_) (by decide) (by decide)
  cases set <;> simp [In.counted]

end Counters

/-! ## What the threads have tested -/

def In.Rests (k : In) : Prop :=
  k = .readerTest ∨ k = .readerLeave ∨ k = .writerCount ∨ k = .writerTest ∨ k = .writerUncount

def Tested (rw : ReadWriteLock) : Point → Prop
  | .out _ => True
  | .locking k => k.Rests
  | .waiting c k => c = .cond_r ∧ k = .readerTest ∨ c = .cond_w ∧ k = .writerTest
  | .inside k => (k = .readerEnter → rw.w ≤ 0) ∧ (k = .writerEnter → rw.r ≤ 0 ∧ rw.inw ≤ 0)

theorem rests_of_waits {rw : ReadWriteLock} {c : Cond} {k : In} (waits : Tested rw (.waiting c k)) : k.Rests := by
  rcases waits with ⟨-, rfl⟩ | ⟨-, rfl⟩ <;> simp [In.Rests]

theorem tested_outline : Outline rwlock (fun _ _ _ => True) (fun _ => True) Tested where
  call entry _ := by
    rcases lock_cases entry with ⟨-, rfl | rfl⟩ | ⟨-, rfl⟩ | ⟨-, rfl⟩ <;> simp [Tested, In.Rests]
  skip _ _ := trivial
  lock _ _ rests := by
    rcases rests with rfl | rfl | rfl | rfl | rfl <;> simp [Tested]
  set deed _ := by
    cases set_cases deed with
    | readerTest free => exact ⟨fun _ => free, nofun⟩
    | writerTest free => exact ⟨nofun, fun _ => free⟩
    | _ => exact ⟨nofun, nofun⟩
  stable _ _ x outside there := by
    cases x with
    | inside k => exact absurd trivial outside
    | _ => exact there
  broadcast deed _ := by
    rcases broadcast_cases deed with ⟨-, -, rfl⟩ | ⟨-, -, rfl⟩ | ⟨-, -, rfl⟩ <;> exact ⟨nofun, nofun⟩
  notify _ _ _ waits := rests_of_waits waits
  wait deed _ := by
    rcases wait_cases deed with ⟨-, rfl, rfl, -⟩ | ⟨-, rfl, rfl, -⟩ <;> simp [Tested]
  unlock _ _ := ⟨trivial, trivial⟩
  spurious _ waits := rests_of_waits waits

/-- Without the mutex a writer is counted in `w` when it waits or is inside. -/
theorem counted_eq {rw : ReadWriteLock} {x : Point} (outside : ¬x.Inside) (there : Tested rw x) :
    counted x = if WriterInside x ∨ WriterWaiting x then 1 else 0 := by
  cases x with
  | out o => simp [counted, Place.weigh, WriterInside, WriterWaiting, Out.writers]
  | inside k => exact absurd trivial outside
  | locking k => rcases there with rfl | rfl | rfl | rfl | rfl <;> rfl
  | waiting c k => rcases rests_of_waits there with rfl | rfl | rfl | rfl | rfl <;> rfl

/-! ## The invariant -/

section Invariant

variable {Pid : Type*} [DecidableEq Pid] [Fintype Pid] {s t : State Pid} {p : Pid} {turn : Turn Call}
  {m : Move (Shared ReadWriteLock) Point}

omit [Fintype Pid] in
theorem entered {q : Pid} (taken : Taken rwlock s.shared turn (s.points p) m)
    (inside : ReaderInside ((s.after p m).points q)) :
    ReaderInside (s.points q) ∨ q = p ∧ s.points p = .inside .readerEnter := by
  by_cases same : q = p
  · rw [same, after_self] at inside
    rw [same]
    generalize s.points p = x at taken
    cases taken with
    | call entry =>
      rcases lock_cases entry with ⟨rfl, rfl | rfl⟩ | ⟨rfl, rfl⟩ | ⟨rfl, rfl⟩ <;> simp_all [ReaderInside]
    | skip entry =>
      obtain ⟨rfl, rfl⟩ := skip_cases entry
      cases inside
    | set deed => cases set_cases deed <;> simp_all [ReaderInside]
    | broadcast deed =>
      rcases broadcast_cases deed with ⟨rfl, rfl, rfl⟩ | ⟨rfl, rfl, rfl⟩ | ⟨rfl, rfl, rfl⟩ <;>
        simp [ReaderInside] at inside
    | wait deed => rcases wait_cases deed with ⟨rfl, -, rfl, -⟩ | ⟨rfl, -, rfl, -⟩ <;> simp [ReaderInside] at inside
    | unlock deed =>
      rcases unlock_cases deed with ⟨rfl, rfl⟩ | ⟨rfl, rfl⟩ | ⟨rfl | rfl, rfl⟩ <;> simp_all [ReaderInside]
    | lock | spurious => exact Or.inl inside
  · -- what a step does to the others changes no weight
    rw [after_of_ne s p m same] at inside
    have weight : readers (m.others (s.points q)) = readers (s.points q) := taken.weigh_others _ _ _
    have before := readers_eq (s.points q)
    have after := readers_eq (m.others (s.points q))
    rw [if_pos inside] at after
    left
    by_contra outside
    rw [if_neg outside] at before
    omega

structure Ordered (s : State Pid) : Prop where
  guarded : Guarded s
  readers : s.shared.data.r = total readers s
  writers : s.shared.data.inw = total writers s
  counted : s.shared.data.w = total counted s
  tested : Outlined (fun _ => True) Tested s
  apart : s.shared.data.inw ≤ 1 ∧ (s.shared.data.r ≤ 0 ∨ s.shared.data.inw ≤ 0)

omit [DecidableEq Pid] in
theorem ordered_initial : Ordered (initial : State Pid) where
  guarded := ⟨⟨fun _ _ => nofun, fun _ => nofun⟩, nofun⟩
  readers := (Finset.sum_eq_zero fun _ _ => rfl).symm
  writers := (Finset.sum_eq_zero fun _ _ => rfl).symm
  counted := (Finset.sum_eq_zero fun _ _ => rfl).symm
  tested := ⟨fun _ => trivial, fun _ => trivial⟩
  apart := ⟨Int.zero_le_ofNat 1, Or.inl le_rfl⟩

namespace Ordered

omit [DecidableEq Pid] in
/-- A writer inside is still counted in `w`, unless it has the mutex in `WriterUnlock`. -/
theorem inw_le_w (inv : Ordered s) {k : In} (here : s.points p = .inside k) (own : k.writers ≤ k.counted) :
    s.shared.data.inw ≤ s.shared.data.w := by
  rw [inv.writers, inv.counted]
  refine Finset.sum_le_sum fun q _ => ?_
  by_cases same : q = p
  · rw [same, here]
    exact own
  · have outside : ¬(s.points q).Inside := inv.guarded.alone (p := p) (by rw [here]; trivial) same
    rw [counted_eq outside (inv.tested.place q), writers_eq]
    by_cases inside : WriterInside (s.points q) <;> simp [inside]
    split <;> decide

theorem step (inv : Ordered s) (taken : Taken rwlock s.shared turn (s.points p) m) : Ordered (s.after p m) where
  guarded := inv.guarded.step taken
  readers := readers_count.step inv.readers taken
  writers := writers_count.step inv.writers taken
  counted := counted_count.step inv.counted taken
  tested := tested_outline.step inv.guarded inv.tested trivial taken
  apart := by
    have apart := inv.apart
    have tests := inv.tested.place p
    rw [after_shared]
    generalize here : s.points p = x at taken tests
    cases taken with
    | set deed =>
      cases set_cases deed with
      | readerEnter =>
        -- the loop saw no writer counted, so none is inside
        have below := inv.inw_le_w here (by decide)
        have free := tests.1 rfl
        dsimp only
        omega
      | writerEnter =>
        have free := tests.2 rfl
        dsimp only
        omega
      | _ =>
        dsimp only
        omega
    | _ => exact apart

theorem one_writer (inv : Ordered s) : AtMostOne WriterInside s := by
  have few := inv.apart.1
  rw [inv.writers] at few
  exact atMostOne_of_total_le_one writers_nonneg (fun x inside => by rw [writers_eq, if_pos inside]) few

omit [DecidableEq Pid] in
theorem no_reader_with_writer (inv : Ordered s) {p q : Pid} (reader : ReaderInside (s.points p)) :
    ¬WriterInside (s.points q) := by
  intro writer
  have some_reader := Threads.le_total (s := s) readers_nonneg p
  have some_writer := Threads.le_total (s := s) writers_nonneg q
  rw [← inv.readers, readers_eq, if_pos reader] at some_reader
  rw [← inv.writers, writers_eq, if_pos writer] at some_writer
  have apart := inv.apart
  omega

omit [DecidableEq Pid] in
theorem counters (inv : Ordered s) (free : s.shared.locked = false) :
    s.shared.data.r = (Finset.univ.filter fun p => ReaderInside (s.points p)).card ∧
    s.shared.data.inw = (Finset.univ.filter fun p => WriterInside (s.points p)).card ∧
    s.shared.data.w =
      (Finset.univ.filter fun p => WriterInside (s.points p) ∨ WriterWaiting (s.points p)).card := by
  rw [inv.readers, inv.writers, inv.counted]
  refine ⟨total_eq_card ReaderInside fun p => readers_eq _, total_eq_card WriterInside fun p => writers_eq _, ?_⟩
  exact total_eq_card (fun x => WriterInside x ∨ WriterWaiting x) fun p =>
    counted_eq (inv.guarded.not_inside free p) (inv.tested.place p)

/-- While some writer is counted no reader gets in. -/
theorem no_admission (inv : Ordered s) (taken : Taken rwlock s.shared turn (s.points p) m) (ahead : 0 < s.shared.data.w)
    {q : Pid} (inside : ReaderInside ((s.after p m).points q)) : ReaderInside (s.points q) := by
  rcases entered taken inside with before | ⟨-, here⟩
  · exact before
  · have tests := inv.tested.place p
    rw [here] at tests
    have free := tests.1 rfl
    omega

end Ordered

theorem ordered_of_run {ls : List (Pid × Turn Call)} (reached : Machine.run step initial ls = some s) : Ordered s :=
  Threads.invariant (I := Ordered) (fun _ _ _ _ inv call => inv.step (act_taken call)) ordered_initial reached

/-- One writer at most is inside, and no reader with it; the counters are what they say
whenever the mutex is free; and while a writer is counted no step lets a reader in. -/
theorem exclusion_and_priority {ls : List (Pid × Turn Call)} (reached : Machine.run step initial ls = some s) :
    AtMostOne WriterInside s ∧ (∀ p q, ReaderInside (s.points p) → ¬WriterInside (s.points q)) ∧
      (s.shared.locked = false →
        s.shared.data.r = (Finset.univ.filter fun p => ReaderInside (s.points p)).card ∧
        s.shared.data.inw = (Finset.univ.filter fun p => WriterInside (s.points p)).card ∧
        s.shared.data.w =
          (Finset.univ.filter fun p => WriterInside (s.points p) ∨ WriterWaiting (s.points p)).card) ∧
      (0 < s.shared.data.w → ∀ l t, step s l = some t →
        ∀ p, ReaderInside (t.points p) → ReaderInside (s.points p)) := by
  have inv := ordered_of_run reached
  refine ⟨inv.one_writer, fun p q => inv.no_reader_with_writer, inv.counters, ?_⟩
  intro ahead l t next q
  obtain ⟨p, turn⟩ := l
  obtain ⟨m, call, rfl⟩ := Threads.step_eq_some.mp next
  exact inv.no_admission (act_taken call) ahead

end Invariant

scoped instance neZeroTwo : NeZero 2 := ⟨by decide⟩

def readerThenWriter : List (Fin 2 × Turn Call) :=
  let go (p : Fin 2) (n : Nat) : List (Fin 2 × Turn Call) := List.replicate n (p, .go)
  [(0, .call .readerLock)] ++ go 0 4 ++ [(1, .call .writerLock)] ++ go 1 3

theorem exclusion_and_priority_waiting : ∃ s, Machine.run step initial readerThenWriter = some s ∧
    s.points 1 = .waiting .cond_w .writerTest ∧
    s.shared.data.r = (Finset.univ.filter fun p : Fin 2 => ReaderInside (s.points p)).card ∧
    ∀ l t, step s l = some t → ∀ p, ReaderInside (t.points p) → ReaderInside (s.points p) := by
  have facts : (Machine.run step initial readerThenWriter).any (fun s =>
      decide (s.points 1 = .waiting .cond_w .writerTest ∧ s.shared.locked = false ∧ 0 < s.shared.data.w)) = true := by
    decide +kernel
  obtain ⟨s, reached, last⟩ := (Option.any_eq_true _ _).mp facts
  obtain ⟨waits, free, ahead⟩ := of_decide_eq_true last
  obtain ⟨-, -, counters, priority⟩ := exclusion_and_priority reached
  exact ⟨s, reached, waits, (counters free).1, priority ahead⟩

end OsLabs.Rwlock
