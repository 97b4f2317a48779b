import OsLabs.KernelPipe.Stream

/-! Who sleeps on a pipe: writers while it is full and readers while it is empty, but for a
writer that is killed over bytes it has told no reader of. -/

set_option autoImplicit false

namespace OsLabs.KernelPipe

open OsLabs.Lib OsLabs.Lib.Monitor OsLabs.Lib.Threads

variable {Pid : Type*}

/-- What keeps a process asleep on a channel; a closed read end has no readers. -/
def Keeps (d : Pipe Pid) : Chan → Prop
  | .nread => d.empty = true ∧ d.writeopen = true ∨ d.readopen = false
  | .nwrite => d.full = true ∧ d.readopen = true

def Promises : Chan → In Pid → Prop
  | .nread, .writeTest _ _ fresh => fresh = true
  | .nread, .writeFull _ _ | .nread, .writeWake _ | .nread, .closeWake true => True
  | .nwrite, .readCopy _ _ got => got ≠ []
  | .nwrite, .readWake _ _ | .nwrite, .closeWake false => True
  | _, _ => False

def Found (d : Pipe Pid) : Point Pid → Prop
  | .inside (.writeFull _ _) | .inside (.writeSleep _ _) => Keeps d .nwrite
  | _ => True

theorem found_of_outside {d : Pipe Pid} {x : Point Pid} (outside : ¬x.Inside) : Found d x := by
  cases x with
  | inside k => exact absurd trivial outside
  | _ => trivial

theorem testedOutline : Outline (pipe : Program (Pipe Pid) _ _ _ _) (fun _ _ _ => True) Rests fun d x => Moved d x ∧ Found d x where
  call entry told := ⟨outline.call entry told.1, trivial⟩
  skip entry told := ⟨outline.skip entry told.1, trivial⟩
  lock {_ k} met rests told := by
    refine ⟨outline.lock met rests told.1, ?_⟩
    cases k with
    | writeFull | writeSleep => exact told.1.elim
    | _ => trivial
  set deed told := by
    refine ⟨outline.set deed told.1, ?_⟩
    cases set_cases deed with
    | writeFull w patience fresh full reader => exact ⟨full, reader⟩
    | _ => trivial
  stable deed told _ outside there := ⟨outline.stable deed told.1 _ outside there.1, found_of_outside outside⟩
  broadcast deed told := by
    refine ⟨outline.broadcast deed told.1, ?_⟩
    obtain ⟨w, patience, rfl, -, rfl⟩ | ⟨addr, rfl, -, rfl⟩ | ⟨n, got, rfl, -, rfl⟩ | ⟨writable, rfl, -, rfl⟩ :=
      broadcast_cases deed
    · exact told.2
    · trivial
    · trivial
    · trivial
  notify deed told j there := ⟨outline.notify deed told.1 j there.1, trivial⟩
  wait deed told := ⟨(outline.wait deed told.1).1, (outline.wait deed told.1).2, trivial⟩
  unlock deed told := ⟨(outline.unlock deed told.1).1, (outline.unlock deed told.1).2, trivial⟩
  spurious met told := ⟨outline.spurious met told.1, trivial⟩

section Promises

variable {d d' : Pipe Pid} {k k' : In Pid} {b c : Chan} {o : Out}

theorem not_empty_of_full (full : d.full = true) : ¬d.empty = true := by
  rw [full_iff] at full
  rw [empty_iff]
  omega

/-- Every statement that lets a sleeper go on is followed by its wakeup, except where a writer
gives up over bytes it has not announced. -/
theorem keeps_or_promises (sets : Sets d k d' k')
    (announced : ∀ w, k = .writeTest w (some 0) true → w.i < w.addr.length → c = .nread → d.full = true →
      d.readopen = false)
    (before : Keeps d c ∨ Promises c k) : Keeps d' c ∨ Promises c k' := by
  cases sets with
  | writeLast | writeFull =>
    cases c with
    | nread => exact .inr trivial
    | nwrite => exact .inl (before.resolve_right id)
  | writeGiveUp w patience fresh more full cut =>
    cases c with
    | nread =>
      have closed : d.readopen = false := by
        rcases before with (⟨none, -⟩ | closed) | promise
        · exact absurd none (not_empty_of_full full)
        · exact closed
        · rcases cut with closed | rfl
          · exact closed
          · obtain rfl : fresh = true := promise
            exact announced w rfl more rfl full
      exact .inl (.inr closed)
    | nwrite => exact .inl (before.resolve_right id)
  | writeByte w b patience fresh next room =>
    cases c with
    | nread => exact .inr rfl
    | nwrite => exact absurd (before.resolve_right id).1 room
  | readGiveUp | readBegin =>
    rcases before with keeps | promise
    · exact .inl keeps
    · cases c <;> exact promise.elim
  | readLast reader n got past =>
    cases c with
    | nread => exact .inl (before.resolve_right id)
    | nwrite => exact .inr trivial
  | readByte reader n got more some_of =>
    cases c with
    | nread =>
      rcases before with (⟨none, -⟩ | closed) | promise
      · exact absurd none some_of
      · exact .inl (.inr closed)
      · exact promise.elim
    | nwrite => exact .inr (by simp [Promises])
  | closeFlag writable =>
    have keeps : Keeps d c := before.resolve_right (by cases c <;> exact id)
    cases writable <;> cases c
    · exact .inl (.inr rfl)
    · exact .inr trivial
    · exact .inr trivial
    · exact .inl keeps

theorem promise_stays (promise : Promises c k) :
    (∀ b k', deed d k ≠ .wait b k') ∧ ∀ o, deed d k ≠ .unlock o := by
  constructor
  · intro b k' deed
    obtain ⟨w, patience, rfl, -, -⟩ | ⟨reader, n, patience, rfl, -, -⟩ := wait_cases deed <;> cases c <;> exact promise
  · intro o deed
    obtain ⟨addr, rfl, -⟩ | ⟨n, got, rfl, -⟩ | ⟨rfl | rfl, -⟩ | ⟨rfl, -⟩ :=
      unlock_cases deed <;> cases c <;> exact promise

theorem promise_kept (deed : deed d k = .broadcast b k') (other : b ≠ c) (promise : Promises c k) : Promises c k' := by
  obtain ⟨w, patience, rfl, rfl, rfl⟩ | ⟨addr, rfl, rfl, rfl⟩ | ⟨n, got, rfl, rfl, rfl⟩ | ⟨writable, rfl, rfl,
    rfl⟩ :=
    broadcast_cases deed
  · cases c with
    | nread => exact absurd rfl other
    | nwrite => exact promise
  · cases c with
    | nread => exact absurd rfl other
    | nwrite => exact promise
  · cases c with
    | nread => exact promise
    | nwrite => exact absurd rfl other
  · cases c <;> cases writable <;> first | exact promise | exact absurd rfl other

end Promises

section Runs

variable [DecidableEq Pid] {s : State Pid} {data : Fin 512 → UInt8} {ls : List (Pid × Turn Call)}
  {p : Pid} {turn : Turn Call} {m : Move (Shared (Pipe Pid)) (Point Pid)}

/-- No writer that finds itself killed gives up over bytes it has stored since it took the lock. -/
def Announced (s : State Pid) (l : Pid × Turn Call) : Prop :=
  ∀ w, s.points l.1 = .inside (.writeTest w (some 0) true) → w.i < w.addr.length → s.shared.data.full = true →
    s.shared.data.readopen = false

structure Watched (s : State Pid) (c : Chan) : Prop where
  guarded : Guarded s
  outlined : Outlined Rests (fun d x => Moved d x ∧ Found d x) s
  covered : Covered c (fun d _ => Keeps d c) (fun _ k => Promises c k) s

theorem Watched.step {c : Chan} (inv : Watched s c) (announced : c = .nread → Announced s (p, turn))
    (taken : Taken pipe s.shared (turn.map (p, ·)) (s.points p) m) : Watched (s.after p m) c where
  guarded := inv.guarded.step taken
  outlined := testedOutline.step inv.guarded inv.outlined trivial taken
  covered := by
    refine inv.covered.step inv.guarded taken ?_ ?_ promise_kept promise_stays
    · intro k k' point deed
      have told := inv.outlined.place p
      rw [point] at told
      obtain ⟨w, patience, rfl, rfl, rfl⟩ | ⟨reader, n, patience, rfl, rfl, rfl, waits⟩ := wait_cases deed
      · exact told.2
      · exact .inl waits
    · intro k d' k' q j point deed _ before
      refine keeps_or_promises (set_cases deed) (fun w here more reader full => ?_) before
      exact announced reader w (by rw [point, here]) more full

omit [DecidableEq Pid] in
theorem watched_pipealloc (c : Chan) : Watched (pipealloc data : State Pid) c where
  guarded := ⟨⟨fun p _ inside => inside.elim, fun p inside => inside.elim⟩, fun locked => absurd locked
    (by simp [pipealloc])⟩
  outlined := ⟨fun _ => ⟨⟨by simp [pipealloc], by simp [pipealloc, window]⟩, by simp [pipealloc, Pipe.read]⟩, fun _ => ⟨trivial,
    trivial⟩⟩
  covered q j waits := by simp [pipealloc] at waits

/-- With the lock free a writer sleeps only while the pipe is full and its read end open, and a
reader, in a run where every killed writer has announced its bytes, only while the pipe is empty
and its write end open. -/
theorem sleepers_kept (reached : Machine.run step (pipealloc data) ls = some s) (free : s.shared.locked = false) :
    (∀ p k, s.points p = .waiting .nwrite k → s.shared.data.full = true ∧ s.shared.data.readopen = true) ∧
      (Machine.EveryStep step Announced (pipealloc data) ls → s.shared.data.readopen = true →
        ∀ p k, s.points p = .waiting .nread k → s.shared.data.empty = true ∧ s.shared.data.writeopen = true) := by
  refine ⟨fun p k waits => ?_, fun announced reader p k waits => ?_⟩
  · have inv : Watched s .nwrite := by
      refine Machine.invariant (I := fun s => Watched s .nwrite) (fun s l t inv next => ?_) (watched_pipealloc _) reached
      obtain ⟨m, taken, rfl⟩ := step_taken next
      exact inv.step (by simp) taken
    exact inv.covered.blocked inv.guarded free waits
  · have inv : Watched s .nread := by
      refine Machine.invariant_of_everyStep (C := Announced) (I := fun s => Watched s .nread)
        (fun s l t inv met next => ?_) (watched_pipealloc _) announced reached
      obtain ⟨m, taken, rfl⟩ := step_taken next
      exact inv.step (fun _ => met) taken
    have keeps : Keeps s.shared.data .nread := inv.covered.blocked inv.guarded free waits
    exact keeps.resolve_right (by simp [reader])

def announces (s : State Pid) (l : Pid × Turn Call) : Bool :=
  match s.points l.1 with
  | .inside (.writeTest w (some 0) true) =>
    decide (w.addr.length ≤ w.i) || !s.shared.data.full || !s.shared.data.readopen
  | _ => true

omit [DecidableEq Pid] in
theorem announced_of_announces (s : State Pid) (l : Pid × Turn Call)
    (holds : announces s l = true) : Announced s l := by
  intro w here more full
  simpa [announces, here, full, Nat.not_le.mpr more] using holds

scoped instance neZeroTwo : NeZero 2 := ⟨by decide⟩

def readerSleeps : List (Fin 2 × Turn Call) := [(1, .call (.read 5 none)), (1, .go), (1, .go)]

theorem sleepers_kept_readerSleeps : ∃ s : State (Fin 2), s.points 1 = .waiting .nread (.readTest 1 5 none) ∧
    s.shared.data.empty = true ∧ s.shared.data.writeopen = true := by
  have ends : (Machine.run step (pipealloc fun _ => 0) readerSleeps).any
      (fun s => s.shared.locked == false && s.shared.data.readopen && s.points 1 == .waiting .nread
      (.readTest 1 5 none)) = true := by
    decide +kernel
  obtain ⟨s, reached, last⟩ := (Option.any_eq_true _ _).mp ends
  simp only [Bool.and_eq_true, beq_iff_eq] at last
  have announced : Machine.EveryStep step Announced (pipealloc fun _ => 0) readerSleeps :=
    Machine.everyStep_of_checkRun announced_of_announces (by decide +kernel)
  exact ⟨s, last.2, (sleepers_kept reached last.1.1).2 announced last.1.2 1 _ last.2⟩

-- a writer killed over a full pipe leaves the reader asleep that was there before it came
example : (Machine.run step (pipealloc fun _ => 0)
    (readerSleeps ++ (0, .call (.write (List.replicate 513 7) (some 0))) :: List.replicate 515 (0, .go))).any
      (fun s => s.shared.locked == false && s.shared.data.full && s.points 0 == .out .refused &&
        s.points 1 == .waiting .nread (.readTest 1 5 none)) = true := by
  decide +kernel

end Runs

end OsLabs.KernelPipe
