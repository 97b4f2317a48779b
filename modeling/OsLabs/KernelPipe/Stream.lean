import OsLabs.KernelPipe.Program

/-! The bytes of a pipe come out once each and in the order they went in. -/

set_option autoImplicit false

namespace OsLabs.KernelPipe

open OsLabs.Lib OsLabs.Lib.Monitor OsLabs.Lib.Threads

/-! ## The statements by kind -/

variable {Pid : Type*}

section Statements

variable {d d' : Pipe Pid} {k k' : In Pid} {o : Out} {c : Chan}

inductive Sets (d : Pipe Pid) : In Pid → Pipe Pid → In Pid → Prop where
  | writeLast (w : Writing Pid) (patience : Patience) (fresh : Bool) (all : w.addr.length ≤ w.i) :
      Sets d (.writeTest w patience fresh) (d.wrote w) (.writeWake w.addr)
  | writeGiveUp (w : Writing Pid) (patience : Patience) (fresh : Bool) (more : w.i < w.addr.length)
      (full : d.full = true) (cut : d.readopen = false ∨ patience = some 0) :
      Sets d (.writeTest w patience fresh) (d.wrote w) .writeFail
  | writeFull (w : Writing Pid) (patience : Patience) (fresh : Bool) (full : d.full = true)
      (reader : d.readopen = true) : Sets d (.writeTest w patience fresh) d (.writeFull w (patience.map Nat.pred))
  | writeByte (w : Writing Pid) (b : UInt8) (patience : Patience) (fresh : Bool) (next : w.addr[w.i]? = some b)
      (room : ¬d.full = true) :
      Sets d (.writeTest w patience fresh) (d.store w.writer b) (.writeTest { w with i := w.i + 1 } patience true)
  | readGiveUp (reader : Pid) (n : Nat) (patience : Patience) : Sets d (.readTest reader n patience) d .readFail
  | readBegin (reader : Pid) (n : Nat) (patience : Patience) (ready : ¬(d.empty = true ∧ d.writeopen = true)) :
      Sets d (.readTest reader n patience) d (.readCopy reader n [])
  | readLast (reader : Pid) (n : Nat) (got : List UInt8) (past : got.length = n ∨ d.empty = true) :
      Sets d (.readCopy reader n got) (d.finish reader got) (.readWake n got)
  | readByte (reader : Pid) (n : Nat) (got : List UInt8) (more : got.length ≠ n) (some_of : ¬d.empty = true) :
      Sets d (.readCopy reader n got) d.take (.readCopy reader n (got ++ [d.front]))
  | closeFlag (writable : Bool) : Sets d (.closeFlag writable) (d.close writable) (.closeWake writable)

theorem deed_writeTest (d : Pipe Pid) (w : Writing Pid) (patience : Patience) (fresh : Bool) :
    ∃ d' k', deed d (.writeTest w patience fresh) = .set d' k' ∧ Sets d (.writeTest w patience fresh) d' k' := by
  cases next : w.addr[w.i]? with
  | none =>
    simp only [deed, next]
    exact ⟨_, _, rfl, .writeLast w patience fresh (List.getElem?_eq_none_iff.mp next)⟩
  | some b =>
    obtain ⟨more, -⟩ := List.getElem?_eq_some_iff.mp next
    simp only [deed, next]
    by_cases full : d.full = true
    · rw [if_pos full]
      by_cases cut : d.readopen = false ∨ patience = some 0
      · rw [if_pos cut]
        exact ⟨_, _, rfl, .writeGiveUp w patience fresh more full cut⟩
      · rw [if_neg cut]
        have reader : d.readopen = true := Bool.eq_true_of_not_eq_false fun closed => cut (.inl closed)
        exact ⟨_, _, rfl, .writeFull w patience fresh full reader⟩
    · rw [if_neg full]
      exact ⟨_, _, rfl, .writeByte w b patience fresh next full⟩

theorem set_cases (set : deed d k = .set d' k') : Sets d k d' k' := by
  cases k with
  | writeTest w patience fresh =>
    obtain ⟨d₁, k₁, set', sets⟩ := deed_writeTest d w patience fresh
    cases set'.symm.trans set
    exact sets
  | readTest reader n patience =>
    simp only [deed] at set
    split at set
    next =>
      split at set
      next =>
        cases set
        exact .readGiveUp reader n patience
      next => cases set
    next ready =>
      cases set
      exact .readBegin reader n patience ready
  | readCopy reader n got =>
    simp only [deed] at set
    split at set
    next past =>
      cases set
      exact .readLast reader n got past
    next more =>
      cases set
      obtain ⟨more, some_of⟩ := not_or.mp more
      exact .readByte reader n got more some_of
  | closeFlag writable =>
    cases set
    exact .closeFlag writable
  | _ => cases set

theorem broadcast_cases (broadcast : deed d k = .broadcast c k') :
    (∃ w patience, k = .writeFull w patience ∧ c = .nread ∧ k' = .writeSleep w patience) ∨
      (∃ addr, k = .writeWake addr ∧ c = .nread ∧ k' = .writeDone addr) ∨
      (∃ n got, k = .readWake n got ∧ c = .nwrite ∧ k' = .readDone n got) ∨
      ∃ writable, k = .closeWake writable ∧ c = (if writable then .nread else .nwrite) ∧ k' = .closeDone := by
  cases k with
  | writeTest w patience fresh =>
    obtain ⟨d₁, k₁, set, -⟩ := deed_writeTest d w patience fresh
    cases set.symm.trans broadcast
  | readTest reader n patience =>
    simp only [deed] at broadcast
    split at broadcast
    next => split at broadcast <;> cases broadcast
    next => cases broadcast
  | readCopy reader n got =>
    simp only [deed] at broadcast
    split at broadcast <;> cases broadcast
  | writeFull | writeWake | readWake | closeWake =>
    cases broadcast
    simp
  | _ => cases broadcast

theorem wait_cases (wait : deed d k = .wait c k') :
    (∃ w patience, k = .writeSleep w patience ∧ c = .nwrite ∧ k' = .writeTest w patience false) ∨
      ∃ reader n patience, k = .readTest reader n patience ∧ c = .nread ∧
        k' = .readTest reader n (patience.map Nat.pred) ∧ d.empty = true ∧ d.writeopen = true := by
  cases k with
  | writeTest w patience fresh =>
    obtain ⟨d₁, k₁, set, -⟩ := deed_writeTest d w patience fresh
    cases set.symm.trans wait
  | readTest reader n patience =>
    simp only [deed] at wait
    split at wait
    next waits =>
      split at wait
      next => cases wait
      next =>
        cases wait
        exact .inr ⟨reader, n, patience, rfl, rfl, rfl, waits⟩
    next => cases wait
  | readCopy reader n got =>
    simp only [deed] at wait
    split at wait <;> cases wait
  | writeSleep w patience =>
    cases wait
    exact .inl ⟨w, patience, rfl, rfl, rfl⟩
  | _ => cases wait

theorem unlock_cases (unlock : deed d k = .unlock o) :
    (∃ addr, k = .writeDone addr ∧ o = .wrote addr addr.length) ∨ (∃ n got, k = .readDone n got ∧ o = .got n got) ∨
      (k = .writeFail ∨ k = .readFail) ∧ o = .refused ∨ k = .closeDone ∧ o = .idle := by
  cases k with
  | writeTest w patience fresh =>
    obtain ⟨d₁, k₁, set, -⟩ := deed_writeTest d w patience fresh
    cases set.symm.trans unlock
  | readTest reader n patience =>
    simp only [deed] at unlock
    split at unlock
    next => split at unlock <;> cases unlock
    next => cases unlock
  | readCopy reader n got =>
    simp only [deed] at unlock
    split at unlock <;> cases unlock
  | writeDone | readDone | writeFail | readFail | closeDone =>
    cases unlock
    simp
  | _ => cases unlock

end Statements

/-! ## The buffer -/

def window (d : Pipe Pid) : List UInt8 := ring d.data d.nread.toNat (d.nwrite - d.nread).toNat

/-- What was stored is what was taken and what is still there. -/
structure Flow (d : Pipe Pid) : Prop where
  few : (d.nwrite - d.nread).toNat ≤ 512
  order : d.stored.map Prod.snd = d.taken ++ window d

section Counters

variable {d : Pipe Pid}

theorem window_length (d : Pipe Pid) : (window d).length = (d.nwrite - d.nread).toNat := length_ring ..

theorem empty_iff (d : Pipe Pid) : d.empty = true ↔ (d.nwrite - d.nread).toNat = 0 := by
  rw [Pipe.empty, beq_iff_eq]
  bv_omega

theorem full_iff (d : Pipe Pid) : d.full = true ↔ (d.nwrite - d.nread).toNat = 512 := by
  rw [Pipe.full, beq_iff_eq]
  bv_omega

theorem Flow.store (flow : Flow d) (room : ¬d.full = true) (writer : Pid) (b : UInt8) : Flow (d.store writer b) := by
  have fewer : (d.nwrite - d.nread).toNat < 512 := by
    have few := flow.few
    have apart := mt (full_iff d).mpr room
    omega
  have more : (d.nwrite + 1 - d.nread).toNat = (d.nwrite - d.nread).toNat + 1 := by bv_omega
  have last : d.nwrite.toNat % 512 = (d.nread.toNat + (d.nwrite - d.nread).toNat) % 512 := by bv_omega
  have slot : Fin.ofNat 512 d.nwrite.toNat = Fin.ofNat 512 (d.nread.toNat + (d.nwrite - d.nread).toNat) := Fin.ext last
  have here : window (d.store writer b) = window d ++ [b] := by
    simp only [window, Pipe.store, more]
    rw [slot, ring_succ, ring_update d.data _ fewer, Function.update_self]
  refine ⟨more ▸ fewer, ?_⟩
  rw [here, Pipe.store, List.map_append, flow.order, List.append_assoc]
  rfl

theorem Flow.take (flow : Flow d) (some_of : ¬d.empty = true) : Flow d.take := by
  have positive := mt (empty_iff d).mpr some_of
  have few := flow.few
  have fewer : (d.nwrite - d.nread).toNat = (d.nwrite - (d.nread + 1)).toNat + 1 := by bv_omega
  have place : (d.nread.toNat + 1) % 512 = (d.nread + 1).toNat % 512 := by bv_omega
  have here : window d = d.front :: window d.take := by
    simp only [window, Pipe.take, fewer]
    rw [ring_cons, ring_congr d.data _ place]
    rfl
  refine ⟨?_, ?_⟩
  · change (d.nwrite - (d.nread + 1)).toNat ≤ 512
    omega
  · change d.stored.map Prod.snd = d.taken ++ [d.front] ++ window d.take
    rw [flow.order, here, List.append_assoc]
    rfl

end Counters

def Pipe.read (d : Pipe Pid) : List UInt8 := (d.returned.map Prod.snd).flatten

def Moves (d : Pipe Pid) : In Pid → Prop
  | .readCopy _ n got =>
    d.taken = d.read ++ got ∧ got.length ≤ n ∧ (got = [] → n = 0 ∨ ¬d.empty = true ∨ d.writeopen = false)
  | .readWake n got | .readDone n got =>
    d.taken = d.read ∧ got.length ≤ n ∧ (got = [] → n = 0 ∨ d.writeopen = false)
  | _ => d.taken = d.read

def Moved (d : Pipe Pid) : Point Pid → Prop
  | .out (.wrote addr n) => n = addr.length
  | .out (.got n bytes) => bytes.length ≤ n ∧ (bytes = [] → n = 0 ∨ d.writeopen = false)
  | .out _ => True
  | .locking (.writeTest _ _ _) | .waiting _ (.writeTest _ _ _) => True
  | .locking (.readTest _ _ _) | .waiting _ (.readTest _ _ _) | .locking (.closeFlag _) => True
  | .locking _ | .waiting _ _ => False
  | .inside k => Flow d ∧ Moves d k

def Rests (d : Pipe Pid) : Prop := Flow d ∧ d.taken = d.read

theorem Moved.of_writeopen {d d' : Pipe Pid} (writeopen : d.writeopen = false → d'.writeopen = false) {x : Point Pid}
    (outside : ¬x.Inside) (moved : Moved d x) : Moved d' x := by
  unfold Moved at moved ⊢
  split at moved
  · exact moved
  · exact ⟨moved.1, fun none => (moved.2 none).imp_right writeopen⟩
  · trivial
  · trivial
  · trivial
  · trivial
  · trivial
  · trivial
  · exact moved
  · exact moved
  · exact absurd trivial outside

section Outlines

variable {d d' : Pipe Pid} {k k' : In Pid}

theorem Sets.writeopen (sets : Sets d k d' k') : d.writeopen = false → d'.writeopen = false := by
  cases sets with
  | closeFlag writable =>
    cases writable
    · exact id
    · exact fun _ => rfl
  | _ => exact id

theorem Sets.flow (sets : Sets d k d' k') (flow : Flow d) : Flow d' := by
  cases sets with
  | writeByte w b patience fresh next room => exact flow.store room w.writer b
  | readByte reader n got more some_of => exact flow.take some_of
  | writeLast | writeGiveUp | readLast => exact ⟨flow.few, flow.order⟩
  | closeFlag writable => cases writable <;> exact ⟨flow.few, flow.order⟩
  | _ => exact flow

theorem Sets.moves (sets : Sets d k d' k') (moves : Moves d k) : Moves d' k' := by
  cases sets with
  | readBegin reader n patience ready =>
    refine ⟨moves.trans (List.append_nil _).symm, Nat.zero_le n, fun _ => ?_⟩
    by_cases some_of : d.empty = true
    · exact .inr (.inr (Bool.eq_false_iff.mpr fun opened => ready ⟨some_of, opened⟩))
    · exact .inr (.inl some_of)
  | readLast reader n got past =>
    obtain ⟨taken, few, reason⟩ := moves
    refine ⟨?_, few, fun none => ?_⟩
    · have more : (d.finish reader got).read = d.read ++ got := by simp [Pipe.read, Pipe.finish]
      rw [more]
      exact taken
    · rcases reason none with zero | some_of | closed
      · exact .inl zero
      · rcases past with full | nothing
        · rw [none, List.length_nil] at full
          exact .inl full.symm
        · exact absurd nothing some_of
      · exact .inr closed
  | readByte reader n got more some_of =>
    obtain ⟨taken, few, -⟩ := moves
    refine ⟨?_, ?_, fun none => absurd none (by simp)⟩
    · change d.taken ++ [d.front] = d.read ++ (got ++ [d.front])
      rw [taken, List.append_assoc]
    · rw [List.length_append, List.length_singleton]
      omega
  | closeFlag writable => cases writable <;> exact moves
  | _ => exact moves

end Outlines

theorem outline : Outline (pipe : Program (Pipe Pid) _ _ _ _) (fun _ _ _ => True) Rests Moved where
  call {_ _ a _} entry _ := by
    obtain ⟨p, a⟩ := a
    cases a <;> cases entry <;> trivial
  skip {_ _ a _} entry _ := by
    obtain ⟨p, a⟩ := a
    cases a <;> cases entry
  lock {_ k} _ rests moved := by
    cases k with
    | writeTest | readTest | closeFlag => exact rests
    | _ => exact moved.elim
  set deed moved := ⟨(set_cases deed).flow moved.1, (set_cases deed).moves moved.2⟩
  stable deed _ _ outside moved := moved.of_writeopen (set_cases deed).writeopen outside
  broadcast deed moved := by
    obtain ⟨w, patience, rfl, -, rfl⟩ | ⟨addr, rfl, -, rfl⟩ | ⟨n, got, rfl, -, rfl⟩ | ⟨writable, rfl, -, rfl⟩ :=
      broadcast_cases deed <;> exact moved
  notify _ _ j moved := by
    cases j with
    | closeFlag => exact moved.elim
    | _ => exact moved
  wait deed moved := by
    obtain ⟨w, patience, rfl, -, rfl⟩ | ⟨reader, n, patience, rfl, -, rfl, -⟩ := wait_cases deed
    · exact ⟨moved, trivial⟩
    · exact ⟨moved, trivial⟩
  unlock deed moved := by
    obtain ⟨flow, moves⟩ := moved
    obtain ⟨addr, rfl, rfl⟩ | ⟨n, got, rfl, rfl⟩ | ⟨rfl | rfl, rfl⟩ | ⟨rfl, rfl⟩ := unlock_cases deed
    · exact ⟨⟨flow, moves⟩, rfl⟩
    · exact ⟨⟨flow, moves.1⟩, moves.2⟩
    · exact ⟨⟨flow, moves⟩, trivial⟩
    · exact ⟨⟨flow, moves⟩, trivial⟩
    · exact ⟨⟨flow, moves⟩, trivial⟩
  spurious {_ _ k} _ moved := by
    cases k with
    | closeFlag => exact moved.elim
    | _ => exact moved

/-! ## What the writers have stored -/

def In.underway : In Pid → Option (Writing Pid)
  | .writeTest w _ _ | .writeFull w _ | .writeSleep w _ => some w
  | _ => none

def In.through : In Pid → Option (List UInt8)
  | .writeWake addr | .writeDone addr => some addr
  | _ => none

def underway : Point Pid → Option (Writing Pid)
  | .out _ => none
  | .locking k | .inside k | .waiting _ k => k.underway

def through : Point Pid → Option (List UInt8)
  | .out (.wrote addr _) => some addr
  | .out _ => none
  | .locking k | .inside k | .waiting _ k => k.through

theorem underway_notify (c : Chan) (x : Point Pid) : underway (x.notify c) = underway x := by
  cases x with
  | waiting b k =>
    simp only [Place.notify]
    split <;> rfl
  | _ => rfl

theorem through_notify (c : Chan) (x : Point Pid) : through (x.notify c) = through x := by
  cases x with
  | waiting b k =>
    simp only [Place.notify]
    split <;> rfl
  | _ => rfl

def request : Turn Call → Option (List UInt8)
  | .call (.write addr _) => some addr
  | _ => none

/-- What a step of a process does to its `pipewrite`: nothing, or it begins one, stores the
next byte, or ends it. -/
inductive Advances (p : Pid) (d d' : Pipe Pid) (x y : Point Pid) : Option (List UInt8) → Prop where
  | same (stored : d'.stored = d.stored) (written : d'.written = d.written) (loops : underway y = underway x)
      (past : ∀ addr ∈ through y, addr ∈ through x) : Advances p d d' x y none
  | begins (addr : List UInt8) (stored : d'.stored = d.stored) (written : d'.written = d.written)
      (before : underway x = none) (loops : underway y = some { writer := p, addr, i := 0 })
      (past : through y = none) : Advances p d d' x y (some addr)
  | stores (w : Writing Pid) (b : UInt8) (next : w.addr[w.i]? = some b)
      (stored : d'.stored = d.stored ++ [(w.writer, b)]) (written : d'.written = d.written)
      (before : underway x = some w) (loops : underway y = some { w with i := w.i + 1 })
      (past : through y = none) : Advances p d d' x y none
  | ends (w : Writing Pid) (stored : d'.stored = d.stored) (written : d'.written = d.written ++ [w])
      (before : underway x = some w) (loops : underway y = none)
      (past : ∀ addr ∈ through y, addr = w.addr ∧ addr.length ≤ w.i) : Advances p d d' x y none

theorem Sets.advances {d d' : Pipe Pid} {k k' : In Pid} (sets : Sets d k d' k') (p : Pid) :
    Advances p d d' (.inside k) (.inside k') none := by
  cases sets with
  | writeLast w patience fresh all =>
    refine .ends w rfl rfl rfl rfl fun addr past => ?_
    cases past
    exact ⟨rfl, all⟩
  | writeGiveUp w => exact .ends w rfl rfl rfl rfl fun addr past => by cases past
  | writeFull => exact .same rfl rfl rfl fun addr past => past
  | writeByte w b patience fresh next => exact .stores w b next rfl rfl rfl rfl rfl
  | closeFlag writable => cases writable <;> exact .same rfl rfl rfl fun addr past => past
  | _ => exact .same rfl rfl rfl fun addr past => past

theorem Taken.advances {s : Shared (Pipe Pid)} {p : Pid} {turn : Turn Call} {x : Point Pid}
    {m : Move (Shared (Pipe Pid)) (Point Pid)} (taken : Taken pipe s (turn.map (p, ·)) x m) :
    Advances p s.data m.shared.data x m.point (request turn) := by
  cases turn with
  | call a =>
    generalize called : (Turn.call a).map (p, ·) = turn at taken
    cases taken with
    | call entry =>
      cases called
      cases a with
      | write addr patience =>
        cases entry
        exact .begins addr rfl rfl rfl rfl rfl
      | _ =>
        cases entry
        exact .same rfl rfl rfl fun addr past => by cases past
    | skip entry =>
      cases called
      cases a <;> cases entry
    | _ => cases called
  | go =>
    generalize called : (Turn.go : Turn Call).map (p, ·) = turn at taken
    cases taken with
    | lock => exact .same rfl rfl rfl fun addr past => past
    | set deed => exact (set_cases deed).advances p
    | broadcast deed =>
      obtain ⟨w, patience, rfl, -, rfl⟩ | ⟨addr, rfl, -, rfl⟩ | ⟨n, got, rfl, -, rfl⟩ | ⟨writable, rfl, -, rfl⟩ :=
        broadcast_cases deed <;> exact .same rfl rfl rfl fun addr past => past
    | wait deed =>
      obtain ⟨w, patience, rfl, -, rfl⟩ | ⟨reader, n, patience, rfl, -, rfl, -⟩ := wait_cases deed <;>
        exact .same rfl rfl rfl fun addr past => past
    | unlock deed =>
      obtain ⟨addr, rfl, rfl⟩ | ⟨n, got, rfl, rfl⟩ | ⟨rfl | rfl, rfl⟩ | ⟨rfl, rfl⟩ := unlock_cases deed <;>
        exact .same rfl rfl rfl fun addr past => past
    | _ => cases called
  | spurious =>
    generalize called : (Turn.spurious : Turn Call).map (p, ·) = turn at taken
    cases taken with
    | spurious => exact .same rfl rfl rfl fun addr past => past
    | _ => cases called

section Records

variable [DecidableEq Pid] {d d' : Pipe Pid} {p q : Pid} {x y : Point Pid} {asked : List (List UInt8)}
  {call : Option (List UInt8)}

def Pipe.storedBy (d : Pipe Pid) (p : Pid) : List UInt8 := (d.stored.filter (·.1 = p)).map Prod.snd

def Pipe.writtenBy (d : Pipe Pid) (p : Pid) : List (Writing Pid) := d.written.filter (·.writer = p)

/-- The calls of `pipewrite` a process has made, the one it is in included. -/
def writes (d : Pipe Pid) (p : Pid) (x : Point Pid) : List (Writing Pid) := d.writtenBy p ++ (underway x).toList

/-- The history is right about a process: its writes are of the bytes it asked to write, it has
stored of them what they are through with, and the last one all its bytes if it is past its
loops. -/
structure Recorded (asked : List (List UInt8)) (d : Pipe Pid) (p : Pid) (x : Point Pid) : Prop where
  own : ∀ w ∈ underway x, w.writer = p
  calls : (writes d p x).map Writing.addr = asked
  bytes : ((writes d p x).map Writing.sent).flatten = d.storedBy p
  last : ∀ addr ∈ through x, ∃ w ∈ (d.writtenBy p).getLast?, w.addr = addr ∧ addr.length ≤ w.i

theorem Recorded.advance (recorded : Recorded asked d p x) (advances : Advances p d d' x y call) :
    Recorded (asked ++ call.toList) d' p y := by
  obtain ⟨own, calls, bytes, last⟩ := recorded
  unfold writes at calls bytes
  cases advances with
  | same stored written loops past =>
    refine ⟨?_, ?_, ?_, fun addr here => ?_⟩
    · rwa [loops]
    · simpa [writes, Pipe.writtenBy, written, loops] using calls
    · simpa [writes, Pipe.writtenBy, Pipe.storedBy, stored, written, loops] using bytes
    · simpa [Pipe.writtenBy, written] using last addr (past addr here)
  | begins addr stored written before loops past =>
    rw [before] at calls bytes
    refine ⟨?_, ?_, ?_, fun addr here => ?_⟩
    · rw [loops]
      rintro w ⟨⟩
      rfl
    · simpa [writes, Pipe.writtenBy, written, loops] using calls
    · simpa [writes, Pipe.writtenBy, Pipe.storedBy, stored, written, loops, Writing.sent] using bytes
    · rw [past] at here
      cases here
  | stores w b next stored written before loops past =>
    have owner := own w before
    rw [before] at calls bytes
    refine ⟨?_, ?_, ?_, fun addr here => ?_⟩
    · rw [loops]
      rintro w ⟨⟩
      exact owner
    · simpa [writes, Pipe.writtenBy, written, loops] using calls
    · have more : ({ w with i := w.i + 1 } : Writing Pid).sent = w.sent ++ [b] := by
        simp [Writing.sent, List.take_add_one, next]
      have before : d'.storedBy p = d.storedBy p ++ [b] := by simp [Pipe.storedBy, stored, owner]
      rw [before, ← bytes]
      simp [writes, Pipe.writtenBy, written, loops, more]
    · rw [past] at here
      cases here
  | ends w stored written before loops past =>
    have owner := own w before
    rw [before] at calls bytes
    have whole : d'.writtenBy p = d.writtenBy p ++ [w] := by simp [Pipe.writtenBy, written, owner]
    refine ⟨by simp [loops], ?_, ?_, fun addr here => ?_⟩
    · simpa [writes, whole, loops] using calls
    · simpa [writes, whole, loops, Pipe.storedBy, stored] using bytes
    · obtain ⟨rfl, all⟩ := past addr here
      exact ⟨w, by simp [whole], rfl, all⟩

theorem Recorded.beside {z z' : Point Pid} (recorded : Recorded asked d q z) (other : p ≠ q)
    (own : ∀ w ∈ underway x, w.writer = p) (advances : Advances p d d' x y call) (loops : underway z' = underway z)
    (past : through z' = through z) : Recorded asked d' q z' := by
  have same : d'.storedBy q = d.storedBy q ∧ d'.writtenBy q = d.writtenBy q := by
    unfold Pipe.storedBy Pipe.writtenBy
    cases advances with
    | same stored written | begins addr stored written => exact ⟨by rw [stored], by rw [written]⟩
    | stores w b next stored written before =>
      have owner := own w before
      exact ⟨by simp [stored, owner, other], by rw [written]⟩
    | ends w stored written before =>
      have owner := own w before
      exact ⟨by rw [stored], by simp [written, owner, other]⟩
  obtain ⟨own, calls, bytes, last⟩ := recorded
  unfold writes at calls bytes
  refine ⟨by rwa [loops], ?_, ?_, ?_⟩
  · rw [writes, same.2, loops]
    exact calls
  · rw [writes, same.1, same.2, loops]
    exact bytes
  · rw [past, same.2]
    exact last

end Records

/-! ## What the readers were left with -/

def In.reader : In Pid → Option Pid
  | .readTest reader _ _ | .readCopy reader _ _ => some reader
  | _ => none

def In.received : In Pid → Option (List UInt8)
  | .readWake _ got | .readDone _ got => some got
  | _ => none

def reader : Point Pid → Option Pid
  | .out _ => none
  | .locking k | .inside k | .waiting _ k => k.reader

def received : Point Pid → Option (List UInt8)
  | .out (.got _ bytes) => some bytes
  | .out _ => none
  | .locking k | .inside k | .waiting _ k => k.received

theorem reader_notify (c : Chan) (x : Point Pid) : reader (x.notify c) = reader x := by
  cases x with
  | waiting b k =>
    simp only [Place.notify]
    split <;> rfl
  | _ => rfl

theorem received_notify (c : Chan) (x : Point Pid) : received (x.notify c) = received x := by
  cases x with
  | waiting b k =>
    simp only [Place.notify]
    split <;> rfl
  | _ => rfl

inductive Receives (p : Pid) (d d' : Pipe Pid) (x y : Point Pid) : Prop where
  | same (returned : d'.returned = d.returned) (own : ∀ r ∈ reader y, r = p ∨ r ∈ reader x)
      (past : ∀ got ∈ received y, got ∈ received x)
  | ends (r : Pid) (got : List UInt8) (returned : d'.returned = d.returned ++ [(r, got)]) (before : r ∈ reader x)
      (own : reader y = none) (past : received y = some got)

theorem Sets.receives {d d' : Pipe Pid} {k k' : In Pid} (sets : Sets d k d' k') (p : Pid) :
    Receives p d d' (.inside k) (.inside k') := by
  cases sets with
  | readLast r n got => exact .ends r got rfl rfl rfl rfl
  | closeFlag writable => cases writable <;> exact .same rfl (fun r own => .inr own) fun got past => past
  | readGiveUp | writeLast | writeGiveUp => exact .same rfl (fun r own => by cases own) fun got past => by cases past
  | _ => exact .same rfl (fun r own => .inr own) fun got past => past

theorem Taken.receives {s : Shared (Pipe Pid)} {p : Pid} {turn : Turn Call} {x : Point Pid}
    {m : Move (Shared (Pipe Pid)) (Point Pid)} (taken : Taken pipe s (turn.map (p, ·)) x m) :
    Receives p s.data m.shared.data x m.point := by
  generalize called : turn.map (p, ·) = given at taken
  cases taken with
  | @call o a k entry =>
    obtain ⟨q, a⟩ := a
    cases turn with
    | call b =>
      cases called
      cases a <;> cases entry
      · exact .same rfl (fun r own => by cases own) fun got past => by cases past
      · refine .same rfl (fun r own => ?_) fun got past => by cases past
        cases own
        exact .inl rfl
      · exact .same rfl (fun r own => by cases own) fun got past => by cases past
    | _ => cases called
  | @skip o o' a entry =>
    obtain ⟨q, a⟩ := a
    cases a <;> cases entry
  | set deed => exact (set_cases deed).receives p
  | broadcast deed =>
    obtain ⟨w, patience, rfl, -, rfl⟩ | ⟨addr, rfl, -, rfl⟩ | ⟨n, got, rfl, -, rfl⟩ | ⟨writable, rfl, -, rfl⟩ :=
      broadcast_cases deed <;> exact .same rfl (fun r own => .inr own) fun got past => past
  | wait deed =>
    obtain ⟨w, patience, rfl, -, rfl⟩ | ⟨r, n, patience, rfl, -, rfl, -⟩ := wait_cases deed <;>
      exact .same rfl (fun r own => .inr own) fun got past => past
  | unlock deed =>
    obtain ⟨addr, rfl, rfl⟩ | ⟨n, got, rfl, rfl⟩ | ⟨rfl | rfl, rfl⟩ | ⟨rfl, rfl⟩ := unlock_cases deed <;>
      exact .same rfl (fun r own => .inr own) fun got past => past
  | lock | spurious => exact .same rfl (fun r own => .inr own) fun got past => past

def Pipe.returnedTo [DecidableEq Pid] (d : Pipe Pid) (p : Pid) : List (List UInt8) :=
  (d.returned.filter (·.1 = p)).map Prod.snd

structure Received [DecidableEq Pid] (d : Pipe Pid) (p : Pid) (x : Point Pid) : Prop where
  own : ∀ r ∈ reader x, r = p
  last : ∀ got ∈ received x, (d.returnedTo p).getLast? = some got

section Receipts

variable [DecidableEq Pid] {d d' : Pipe Pid} {p q : Pid} {x y : Point Pid}

theorem Received.advance (inv : Received d p x) (receives : Receives p d d' x y) : Received d' p y := by
  cases receives with
  | same returned own past =>
    refine ⟨fun r member => (own r member).elim id (inv.own r), fun got here => ?_⟩
    rw [Pipe.returnedTo, returned]
    exact inv.last got (past got here)
  | ends r got returned before own past =>
    obtain rfl := inv.own r before
    refine ⟨by simp [own], fun got' here => ?_⟩
    cases past.symm.trans here
    simp [Pipe.returnedTo, returned]

theorem Received.beside {z z' : Point Pid} (inv : Received d q z) (other : p ≠ q) (own : ∀ r ∈ reader x, r = p)
    (receives : Receives p d d' x y) (reads : reader z' = reader z) (past : received z' = received z) :
    Received d' q z' := by
  have same : d'.returnedTo q = d.returnedTo q := by
    cases receives with
    | same returned => rw [Pipe.returnedTo, returned, Pipe.returnedTo]
    | ends r got returned before =>
      obtain rfl := own r before
      simp [Pipe.returnedTo, returned, other]
  refine ⟨by rw [reads]; exact inv.own, ?_⟩
  rw [past, same]
  exact inv.last

end Receipts

section Runs

variable [DecidableEq Pid] {s t : State Pid} {data : Fin 512 → UInt8} {ls : List (Pid × Turn Call)} {p : Pid}
  {turn : Turn Call}

theorem step_taken (next : step s (p, turn) = some t) :
    ∃ m, Taken pipe s.shared (turn.map (p, ·)) (s.points p) m ∧ s.after p m = t := by
  obtain ⟨m, call, rfl⟩ := Threads.step_eq_some.mp next
  exact ⟨m, act_taken call, rfl⟩

/-- What a process has asked to write in a run, call by call. -/
def requests (p : Pid) (ls : List (Pid × Turn Call)) : List (List UInt8) :=
  ls.filterMap fun (q, turn) => if q = p then request turn else none

theorem requests_snoc (p q : Pid) (ls : List (Pid × Turn Call)) (turn : Turn Call) :
    requests p (ls ++ [(q, turn)]) = requests p ls ++ if q = p then (request turn).toList else [] := by
  unfold requests
  rw [List.filterMap_append]
  congr 1
  by_cases same : q = p
  · cases asked : request turn <;> simp [same, asked]
  · simp [same]

theorem recorded_of_run (reached : Machine.run step (pipealloc data) ls = some s) (p : Pid) :
    Recorded (requests p ls) s.shared.data p (s.points p) := by
  revert p
  refine Machine.run_induction (P := fun ls s => ∀ p, Recorded (requests p ls) s.shared.data p (s.points p)) ?_ ?_ reached
  · exact fun p => ⟨fun w own => (by cases own), rfl, rfl, fun addr past => (by cases past)⟩
  · intro ls s l t _ before next q
    obtain ⟨p, turn⟩ := l
    obtain ⟨m, taken, rfl⟩ := step_taken next
    have advances := Taken.advances taken
    rw [requests_snoc, after_shared]
    by_cases same : p = q
    · rw [if_pos same, ← same, after_self]
      exact (before p).advance advances
    · rw [if_neg same, List.append_nil, after_of_ne s p m (Ne.symm same)]
      exact (before q).beside same (before p).own advances (taken.view_others underway_notify _)
        (taken.view_others through_notify _)

theorem received_of_run (reached : Machine.run step (pipealloc data) ls = some s) (p : Pid) :
    Received s.shared.data p (s.points p) := by
  revert p
  refine Machine.invariant (I := fun s : State Pid => ∀ p, Received s.shared.data p (s.points p)) (fun s l t before next q => ?_)
    (fun p => ⟨fun r own => (by cases own), fun got past => (by cases past)⟩) reached
  obtain ⟨p, turn⟩ := l
  obtain ⟨m, taken, rfl⟩ := step_taken next
  have receives := Taken.receives taken
  rw [after_shared]
  by_cases same : p = q
  · rw [← same, after_self]
    exact (before p).advance receives
  · rw [after_of_ne s p m (Ne.symm same)]
    exact (before q).beside same (before p).own receives (taken.view_others reader_notify _)
      (taken.view_others received_notify _)

theorem outlined_of_run (reached : Machine.run step (pipealloc data) ls = some s) : Guarded s ∧
    Outlined Rests Moved s := by
  refine Machine.invariant (I := fun s : State Pid => Guarded s ∧ Outlined Rests Moved s) (fun s l t inv next => ?_)
    ?_ reached
  · obtain ⟨m, taken, rfl⟩ := step_taken next
    exact ⟨inv.1.step taken, outline.step inv.1 inv.2 trivial taken⟩
  · refine ⟨⟨⟨fun p _ inside => inside.elim, fun p inside => inside.elim⟩, fun locked => absurd locked
      (by simp [pipealloc])⟩,
      fun _ => ⟨⟨?_, ?_⟩, ?_⟩, fun _ => trivial⟩
    · simp [pipealloc]
    · simp [pipealloc, window]
    · simp [pipealloc, Pipe.read]

/-- Every byte stored comes out once and in order: what is stored is what the calls of `piperead`
were left with, one after the other, and the bytes still in the buffer, of which there are 512 at
most. The writes of a process are of the bytes it asked to write, call by call, and it has stored
what they are through with, in order and nothing else; one that returns `n` is through with all
its `n` bytes. A read that returns is left with bytes of its own, and with none only where the
write end is closed. -/
theorem fifo (reached : Machine.run step (pipealloc data) ls = some s) :
    (s.shared.locked = false → s.shared.data.stored.map Prod.snd = s.shared.data.read ++ window s.shared.data ∧
      (window s.shared.data).length ≤ 512) ∧
    (∀ p, (writes s.shared.data p (s.points p)).map Writing.addr = requests p ls ∧
      ((writes s.shared.data p (s.points p)).map Writing.sent).flatten = s.shared.data.storedBy p) ∧
    (∀ p addr n, s.points p = .out (.wrote addr n) → n = addr.length ∧
      ∃ w ∈ (writes s.shared.data p (s.points p)).getLast?, w.addr = addr ∧ w.sent = addr) ∧
    ∀ p n bytes, s.points p = .out (.got n bytes) → (s.shared.data.returnedTo p).getLast? = some bytes ∧
      bytes.length ≤ n ∧ (bytes = [] → n = 0 ∨ s.shared.data.writeopen = false) := by
  obtain ⟨-, free, place⟩ := outlined_of_run reached
  refine ⟨fun unlocked => ?_, fun p => ?_, fun p addr n here => ?_, fun p n bytes here => ?_⟩
  · obtain ⟨flow, taken⟩ := free unlocked
    rw [window_length, ← taken]
    exact ⟨flow.order, flow.few⟩
  · have recorded := recorded_of_run reached p
    exact ⟨recorded.calls, recorded.bytes⟩
  · have moved := place p
    have recorded := recorded_of_run reached p
    rw [here] at moved recorded ⊢
    obtain ⟨w, last, same, all⟩ := recorded.last addr rfl
    refine ⟨moved, w, by simpa [writes, underway] using last, same, ?_⟩
    rw [← same] at all ⊢
    exact List.take_of_length_le all
  · have moved := place p
    have received := received_of_run reached p
    rw [here] at moved received
    exact ⟨received.last bytes rfl, moved⟩

scoped instance neZeroThree : NeZero 3 := ⟨by decide⟩

def twoWriters : List (Fin 3 × Turn Call) :=
  (0, .call (.write [104, 105] none)) :: (2, .call (.write [105] none)) :: List.replicate 6 (0, .go) ++
    List.replicate 5 (2, .go) ++ (1, .call (.read 5 none)) :: List.replicate 8 (1, .go)

theorem fifo_twoWriters : ∃ s : State (Fin 3), s.points 1 = .out (.got 5 [104, 105, 105]) ∧
    s.shared.data.storedBy 0 = [104, 105] ∧ s.shared.data.storedBy 2 = [105] ∧
    s.shared.data.stored.map Prod.snd = s.shared.data.read ++ window s.shared.data ∧
    (∀ p, (writes s.shared.data p (s.points p)).map Writing.addr = requests p twoWriters) ∧
    (s.shared.data.returnedTo 1).getLast? = some [104, 105, 105] := by
  have ends : (Machine.run step (pipealloc fun _ => 0) twoWriters).any (fun s =>
      s.shared.locked == false && s.points 1 == .out (.got 5 [104, 105, 105]) &&
        s.shared.data.storedBy 0 == [104, 105] && s.shared.data.storedBy 2 == [105]) = true := by
    decide +kernel
  obtain ⟨s, reached, last⟩ := (Option.any_eq_true _ _).mp ends
  simp only [Bool.and_eq_true, beq_iff_eq] at last
  obtain ⟨⟨⟨free, got⟩, first⟩, second⟩ := last
  obtain ⟨order, calls, -, reads⟩ := fifo reached
  exact ⟨s, got, first, second, (order free).1, fun p => (calls p).1, (reads 1 5 _ got).1⟩

end Runs

end OsLabs.KernelPipe
