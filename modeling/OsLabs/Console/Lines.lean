import OsLabs.Console.Program

/-! The ring with its three counters, which wrap around, behaves as the lines it stands for. -/

set_option autoImplicit false

namespace OsLabs.Console

open OsLabs.Lib

section Counters

variable {r w e : BitVec 32}

theorem sub_succ (left : (e - w).toNat < 128) : (e + 1 - w).toNat = (e - w).toNat + 1 := by bv_omega

theorem sub_sum (fits : (w - r).toNat + (e - w).toNat ≤ 128) : (e - r).toNat = (w - r).toNat + (e - w).toNat := by
  bv_omega

theorem index_add (r w : BitVec 32) : (r.toNat + (w - r).toNat) % 128 = w.toNat % 128 := by bv_omega

theorem full_iff : e = r + 128 ↔ (e - r).toNat = 128 := by bv_omega

end Counters

section Ring

structure Shows (s : Input) (l : Lines) : Prop where
  complete : l.complete = ring s.buf s.r.toNat (s.w - s.r).toNat
  edited : l.edited = ring s.buf s.w.toNat (s.e - s.w).toNat
  fits : (s.w - s.r).toNat + (s.e - s.w).toNat ≤ 128
  /-- A ring that is full has no line left to edit. -/
  room : (s.w - s.r).toNat + (s.e - s.w).toNat = 128 → s.e = s.w
  plain : newline ∉ l.edited

variable {s : Input} {l : Lines}

theorem Shows.length_complete (shows : Shows s l) : l.complete.length = (s.w - s.r).toNat := by
  rw [shows.complete, length_ring]

theorem Shows.length_edited (shows : Shows s l) : l.edited.length = (s.e - s.w).toNat := by
  rw [shows.edited, length_ring]

theorem ring_edited (s : Input) {n : Nat} (some_left : (s.e - s.w).toNat = n + 1) :
    ring s.buf s.w.toNat (n + 1) = ring s.buf s.w.toNat n ++ [s.char (s.e - 1)] := by
  have cell : (s.w.toNat + n) % 128 = (s.e - 1).toNat % 128 := by bv_omega
  rw [ring_succ, Input.char]
  exact congrArg (ring s.buf s.w.toNat n ++ [s.buf ·]) (Fin.ext cell)

theorem killLine_edited (n : Nat) (s : Input) (left : (s.e - s.w).toNat = n)
    (plain : newline ∉ ring s.buf s.w.toNat n) : s.killLine n = { s with e := s.w } := by
  induction n generalizing s with
  | zero =>
    have same : s.e = s.w := by bv_omega
    obtain ⟨buf, r, w, e⟩ := s
    dsimp only at same
    rw [Input.killLine, same]
  | succ n ih =>
    have apart : s.e ≠ s.w := by
      intro same
      rw [same, BitVec.sub_self] at left
      cases left
    rw [ring_edited s left] at plain
    have other : s.char (s.e - 1) ≠ newline := fun same => plain (by rw [same]; simp)
    rw [Input.killLine, if_pos ⟨apart, other⟩]
    refine ih { s with e := s.e - 1 } ?_ fun member => plain (List.mem_append_left _ member)
    dsimp only
    bv_omega

theorem Shows.killLine (shows : Shows s l) :
    Shows (s.killLine (s.e - s.w).toNat) { l with edited := [] } := by
  have plain := shows.plain
  have fits := shows.fits
  rw [shows.edited] at plain
  rw [killLine_edited _ s rfl plain]
  refine ⟨shows.complete, ?_, ?_, fun _ => rfl, by simp⟩
  · dsimp only
    rw [BitVec.sub_self]
    rfl
  · dsimp only
    rw [BitVec.sub_self]
    exact (Nat.le_add_right _ _).trans fits

theorem Shows.backspace (shows : Shows s l) :
    Shows (if s.e ≠ s.w then { s with e := s.e - 1 } else s) { l with edited := l.edited.dropLast } := by
  have plain : newline ∉ l.edited.dropLast := fun member => shows.plain ((List.dropLast_sublist _).subset member)
  split
  · rename_i apart
    obtain ⟨n, some_left⟩ : ∃ n, (s.e - s.w).toNat = n + 1 :=
      Nat.exists_eq_succ_of_ne_zero fun zero => apart (by bv_omega)
    have less : (s.e - 1 - s.w).toNat = n := by bv_omega
    have fits := shows.fits
    refine ⟨shows.complete, ?_, ?_, ?_, plain⟩
    · dsimp only
      rw [shows.edited, some_left, ring_edited s some_left, List.dropLast_concat, less]
    · dsimp only
      omega
    · dsimp only
      omega
  · rename_i same
    have none_left : (s.e - s.w).toNat = 0 := by
      rw [not_not.mp same, BitVec.sub_self]
      rfl
    have empty : l.edited = [] := by rw [shows.edited, none_left, ring_zero]
    have dropped : l.edited.dropLast = l.edited := by
      rw [empty]
      rfl
    rw [dropped]
    exact shows

def Input.store (s : Input) (c : UInt8) : Input :=
  { s with buf := Function.update s.buf (Fin.ofNat 128 s.e.toNat) c, e := s.e + 1 }

theorem Shows.store (shows : Shows s l) (c : UInt8) (left : (s.w - s.r).toNat + (s.e - s.w).toNat < 128) :
    ring (s.store c).buf s.r.toNat (s.w - s.r).toNat = l.complete ∧
      ring (s.store c).buf s.w.toNat ((s.e - s.w).toNat + 1) = l.edited ++ [c] := by
  have cell : (Fin.ofNat 128 s.e.toNat : Fin 128) =
      Fin.ofNat 128 (s.r.toNat + ((s.w - s.r).toNat + (s.e - s.w).toNat)) := by
    refine Fin.ext ?_
    change s.e.toNat % 128 = _ % 128
    bv_omega
  have last : (s.w.toNat + (s.e - s.w).toNat) % 128 = s.e.toNat % 128 := by bv_omega
  have next : (s.r.toNat + (s.w - s.r).toNat) % 128 = s.w.toNat % 128 := by bv_omega
  have whole := ring_update s.buf left c (i := s.r.toNat)
  rw [← cell, ring_add, ring_add s.buf] at whole
  obtain ⟨first, second⟩ := List.append_inj whole (by rw [length_ring, length_ring])
  rw [ring_congr _ _ next, ring_congr _ _ next] at second
  refine ⟨first.trans shows.complete.symm, ?_⟩
  rw [ring_succ, shows.edited]
  refine congrArg₂ (· ++ [·]) second ?_
  have here : (Fin.ofNat 128 (s.w.toNat + (s.e - s.w).toNat) : Fin 128) = Fin.ofNat 128 s.e.toNat := Fin.ext last
  rw [here]
  exact Function.update_self ..

theorem Shows.append (shows : Shows s l) {c : UInt8} (left : (s.w - s.r).toNat + (s.e - s.w).toNat < 128)
    (other : c ≠ newline) (room : (s.w - s.r).toNat + ((s.e - s.w).toNat + 1) ≠ 128) :
    Shows (s.store c) { l with edited := l.edited ++ [c] } := by
  obtain ⟨first, second⟩ := shows.store c left
  have more : ((s.store c).e - (s.store c).w).toNat = (s.e - s.w).toNat + 1 :=
    sub_succ (Nat.lt_of_le_of_lt (Nat.le_add_left _ _) left)
  refine ⟨first.symm, ?_, ?_, fun full => ?_, fun member => ?_⟩
  · rw [more]
    exact second.symm
  · rw [more]
    exact left
  · rw [more] at full
    exact absurd full room
  · rcases List.mem_append.mp member with member | member
    · exact shows.plain member
    · exact other (List.mem_singleton.mp member).symm

theorem Shows.commit (shows : Shows s l) (c : UInt8) (left : (s.w - s.r).toNat + (s.e - s.w).toNat < 128) :
    Shows { s.store c with w := s.e + 1 } { complete := l.complete ++ (l.edited ++ [c]), edited := [] } := by
  obtain ⟨first, second⟩ := shows.store c left
  have more : (s.e + 1 - s.w).toNat = (s.e - s.w).toNat + 1 :=
    sub_succ (Nat.lt_of_le_of_lt (Nat.le_add_left _ _) left)
  have all : (s.e + 1 - s.r).toNat = (s.w - s.r).toNat + ((s.e - s.w).toNat + 1) := by
    rw [← more]
    exact sub_sum (by rw [more]; exact left)
  have gone : ((s.store c).e - (s.e + 1)).toNat = 0 := by
    rw [Input.store, BitVec.sub_self]
    rfl
  refine ⟨?_, ?_, ?_, fun _ => rfl, by simp⟩
  · change _ = ring (s.store c).buf s.r.toNat (s.e + 1 - s.r).toNat
    rw [all, ring_add, ring_congr _ _ (index_add s.r s.w), first, second]
  · rw [gone, ring_zero]
  · rw [gone]
    change (s.e + 1 - s.r).toNat + 0 ≤ 128
    rw [all]
    exact left

theorem Shows.key (shows : Shows s l) (c : UInt8) : Shows (s.consoleintr c) (l.key c) := by
  rw [Input.consoleintr, Lines.key]
  split
  · exact shows
  split
  · exact shows.killLine
  split
  · exact shows.backspace
  have guard : s.e - s.r < 128 ↔ l.complete.length + l.edited.length < INPUT_BUF := by
    rw [shows.length_complete, shows.length_edited, ← sub_sum shows.fits]
    exact BitVec.lt_def
  by_cases room : c ≠ 0 ∧ s.e - s.r < 128
  · have room' : c ≠ 0 ∧ l.complete.length + l.edited.length < INPUT_BUF := ⟨room.1, guard.mp room.2⟩
    have left : (s.w - s.r).toNat + (s.e - s.w).toNat < 128 := by
      have fewer := room'.2
      rw [shows.length_complete, shows.length_edited] at fewer
      exact fewer
    rw [if_pos room, if_pos room']
    generalize (if c = carriageReturn then newline else c) = c'
    have full : s.e + 1 = s.r + 128 ↔ l.complete.length + (l.edited ++ [c']).length = INPUT_BUF := by
      have more := sub_succ (Nat.lt_of_le_of_lt (Nat.le_add_left _ _) left)
      have all : (s.e + 1 - s.r).toNat = (s.w - s.r).toNat + ((s.e - s.w).toNat + 1) := by
        rw [← more]
        exact sub_sum (by rw [more]; exact left)
      rw [full_iff, all, List.length_append, shows.length_complete, shows.length_edited]
      rfl
    have either : (c' = newline ∨ c' = ctrlD ∨ s.e + 1 = s.r + 128) ↔
        (c' = newline ∨ c' = ctrlD ∨ l.complete.length + (l.edited ++ [c']).length = INPUT_BUF) := by rw [full]
    dsimp only
    by_cases ended : c' = newline ∨ c' = ctrlD ∨ s.e + 1 = s.r + 128
    · rw [if_pos ended, if_pos (either.mp ended)]
      exact shows.commit c' left
    · rw [if_neg ended, if_neg (mt either.mpr ended)]
      refine shows.append left (fun same => ended (.inl same)) fun same => ended (.inr (.inr (full.mpr ?_)))
      rw [List.length_append, shows.length_complete, shows.length_edited]
      exact same
  · have no_room : ¬(c ≠ 0 ∧ l.complete.length + l.edited.length < INPUT_BUF) := by
      rintro ⟨some_char, left⟩
      exact room ⟨some_char, guard.mpr left⟩
    rw [if_neg room, if_neg no_room]
    exact shows

theorem Shows.waits (shows : Shows s l) : (s.r == s.w) = l.complete.isEmpty := by
  rw [Bool.eq_iff_iff, beq_iff_eq, List.isEmpty_iff_length_eq_zero, shows.length_complete]
  bv_omega

theorem Shows.front (shows : Shows s l) (some_left : s.r ≠ s.w) :
    ∃ cs, l.complete = s.char s.r :: cs ∧ Shows { s with r := s.r + 1 } { l with complete := cs } := by
  obtain ⟨n, left⟩ : ∃ n, (s.w - s.r).toNat = n + 1 :=
    Nat.exists_eq_succ_of_ne_zero fun zero => some_left (by bv_omega)
  have fewer : (s.w - (s.r + 1)).toNat = n := by bv_omega
  have next : (s.r.toNat + 1) % 128 = (s.r + 1).toNat % 128 := by bv_omega
  have fits := shows.fits
  refine ⟨ring s.buf (s.r + 1).toNat n, ?_, ?_, shows.edited, ?_, ?_, shows.plain⟩
  · rw [shows.complete, left, ring_cons, ring_congr _ _ next]
    rfl
  · dsimp only
    rw [fewer]
  · dsimp only
    omega
  · dsimp only
    omega

theorem Shows.read (shows : Shows s l) (target n : Nat) (got : List UInt8) :
    Shows (s.consoleread target n got).1 (l.read target n got).1 ∧
      (s.consoleread target n got).2 = (l.read target n got).2 := by
  induction n generalizing s l got with
  | zero => exact ⟨shows, rfl⟩
  | succ n ih =>
    by_cases none_left : s.r = s.w
    · have empty := shows.waits
      rw [beq_iff_eq.mpr none_left] at empty
      have nil := List.isEmpty_iff.mp empty.symm
      rw [Input.consoleread, if_pos none_left, Lines.read, nil, Lines.take, ← nil]
      exact ⟨shows, rfl⟩
    · obtain ⟨cs, complete, rest⟩ := shows.front none_left
      rw [Input.consoleread, if_neg none_left, Lines.read, complete, Lines.take]
      dsimp only
      split
      · split
        · rw [BitVec.add_sub_cancel, ← complete]
          exact ⟨shows, rfl⟩
        · exact ⟨rest, rfl⟩
      · split
        · exact ⟨rest, rfl⟩
        · exact ih rest (got ++ [s.char s.r])

end Ring

section Runs

variable {Pid : Type} [DecidableEq Pid]

/-- The same calls are asleep, the same have returned, and the ring shows the lines. -/
structure Alike (s : System Pid Input) (l : System Pid Lines) : Prop where
  input : Shows s.input l.input
  sleeper : s.sleeper = l.sleeper
  returned : s.returned = l.returned

variable {s : System Pid Input} {l : System Pid Lines}

theorem Alike.settle (alike : Alike s l) (p : Pid) (target : Nat) {x : Input × Stop} {y : Lines × Stop}
    (input : Shows x.1 y.1) (stop : x.2 = y.2) : Alike (s.settle p target x) (l.settle p target y) := by
  obtain ⟨i, stop'⟩ := x
  obtain ⟨j, stop''⟩ := y
  dsimp only at stop
  subst stop
  cases stop' with
  | done got =>
    refine ⟨input, ?_, ?_⟩
    · exact congrArg (Function.update · p none) alike.sleeper
    · exact congrArg (· ++ [(p, some got)]) alike.returned
  | sleep left got =>
    refine ⟨input, ?_, alike.returned⟩
    exact congrArg (Function.update · p (some { target, left, got })) alike.sleeper

theorem Alike.step (alike : Alike s l) (e : Event Pid) :
    Option.Rel Alike (console s e) (lines l e) := by
  cases e with
  | key c => exact .some ⟨alike.input.key c, alike.sleeper, alike.returned⟩
  | read p n =>
    rw [console, lines, System.step, System.step, ← alike.sleeper]
    cases s.sleeper p with
    | none =>
      obtain ⟨input, stop⟩ := alike.input.read n n []
      exact .some (alike.settle p n input stop)
    | some x => exact .none
  | resume p killed =>
    rw [console, lines, System.step, System.step, ← alike.sleeper, alike.input.waits]
    cases s.sleeper p with
    | none => exact .none
    | some x =>
      dsimp only
      split
      · exact .some ⟨alike.input, rfl, congrArg (· ++ [(p, none)]) alike.returned⟩
      · obtain ⟨input, stop⟩ := alike.input.read x.target x.left x.got
        exact .some (alike.settle p x.target input stop)

theorem Alike.run (alike : Alike s l) (es : List (Event Pid)) :
    Option.Rel Alike (Machine.run console s es) (Machine.run lines l es) := by
  induction es generalizing s l with
  | nil => exact .some alike
  | cons e es ih =>
    rw [Machine.run_cons, Machine.run_cons]
    have first := alike.step e
    generalize console s e = x at first ⊢
    generalize lines l e = y at first ⊢
    cases first with
    | none => exact .none
    | some both => exact ih both

theorem shows_start : Shows Input.start { complete := [], edited := [] } :=
  ⟨rfl, rfl, by decide, fun _ => rfl, by simp⟩

omit [DecidableEq Pid] in
theorem alike_boot :
    Alike (System.boot Input.start : System Pid Input) (System.boot { complete := [], edited := [] }) :=
  ⟨shows_start, rfl, rfl⟩

/-- Whatever is typed, and however the calls of processes come in between, they get from the ring of 128
characters, whose counters wrap around, what they would get from the lines typed as these were edited:
the same calls sleep, and the same return with the same characters. -/
theorem console_lines (es : List (Event Pid)) :
    (Machine.run console (System.boot Input.start) es).map (fun s => (s.sleeper, s.returned)) =
      (Machine.run lines (System.boot { complete := [], edited := [] }) es).map fun s => (s.sleeper, s.returned) := by
  have alike := alike_boot.run es
  generalize Machine.run console (System.boot Input.start) es = x at alike ⊢
  generalize Machine.run lines (System.boot { complete := [], edited := [] }) es = y at alike ⊢
  cases alike with
  | none => rfl
  | some both => exact congrArg some (Prod.ext both.sleeper both.returned)

end Runs

end OsLabs.Console
