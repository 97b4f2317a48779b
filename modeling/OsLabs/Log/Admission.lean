import OsLabs.Log.Control

/-! The space `begin_op` keeps for the operations it admits, and the operations it makes wait. -/

set_option autoImplicit false

namespace OsLabs.Log.Kernel

open OsLabs.Lib

variable {Pid : Type*} [DecidableEq Pid] {k k' : Kernel Pid} {p : Pid} {e : Event Pid}

/-- A process sleeps in `begin_op` for a reason that still holds, and somebody is about to wake it. -/
def Patient (k : Kernel Pid) : Prop := ∀ p, k.procs p = .sleeping → k.full = true ∧
    (k.committing = true ∨ 1 ≤ k.outstanding)

omit [DecidableEq Pid] in
theorem full_iff (k : Kernel Pid) : k.full = true ↔
    k.committing = true ∨ (LOGSIZE : Int) < k.lh.length + (k.outstanding + 1) * MAXOPBLOCKS := by
  rw [full, Bool.or_eq_true, decide_eq_true_eq]

omit [DecidableEq Pid] in
theorem wakeup_sleeping (k : Kernel Pid) (p : Pid) : k.wakeup.procs p ≠ .sleeping := by
  unfold wakeup
  dsimp only
  split
  · simp
  · assumption

theorem Patient.taken (patient : k.Patient) (c : k.Control) (taken : k.Taken e k') : k'.Patient := by
  cases taken with
  | @beginOp p up place =>
    intro q asleep
    unfold Kernel.beginOp at asleep ⊢
    split at asleep <;> rename_i full
    · simp only [if_pos full]
      refine ⟨full, ?_⟩
      rcases (full_iff k).mp full with busy | tight
      · exact .inl busy
      · by_contra none
        obtain ⟨free, few⟩ := not_or.mp none
        have idle : k.stage = .idle := by
          by_contra busy
          exact free ((c.committing up).mpr busy)
        obtain ⟨ops, -, -, count⟩ := c.active
        have quiet : k.outstanding = 0 := by
          dsimp only [setProc] at few
          omega
        have empty := c.empty idle quiet
        rw [empty, quiet] at tight
        simp at tight
    · simp only [if_neg full]
      have before : k.procs q = .sleeping := by
        by_cases same : q = p
        · simp [setProc, same] at asleep
        · simpa [setProc, same] using asleep
      exact absurd (patient q before).1 full
  | bget up found => exact patient
  | fill up filled => exact patient
  | logWrite up inside mine home logged =>
    obtain ⟨-, -, rfl⟩ := logWrite_eq_some logged
    intro q asleep
    obtain ⟨full, reason⟩ := patient q asleep
    refine ⟨(full_iff _).mpr (((full_iff k).mp full).imp_right fun tight => ?_), reason⟩
    refine lt_of_lt_of_le tight (Int.add_le_add_right ?_ _)
    dsimp only
    split
    · exact Int.le_refl _
    · rw [List.length_append]
      omega
  | brelse up released => exact patient
  | @endOp p k' up inside ended =>
    intro q asleep
    unfold Kernel.endOp at ended
    split at ended
    · cases ended
    split at ended
    · cases ended
      exact ⟨(full_iff _).mpr (.inl rfl), .inl rfl⟩
    · cases ended
      exact absurd asleep (wakeup_sleeping _ q)
  | go mine advance =>
    intro q asleep
    have busy : k.stage ≠ .idle := by
      cases advance <;> simp_all
    have same : (k'.committing = k.committing ∧ k'.procs = k.procs ∧ k'.up = k.up) ∨ ∀ q, k'.procs q ≠ .sleeping := by
      cases advance with
      | header boot read =>
        exact .inl ⟨(same_of_readHead read).committing, (same_of_readHead read).procs, (same_of_readHead read).up⟩
      | logged stage block moved =>
        exact .inl ⟨(same_of_writeLogBlock moved).committing, (same_of_writeLogBlock moved).procs,
          (same_of_writeLogBlock moved).up⟩
      | commit stage past written =>
        have same := (same_of_writeHead written).1
        exact .inl ⟨same.committing, same.procs, same.up⟩
      | installed stage block moved =>
        have same := (same_of_installBlock moved).1
        exact .inl ⟨same.committing, same.procs, same.up⟩
      | erase stage past written =>
        have same := (same_of_writeHead written).1
        exact .inl ⟨same.committing, same.procs, same.up⟩
      | finish stage => exact .inr fun q => wakeup_sleeping _ q
    obtain ⟨committing, procs, up⟩ | none := same
    · rw [procs] at asleep
      have alive : k.up = true := by
        by_contra down
        have outside := (c.down (Bool.eq_false_iff.mpr down)).2.2.2 q
        simp [outside] at asleep
      have commits : k'.committing = true := committing.trans ((c.committing alive).mpr busy)
      exact ⟨(full_iff k').mpr (.inl commits), .inl commits⟩
    · exact absurd asleep (none q)
  | crash =>
    intro q asleep
    simp [powerOn] at asleep

/-- The distinct blocks each process has logged in its operation. -/
abbrev Tally (Pid : Type*) := Pid → List Nat

def tally (k : Kernel Pid) (e : Event Pid) (u : Tally Pid) : Tally Pid :=
  match e with
  | .beginOp p => Function.update u p []
  | .logWrite p i _ => Function.update u p ((u p).insert (k.store.buf i).blockno)
  | _ => u

def Modest (B : Nat) (x : Kernel Pid × Tally Pid) : Event Pid → Prop
  | .logWrite p i data => (tally x.1 (.logWrite p i data) x.2 p).length ≤ B
  | _ => True

instance (B : Nat) (x : Kernel Pid × Tally Pid) (e : Event Pid) : Decidable (Modest B x e) :=
  match e with
  | .logWrite p i data => inferInstanceAs (Decidable ((tally x.1 (.logWrite p i data) x.2 p).length ≤ B))
  | .beginOp _ | .bget _ _ | .fill _ _ | .brelse _ _ | .endOp _ | .go _ | .crash => inferInstanceAs (Decidable True)

/-- What is logged and what the operations outstanding may still log fits in what `begin_op`
left: two of them beside `MAXOPBLOCKS` blocks of others, or three. -/
structure Reserved (B : Nat) (k : Kernel Pid) (u : Tally Pid) : Prop where
  logged : ∀ p, k.procs p = .running → ∀ b ∈ u p, b ∈ k.lh
  space : ∃ ops : List Pid, ops.Nodup ∧ (∀ p, p ∈ ops ↔ k.procs p = .running) ∧ k.outstanding = ops.length ∧
    (k.stage = .idle → k.lh.length + (ops.map fun p => B - (u p).length).sum ≤ MAXOPBLOCKS + 2 * B)

variable {B : Nat} {u : Tally Pid}

theorem sum_erase {ops : List Pid} (f : Pid → Nat) (member : p ∈ ops) : (ops.map f).sum = f p +
    ((ops.erase p).map f).sum := by
  rw [((List.perm_cons_erase member).map f).sum_eq, List.map_cons, List.sum_cons]

theorem sum_update {ops : List Pid} (nodup : ops.Nodup) (f : List Nat → Nat) (x : List Nat) :
    ((ops.erase p).map fun q => f (Function.update u p x q)) = (ops.erase p).map fun q => f (u q) := by
  refine List.map_congr_left fun q member => ?_
  rw [Function.update_of_ne (nodup.mem_erase_iff.mp member).1]

omit [DecidableEq Pid] in
theorem sum_le {ops : List Pid} (f : Pid → Nat) (below : ∀ p, f p ≤ B) : (ops.map f).sum ≤ ops.length * B := by
  induction ops with
  | nil => simp
  | cons p ops ih =>
    have here := below p
    rw [List.map_cons, List.sum_cons, List.length_cons, Nat.succ_mul]
    omega

theorem Reserved.beginOp (r : Reserved B k u) (c : k.Control) (few : B ≤ MAXOPBLOCKS) (up : k.up = true)
    (place : k.procs p = .outside ∨ k.procs p = .woken) : Reserved B (k.beginOp p) (Function.update u p []) := by
  have stopped : k.procs p ≠ .running := by
    rcases place with place | place <;> simp [place]
  obtain ⟨ops, nodup, role, count, space⟩ := r.space
  have absent : p ∉ ops := fun member => stopped ((role p).mp member)
  have same : ∀ f : List Nat → Nat, (ops.map fun q => f (Function.update u p [] q)) = ops.map fun q => f (u q) := by
    intro f
    refine List.map_congr_left fun q member => ?_
    have apart : q ≠ p := by
      rintro rfl
      exact absent member
    rw [Function.update_of_ne apart]
  unfold Kernel.beginOp
  split
  · refine ⟨fun q inside b member => ?_, ops, nodup, fun q => ?_, count, fun idle => ?_⟩
    · by_cases itself : q = p
      · simp [setProc, itself] at inside
      · simp only [setProc, Function.update_of_ne itself] at inside member
        exact r.logged q inside b member
    · by_cases itself : q = p
      · subst itself
        simp [setProc, role, stopped]
      · simp [setProc, role, itself]
    · rw [same fun x => B - x.length]
      exact space idle
  · rename_i room
    obtain ⟨free, room⟩ := not_or.mp (mt (full_iff k).mpr room)
    have idle : k.stage = .idle := by
      by_contra busy
      exact free ((c.committing up).mpr busy)
    refine ⟨fun q inside b member => ?_, p :: ops, List.nodup_cons.mpr ⟨absent, nodup⟩, fun q => ?_, ?_, fun _ => ?_⟩
    · by_cases itself : q = p
      · simp [itself] at member
      · simp only [setProc, Function.update_of_ne itself] at inside member
        exact r.logged q inside b member
    · by_cases itself : q = p
      · subst itself
        simp [setProc]
      · simp [setProc, role, itself]
    · simp [count]
    · rw [List.map_cons, List.sum_cons, same fun x => B - x.length, Function.update_self, List.length_nil]
      have most : (ops.map fun q => B - (u q).length).sum ≤ ops.length * B := sum_le _ fun q => Nat.sub_le ..
      have limit : k.lh.length + (ops.length + 1) * 10 ≤ 30 := by
        rw [count] at room
        simp only [LOGSIZE, MAXOPBLOCKS] at room
        omega
      dsimp only [setProc]
      -- the first operation finds the log empty
      rcases Nat.lt_or_ge ops.length 1 with alone | others
      · have empty := c.empty idle (by omega)
        have nobody : ops.length = 0 := by omega
        rw [nobody] at most
        simp only [empty, List.length_nil, MAXOPBLOCKS]
        omega
      · have : ops.length = 1 ∨ ops.length = 2 := by omega
        simp only [MAXOPBLOCKS] at few ⊢
        rcases this with one | two
        · rw [one] at most limit
          omega
        · rw [two] at most limit
          omega

theorem Reserved.logWrite {i : Slot} {data : Data} (r : Reserved B k u) (inside : k.procs p = .running)
    (modest : ((u p).insert (k.store.buf i).blockno).length ≤ B) (logged : k.logWrite i data = some k') :
    Reserved B k' (Function.update u p ((u p).insert (k.store.buf i).blockno)) := by
  obtain ⟨-, -, rfl⟩ := logWrite_eq_some logged
  obtain ⟨ops, nodup, role, count, space⟩ := r.space
  have member := (role p).mpr inside
  have grows : ∀ b ∈ k.lh, b ∈ if (k.store.buf i).blockno ∈ k.lh then k.lh else k.lh ++ [(k.store.buf i).blockno] := by
    intro b there
    split
    · exact there
    · exact List.mem_append_left _ there
  have here : (k.store.buf i).blockno ∈ if (k.store.buf i).blockno ∈ k.lh then k.lh else k.lh ++
    [(k.store.buf i).blockno] := by
    split
    · assumption
    · exact List.mem_append_right _ List.mem_cons_self
  refine ⟨fun q running b there => ?_, ops, nodup, role, count, fun idle => ?_⟩
  · by_cases itself : q = p
    · subst itself
      rw [Function.update_self] at there
      rcases List.mem_insert_iff.mp there with rfl | before
      · exact here
      · exact grows b (r.logged q inside b before)
    · rw [Function.update_of_ne itself] at there
      exact grows b (r.logged q running b there)
  · have before := space idle
    rw [sum_erase _ member] at before ⊢
    rw [sum_update nodup fun x => B - x.length, Function.update_self]
    by_cases known : (k.store.buf i).blockno ∈ u p
    · dsimp only
      rw [List.insert_of_mem known, if_pos (r.logged p inside _ known)]
      exact before
    · rw [List.insert_of_not_mem known, List.length_cons] at modest ⊢
      dsimp only
      split
      · omega
      · rw [List.length_append, List.length_singleton]
        omega

theorem Reserved.taken (r : Reserved B k u) (c : k.Control) (few : B ≤ MAXOPBLOCKS) (modest : Modest B (k, u) e)
    (taken : k.Taken e k') : Reserved B k' (tally k e u) := by
  cases taken with
  | beginOp up place => exact r.beginOp c few up place
  | bget up found => exact ⟨r.logged, r.space⟩
  | fill up filled => exact ⟨r.logged, r.space⟩
  | @logWrite p i data k' up inside mine home logged =>
    have small : (Function.update u p ((u p).insert (k.store.buf i).blockno) p).length ≤ B := modest
    rw [Function.update_self] at small
    exact r.logWrite inside small logged
  | brelse up released => exact ⟨r.logged, r.space⟩
  | @endOp p k' up inside ended =>
    obtain ⟨ops, nodup, role, count, space⟩ := r.space
    have member := (role p).mpr inside
    have erased := List.length_erase_of_mem member
    have some_of := List.length_pos_of_mem member
    have mem_erase : ∀ x : Proc, x ≠ .running → ∀ q, q ∈ ops.erase p ↔ (k.setProc p x).procs q = .running := by
      intro x stopped q
      rw [nodup.mem_erase_iff, role]
      by_cases itself : q = p
      · simp [setProc, itself, stopped]
      · simp [setProc, itself]
    have running : ∀ x : Proc, x ≠ .running → ∀ q, (k.setProc p x).procs q = .running → k.procs q = .running := by
      intro x stopped q inside
      exact (role q).mp (List.mem_of_mem_erase ((mem_erase x stopped q).mpr inside))
    unfold Kernel.endOp at ended
    split at ended
    · cases ended
    split at ended
    · rename_i last
      cases ended
      have nobody : ops.erase p = [] := by
        apply List.eq_nil_of_length_eq_zero
        omega
      refine ⟨fun q inside => r.logged q (running .committing (by simp) q inside), [], List.nodup_nil, fun q => ?_,
        rfl, fun idle => ?_⟩
      · rw [← nobody]
        exact mem_erase .committing (by simp) q
      · dsimp only at idle
        split at idle <;> cases idle
    · cases ended
      refine ⟨fun q inside => r.logged q (running .outside (by simp) q ((wakeup_running _ q).mp inside)), ops.erase p,
        nodup.erase p, fun q => ?_, ?_, fun idle => ?_⟩
      · refine (mem_erase .outside (by simp) q).trans ?_
        exact (wakeup_running _ q).symm
      · simp only [erased]
        omega
      · have before := space idle
        rw [sum_erase _ member] at before
        have part : k.lh.length + ((ops.erase p).map fun q => B - (u q).length).sum ≤ MAXOPBLOCKS + 2 * B := by omega
        exact part
  | go mine advance =>
    have c' := c.advance advance
    have nobody := advance_running advance c
    obtain ⟨ops, nodup, role, count⟩ := c'.active
    have empty : ops = [] := List.eq_nil_iff_forall_not_mem.mpr fun q member => nobody q ((role q).mp member)
    subst empty
    refine ⟨fun q inside => absurd inside (nobody q), [], nodup, role, count, fun idle => ?_⟩
    rw [c'.empty idle count]
    simp
  | crash =>
    exact ⟨fun q inside => absurd inside (by simp [powerOn]), [], List.nodup_nil, by simp [powerOn], rfl,
      fun _ => by simp [powerOn]⟩

section Runs

variable {start size : Nat} {disk : Nat → Data} {es : List (Event Pid)}

/-- A process that sleeps in `begin_op` sleeps for a reason that holds, and an operation or a
commit that will wake it is under way: no wakeup is lost. -/
theorem sleepers_patient (reached : Machine.run step (powerOn start size disk) es = some k) : k.Patient := by
  have both : k.Control ∧ k.Patient := by
    refine Machine.invariant (I := fun k : Kernel Pid => k.Control ∧ k.Patient) (fun k e k' both taken => ?_)
      ⟨control_powerOn _ _ _, ?_⟩
      reached
    · have moved := taken_of_step taken
      exact ⟨both.1.taken moved, both.2.taken both.1 moved⟩
    · intro p asleep
      simp [powerOn] at asleep
  exact both.2

def crowded : List (Event Nat) := [.go 0, .go 0, .go 0, .beginOp 1, .beginOp 2, .beginOp 3, .beginOp 4]

theorem sleepers_patient_crowded : ∃ k : Kernel Nat, k.procs 4 = .sleeping ∧ k.Patient := by
  have ends : (Machine.run step (powerOn 2 30 fun _ _ => 0) crowded).any (fun k => k.procs 4 == .sleeping) = true := by
    decide +kernel
  obtain ⟨k, reached, asleep⟩ := (Option.any_eq_true _ _).mp ends
  exact ⟨k, eq_of_beq asleep, sleepers_patient reached⟩

/-- With `mkfs`'s log of `LOGSIZE` blocks the reservations of `begin_op` cover operations of fewer
than `MAXOPBLOCKS` distinct blocks: `log_write` never finds the transaction too big. -/
theorem logWrite_never_refused (layout : LOGSIZE ≤ size)
    (modest : Machine.EveryStep (Machine.watch tally step) (Modest (MAXOPBLOCKS - 1)) (powerOn start size disk,
    fun _ => []) es)
    (reached : Machine.run (Machine.watch tally step) (powerOn start size disk, fun _ => []) es = some (k, u))
    (up : k.up = true)
    (inside : k.procs p = .running) (i : Slot) (data : Data) : (k.logWrite i data).isSome := by
  have both : k.Control ∧ Reserved (MAXOPBLOCKS - 1) k u ∧ k.size = size := by
    refine Machine.invariant_of_everyStep (C := Modest (MAXOPBLOCKS - 1))
      (I := fun x : Kernel Pid × Tally Pid => x.1.Control ∧ Reserved (MAXOPBLOCKS - 1) x.1 x.2 ∧ x.1.size = size)
      (fun x e y all small taken => ?_) ⟨control_powerOn _ _ _, ⟨by simp [powerOn], [], List.nodup_nil,
      by simp [powerOn], rfl, by simp [powerOn]⟩, rfl⟩
      modest reached
    obtain ⟨moved, noted⟩ := Machine.watch_eq_some.mp taken
    have moved := taken_of_step moved
    rw [noted]
    exact ⟨all.1.taken moved, all.2.1.taken all.1 (by decide) small moved, (taken_layout moved).2.trans all.2.2⟩
  obtain ⟨c, r, layout'⟩ := both
  obtain ⟨idle, -, some_of⟩ := c.idle_of_running up inside
  obtain ⟨ops, nodup, role, count, space⟩ := r.space
  have within := space idle
  simp only [LOGSIZE, MAXOPBLOCKS] at within layout
  unfold Kernel.logWrite
  rw [if_neg, if_neg (by omega)]
  · rfl
  · simp only [LOGSIZE, MAXOPBLOCKS]
    omega

theorem modest_of_decide {x : Kernel Pid × Tally Pid} (holds : decide (Modest B x e) = true) : Modest B x e :=
  of_decide_eq_true holds

def busy : List (Event Nat) :=
  crowded ++ [.bget 1 50, .fill 1 1, .logWrite 1 1 fun _ => 7, .bget 2 51, .fill 2 2, .logWrite 2 2 fun _ => 8]

theorem logWrite_never_refused_busy : ∃ x : Kernel Nat × Tally Nat, x.1.lh = [50, 51] ∧
    (x.1.logWrite 1 fun _ => 9).isSome := by
  have ends : (Machine.run (Machine.watch tally step) (powerOn 2 30 fun _ _ => 0, fun _ => []) busy).any
      (fun x => x.1.up && x.1.procs 1 == .running && x.1.lh == [50, 51]) = true := by
    decide +kernel
  obtain ⟨x, reached, last⟩ := (Option.any_eq_true _ _).mp ends
  simp only [Bool.and_eq_true, beq_iff_eq] at last
  have modest : Machine.EveryStep (Machine.watch tally step) (Modest (MAXOPBLOCKS - 1)) (powerOn 2 30 fun _ _ => 0,
    fun _ => []) busy :=
    Machine.everyStep_of_checkRun (fun _ _ => modest_of_decide) (by decide +kernel)
  exact ⟨x, last.2, logWrite_never_refused (by decide) modest reached last.1.1 last.1.2 1 _⟩

/-- Three operations that each log ten blocks, two of them to their end. -/
def crowdedOut : List (Event Nat) :=
  crowded ++ (List.range 29).flatMap fun i =>
    [.bget (i / 10 + 1) (50 + i), .fill (i / 10 + 1) (Fin.ofNat 30 (i + 1)), .logWrite (i / 10 + 1)
    (Fin.ofNat 30 (i + 1)) fun _ => 7,
      .brelse (i / 10 + 1) (Fin.ofNat 30 (i + 1))]

-- with the ten blocks `MAXOPBLOCKS` stands for the log is full before the third operation is through
example : (Machine.run (Machine.watch tally step) (powerOn 2 30 fun _ _ => 0, fun _ => []) crowdedOut).any
    (fun x => (x.2 1).length == 10 && (x.2 2).length == 10 && (x.2 3).length == 9 && x.1.procs 3 == .running &&
      (x.1.logWrite 0 fun _ => 7).isNone) = true := by
  decide +kernel

end Runs

end OsLabs.Log.Kernel
