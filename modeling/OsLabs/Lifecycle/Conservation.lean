import OsLabs.Lifecycle.Accounts
import OsLabs.Lifecycle.Process

/-! What becomes of the pages over runs of `fork`, `exit` and `wait`. `wait` gives back the
kernel stack and the memory of a child but not the page of its old trap frame. -/

set_option autoImplicit false

namespace OsLabs.Lifecycle

open OsLabs.Lib
open OsLabs.LazyVm (KERNBASE PGSIZE)

/-- The pages that a slot in use refers to. -/
def Proc.references (x : Proc) : Multiset Page :=
  if x.state = .unused then 0 else pageOf x.kstack + pageOf x.oldtf + x.pgdir.elim 0 Pgdir.pages

/-- The pages of the pool that are not free are those the slots in use refer to, each by one. -/
def Kernel.Conserved (pool : List Page) (s : Kernel) : Prop :=
  Holdings.Exact (pool : Multiset Page) s.freelist fun q => (s.proc q).references

structure Proc.Whole (x : Proc) (k o : Page) (d : Pgdir) : Prop where
  state : x.state = .runnable ∨ x.state = .zombie
  size : x.sz ≤ KERNBASE
  kstack : x.kstack = some k
  oldtf : x.oldtf = some o
  pgdir : x.pgdir = some d
  low : d.Low

theorem Proc.Whole.references {x : Proc} {k o : Page} {d : Pgdir} (whole : x.Whole k o d) :
    x.references = {k} + {o} + d.pages := by
  have used : x.state ≠ .unused := by
    rcases whole.state with state | state <;> simp [state]
  rw [Proc.references, if_neg used, whole.kstack, whole.oldtf, whole.pgdir]
  rfl

structure Kernel.Sound (pool : List Page) (lost : Multiset Page) (s : Kernel) : Prop where
  account : (s.freelist : Multiset Page) + ∑ q, (s.proc q).references + lost = pool
  whole : ∀ q, (s.proc q).state = .unused ∨ ∃ k o d, (s.proc q).Whole k o d

namespace Kernel

theorem references_set (s : Kernel) (q : Slot) (x : Proc) :
    ∑ r, ((s.set q x).proc r).references + (s.proc q).references = ∑ r, (s.proc r).references + x.references :=
  Holdings.sum_update_add (Finset.mem_univ q) s.proc x Proc.references

theorem allocproc_spec {s t : Kernel} {np : Slot} (allocated : s.allocproc = (t, some np)) :
    ∃ kstack oldtf, (s.proc np).state = .unused ∧ s.freelist = kstack :: oldtf :: t.freelist ∧
      t.proc = Function.update s.proc np
        { s.proc np with state := .embryo, pid := s.nextpid, kstack := some kstack, oldtf := some oldtf } := by
  unfold allocproc at allocated
  split at allocated
  · cases allocated
  · next p found =>
    have unused : (s.proc p).state = .unused := by simpa using List.find?_some found
    cases list : s.freelist with
    | nil => simp [kalloc, set, list] at allocated
    | cons kstack rest =>
      cases rest with
      | nil => simp [kalloc, set, list] at allocated
      | cons oldtf rest =>
        simp only [kalloc, set, list, Prod.mk.injEq, Option.some.injEq] at allocated
        obtain ⟨rfl, rfl⟩ := allocated
        exact ⟨kstack, oldtf, unused, rfl, by simp⟩

theorem Sound.create {pool : List Page} {lost : Multiset Page} {s t u : Kernel} (sound : s.Sound pool lost) {np : Slot}
    {x : Proc} {pgdir : Pgdir} (allocated : s.allocproc = (t, some np))
    (taken : (u.freelist : Multiset Page) + pgdir.pages = t.freelist) (procs : u.proc = Function.update t.proc np x)
    (kstack : x.kstack = (t.proc np).kstack) (oldtf : x.oldtf = (t.proc np).oldtf) (state : x.state = .runnable)
    (size : x.sz ≤ KERNBASE) (memory : x.pgdir = some pgdir) (low : pgdir.Low) : u.Sound pool lost := by
  obtain ⟨k, o, unused, list, before⟩ := allocproc_spec allocated
  rw [before, Function.update_self] at kstack oldtf
  -- the slot had no pages before, and now has its stack, its frame and its memory
  have whole : x.Whole k o pgdir := ⟨.inl state, size, kstack, oldtf, memory, low⟩
  have after : u.proc = Function.update s.proc np x := by rw [procs, before, Function.update_idem]
  constructor
  · have exchange := s.references_set np x
    have none : (s.proc np).references = 0 := if_pos unused
    rw [none, add_zero, whole.references] at exchange
    have pages : (s.freelist : Multiset Page) = {k} + {o} + t.freelist := by rw [list]; rfl
    rw [after]
    calc _ = (u.freelist : Multiset Page) + ∑ r, ((s.set np x).proc r).references + lost := rfl
      _ = (u.freelist : Multiset Page) + (∑ r, (s.proc r).references + ({k} + {o} + pgdir.pages)) + lost := by rw [exchange]
      _ = {k} + {o} + ((u.freelist : Multiset Page) + pgdir.pages) + ∑ r, (s.proc r).references + lost := by abel
      _ = _ := by rw [taken, ← pages, sound.account]
  · intro q
    rw [after]
    by_cases same : q = np
    · rw [same, Function.update_self]
      exact .inr ⟨k, o, pgdir, whole⟩
    · rw [Function.update_of_ne same]
      exact sound.whole q

theorem boot_sound (pool : List Page) : (boot pool).Sound pool 0 where
  account := by simp [boot, Proc.references]
  whole q := .inl rfl

theorem userinit_sound {pool : List Page} {s : Kernel} (start : userinit pool = some s) : s.Sound pool 0 := by
  unfold userinit at start
  split at start
  · cases start
  · next t p allocated =>
    split at start
    · cases start
    · next freelist pgdir built =>
      obtain ⟨taken, low⟩ := setupkvm_spec built
      split at start
      · next freelist' pgdir' filled =>
        obtain ⟨same, low'⟩ := inituvm_spec low filled
        have small : PGSIZE ≤ KERNBASE := by decide
        cases start
        exact (boot_sound pool).create allocated (same.trans taken) rfl rfl rfl rfl small rfl low'
      · cases start

theorem Sound.fork {pool : List Page} {lost : Multiset Page} {s t : Kernel} (sound : s.Sound pool lost) {p : Slot}
    {pid : Int} (alive : (s.proc p).state = .runnable) (forked : s.fork p = some (t, pid)) (success : pid ≠ -1) :
    t.Sound pool lost := by
  unfold Kernel.fork at forked
  split at forked
  · cases forked
    exact absurd rfl success
  · next u np allocated =>
    obtain ⟨k, o, unused, list, before⟩ := allocproc_spec allocated
    -- the caller runs, so allocproc has settled on another slot
    have other : p ≠ np := by
      rintro rfl
      simp [unused] at alive
    have parent : u.proc p = s.proc p := by rw [before, Function.update_of_ne other]
    rcases sound.whole p with dead | ⟨k', o', pgdir, whole⟩
    · simp [dead] at alive
    rw [parent, whole.pgdir, Option.bind_some] at forked
    split at forked
    · cases forked
    · obtain ⟨kstack, _, same⟩ := Option.map_eq_some_iff.mp forked
      cases same
      exact absurd rfl success
    · next freelist d copied =>
      obtain ⟨taken, low⟩ := copyuvm_spec whole.size copied
      cases forked
      exact sound.create allocated taken rfl rfl rfl rfl whole.size rfl low

theorem exit_kept {s t : Kernel} {p : Slot} (exited : s.exit p = some t) (q : Slot) :
    (t.proc q).state = (if q = p then .zombie else (s.proc q).state) ∧ (t.proc q).sz = (s.proc q).sz ∧
      (t.proc q).pgdir = (s.proc q).pgdir ∧ (t.proc q).kstack = (s.proc q).kstack ∧
      (t.proc q).oldtf = (s.proc q).oldtf := by
  unfold Kernel.exit at exited
  split at exited
  · cases exited
  · cases exited
    simp only [set, Function.update_apply]
    by_cases same : q = p
    · by_cases child : (s.proc p).parent = some p <;> simp [same, child]
    · by_cases child : (s.proc q).parent = some p <;> simp [same, child]

theorem Sound.exit {pool : List Page} {lost : Multiset Page} {s t : Kernel} (sound : s.Sound pool lost) {p : Slot}
    (alive : (s.proc p).state = .runnable) (exited : s.exit p = some t) : t.Sound pool lost := by
  have freelist : t.freelist = s.freelist := by
    unfold Kernel.exit at exited
    split at exited <;> cases exited
    rfl
  constructor
  · have same : ∀ q, (t.proc q).references = (s.proc q).references := by
      intro q
      obtain ⟨state, -, pgdir, kstack, oldtf⟩ := exit_kept exited q
      by_cases here : q = p
      · simp [Proc.references, here ▸ state, here ▸ pgdir, here ▸ kstack, here ▸ oldtf, here, alive]
      · rw [if_neg here] at state
        rw [Proc.references, Proc.references, state, pgdir, kstack, oldtf]
    simp only [same, freelist]
    exact sound.account
  · intro q
    obtain ⟨state, size, pgdir, kstack, oldtf⟩ := exit_kept exited q
    rcases sound.whole q with unused | ⟨k, o, d, whole⟩
    · have other : q ≠ p := by
        rintro rfl
        simp [alive] at unused
      rw [if_neg other] at state
      exact .inl (state.trans unused)
    · refine .inr ⟨k, o, d, ?_, ?_, ?_, ?_, ?_, whole.low⟩
      · rw [state]
        split
        · exact .inr rfl
        · exact whole.state
      · exact size ▸ whole.size
      · exact kstack.trans whole.kstack
      · exact oldtf.trans whole.oldtf
      · exact pgdir.trans whole.pgdir

theorem Sound.wait {pool : List Page} {lost : Multiset Page} {s t : Kernel} (sound : s.Sound pool lost) {p : Slot}
    {pid : Int} (waited : s.wait p = some (t, pid)) : ∃ oldtf, t.Sound pool (lost + {oldtf}) := by
  obtain ⟨q, found, waited⟩ := Option.bind_eq_some_iff.mp waited
  obtain ⟨kstack, stack, waited⟩ := Option.bind_eq_some_iff.mp waited
  obtain ⟨pgdir, memory, same⟩ := Option.map_eq_some_iff.mp waited
  cases same
  have child : (s.proc q).parent = some p ∧ (s.proc q).state = .zombie := by simpa using List.find?_some found
  rcases sound.whole q with unused | ⟨k, o, d, whole⟩
  · rw [child.2] at unused
    cases unused
  -- the zombie still has all its pages; of these wait frees all but the page oldtf
  cases whole.kstack.symm.trans stack
  cases whole.pgdir.symm.trans memory
  refine ⟨o, ?_, fun r => ?_⟩
  · have exchange := s.references_set q { s.proc q with kstack := none, pid := 0, parent := none, state := .unused }
    have gone : Proc.references { s.proc q with kstack := none, pid := 0, parent := none, state := .unused } = 0 := if_pos rfl
    rw [gone, add_zero, whole.references] at exchange
    rw [freevm_pages _ whole.low, kfree, ← Multiset.cons_coe, ← Multiset.singleton_add]
    rw [← sound.account, ← exchange]
    abel
  · dsimp only [set]
    by_cases same : r = q
    · rw [same, Function.update_self]
      exact .inl rfl
    · rw [Function.update_of_ne same]
      exact sound.whole r

end Kernel

def Call.isWait : Call → Bool
  | .wait _ => true
  | _ => false

/-- One call loses one page when it is a `wait`, and none otherwise. -/
theorem step_sound {pool : List Page} {lost : Multiset Page} {s t : Kernel} (sound : s.Sound pool lost) {call : Call}
    (taken : step s call = some t) :
    ∃ lost', t.Sound pool lost' ∧ lost'.card = lost.card + (if call.isWait then 1 else 0) := by
  cases call with
  | fork p =>
    simp only [step] at taken
    split at taken
    · next alive =>
      obtain ⟨⟨u, pid⟩, forked, came⟩ := Option.bind_eq_some_iff.mp taken
      dsimp only at came
      split at came
      · cases came
      · next success =>
        cases came
        exact ⟨lost, sound.fork alive forked success, rfl⟩
    · cases taken
  | exit p =>
    simp only [step] at taken
    split at taken
    · next alive => exact ⟨lost, sound.exit alive taken, rfl⟩
    · cases taken
  | wait p =>
    simp only [step] at taken
    split at taken
    · obtain ⟨⟨u, pid⟩, waited, same⟩ := Option.map_eq_some_iff.mp taken
      cases same
      obtain ⟨oldtf, sound'⟩ := sound.wait waited
      exact ⟨lost + {oldtf}, sound', by simp [Call.isWait]⟩
    · cases taken

theorem run_sound {pool : List Page} {s t : Kernel} (start : Kernel.userinit pool = some s) {calls : List Call}
    (reached : Machine.run step s calls = some t) :
    ∃ lost, t.Sound pool lost ∧ lost.card = calls.countP Call.isWait := by
  refine Machine.run_induction (P := fun calls t => ∃ lost, t.Sound pool lost ∧ lost.card = calls.countP Call.isWait)
    ⟨0, Kernel.userinit_sound start, rfl⟩ ?_ reached
  rintro calls u call t - ⟨lost, sound, count⟩ taken
  obtain ⟨lost', sound', more⟩ := step_sound sound taken
  refine ⟨lost', sound', ?_⟩
  rw [more, count, List.countP_append, List.countP_singleton]

/-- Pages are conserved in the states reached before the first child is waited for and in no
other: each `wait` takes one page out of circulation. -/
theorem pages_conserved_iff {pool : List Page} (nodup : pool.Nodup) {s t : Kernel}
    (start : Kernel.userinit pool = some s) {calls : List Call} (reached : Machine.run step s calls = some t) :
    (t.Conserved pool ↔ ∀ p, .wait p ∉ calls) ∧
      t.freelist.length + ∑ q, (t.proc q).references.card + calls.countP Call.isWait = pool.length := by
  obtain ⟨lost, sound, count⟩ := run_sound start reached
  constructor
  · have exact := Holdings.exact_iff_nothing_lost (Multiset.coe_nodup.mpr nodup) sound.account
    rw [Kernel.Conserved, exact, ← Multiset.card_eq_zero, count, List.countP_eq_zero]
    constructor
    · intro none p member
      exact none _ member rfl
    · intro none call member
      cases call with
      | wait p => exact absurd member (none p)
      | _ => simp [Call.isWait]
  · have total := congrArg Multiset.card sound.account
    rw [Multiset.card_add, Multiset.card_add, Multiset.card_sum, Multiset.coe_card, Multiset.coe_card, count] at total
    exact total

def memory : List Page := List.range 200

def family : List Call := [.fork 0, .exit 1, .wait 0]

theorem pages_conserved_iff_memory : ∃ s t, Kernel.userinit memory = some s ∧ Machine.run step s family = some t ∧
    (t.Conserved memory ↔ ∀ p, .wait p ∉ family) := by
  have goes : ((Kernel.userinit memory).bind fun s => Machine.run step s family).isSome = true := by decide +kernel
  obtain ⟨t, ran⟩ := Option.isSome_iff_exists.mp goes
  obtain ⟨s, start, reached⟩ := Option.bind_eq_some_iff.mp ran
  exact ⟨s, t, start, reached, (pages_conserved_iff List.nodup_range start reached).1⟩

/-- A child has been forked, has exited and has been waited for, and a page is gone. -/
theorem page_lost : ¬∀ s t, Kernel.userinit memory = some s → Machine.run step s family = some t → t.Conserved memory := by
  intro conserved
  have goes : ((Kernel.userinit memory).bind fun s => Machine.run step s family).isSome = true := by decide +kernel
  obtain ⟨t, ran⟩ := Option.isSome_iff_exists.mp goes
  obtain ⟨s, start, reached⟩ := Option.bind_eq_some_iff.mp ran
  obtain ⟨lost, sound, count⟩ := run_sound start reached
  have exact := Holdings.exact_iff_nothing_lost (Multiset.coe_nodup.mpr List.nodup_range) sound.account
  rw [exact.mp (conserved s t start reached)] at count
  cases count

end OsLabs.Lifecycle
