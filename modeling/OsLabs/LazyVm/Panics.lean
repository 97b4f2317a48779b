import Mathlib.Order.Nat
import OsLabs.Lib.Machine
import OsLabs.LazyVm.Kernel

/-! Processes over the lazy kernel, and when one of them makes it panic: `mappages` and
`copyuvm` take it for granted that every page below `sz` is mapped and that no other is. -/

set_option autoImplicit false

namespace OsLabs.LazyVm

open OsLabs.Lib

inductive Call where
  | user (op : Op)
  -- the slot is what `allocproc` finds
  | fork (slot : Option Nat)
  deriving DecidableEq

/-- The processes by their slots. A process that is gone leaves its slot free at once. -/
structure Sys where
  procs : Nat → Option Proc
  panic : Option Panic

namespace Sys

def boot (p : Proc) : Sys where
  procs := Function.update (fun _ => none) 0 (some p)
  panic := none

def step : Machine Sys (Nat × Call) := fun s (pid, call) =>
  match s.panic, s.procs pid with
  | none, some p =>
    match call with
    | .user op =>
      match exec onDemand p op with
      | (.panicked panic, _) => some { s with panic := some panic }
      | (_, q) => some { s with procs := Function.update s.procs pid q }
    | .fork none => some s
    | .fork (some slot) =>
      match s.procs slot with
      | some _ => none
      | none =>
        match fork p with
        | .error panic => some { s with panic := some panic }
        | .ok child => some { s with procs := Function.update s.procs slot (some child) }
  | _, _ => none

end Sys

def Proc.Bad (p : Proc) : Op → Prop
  | .sbrk _ _ => False
  | .load a | .store a _ => p.sz ≤ a.toNat ∧ ¬Usable p.pgdir a.toNat

def Proc.Reaches (p : Proc) : Op → Prop
  | .sbrk _ _ => True
  | .load a | .store a _ => a.toNat < p.sz → (entry p.pgdir a.toNat).isSome → Usable p.pgdir a.toNat

instance (p : Proc) (op : Op) : Decidable (p.Reaches op) :=
  match op with
  | .sbrk _ _ => isTrue trivial
  | .load _ | .store _ _ => by unfold Proc.Reaches; infer_instance

structure Proc.Whole (p : Proc) : Prop where
  size : p.sz ≤ KERNBASE
  present : ∀ a, a < p.sz → (entry p.pgdir a).isSome

namespace Sys

/-- No guard page or kernel page below `sz` is accessed, and only a process with all its
pages forks. -/
def Careful (s : Sys) : Nat × Call → Prop
  | (pid, .user op) => ∀ p, s.procs pid = some p → p.Reaches op
  | (_, .fork none) => True
  | (pid, .fork (some slot)) => s.procs slot = none → ∀ p, s.procs pid = some p → p.Whole

/-- What a call may come to: the other processes are as they were, one is killed by a bad
access only, and a child has what its parent has. -/
def Serves (s t : Sys) (pid : Nat) (p : Proc) : Call → Prop
  | .user op => (∀ other, other ≠ pid → t.procs other = s.procs other) ∧ (t.procs pid = none ↔ p.Bad op)
  | .fork none => t.procs = s.procs
  | .fork (some slot) => (∀ other, other ≠ slot → t.procs other = s.procs other) ∧
    ∃ child, t.procs slot = some child ∧ child.sz = p.sz ∧ ∀ a, a < p.sz → entry child.pgdir a = entry p.pgdir a

def Harmless (s : Sys) (e : Nat × Call) : Prop :=
  ∀ t p, step s e = some t → s.procs e.1 = some p → t.panic = none ∧ Serves s t e.1 p e.2

end Sys

/-! ## Calls of one process -/

section Calls

variable {p : Proc} {op : Op}

theorem access_cases (p : Proc) (a : Nat) :
    (Usable p.pgdir a ∧ access onDemand p a = .ok (some p)) ∨
    (p.sz ≤ a ∧ ¬Usable p.pgdir a ∧ access onDemand p a = .ok none) ∨
    (a < p.sz ∧ entry p.pgdir a = none ∧ ∃ q, access onDemand p a = .ok (some q)) ∨
    (a < p.sz ∧ (entry p.pgdir a).isSome ∧ ¬Usable p.pgdir a ∧ access onDemand p a = .error .remap) := by
  by_cases usable : Usable p.pgdir a
  · exact Or.inl ⟨usable, if_pos usable⟩
  · rw [access, if_neg usable, trap_onDemand]
    by_cases small : a < p.sz
    · rw [if_pos small]
      cases here : entry p.pgdir a with
      | none => simp [small]
      | some pte => simp [small, usable]
    · rw [if_neg small]
      exact Or.inr (Or.inl ⟨Nat.not_lt.mp small, usable, rfl⟩)

theorem exec_of_not_reaches (locked : ¬p.Reaches op) : exec onDemand p op = (.panicked .remap, none) := by
  have remap : ∀ a, ¬(a < p.sz → (entry p.pgdir a).isSome → Usable p.pgdir a) →
      access onDemand p a = .error .remap := by
    intro a locked
    rcases access_cases p a with ⟨usable, -⟩ | ⟨above, -⟩ | ⟨-, absent, -⟩ | ⟨-, -, -, panics⟩
    · exact absurd (fun _ _ => usable) locked
    · exact absurd (fun small => absurd small (Nat.not_lt.mpr above)) locked
    · exact absurd (fun _ present => by simp [absent] at present) locked
    · exact panics
  cases op with
  | sbrk addr n => exact absurd trivial locked
  | load a => simp only [exec, remap a.toNat locked]
  | store a b => simp only [exec, remap a.toNat locked]

theorem exec_of_reaches (reaches : p.Reaches op) :
    ∃ reply q, exec onDemand p op = (reply, q) ∧ (∀ panic, reply ≠ .panicked panic) ∧ (q = none ↔ p.Bad op) := by
  have answer : ∀ a, (a < p.sz → (entry p.pgdir a).isSome → Usable p.pgdir a) →
      ∃ q, access onDemand p a = .ok q ∧ (q = none ↔ p.sz ≤ a ∧ ¬Usable p.pgdir a) := by
    intro a reaches
    rcases access_cases p a with ⟨usable, done⟩ | ⟨above, unusable, done⟩ | ⟨small, -, q, done⟩ |
      ⟨small, present, unusable, -⟩
    · exact ⟨some p, done, by simp [usable]⟩
    · exact ⟨none, done, by simp [above, unusable]⟩
    · exact ⟨some q, done, by simp [Nat.not_le.mpr small]⟩
    · exact absurd (reaches small present) unusable
  cases op with
  | sbrk addr n =>
    rw [exec_sbrk_onDemand]
    split <;> simp [Proc.Bad]
  | load a =>
    obtain ⟨q, done, killed⟩ := answer a.toNat reaches
    simp only [exec, done, Proc.Bad, ← killed]
    cases q <;> simp
  | store a b =>
    obtain ⟨q, done, killed⟩ := answer a.toNat reaches
    simp only [exec, done, Proc.Bad, ← killed]
    cases q <;> simp

theorem entry_setupkvm {a : Nat} (low : a < KERNBASE) : entry setupkvm a = none := by
  rw [entry, walkpgdir, setupkvm_low low]
  rfl

theorem within_zero {sz a : Nat} : Within 0 sz a ↔ PGROUNDDOWN a < sz := by simp [Within, PGROUNDDOWN]

theorem fork_ok_iff : (∃ child, fork p = .ok child) ↔ p.Whole := by
  have copied : (∃ child, fork p = .ok child) ↔ ∃ d, copyLoop p.pgdir setupkvm 0 p.sz = .ok d := by
    rw [fork, copyuvm]
    cases copyLoop p.pgdir setupkvm 0 p.sz <;> simp
  rw [copied, copyLoop_ok_iff (Nat.dvd_zero PGSIZE)]
  constructor
  · intro pages
    refine ⟨?_, fun a small => (pages a (within_zero.mpr ?_)).1⟩
    · by_contra large
      -- the child's table has the kernel's first page from the start
      have absent := (pages KERNBASE (within_zero.mpr (Nat.not_le.mp large))).2
      revert absent
      decide
    · exact (Nat.div_mul_le_self a PGSIZE).trans_lt small
  · intro whole b within
    have below : PGROUNDDOWN b < p.sz := within_zero.mp within
    have same := pgrounddown_page b
    refine ⟨?_, ?_⟩
    · rw [← entry_congr p.pgdir same]
      exact whole.present _ below
    · rw [← entry_congr setupkvm same]
      exact entry_setupkvm (below.trans_le whole.size)

theorem fork_spec {child : Proc} (done : fork p = .ok child) :
    child.sz = p.sz ∧ ∀ a, a < p.sz → entry child.pgdir a = entry p.pgdir a := by
  rw [fork, copyuvm] at done
  cases copied : copyLoop p.pgdir setupkvm 0 p.sz with
  | error panic => simp [copied] at done
  | ok d =>
    simp only [copied, Except.ok.injEq] at done
    subst done
    refine ⟨rfl, fun a small => ?_⟩
    rw [entry_copyLoop (Nat.dvd_zero PGSIZE) copied, if_pos]
    exact within_zero.mpr ((Nat.div_mul_le_self a PGSIZE).trans_lt small)

end Calls

/-! ## Calls of the system -/

section System

variable {s t : Sys} {p : Proc} {pid slot : Nat}

theorem step_user (op : Op) (running : s.panic = none) (here : s.procs pid = some p) :
    (¬p.Reaches op ∧ Sys.step s (pid, .user op) = some { s with panic := some .remap }) ∨
    (p.Reaches op ∧ ∃ q, Sys.step s (pid, .user op) = some { s with procs := Function.update s.procs pid q } ∧
      (q = none ↔ p.Bad op)) := by
  by_cases open_page : p.Reaches op
  · obtain ⟨reply, q, done, fine, killed⟩ := exec_of_reaches open_page
    refine Or.inr ⟨open_page, q, ?_, killed⟩
    cases reply <;> simp_all [Sys.step]
  · exact Or.inl ⟨open_page, by simp [Sys.step, running, here, exec_of_not_reaches open_page]⟩

theorem step_fork (running : s.panic = none) (here : s.procs pid = some p) (free : s.procs slot = none) :
    (¬p.Whole ∧ ∃ panic, Sys.step s (pid, .fork (some slot)) = some { s with panic := some panic }) ∨
    (p.Whole ∧ ∃ child,
      Sys.step s (pid, .fork (some slot)) = some { s with procs := Function.update s.procs slot (some child) } ∧
      fork p = .ok child) := by
  cases forked : fork p with
  | ok child =>
    refine Or.inr ⟨fork_ok_iff.mp ⟨child, forked⟩, child, ?_, rfl⟩
    simp [Sys.step, running, here, free, forked]
  | error panic =>
    refine Or.inl ⟨fun whole => ?_, panic, ?_⟩
    · obtain ⟨child, done⟩ := fork_ok_iff.mpr whole
      rw [forked] at done
      cases done
    · simp [Sys.step, running, here, free, forked]

theorem harmless_iff_careful (running : s.panic = none) (e : Nat × Call) : s.Harmless e ↔ s.Careful e := by
  obtain ⟨pid, op | _ | slot⟩ := e
  · constructor
    · intro harmless p here
      rcases step_user op running here with ⟨-, panics⟩ | ⟨open_page, -⟩
      · cases (harmless _ p panics here).1
      · exact open_page
    · intro careful t p taken here
      rcases step_user op running here with ⟨locked, -⟩ | ⟨-, q, done, killed⟩
      · exact absurd (careful p here) locked
      · cases Option.some.inj (done.symm.trans taken)
        refine ⟨running, fun other apart => Function.update_of_ne apart _ _, ?_⟩
        rw [← killed]
        exact iff_of_eq (congrArg (· = none) (Function.update_self pid q s.procs))
  · refine iff_of_true ?_ trivial
    intro t p taken here
    have same : s = t := by simpa [Sys.step, running, here] using taken
    exact ⟨same ▸ running, same ▸ rfl⟩
  · constructor
    · intro harmless free p here
      rcases step_fork running here free with ⟨-, panic, panics⟩ | ⟨whole, -⟩
      · cases (harmless _ p panics here).1
      · exact whole
    · intro careful t p taken here
      cases free : s.procs slot with
      | some q => simp [Sys.step, running, here, free] at taken
      | none =>
        rcases step_fork running here free with ⟨torn, -⟩ | ⟨-, child, done, forked⟩
        · exact absurd (careful free p here) torn
        · cases Option.some.inj (done.symm.trans taken)
          obtain ⟨size, copies⟩ := fork_spec forked
          exact ⟨running, fun other apart => Function.update_of_ne apart _ _, child, Function.update_self .., size,
            copies⟩

theorem running_of_step {e : Nat × Call} (harmless : s.Harmless e) (taken : Sys.step s e = some t) :
    t.panic = none := by
  obtain ⟨pid, call⟩ := e
  cases here : s.procs pid with
  | none => simp [Sys.step, here] at taken
  | some p => exact (harmless t p taken here).1

/-- From any image the calls of a process and its descendants are harmless as long as
each is careful, and only then. -/
theorem harmless_iff (p : Proc) (es : List (Nat × Call)) :
    Machine.EveryStep Sys.step Sys.Harmless (Sys.boot p) es ↔
      Machine.EveryStep Sys.step Sys.Careful (Sys.boot p) es := by
  have anything : Machine.EveryStep Sys.step (fun _ _ => True) (Sys.boot p) es :=
    Machine.everyStep_of_forall fun _ _ => trivial
  apply Machine.everyStep_iff_of_invariant (I := fun s => s.panic = none) _ _ rfl anything
  · exact fun s e running _ => harmless_iff_careful running e
  · exact fun s e t running _ careful => running_of_step ((harmless_iff_careful running e).mpr careful)

end System

/-- The first page below `sz` that is not the process's own is its guard page. -/
theorem panics_at_guard_page :
    ¬∀ p, Image p → ∀ es s, Machine.run Sys.step (Sys.boot p) es = some s → s.panic = none := by
  intro safe
  have panics : (Machine.run Sys.step (Sys.boot smallImage) [(0, .user (.load 4096))]).all
      (fun s => decide (s.panic = none)) = false := by decide +kernel
  have none_panics : (Machine.run Sys.step (Sys.boot smallImage) [(0, .user (.load 4096))]).all
      (fun s => decide (s.panic = none)) = true := by
    rw [Option.all_eq_true]
    intro s reached
    exact decide_eq_true (safe smallImage image_smallImage _ s reached)
  exact Bool.false_ne_true (panics.symm.trans none_panics)

end OsLabs.LazyVm
