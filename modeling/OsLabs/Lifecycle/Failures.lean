import OsLabs.Lifecycle.Conservation

/-! What a `fork` that fails leaves behind. `allocproc` gives a claimed slot up when there is
no page for a kernel stack, but not when there is none for the old trap frame, and `fork`
never gives the page of the trap frame back. -/

set_option autoImplicit false

namespace OsLabs.Lifecycle

open OsLabs.Lib
open OsLabs.LazyVm (PGSIZE NPTENTRIES KERNBASE PDX)

/-! ## What is taken and not given back -/

section Pages

variable {d d' : Pgdir} {freelist freelist' : List Page}

/-- Whatever is still mapped, `freevm` gives back pages of the directory only. -/
theorem freevm_account (freelist : List Page) (d : Pgdir) :
    ∃ lost : Multiset Page, (freevm freelist d : Multiset Page) + lost = freelist + d.pages := by
  have moved := deallocLoop_pages freelist d (a := 0) (Nat.le_refl KERNBASE)
  unfold freevm
  generalize deallocLoop freelist d 0 KERNBASE = result at moved
  obtain ⟨freelist', d'⟩ := result
  let mapped (t : Option Pgtab) : Multiset Page :=
    t.elim 0 fun t => ∑ i ∈ Finset.range NPTENTRIES, pageOf (t.entry i)
  have split : ∀ t, tablePages t = (t.elim (0 : Multiset Page) fun t => {t.page}) + mapped t := by
    intro t
    cases t with
    | none => simp only [tablePages, mapped, Option.elim_none, add_zero]
    | some t => simp only [tablePages, mapped, Option.elim_some, Pgtab.pages]
  refine ⟨∑ i ∈ Finset.range NPDENTRIES, mapped (d'.table i), ?_⟩
  have tables : ((List.range NPDENTRIES).map fun i => (d'.table i).elim (0 : Multiset Page) fun t => {t.page}).sum =
      ∑ i ∈ Finset.range NPDENTRIES, (d'.table i).elim 0 fun t => {t.page} := rfl
  dsimp only at moved ⊢
  rw [← moved, kfree, ← Multiset.cons_coe, ← Multiset.singleton_add, freeTables_pages, tables, Pgdir.pages]
  simp only [split, Finset.sum_add_distrib]
  abel

theorem setupkvm_account {r : Option Pgdir} (built : setupkvm freelist = (freelist', r)) :
    ∃ lost : Multiset Page, (freelist' : Multiset Page) + r.elim 0 Pgdir.pages + lost = freelist := by
  cases r with
  | some d => exact ⟨0, (add_zero _).trans (setupkvm_spec built).1⟩
  | none =>
    simp only [Option.elim_none, add_zero]
    unfold setupkvm at built
    split at built
    · cases built
      exact ⟨0, add_zero _⟩
    · next page rest taken =>
      have inside : ∀ pdx ∈ kmap, pdx < NPDENTRIES := fun pdx member => List.mem_range.mp (List.mem_filter.mp member).1
      have low : Pgdir.Low { page, table := fun _ => none } := nofun
      have fresh : ({ page, table := fun _ => none } : Pgdir).pages = {page} := by simp [Pgdir.pages, tablePages]
      split at built
      · cases built
      · next freelist'' pgdir mapped =>
        cases built
        obtain ⟨same, -⟩ := mapKernel_spec inside low mapped
        obtain ⟨lost, back⟩ := freevm_account freelist'' pgdir
        refine ⟨lost, ?_⟩
        rw [back, same, fresh, add_comm, ← kalloc_pages taken]

/-- The page meant for an address that could not be mapped is lost. -/
theorem copyLoop_account {pgdir : Pgdir} {i n : Nat} (inside : ∀ k < n, Inside (i + k * PGSIZE)) {ok : Bool}
    (copied : copyLoop pgdir freelist d i n = .ok (freelist', d', ok)) :
    ∃ lost : Multiset Page, (freelist' : Multiset Page) + d'.pages + lost = freelist + d.pages := by
  induction n generalizing freelist d i with
  | zero =>
    cases copied
    exact ⟨0, add_zero _⟩
  | succ n ih =>
    have here : Inside i := by simpa using inside 0 (Nat.succ_pos n)
    have later : ∀ k < n, Inside (i + PGSIZE + k * PGSIZE) := by
      intro k less
      have next := inside (k + 1) (Nat.succ_lt_succ less)
      rwa [Nat.succ_mul, Nat.add_comm (k * PGSIZE), ← Nat.add_assoc] at next
    rw [copyLoop] at copied
    split at copied
    · cases copied
    · cases copied
    · split at copied
      · cases copied
        exact ⟨0, add_zero _⟩
      · next mem rest taken =>
        rw [kalloc_pages taken]
        split at copied
        · cases copied
        · cases copied
          exact ⟨{mem}, by abel⟩
        · next freelist'' d'' mapped =>
          obtain ⟨lost, account⟩ := ih later copied
          refine ⟨lost, ?_⟩
          rw [account, mappages_pages here mapped]
          abel

theorem copyuvm_account {pgdir : Pgdir} {sz : Nat} {r : Option Pgdir} (word : sz < 2 ^ 32)
    (copied : copyuvm freelist pgdir sz = .ok (freelist', r)) :
    ∃ lost : Multiset Page, (freelist' : Multiset Page) + lost = freelist := by
  have inside : ∀ k < (sz + PGSIZE - 1) / PGSIZE, Inside (0 + k * PGSIZE) := by
    intro k less
    simp only [Inside, PDX, PGSIZE, NPTENTRIES, NPDENTRIES] at less ⊢
    omega
  unfold copyuvm at copied
  split at copied
  · next freelist'' built =>
    cases copied
    obtain ⟨lost, account⟩ := setupkvm_account built
    exact ⟨lost, by simpa using account⟩
  · next freelist'' d built =>
    obtain ⟨lost, account⟩ := setupkvm_account built
    rw [Option.elim_some] at account
    split at copied
    · cases copied
    · next freelist₁ d' looped =>
      cases copied
      obtain ⟨lost', account'⟩ := copyLoop_account inside looped
      refine ⟨d'.pages + lost' + lost, ?_⟩
      rw [← add_assoc, ← add_assoc, account', account]
    · next freelist₁ d' looped =>
      cases copied
      obtain ⟨lost', account'⟩ := copyLoop_account inside looped
      obtain ⟨lost'', account''⟩ := freevm_account freelist₁ d'
      refine ⟨lost'' + lost' + lost, ?_⟩
      rw [← add_assoc, ← add_assoc, account'', account', account]

end Pages

/-! ## Failed calls -/

namespace Kernel

/-- No slot has changed its state, the same pages are free, and whatever memory there is
later, `allocproc` settles on the slot it would have settled on. -/
structure Undone (s t : Kernel) : Prop where
  states : ∀ q, (t.proc q).state = (s.proc q).state
  pages : (t.freelist : Multiset Page) = s.freelist
  slot : ∀ freelist, { t with freelist }.allocproc.2 = { s with freelist }.allocproc.2

/-- There is no slot, or no page at all. -/
def Spent (s : Kernel) : Prop := (∀ q, (s.proc q).state ≠ .unused) ∨ s.freelist = []

variable {s t : Kernel} {r : Option Slot} {p : Slot} {ret : Int}

theorem allocproc_slot_congr (states : ∀ q, (t.proc q).state = (s.proc q).state) (freelist : List Page) :
    { t with freelist }.allocproc.2 = { s with freelist }.allocproc.2 := by
  simp only [allocproc, states]
  cases (List.finRange NPROC).find? fun q => decide ((s.proc q).state = .unused) with
  | none => rfl
  | some q =>
    cases freelist with
    | nil => rfl
    | cons k rest =>
      cases rest with
      | nil => rfl
      | cons o rest => rfl

theorem Undone.of_states (states : ∀ q, (t.proc q).state = (s.proc q).state) (same : t.freelist = s.freelist) :
    s.Undone t :=
  ⟨states, congrArg _ same, allocproc_slot_congr states⟩

theorem allocproc_spent (spent : s.Spent) (call : s.allocproc = (t, r)) : r = none ∧ s.Undone t := by
  unfold allocproc at call
  split at call
  · cases call
    exact ⟨rfl, Undone.of_states (fun _ => rfl) rfl⟩
  · next q found =>
    have unused : (s.proc q).state = .unused := by simpa using List.find?_some found
    -- a slot was found, so it is the pages that are spent
    have empty : s.freelist = [] := spent.resolve_left fun none => none q unused
    simp only [set, empty, kalloc] at call
    cases call
    refine ⟨rfl, Undone.of_states (fun q' => ?_) empty.symm⟩
    simp only [Function.update_apply]
    split
    · next same => rw [same, unused]
    · rfl

/-- With a slot and a page to be had, an `allocproc` that fails keeps the page. -/
theorem allocproc_unspent (unspent : ¬s.Spent) (call : s.allocproc = (t, none)) :
    ∃ kstack : Page, (t.freelist : Multiset Page) + {kstack} = s.freelist := by
  unfold allocproc at call
  split at call
  · next none =>
    refine absurd (.inl fun q unused => ?_) unspent
    have missing := List.find?_eq_none.mp none q (List.mem_finRange q)
    simp [unused] at missing
  · cases list : s.freelist with
    | nil => exact absurd (.inr list) unspent
    | cons kstack rest =>
      simp only [set, list, kalloc] at call
      cases rest with
      -- one page: it is the stack that stays behind
      | nil =>
        cases call
        exact ⟨kstack, rfl⟩
      | cons oldtf rest => cases call

theorem fork_spent (spent : s.Spent) (call : s.fork p = some (t, ret)) : ret = -1 ∧ s.Undone t := by
  unfold fork at call
  split at call
  · next u allocated =>
    cases call
    exact ⟨rfl, (allocproc_spent spent allocated).2⟩
  · next u np allocated =>
    cases (allocproc_spent spent allocated).1

/-- A fork that gets as far as the first page loses one, whether it succeeds or not. -/
theorem fork_unspent (words : ∀ q, (s.proc q).sz < 2 ^ 32) (unspent : ¬s.Spent) (call : s.fork p = some (t, ret)) :
    ∃ lost : Multiset Page, lost ≠ 0 ∧ (t.freelist : Multiset Page) + lost = s.freelist := by
  unfold fork at call
  split at call
  · next u allocated =>
    cases call
    obtain ⟨kstack, account⟩ := allocproc_unspent unspent allocated
    exact ⟨{kstack}, Multiset.singleton_ne_zero kstack, account⟩
  · next u np allocated =>
    obtain ⟨kstack, oldtf, -, list, procs⟩ := allocproc_spec allocated
    have pages : (s.freelist : Multiset Page) = {kstack} + {oldtf} + u.freelist := by rw [list]; rfl
    -- the caller itself may be the slot that allocproc has changed
    have word : (u.proc p).sz < 2 ^ 32 := by
      rw [procs, Function.update_apply]
      split
      · exact words np
      · exact words p
    obtain ⟨pgdir, memory, call⟩ := Option.bind_eq_some_iff.mp call
    split at call
    · cases call
    · next freelist copied =>
      -- the kernel stack goes back, the page of the trap frame does not
      obtain ⟨lost, copy⟩ := copyuvm_account word copied
      obtain ⟨k, stack, same⟩ := Option.map_eq_some_iff.mp call
      rw [procs, Function.update_self] at stack
      cases stack
      cases same
      refine ⟨{oldtf} + lost, by simp, ?_⟩
      rw [pages, ← copy]
      show {kstack} + (freelist : Multiset Page) + _ = _
      abel
    · next freelist d copied =>
      obtain ⟨lost, copy⟩ := copyuvm_account word copied
      cases call
      refine ⟨{kstack} + {oldtf} + lost, by simp, ?_⟩
      rw [pages, ← copy]
      show (freelist : Multiset Page) + _ = _
      abel

theorem not_undone_of_lost {lost : Multiset Page} (some : lost ≠ 0)
    (account : (t.freelist : Multiset Page) + lost = s.freelist) : ¬s.Undone t := by
  intro undone
  rw [← undone.pages, add_eq_left] at account
  exact some account

theorem allocproc_sz (call : s.allocproc = (t, r)) (q : Slot) : (t.proc q).sz = (s.proc q).sz := by
  unfold allocproc at call
  split at call
  · cases call
    rfl
  · next p found =>
    dsimp only at call
    split at call
    · cases call
      by_cases here : q = p <;> simp [set, here]
    · split at call <;>
      · cases call
        by_cases here : q = p <;> simp [set, here]

theorem fork_words (call : s.fork p = some (t, ret)) (words : ∀ q, (s.proc q).sz < 2 ^ 32) (q : Slot) :
    (t.proc q).sz < 2 ^ 32 := by
  unfold fork at call
  split at call
  · next u allocated =>
    cases call
    rw [allocproc_sz allocated]
    exact words q
  · next u np allocated =>
    have before := allocproc_sz allocated
    obtain ⟨pgdir, memory, call⟩ := Option.bind_eq_some_iff.mp call
    split at call
    · cases call
    · obtain ⟨k, stack, same⟩ := Option.map_eq_some_iff.mp call
      cases same
      simp only [set, Function.update_apply]
      split <;>
      · rw [before]
        exact words _
    · cases call
      simp only [set, Function.update_apply]
      split <;>
      · rw [before]
        exact words _

end Kernel

/-! ## Sequences of failed forks -/

def failing : Machine Kernel Slot := fun s p => (s.fork p).bind fun (t, pid) => if pid = -1 then some t else none

def Kernel.unusedSlots (s : Kernel) : Nat := (Finset.univ.filter fun q => (s.proc q).state = .unused).card

theorem failing_eq_some {s t : Kernel} {p : Slot} (failed : failing s p = some t) : s.fork p = some (t, -1) := by
  obtain ⟨⟨u, pid⟩, call, same⟩ := Option.bind_eq_some_iff.mp failed
  dsimp only at same
  split at same
  · next negative =>
    cases same
    rw [call, negative]
  · cases same

section Runs

variable {s t : Kernel} {ps : List Slot}

/-- Pages never come back: every failed fork leaves as many as there were or fewer. -/
theorem length_le_of_run (words : ∀ q, (s.proc q).sz < 2 ^ 32) (reached : Machine.run failing s ps = some t) :
    (∀ q, (t.proc q).sz < 2 ^ 32) ∧ t.freelist.length ≤ s.freelist.length := by
  refine Machine.invariant
    (I := fun u : Kernel => (∀ q, (u.proc q).sz < 2 ^ 32) ∧ u.freelist.length ≤ s.freelist.length) ?_
    ⟨words, le_rfl⟩ reached
  rintro u p v ⟨words, shorter⟩ failed
  have call := failing_eq_some failed
  refine ⟨u.fork_words call words, ?_⟩
  -- either nothing has happened or the account of the fork has a loss in it
  by_cases spent : u.Spent
  · have same := congrArg Multiset.card (Kernel.fork_spent spent call).2.pages
    simp only [Multiset.coe_card] at same
    omega
  · obtain ⟨lost, -, account⟩ := Kernel.fork_unspent words spent call
    have total := congrArg Multiset.card account
    simp only [Multiset.card_add, Multiset.coe_card] at total
    omega

/-- In every table and with every free list: a call that fails is undone exactly when there
was no slot or no page at all, and a sequence of failed forks costs neither slots nor pages
exactly when that was so before each of them. -/
theorem failures_undone_iff {s : Kernel} (words : ∀ q, (s.proc q).sz < 2 ^ 32) :
    (∀ t, s.allocproc = (t, none) → (s.Undone t ↔ s.Spent)) ∧
    (∀ p t, s.fork p = some (t, -1) → (s.Undone t ↔ s.Spent)) ∧
    ∀ ps t, Machine.run failing s ps = some t →
      (s.unusedSlots ≤ t.unusedSlots ∧ s.freelist.length ≤ t.freelist.length ↔
        Machine.EveryStep failing (fun u _ => u.Spent) s ps) := by
  refine ⟨fun t call => ⟨fun undone => ?_, fun spent => (Kernel.allocproc_spent spent call).2⟩,
    fun p t call => ⟨fun undone => ?_, fun spent => (Kernel.fork_spent spent call).2⟩, fun ps t reached => ⟨?_, ?_⟩⟩
  · by_contra unspent
    obtain ⟨kstack, account⟩ := Kernel.allocproc_unspent unspent call
    exact Kernel.not_undone_of_lost (Multiset.singleton_ne_zero kstack) account undone
  · by_contra unspent
    obtain ⟨lost, some, account⟩ := Kernel.fork_unspent words unspent call
    exact Kernel.not_undone_of_lost some account undone
  · rintro ⟨-, pages⟩
    rw [Machine.everyStep_iff]
    rintro before p after u rfl upto
    by_contra unspent
    rw [Machine.run_append, upto] at reached
    obtain ⟨v, failed, rest⟩ := Machine.run_cons_eq_some.mp reached
    -- the fork in question loses a page, and those before and behind it bring none back
    obtain ⟨words', first⟩ := length_le_of_run words upto
    have call := failing_eq_some failed
    obtain ⟨lost, some, account⟩ := Kernel.fork_unspent words' unspent call
    have last := (length_le_of_run (u.fork_words call words') rest).2
    have total := congrArg Multiset.card account
    have positive := Multiset.card_pos.mpr some
    simp only [Multiset.card_add, Multiset.coe_card] at total
    omega
  · intro spent
    have kept : (∀ q, (t.proc q).state = (s.proc q).state) ∧ t.freelist.length = s.freelist.length := by
      refine Machine.invariant_of_everyStep
        (I := fun u : Kernel => (∀ q, (u.proc q).state = (s.proc q).state) ∧ u.freelist.length = s.freelist.length)
        ?_ ⟨fun _ => rfl, rfl⟩ spent reached
      rintro u p v ⟨states, length⟩ spent failed
      have undone := (Kernel.fork_spent spent (failing_eq_some failed)).2
      have pages := congrArg Multiset.card undone.pages
      simp only [Multiset.coe_card] at pages
      exact ⟨fun q => (undone.states q).trans (states q), pages.trans length⟩
    exact ⟨by simp only [Kernel.unusedSlots, kept.1, le_refl], kept.2.ge⟩

end Runs

theorem failures_undone_usedUp : ∃ s t u, Kernel.userinit (List.range 69) = some s ∧ s.fork 0 = some (t, -1) ∧
    s.Undone t ∧ Machine.run failing s [0, 0] = some u ∧ s.unusedSlots ≤ u.unusedSlots := by
  have facts : (Kernel.userinit (List.range 69)).any (fun s => decide (∀ q, (s.proc q).sz < 2 ^ 32) &&
      s.freelist.isEmpty && (s.fork 0).any (fun x => decide (x.2 = -1)) && (Machine.run failing s [0, 0]).isSome &&
      Machine.checkRun failing (fun u _ => u.freelist.isEmpty) s [0, 0]) = true := by
    decide +kernel
  obtain ⟨s, started, facts⟩ := (Option.any_eq_true _ _).mp facts
  simp only [Bool.and_eq_true, decide_eq_true_eq, List.isEmpty_iff] at facts
  obtain ⟨⟨⟨⟨words, used_up⟩, forked⟩, fail_twice⟩, checked⟩ := facts
  obtain ⟨⟨t, ret⟩, call, returned⟩ := (Option.any_eq_true _ _).mp forked
  cases of_decide_eq_true returned
  obtain ⟨u, reached⟩ := Option.isSome_iff_exists.mp fail_twice
  obtain ⟨-, once, runs⟩ := failures_undone_iff words
  have spent : Machine.EveryStep failing (fun u _ => u.Spent) s [0, 0] :=
    Machine.everyStep_of_checkRun (fun _ _ empty => .inr (List.isEmpty_iff.mp empty)) checked
  exact ⟨s, t, u, started, call, (once 0 t call).mpr (.inr used_up), reached, ((runs _ u reached).mpr spent).1⟩

/-- With one page left beside the first process, its fork claims a slot and keeps it. -/
theorem fork_keeps_slot : ¬∀ (s t : Kernel) (p : Slot), (∀ q, (s.proc q).sz < 2 ^ 32) →
    s.fork p = some (t, -1) → s.Undone t := by
  intro claimed
  have fails : (Kernel.userinit (List.range 70)).any (fun s => (s.fork 0).any fun x =>
      decide ((∀ q, (s.proc q).sz < 2 ^ 32) ∧ x.2 = -1 ∧ (s.proc 1).state = .unused ∧
        (x.1.proc 1).state = .embryo)) = true := by decide +kernel
  obtain ⟨s, -, fails⟩ := (Option.any_eq_true _ _).mp fails
  obtain ⟨⟨t, ret⟩, call, facts⟩ := (Option.any_eq_true _ _).mp fails
  obtain ⟨words, rfl, unused, embryo⟩ := of_decide_eq_true facts
  have same := (claimed s t 0 words call).states 1
  rw [unused, embryo] at same
  cases same

end OsLabs.Lifecycle
