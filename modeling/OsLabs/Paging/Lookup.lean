import OsLabs.Paging.Translation

/-! `get_va_to_pa` against what the calls on a directory have mapped: after any run of them
it finds the page that the last call to map the address assigned. -/

set_option autoImplicit false

namespace OsLabs.Paging

open OsLabs.Lib
open OsLabs.LazyVm (PGSIZE NPTENTRIES KERNBASE wordSize PGROUNDUP PGROUNDDOWN PDX PTX Within)

/-- What a store through a pointer of the caller's does; `none` is a fault in the kernel. -/
abbrev Store := Kmem → Word → Word → Option Kmem

structure Answer where
  mem : Kmem
  ret : Option Word
  stores : List (Word × Word)

def getVaToPa (store : Store) (m : Kmem) (pgdir : Frame) (va pa flag : Word) : Answer :=
  match m.walkpgdir pgdir va.toNat false with
  | (m, none) => { mem := m, ret := some 0, stores := [] }
  | (m, some wpg) =>
    if Present (m.read wpg) then
      let page := PTE_ADDR (m.read wpg) ||| (va &&& 0xFFF)
      match store m pa page with
      | none => { mem := m, ret := none, stores := [(pa, page)] }
      | some m =>
        -- the entry is read again, after the store
        let flags := PTE_FLAGS (m.read wpg)
        match store m flag flags with
        | none => { mem := m, ret := none, stores := [(pa, page), (flag, flags)] }
        | some m => { mem := m, ret := some 1, stores := [(pa, page), (flag, flags)] }
    else { mem := m, ret := some 0, stores := [] }

/-- The caller's variables are in no page that the kernel looks at. -/
def elsewhere : Store := fun m _ _ => some m

/-! ## Runs of calls on a directory -/

inductive Call where
  | mappages (va size pa perm : Word)
  | deallocuvm (oldsz newsz : Word)
  | kalloc
  | kfree (f : Frame)
  deriving DecidableEq

def step (kernelEnd : Nat) (pgdir : Frame) (m : Kmem) : Call → Option Kmem
  | .mappages va size pa perm =>
    if pa.toNat % PGSIZE = 0 ∧ pa.toNat + size.toNat ≤ wordSize ∧ 0 < size.toNat ∧
        va.toNat + size.toNat ≤ wordSize ∧ perm.toNat < PGSIZE then
      match m.mappages pgdir va size pa perm with
      | some (m, 0) => some m
      | _ => none
    else none
  | .deallocuvm oldsz newsz =>
    if oldsz.toNat ≤ KERNBASE then (m.deallocuvm kernelEnd pgdir oldsz newsz).map Prod.fst else none
  | .kalloc => m.kalloc.map Prod.snd
  | .kfree f => m.kfree kernelEnd f

/-- `kfree` is given pages that `kalloc` may have returned and that are neither the directory
nor a page table of it. -/
def Returned (pgdir : Frame) (m : Kmem) : Call → Prop
  | .mappages .. => True
  | .deallocuvm oldsz newsz => oldsz ≤ newsz ∨ Frees m {pgdir} pgdir (PGROUNDUP newsz.toNat) oldsz.toNat
  | .kalloc => True
  | .kfree f => Returnable m {pgdir} f

/-- What a directory is for: by the number of the page, the physical page assigned and its
permissions. -/
abbrev Mapping := Nat → Option (Word × Word)

namespace Mapping

def empty : Mapping := fun _ => none

def call (μ : Mapping) : Call → Mapping
  | .mappages va size pa perm => fun p =>
    if va.toNat / PGSIZE ≤ p ∧ p ≤ (va.toNat + size.toNat - 1) / PGSIZE then
      some (pa + BitVec.ofNat 32 ((p - va.toNat / PGSIZE) * PGSIZE), perm)
    else μ p
  | .deallocuvm oldsz newsz => fun p =>
    if newsz < oldsz ∧ PGROUNDUP newsz.toNat ≤ p * PGSIZE ∧ p * PGSIZE < oldsz.toNat then none else μ p
  | .kalloc => μ
  | .kfree _ => μ

def answer (μ : Mapping) (m : Kmem) (va pa flag : Word) : Answer :=
  match μ (va.toNat / PGSIZE) with
  | some (page, perm) => { mem := m, ret := some 1, stores := [(pa, page + va % 4096), (flag, perm ||| PTE_P)] }
  | none => { mem := m, ret := some 0, stores := [] }

end Mapping

def machine (kernelEnd : Nat) (pgdir : Frame) : Machine (Kmem × Mapping) Call :=
  Machine.watch (fun _ call μ => μ.call call) (step kernelEnd pgdir)

structure Empty (m : Kmem) (pgdir : Frame) : Prop where
  nodup : m.freelist.Nodup
  used : pgdir ∉ m.freelist
  zero : ∀ i, m.page pgdir i = 0

def pteOf (page : Word × Word) : Word := page.1 ||| page.2 ||| PTE_P

structure Agrees (pgdir : Frame) (x : Kmem × Mapping) : Prop where
  tables : Tables x.1 {pgdir}
  entries : ∀ a < wordSize, x.1.entry pgdir a = (x.2 (a / PGSIZE)).map pteOf
  aligned : ∀ p pa perm, x.2 p = some (pa, perm) → pa &&& 0xFFF = 0#32 ∧ perm.toNat < PGSIZE

section Runs

variable {kernelEnd : Nat} {pgdir : Frame} {m : Kmem} {x y : Kmem × Mapping} {call : Call}

theorem Empty.absent (start : Empty m pgdir) (i : Nat) : ¬Present (m.page pgdir i) := by
  rw [start.zero]
  decide

theorem Empty.agrees (start : Empty m pgdir) : Agrees pgdir (m, .empty) := by
  have none : ∀ i t, ¬m.Table pgdir i t := fun i t table => start.absent i table.1
  refine ⟨⟨start.nodup, ?_, ?_, ?_, ?_⟩, fun a _ => Kmem.entry_absent (start.absent _), nofun⟩
  · rintro d rfl
    exact start.used
  · rintro d rfl i _ t table
    exact absurd table (none i t)
  · rintro d rfl i _ t table
    exact absurd table (none i t)
  · rintro d rfl d' rfl i _ i' _ t table
    exact absurd table (none i t)

theorem aligned_page {pa : Word} (aligned : pa.toNat % PGSIZE = 0) (k : Nat) :
    (pa + BitVec.ofNat 32 (k * PGSIZE)) &&& 0xFFF = 0#32 := by
  apply aligned_and
  rw [BitVec.toNat_add, BitVec.toNat_ofNat]
  simp only [PGSIZE] at aligned ⊢
  omega

theorem Agrees.mappages {va size pa perm : Word} {m' : Kmem} (agrees : Agrees pgdir x)
    (taken : step kernelEnd pgdir x.1 (.mappages va size pa perm) = some m') :
    Agrees pgdir (m', x.2.call (.mappages va size pa perm)) := by
  unfold step at taken
  dsimp only at taken
  split at taken
  next legal =>
    obtain ⟨aligned, -, some_bytes, fits, flags⟩ := legal
    split at taken
    next done =>
      cases taken
      obtain ⟨tables, entries⟩ := mappages_spec agrees.tables rfl some_bytes fits done
      refine ⟨tables, fun a inside => ?_, fun p pa' perm' mapped => ?_⟩
      · rw [entries pgdir rfl a inside]
        by_cases touched : Touches va size a
        · have mapped : x.2.call (.mappages va size pa perm) (a / PGSIZE) = some _ := if_pos touched
          rw [if_pos ⟨rfl, touched⟩]
          exact (congrArg (Option.map pteOf) mapped).symm
        · have other : x.2.call (.mappages va size pa perm) (a / PGSIZE) = x.2 (a / PGSIZE) := if_neg touched
          rw [if_neg fun h => touched h.2, agrees.entries a inside]
          exact (congrArg (Option.map pteOf) other).symm
      · simp only [Mapping.call] at mapped
        split at mapped
        · cases mapped
          exact ⟨aligned_page aligned _, flags⟩
        · exact agrees.aligned p pa' perm' mapped
    next => cases taken
  next => cases taken

theorem Agrees.deallocuvm {oldsz newsz : Word} {m' : Kmem} (agrees : Agrees pgdir x)
    (taken : step kernelEnd pgdir x.1 (.deallocuvm oldsz newsz) = some m')
    (returned : Returned pgdir x.1 (.deallocuvm oldsz newsz)) :
    Agrees pgdir (m', x.2.call (.deallocuvm oldsz newsz)) := by
  unfold step at taken
  dsimp only at taken
  split at taken
  next low =>
    rw [Kmem.deallocuvm] at taken
    by_cases shrinks : oldsz ≤ newsz
    · rw [if_pos shrinks] at taken
      cases taken
      have kept : x.2.call (.deallocuvm oldsz newsz) = x.2 := by
        funext p
        exact if_neg fun h => absurd h.1 (BitVec.not_lt.mpr shrinks)
      rw [kept]
      exact agrees
    · rw [if_neg shrinks, Option.map_map] at taken
      obtain ⟨m₁, done, same⟩ := Option.map_eq_some_iff.mp taken
      obtain rfl : m₁ = m' := same
      have top : oldsz.toNat ≤ wordSize := low.trans (by decide)
      have aligned : PGSIZE ∣ PGROUNDUP newsz.toNat := Nat.dvd_mul_left _ _
      obtain ⟨tables, entries⟩ :=
        deallocLoop_spec agrees.tables rfl aligned top (returned.resolve_left shrinks) done
      refine ⟨tables, fun a inside => ?_, fun p pa perm mapped => ?_⟩
      · have within : newsz < oldsz ∧ PGROUNDUP newsz.toNat ≤ a / PGSIZE * PGSIZE ∧ a / PGSIZE * PGSIZE < oldsz.toNat ↔
            Within (PGROUNDUP newsz.toNat) oldsz.toNat a := and_iff_right (BitVec.not_le.mp shrinks)
        rw [entries pgdir rfl a inside, agrees.entries a inside]
        simp only [Mapping.call, within, true_and, apply_ite (Option.map _), Option.map_none]
      · simp only [Mapping.call] at mapped
        split at mapped
        · cases mapped
        · exact agrees.aligned p pa perm mapped
  next => cases taken

theorem Agrees.kalloc {f : Frame} {m' : Kmem} (agrees : Agrees pgdir x) (got : x.1.kalloc = some (f, m')) :
    Agrees pgdir (m', x.2) := by
  rw [Kmem.kalloc] at got
  split at got
  · cases got
  next r next free =>
    cases got
    have tables := agrees.tables.nodup
    rw [free] at tables
    have same : ∀ a, Kmem.entry { x.1 with freelist := next } pgdir a = x.1.entry pgdir a := fun a =>
      Kmem.entry_congr rfl fun _ _ => rfl
    refine ⟨agrees.tables.congr (fun _ _ => rfl) tables.of_cons fun g freed => Or.inl ?_,
      fun a inside => (same a).trans (agrees.entries a inside), agrees.aligned⟩
    rw [free]
    exact List.mem_cons_of_mem _ freed

theorem Agrees.step (agrees : Agrees pgdir x) (returned : Returned pgdir x.1 call)
    (taken : machine kernelEnd pgdir x call = some y) : Agrees pgdir y := by
  obtain ⟨m', μ⟩ := y
  obtain ⟨taken, rfl⟩ := Machine.watch_eq_some.mp taken
  cases call with
  | mappages va size pa perm => exact agrees.mappages taken
  | deallocuvm oldsz newsz => exact agrees.deallocuvm taken returned
  | kalloc =>
    obtain ⟨⟨f, m₁⟩, got, rfl⟩ := Option.map_eq_some_iff.mp taken
    exact agrees.kalloc got
  | kfree f =>
    obtain ⟨tables, -⟩ := agrees.tables.kfree returned taken
    have entries := (agrees.tables.kfree_entries returned taken (d := pgdir) rfl).2
    refine ⟨tables, fun a inside => ?_, agrees.aligned⟩
    rw [entries a inside, agrees.entries a inside]
    rfl

end Runs

/-! ## What the call finds -/

section Finds

variable {pgdir : Frame} {m : Kmem} {store : Store} {va pa flag : Word}

theorem getVaToPa_absent (absent : m.entry pgdir va.toNat = none) :
    getVaToPa store m pgdir va pa flag = { mem := m, ret := some 0, stores := [] } := by
  rw [getVaToPa]
  by_cases present : Present (m.page pgdir (PDX va.toNat))
  · have table : m.Table pgdir (PDX va.toNat) _ := ⟨present, rfl⟩
    rw [Kmem.entry_of_table table, Kmem.found, ite_eq_right_iff] at absent
    rw [Kmem.walkpgdir_of_table false table]
    exact if_neg fun mapped => Option.some_ne_none _ (absent mapped)
  · rw [Kmem.walkpgdir_absent present]

theorem getVaToPa_present {pte : Word} (mapped : m.entry pgdir va.toNat = some pte) :
    getVaToPa elsewhere m pgdir va pa flag =
      { mem := m, ret := some 1, stores := [(pa, PTE_ADDR pte ||| (va &&& 0xFFF)), (flag, PTE_FLAGS pte)] } := by
  by_cases present : Present (m.page pgdir (PDX va.toNat))
  · obtain ⟨t, table⟩ : ∃ t, m.Table pgdir (PDX va.toNat) t := ⟨_, present, rfl⟩
    rw [Kmem.entry_of_table table] at mapped
    obtain ⟨there, same⟩ := Option.ite_none_right_eq_some.mp mapped
    obtain rfl := Option.some.inj same
    rw [getVaToPa, Kmem.walkpgdir_of_table false table]
    exact if_pos there
  · rw [Kmem.entry_absent present] at mapped
    cases mapped

/-- After any calls that return what they free properly the physical address and the flags
are those of the last call that mapped the page, and there are none where it has been
unmapped since. -/
theorem getVaToPa_finds {kernelEnd : Nat} {m m' : Kmem} {pgdir : Frame} {calls : List Call} {μ : Mapping}
    (start : Empty m pgdir) (reached : Machine.run (machine kernelEnd pgdir) (m, .empty) calls = some (m', μ))
    (returned : Machine.EveryStep (machine kernelEnd pgdir) (fun x call => Returned pgdir x.1 call) (m, .empty) calls)
    (va pa flag : Word) : getVaToPa elsewhere m' pgdir va pa flag = μ.answer m' va pa flag := by
  have agrees : Agrees pgdir (m', μ) :=
    Machine.invariant_of_everyStep (fun _ _ _ agrees met taken => agrees.step met taken) start.agrees returned reached
  have entry := agrees.entries va.toNat va.isLt
  dsimp only at entry
  unfold Mapping.answer
  split
  next page perm mapped =>
    obtain ⟨high, low⟩ := agrees.aligned _ page perm mapped
    have flags : (perm ||| PTE_P) &&& 0xFFF = perm ||| PTE_P := by
      rw [BitVec.and_or_distrib_right, flags_and low]
      rfl
    rw [mapped, Option.map_some, pteOf, BitVec.or_assoc] at entry
    have offset : page ||| (va &&& 0xFFF) = page + va % 4096 := by
      rw [← and_low_eq_mod, BitVec.add_eq_or_of_and_eq_zero]
      rw [BitVec.and_comm va, ← BitVec.and_assoc, high, BitVec.zero_and]
    rw [getVaToPa_present entry, pte_addr_or high flags, pte_flags_or high flags, offset]
  next unmapped =>
    rw [unmapped] at entry
    exact getVaToPa_absent entry

end Finds

def emptyDirectory : Kmem where
  page _ _ := 0
  freelist := [0x201, 0x202]

theorem emptyDirectory_empty : Empty emptyDirectory 0x200 := ⟨by decide, by decide, fun _ => rfl⟩

def onePage : Kmem where
  page f i := if f = 0x200 ∧ i = 0 then 0x201007 else if f = 0x201 ∧ i = 0 then 0x300007 else 0
  freelist := []

def remapped : List Call :=
  [.mappages 0 4096 0x300000 6, .deallocuvm 4096 0, .mappages 0xFFF 2 0x400000 4]

def checkReturned (m : Kmem) : Call → Bool
  | .mappages .. => true
  | .deallocuvm oldsz newsz => oldsz == 4096 && newsz == 0 && (m.entry 0x200 0).all fun w =>
      decide (frameOf w ∉ m.freelist ∧ frameOf w ≠ 0x200) &&
        decide (∀ i < NPTENTRIES, ¬(Present (m.page 0x200 i) ∧ frameOf (m.page 0x200 i) = frameOf w))
  | .kalloc => true
  | .kfree _ => false

theorem returned_of_check {m : Kmem} {call : Call} (checked : checkReturned m call = true) : Returned 0x200 m call := by
  cases call with
  | mappages => trivial
  | kalloc => trivial
  | kfree => cases checked
  | deallocuvm oldsz newsz =>
    simp only [checkReturned, Bool.and_eq_true, beq_iff_eq] at checked
    obtain ⟨⟨rfl, rfl⟩, checked⟩ := checked
    have first : ∀ b, Within (PGROUNDUP 0) 4096 b → b / PGSIZE = 0 / PGSIZE := fun b within => by
      simp only [Within, PGSIZE] at within ⊢
      omega
    refine Or.inr ⟨fun b _ within w mapped => ?_, fun b _ c _ within within' _ _ _ _ _ => (first b within).trans (first c within').symm⟩
    rw [Kmem.entry_page (first b within)] at mapped
    rw [mapped] at checked
    simp only [Option.all_some, Bool.and_eq_true, decide_eq_true_eq] at checked
    obtain ⟨⟨unfree, other⟩, apart⟩ := checked
    refine ⟨unfree, other, ?_⟩
    rintro d rfl i bound table
    exact apart i bound table

theorem getVaToPa_finds_remapped : ∃ x, Machine.run (machine 0x100000 0x200) (emptyDirectory, .empty) remapped = some x ∧
    (getVaToPa elsewhere x.1 0x200 0x1234 0 4).stores = [(0, 0x401234), (4, 5)] := by
  have ran : (Machine.run (machine 0x100000 0x200) (emptyDirectory, .empty) remapped).any (fun x =>
      decide ((x.2.answer x.1 0x1234 0 4).stores = [(0, 0x401234), (4, 5)])) = true := by decide +kernel
  have checked : Machine.checkRun (machine 0x100000 0x200) (fun x call => checkReturned x.1 call) (emptyDirectory, .empty)
      remapped = true := by decide +kernel
  obtain ⟨⟨m', μ⟩, reached, stores⟩ := (Option.any_eq_true _ _).mp ran
  refine ⟨(m', μ), reached, ?_⟩
  rw [getVaToPa_finds emptyDirectory_empty reached (Machine.everyStep_of_checkRun (fun _ _ => returned_of_check) checked)]
  exact of_decide_eq_true stores

/-- The page given back is the page table itself, which `kfree` fills: the call then finds a
page that was never mapped. -/
theorem not_finds_table : Empty emptyDirectory 0x200 ∧ ∃ x, Machine.run (machine 0x100000 0x200) (emptyDirectory, .empty)
    [.mappages 0 4096 0x201000 6, .deallocuvm 4096 0] = some x ∧
      getVaToPa elsewhere x.1 0x200 0x1000 0 4 ≠ x.2.answer x.1 0x1000 0 4 := by
  have ran : (Machine.run (machine 0x100000 0x200) (emptyDirectory, .empty)
      [.mappages 0 4096 0x201000 6, .deallocuvm 4096 0]).any (fun x =>
        decide ((getVaToPa elsewhere x.1 0x200 0x1000 0 4).ret ≠ (x.2.answer x.1 0x1000 0 4).ret)) = true := by
    decide +kernel
  obtain ⟨x, reached, differ⟩ := (Option.any_eq_true _ _).mp ran
  exact ⟨emptyDirectory_empty, x, reached, fun same => of_decide_eq_true differ (congrArg Answer.ret same)⟩

end OsLabs.Paging
