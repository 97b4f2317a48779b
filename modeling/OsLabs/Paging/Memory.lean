import Mathlib.Data.List.Nodup
import Mathlib.Data.Set.Basic
import OsLabs.LazyVm.PageTable

/-! kalloc.c and the walk of vm.c over physical memory: page directories and page tables are
pages like the others, and their entries words in them. -/

set_option autoImplicit false

namespace OsLabs.Paging

open OsLabs.LazyVm (PGSIZE NPTENTRIES KERNBASE PHYSTOP wordSize PGROUNDUP PGROUNDDOWN PDX PTX)

abbrev Word := BitVec 32

def PTE_P : Word := 0x001
def PTE_W : Word := 0x002
def PTE_U : Word := 0x004

def PTE_ADDR (pte : Word) : Word := pte &&& ~~~0xFFF

def PTE_FLAGS (pte : Word) : Word := pte &&& 0xFFF

def Present (pte : Word) : Prop := pte &&& PTE_P ≠ 0

instance (pte : Word) : Decidable (Present pte) := inferInstanceAs (Decidable (_ ≠ _))

/-- A page of physical memory, by its number. -/
abbrev Frame := BitVec 20

def frameOf (pa : Word) : Frame := pa.extractLsb' 12 20

def Frame.addr (f : Frame) : Word := f ++ 0#12

/-- Physical memory by pages and their words, and the free list. The kernel's pointers to
pages are these pages: it has all of them mapped at `KERNBASE`. -/
structure Kmem where
  page : Frame → Nat → Word
  freelist : List Frame

namespace Kmem

def read (m : Kmem) (loc : Frame × Nat) : Word := m.page loc.1 loc.2

def write (m : Kmem) (loc : Frame × Nat) (w : Word) : Kmem :=
  { m with page := Function.update m.page loc.1 (Function.update (m.page loc.1) loc.2 w) }

def memset (m : Kmem) (f : Frame) (w : Word) : Kmem := { m with page := Function.update m.page f fun _ => w }

def kalloc (m : Kmem) : Option (Frame × Kmem) :=
  match m.freelist with
  | [] => none
  | r :: next => some (r, { m with freelist := next })

def link : List Frame → Word
  | [] => 0
  | r :: _ => r.addr + BitVec.ofNat 32 KERNBASE

/-- `kfree` of a page, and a panic for one that is not the allocator's; `kernelEnd` is
`V2P(end)`. -/
def kfree (kernelEnd : Nat) (m : Kmem) (f : Frame) : Option Kmem :=
  if f.addr.toNat < kernelEnd ∨ PHYSTOP ≤ f.addr.toNat then none
  else
    let junk := m.memset f 0x01010101
    some { junk.write (f, 0) (link m.freelist) with freelist := f :: m.freelist }

/-- The address of an entry is its page table and its index there. -/
def walkpgdir (m : Kmem) (pgdir : Frame) (va : Nat) (alloc : Bool) : Kmem × Option (Frame × Nat) :=
  let pde := m.read (pgdir, PDX va)
  if Present pde then (m, some (frameOf pde, PTX va))
  else if alloc then
    match m.kalloc with
    | none => (m, none)
    | some (pgtab, m) =>
      let m := m.memset pgtab 0
      (m.write (pgdir, PDX va) (pgtab.addr ||| PTE_P ||| PTE_W ||| PTE_U), some (pgtab, PTX va))
  else (m, none)

def entry (m : Kmem) (pgdir : Frame) (va : Nat) : Option Word :=
  (m.walkpgdir pgdir va false).2.bind fun pte => if Present (m.read pte) then some (m.read pte) else none

def Table (m : Kmem) (pgdir : Frame) (i : Nat) (pgtab : Frame) : Prop :=
  Present (m.page pgdir i) ∧ frameOf (m.page pgdir i) = pgtab

end Kmem

/-- The page directories in use: no page of theirs is free, and each page table is the
table of one entry of one of them. -/
structure Tables (m : Kmem) (dirs : Set Frame) : Prop where
  nodup : m.freelist.Nodup
  dir_used : ∀ d ∈ dirs, d ∉ m.freelist
  table_used : ∀ d ∈ dirs, ∀ i < NPTENTRIES, ∀ t, m.Table d i t → t ∉ m.freelist
  table_dir : ∀ d ∈ dirs, ∀ i < NPTENTRIES, ∀ t, m.Table d i t → t ∉ dirs
  own : ∀ d ∈ dirs, ∀ d' ∈ dirs, ∀ i < NPTENTRIES, ∀ i' < NPTENTRIES, ∀ t, m.Table d i t → m.Table d' i' t → d = d' ∧ i = i'

/-! ## Words -/

section Words

variable {pa perm : Word}

theorem frameOf_addr (f : Frame) : frameOf f.addr = f := by
  apply BitVec.eq_of_getLsbD_eq
  intro k bound
  have above : ¬12 + k < 12 := by omega
  simp only [frameOf, Frame.addr, BitVec.getLsbD_extractLsb', BitVec.getLsbD_append, bound, above, decide_true,
    Bool.true_and, if_false, Nat.add_sub_cancel_left]

theorem and_low_eq_mod (w : Word) : w &&& 0xFFF = w % 4096 := by
  apply BitVec.eq_of_toNat_eq
  rw [BitVec.toNat_and, BitVec.toNat_umod]
  exact Nat.and_two_pow_sub_one_eq_mod _ 12

theorem aligned_and (aligned : pa.toNat % PGSIZE = 0) : pa &&& 0xFFF = 0#32 := by
  rw [and_low_eq_mod]
  exact BitVec.eq_of_toNat_eq aligned

theorem flags_and (low : perm.toNat < PGSIZE) : perm &&& 0xFFF = perm := by
  rw [and_low_eq_mod]
  exact BitVec.eq_of_toNat_eq (Nat.mod_eq_of_lt low)

theorem addr_or_flags (w : Word) : PTE_ADDR w ||| PTE_FLAGS w = w := by
  rw [PTE_ADDR, PTE_FLAGS, ← BitVec.and_or_distrib_left, BitVec.or_comm, BitVec.or_not_self, BitVec.and_allOnes]

theorem pte_addr_or (high : pa &&& 0xFFF = 0#32) (low : perm &&& 0xFFF = perm) : PTE_ADDR (pa ||| perm) = pa := by
  have addr : PTE_ADDR pa = pa := by
    have whole := addr_or_flags pa
    rwa [PTE_FLAGS, high, BitVec.or_zero] at whole
  have none_high : PTE_ADDR perm = 0#32 := by
    rw [PTE_ADDR, ← low, BitVec.and_assoc, BitVec.and_not_self]
    exact BitVec.and_zero
  rw [PTE_ADDR, BitVec.and_or_distrib_right]
  change PTE_ADDR pa ||| PTE_ADDR perm = pa
  rw [addr, none_high, BitVec.or_zero]

theorem pte_flags_or (high : pa &&& 0xFFF = 0#32) (low : perm &&& 0xFFF = perm) : PTE_FLAGS (pa ||| perm) = perm := by
  rw [PTE_FLAGS, BitVec.and_or_distrib_right, high, low, BitVec.zero_or]

theorem frameOf_or (low : perm &&& 0xFFF = perm) : frameOf (pa ||| perm) = frameOf pa := by
  have none_high : frameOf perm = 0#20 := by
    apply BitVec.eq_of_toNat_eq
    rw [← low, and_low_eq_mod, frameOf, BitVec.extractLsb'_toNat, BitVec.toNat_umod, Nat.shiftRight_eq_div_pow]
    have small : perm.toNat % 4096 < 4096 := Nat.mod_lt _ (by decide)
    simp [Nat.div_eq_of_lt small]
  rw [frameOf, BitVec.extractLsb'_or]
  change frameOf pa ||| frameOf perm = frameOf pa
  rw [none_high, BitVec.or_zero]

theorem present_or (w : Word) : Present (w ||| PTE_P) := by
  intro absent
  have bit := congrArg (BitVec.getLsbD · 0) absent
  simp [PTE_P] at bit

theorem toNat_addr (f : Frame) : f.addr.toNat = f.toNat * PGSIZE := by
  change (f ++ 0#12 : BitVec (20 + 12)).toNat = _
  rw [BitVec.toNat_append, Nat.shiftLeft_eq]
  exact Nat.or_zero _

end Words

/-! ## Entries -/

section Entries

variable {m m' : Kmem} {dirs : Set Frame} {d t : Frame} {va : Nat} {w : Word}

theorem pdx_lt (inside : va < wordSize) : PDX va < NPTENTRIES := by
  simp only [PDX, PGSIZE, NPTENTRIES, wordSize] at inside ⊢
  omega

theorem same_page_iff {a : Nat} : PDX a = PDX va ∧ PTX a = PTX va ↔ a / PGSIZE = va / PGSIZE := by
  simp only [PDX, PTX, PGSIZE, NPTENTRIES]
  omega

namespace Kmem

def found (pte : Word) : Option Word := if Present pte then some pte else none

theorem table_congr {i : Nat} (same : m'.page d i = m.page d i) : m'.Table d i t ↔ m.Table d i t := by
  rw [Table, Table, same]

theorem walkpgdir_of_table (alloc : Bool) (table : m.Table d (PDX va) t) :
    m.walkpgdir d va alloc = (m, some (t, PTX va)) := by
  obtain ⟨present, rfl⟩ := table
  exact if_pos present

theorem walkpgdir_absent (absent : ¬Present (m.page d (PDX va))) : m.walkpgdir d va false = (m, none) :=
  if_neg absent

theorem entry_of_table (table : m.Table d (PDX va) t) : m.entry d va = found (m.page t (PTX va)) := by
  rw [entry, walkpgdir_of_table false table]
  rfl

theorem entry_absent (absent : ¬Present (m.page d (PDX va))) : m.entry d va = none := by
  rw [entry, walkpgdir_absent absent]
  rfl

theorem entry_congr (dir : m'.page d (PDX va) = m.page d (PDX va))
    (table : ∀ t, m.Table d (PDX va) t → m'.page t (PTX va) = m.page t (PTX va)) : m'.entry d va = m.entry d va := by
  by_cases present : Present (m.page d (PDX va))
  · have here : m.Table d (PDX va) (frameOf (m.page d (PDX va))) := ⟨present, rfl⟩
    rw [entry_of_table here, entry_of_table ((table_congr dir).mpr here), table _ here]
  · rw [entry_absent present, entry_absent (dir ▸ present)]

theorem entry_page {a : Nat} (page : a / PGSIZE = va / PGSIZE) : m.entry d a = m.entry d va := by
  obtain ⟨pdx, ptx⟩ := same_page_iff.mpr page
  simp only [entry, walkpgdir, pdx, ptx]

@[simp] theorem freelist_write (loc : Frame × Nat) : (m.write loc w).freelist = m.freelist := rfl

theorem page_write_other {i : Nat} {f : Frame} (other : f ≠ t) : (m.write (t, i) w).page f = m.page f :=
  Function.update_of_ne other _ _

theorem page_write (m : Kmem) (t : Frame) (i k : Nat) (w : Word) :
    (m.write (t, i) w).page t k = if k = i then w else m.page t k := by
  change Function.update m.page t (Function.update (m.page t) i w) t k = _
  rw [Function.update_self, Function.update_apply]

theorem page_memset_other {f : Frame} (other : f ≠ t) : (m.memset t w).page f = m.page f :=
  Function.update_of_ne other _ _

theorem page_memset (m : Kmem) (t : Frame) (w : Word) : (m.memset t w).page t = fun _ => w :=
  Function.update_self ..

end Kmem

theorem Tables.congr (tables : Tables m dirs) (dir : ∀ d ∈ dirs, m'.page d = m.page d) (nodup : m'.freelist.Nodup)
    (free : ∀ f ∈ m'.freelist, f ∈ m.freelist ∨ f ∉ dirs ∧ ∀ d ∈ dirs, ∀ i < NPTENTRIES, ¬m.Table d i f) :
    Tables m' dirs := by
  have same : ∀ d ∈ dirs, ∀ i t, m'.Table d i t ↔ m.Table d i t := fun d used i t =>
    Kmem.table_congr (congrFun (dir d used) i)
  refine ⟨nodup, ?_, ?_, ?_, ?_⟩
  · intro d used freed
    rcases free d freed with before | ⟨other, -⟩
    · exact tables.dir_used d used before
    · exact other used
  · intro d used i bound t table freed
    rw [same d used] at table
    rcases free t freed with before | ⟨-, other⟩
    · exact tables.table_used d used i bound t table before
    · exact other d used i bound table
  · intro d used i bound t table
    exact tables.table_dir d used i bound t ((same d used i t).mp table)
  · intro d used d' used' i bound i' bound' t table table'
    exact tables.own d used d' used' i bound i' bound' t ((same d used i t).mp table) ((same d' used' i' t).mp table')

/-- A write to the page table of `va` changes the entry of that page and no other. -/
theorem Tables.write (tables : Tables m dirs) (used : d ∈ dirs) (inside : va < wordSize) (table : m.Table d (PDX va) t) :
    Tables (m.write (t, PTX va) w) dirs ∧ ∀ d' ∈ dirs, ∀ a < wordSize,
      (m.write (t, PTX va) w).entry d' a =
        if d' = d ∧ a / PGSIZE = va / PGSIZE then Kmem.found w else m.entry d' a := by
  have dir : ∀ d' ∈ dirs, (m.write (t, PTX va) w).page d' = m.page d' := fun d' used' =>
    Kmem.page_write_other fun same => tables.table_dir d used _ (pdx_lt inside) t table (same ▸ used')
  refine ⟨tables.congr dir tables.nodup fun f freed => Or.inl freed, fun d' used' a inside' => ?_⟩
  split
  next same =>
    obtain ⟨rfl, page⟩ := same
    obtain ⟨pdx, ptx⟩ := same_page_iff.mpr page
    have here : (m.write (t, PTX va) w).Table d' (PDX a) t := by
      rw [Kmem.table_congr (congrFun (dir d' used) _), pdx]
      exact table
    rw [Kmem.entry_of_table here, Kmem.page_write, if_pos ptx]
  next other =>
    refine Kmem.entry_congr (congrFun (dir d' used') _) fun t' table' => ?_
    by_cases same : t' = t
    · subst same
      obtain ⟨rfl, pdx⟩ := tables.own d' used' d used _ (pdx_lt inside') _ (pdx_lt inside) t' table' table
      rw [Kmem.page_write, if_neg fun ptx => other ⟨rfl, same_page_iff.mp ⟨pdx, ptx⟩⟩]
    · rw [Kmem.page_write_other same]

def Kmem.withTable (m : Kmem) (d : Frame) (va : Nat) (t : Frame) (rest : List Frame) : Kmem :=
  ({ m with freelist := rest }.memset t 0).write (d, PDX va) (t.addr ||| PTE_P ||| PTE_W ||| PTE_U)

theorem table_entry (t : Frame) :
    Present (t.addr ||| PTE_P ||| PTE_W ||| PTE_U) ∧ frameOf (t.addr ||| PTE_P ||| PTE_W ||| PTE_U) = t := by
  have order : t.addr ||| PTE_P ||| PTE_W ||| PTE_U = t.addr ||| (PTE_W ||| PTE_U) ||| PTE_P := by
    ac_rfl
  constructor
  · rw [order]
    exact present_or _
  · rw [BitVec.or_assoc, BitVec.or_assoc, frameOf_or (by decide), frameOf_addr]

theorem Kmem.walkpgdir_new {rest : List Frame} (absent : ¬Present (m.page d (PDX va))) (free : m.freelist = t :: rest) :
    m.walkpgdir d va true = (m.withTable d va t rest, some (t, PTX va)) := by
  rw [walkpgdir]
  simp only [read, if_neg absent, kalloc, free, if_true]
  rfl

theorem Kmem.walkpgdir_out (absent : ¬Present (m.page d (PDX va))) (free : m.freelist = []) :
    m.walkpgdir d va true = (m, none) := by
  rw [walkpgdir]
  simp only [read, if_neg absent, kalloc, free, if_true]

theorem page_withTable {rest : List Frame} {f : Frame} (not_dir : f ≠ d) (not_table : f ≠ t) :
    (m.withTable d va t rest).page f = m.page f := by
  rw [Kmem.withTable, Kmem.page_write_other not_dir, Kmem.page_memset_other not_table]

section NewTable

variable {rest : List Frame} (tables : Tables m dirs) (used : d ∈ dirs) (free : m.freelist = t :: rest)

include tables used free

theorem dir_withTable (va i : Nat) : (m.withTable d va t rest).page d i =
    if i = PDX va then t.addr ||| PTE_P ||| PTE_W ||| PTE_U else m.page d i := by
  have other : d ≠ t := by
    rintro rfl
    exact tables.dir_used d used (by rw [free]; exact List.mem_cons_self)
  rw [Kmem.withTable, Kmem.page_write, Kmem.page_memset_other other]

theorem table_withTable {d' t' : Frame} {i : Nat} (used' : d' ∈ dirs) : (m.withTable d va t rest).Table d' i t' ↔
    (d' = d ∧ i = PDX va) ∧ t' = t ∨ ¬(d' = d ∧ i = PDX va) ∧ m.Table d' i t' := by
  by_cases here : d' = d ∧ i = PDX va
  · obtain ⟨rfl, rfl⟩ := here
    have pde := dir_withTable tables used free va (PDX va)
    rw [if_pos rfl] at pde
    obtain ⟨present, table⟩ := table_entry t
    rw [Kmem.Table, pde, table]
    simp [present, eq_comm]
  · have same : (m.withTable d va t rest).page d' i = m.page d' i := by
      by_cases dir : d' = d
      · subst dir
        rw [dir_withTable tables used free va, if_neg fun pdx => here ⟨rfl, pdx⟩]
      · rw [page_withTable dir]
        rintro rfl
        exact tables.dir_used d' used' (by rw [free]; exact List.mem_cons_self)
    rw [Kmem.table_congr same]
    simp [here]

theorem Tables.withTable : Tables (m.withTable d va t rest) dirs := by
  have first : t ∈ m.freelist := by rw [free]; exact List.mem_cons_self
  have sub : ∀ f ∈ rest, f ∈ m.freelist := fun f freed => by rw [free]; exact List.mem_cons_of_mem _ freed
  have nodup : (t :: rest).Nodup := free ▸ tables.nodup
  have freelist : (m.withTable d va t rest).freelist = rest := rfl
  refine ⟨nodup.of_cons, ?_, ?_, ?_, ?_⟩
  · intro d' used' freed
    exact tables.dir_used d' used' (sub d' freed)
  · intro d' used' i bound t' table freed
    rcases (table_withTable tables used free used').mp table with ⟨-, rfl⟩ | ⟨-, table⟩
    · exact nodup.notMem freed
    · exact tables.table_used d' used' i bound t' table (sub t' freed)
  · intro d' used' i bound t' table dir
    rcases (table_withTable tables used free used').mp table with ⟨-, rfl⟩ | ⟨-, table⟩
    · exact tables.dir_used t' dir first
    · exact tables.table_dir d' used' i bound t' table dir
  · intro d₁ used₁ d₂ used₂ i₁ bound₁ i₂ bound₂ t' table₁ table₂
    rcases (table_withTable tables used free used₁).mp table₁ with ⟨⟨rfl, rfl⟩, rfl⟩ | ⟨-, before₁⟩
    · rcases (table_withTable tables used free used₂).mp table₂ with ⟨⟨rfl, rfl⟩, -⟩ | ⟨-, before₂⟩
      · exact ⟨rfl, rfl⟩
      · exact absurd first (tables.table_used d₂ used₂ i₂ bound₂ t' before₂)
    · rcases (table_withTable tables used free used₂).mp table₂ with ⟨-, rfl⟩ | ⟨-, before₂⟩
      · exact absurd first (tables.table_used d₁ used₁ i₁ bound₁ t' before₁)
      · exact tables.own d₁ used₁ d₂ used₂ i₁ bound₁ i₂ bound₂ t' before₁ before₂

theorem entry_withTable (absent : ¬Present (m.page d (PDX va))) {d' : Frame} (used' : d' ∈ dirs) {a : Nat}
    (inside : a < wordSize) : (m.withTable d va t rest).entry d' a = m.entry d' a := by
  have first : t ∈ m.freelist := by rw [free]; exact List.mem_cons_self
  by_cases here : d' = d ∧ PDX a = PDX va
  · have table : (m.withTable d va t rest).Table d' (PDX a) t :=
      (table_withTable tables used free used').mpr (Or.inl ⟨here, rfl⟩)
    obtain ⟨rfl, pdx⟩ := here
    have other : t ≠ d' := fun same => tables.dir_used d' used (same ▸ first)
    rw [Kmem.entry_of_table table, Kmem.entry_absent (pdx ▸ absent), Kmem.withTable, Kmem.page_write_other other,
      Kmem.page_memset]
    exact if_neg (show ¬Present 0 by decide)
  · have dir : (m.withTable d va t rest).page d' (PDX a) = m.page d' (PDX a) := by
      by_cases dir : d' = d
      · subst dir
        rw [dir_withTable tables used free va, if_neg fun pdx => here ⟨rfl, pdx⟩]
      · rw [page_withTable dir]
        rintro rfl
        exact tables.dir_used d' used' first
    refine Kmem.entry_congr dir fun t' table => ?_
    rw [page_withTable]
    · rintro rfl
      exact tables.table_dir d' used' _ (pdx_lt inside) t' table used
    · rintro rfl
      exact tables.table_used d' used' _ (pdx_lt inside) t' table first

end NewTable

structure Walked (m : Kmem) (dirs : Set Frame) (d : Frame) (va : Nat) (m' : Kmem) (t : Frame) : Prop where
  tables : Tables m' dirs
  table : m'.Table d (PDX va) t
  entries : ∀ d' ∈ dirs, ∀ a < wordSize, m'.entry d' a = m.entry d' a
  frames : ∀ f, f ∉ m.freelist → f ≠ d → m'.page f = m.page f
  freelist : m' = m ∨ ¬Present (m.page d (PDX va)) ∧ m.freelist = t :: m'.freelist
  before : ∀ d' ∈ dirs, ∀ i t', m'.Table d' i t' → m.Table d' i t' ∨ t' ∈ m.freelist ∧ t' = t

theorem Tables.walkpgdir (tables : Tables m dirs) (va : Nat) (used : d ∈ dirs) :
    m.walkpgdir d va true = (m, none) ∧ ¬Present (m.page d (PDX va)) ∧ m.freelist = [] ∨
      ∃ m' t, m.walkpgdir d va true = (m', some (t, PTX va)) ∧ Walked m dirs d va m' t := by
  by_cases present : Present (m.page d (PDX va))
  · have table : m.Table d (PDX va) (frameOf (m.page d (PDX va))) := ⟨present, rfl⟩
    exact Or.inr ⟨m, _, Kmem.walkpgdir_of_table true table, tables, table, fun _ _ _ _ => rfl, fun _ _ _ => rfl, Or.inl rfl,
      fun _ _ _ _ table => Or.inl table⟩
  · cases free : m.freelist with
    | nil => exact Or.inl ⟨Kmem.walkpgdir_out present free, present, rfl⟩
    | cons t rest =>
      have first : t ∈ m.freelist := by rw [free]; exact List.mem_cons_self
      refine Or.inr ⟨_, t, Kmem.walkpgdir_new present free, tables.withTable used free, ?_, ?_, ?_,
        Or.inr ⟨present, free⟩, ?_⟩
      · exact (table_withTable tables used free used).mpr (Or.inl ⟨⟨rfl, rfl⟩, rfl⟩)
      · exact fun d' used' a inside => entry_withTable tables used free present used' inside
      · exact fun f unfree other => page_withTable other fun same => unfree (same ▸ first)
      · intro d' used' i t' table
        rcases (table_withTable tables used free used').mp table with ⟨-, rfl⟩ | ⟨-, table⟩
        · exact Or.inr ⟨first, rfl⟩
        · exact Or.inl table

end Entries

end OsLabs.Paging
