import Mathlib.Algebra.BigOperators.Group.Finset.Piecewise
import Mathlib.Algebra.Order.Group.Multiset
import Mathlib.Tactic.Abel
import OsLabs.LazyVm.PageTable

/-! kalloc.c and vm.c of the kernel with the task calls, as far as it matters which pages are
taken and given back: the free list, the tables a page directory refers to and the pages
these refer to. mmu.h and memlayout.h are those of the other kernels. -/

set_option autoImplicit false

namespace OsLabs.Lifecycle

open OsLabs.LazyVm (PGSIZE NPTENTRIES KERNBASE PHYSTOP DEVSPACE PDX PTX Panic)

/-- A page of physical memory between `end` and `PHYSTOP`. -/
abbrev Page := Nat

abbrev NPDENTRIES : Nat := 1024

/-- A page table: the page it is kept in, and the page of each entry with `PTE_P`. -/
structure Pgtab where
  page : Page
  entry : Nat → Option Page

/-- A page directory: the page it is kept in, and the table of each entry with `PTE_P`. The
pages that the kernel's own tables map are nobody's, so these tables stand empty. -/
structure Pgdir where
  page : Page
  table : Nat → Option Pgtab

def kalloc : List Page → Option (Page × List Page)
  | [] => none
  | r :: freelist => some (r, freelist)

def kfree (freelist : List Page) (v : Page) : List Page := v :: freelist

namespace Pgdir

def walk (pgdir : Pgdir) (va : Nat) : Option (Option Page) := (pgdir.table (PDX va)).map fun t => t.entry (PTX va)

def setTable (pgdir : Pgdir) (pdx : Nat) (t : Pgtab) : Pgdir :=
  { pgdir with table := Function.update pgdir.table pdx (some t) }

def setPte (pgdir : Pgdir) (va : Nat) (pte : Option Page) : Pgdir :=
  match pgdir.table (PDX va) with
  | none => pgdir
  | some t => pgdir.setTable (PDX va) { t with entry := Function.update t.entry (PTX va) pte }

end Pgdir

/-- `walkpgdir` with `alloc` 1: afterwards there is a table, unless no page was left for it. -/
def walkpgdir (freelist : List Page) (pgdir : Pgdir) (va : Nat) : Option (List Page × Pgdir) :=
  match pgdir.table (PDX va) with
  | some _ => some (freelist, pgdir)
  | none => (kalloc freelist).map fun (r, rest) => (rest, pgdir.setTable (PDX va) { page := r, entry := fun _ => none })

/-- `mappages` of one page; `none` is the result -1, which leaves all as it was. -/
def mappages (freelist : List Page) (pgdir : Pgdir) (va : Nat) (pa : Page) : Except Panic (Option (List Page × Pgdir)) :=
  match walkpgdir freelist pgdir va with
  | none => .ok none
  -- a table made for nothing stays in the directory, where freevm finds it
  | some (rest, pgdir') =>
    match pgdir'.walk va with
    | some (some _) => .error .remap
    | _ => .ok (some (rest, pgdir'.setPte va (some pa)))

def deallocLoop (freelist : List Page) (pgdir : Pgdir) (a oldsz : Nat) : List Page × Pgdir :=
  if a < oldsz then
    match pgdir.walk a with
    -- on to the first page of the next table
    | none => deallocLoop freelist pgdir ((PDX a + 1) * (PGSIZE * NPTENTRIES)) oldsz
    | some none => deallocLoop freelist pgdir (a + PGSIZE) oldsz
    | some (some pa) => deallocLoop (kfree freelist pa) (pgdir.setPte a none) (a + PGSIZE) oldsz
  else (freelist, pgdir)
termination_by oldsz - a
decreasing_by
  all_goals
    simp only [PDX, PGSIZE, NPTENTRIES]
    omega

def freeTables (freelist : List Page) (pgdir : Pgdir) : List Nat → List Page
  | [] => freelist
  | i :: rest => freeTables ((pgdir.table i).elim freelist fun t => kfree freelist t.page) pgdir rest

def freevm (freelist : List Page) (pgdir : Pgdir) : List Page :=
  let (freelist, pgdir) := deallocLoop freelist pgdir 0 KERNBASE
  kfree (freeTables freelist pgdir (List.range NPDENTRIES)) pgdir.page

/-- The entries of a directory that the ranges of `kmap` cover, in the order `setupkvm` maps them. -/
def kmap : List Nat :=
  (List.range NPDENTRIES).filter fun pdx =>
    PDX KERNBASE ≤ pdx ∧ pdx < PDX (KERNBASE + PHYSTOP) ∨ PDX DEVSPACE ≤ pdx

def mapKernel (freelist : List Page) (pgdir : Pgdir) : List Nat → List Page × Pgdir × Bool
  | [] => (freelist, pgdir, true)
  | pdx :: rest =>
    match walkpgdir freelist pgdir (pdx * (PGSIZE * NPTENTRIES)) with
    | none => (freelist, pgdir, false)
    | some (freelist', pgdir') => mapKernel freelist' pgdir' rest

def setupkvm (freelist : List Page) : List Page × Option Pgdir :=
  match kalloc freelist with
  | none => (freelist, none)
  | some (r, rest) =>
    match mapKernel rest { page := r, table := fun _ => none } kmap with
    | (freelist', pgdir, true) => (freelist', some pgdir)
    -- freevm starts with deallocuvm from KERNBASE down, which finds no user page here
    | (freelist', pgdir, false) => (freevm freelist' pgdir, none)

/-- The loop of `copyuvm` from `i` on, over `n` pages; `none` is the jump to `bad`. -/
def copyLoop (pgdir : Pgdir) : List Page → Pgdir → Nat → Nat → Except Panic (List Page × Pgdir × Bool)
  | freelist, d, _, 0 => .ok (freelist, d, true)
  | freelist, d, i, n + 1 =>
    match pgdir.walk i with
    | none => .error .pteShouldExist
    | some none => .error .pageNotPresent
    | some (some _) =>
      match kalloc freelist with
      | none => .ok (freelist, d, false)
      | some (mem, rest) =>
        match mappages rest d i mem with
        | .error panic => .error panic
        -- the page taken for the copy is in no table: it is not given back
        | .ok none => .ok (rest, d, false)
        | .ok (some (freelist', d')) => copyLoop pgdir freelist' d' (i + PGSIZE) n

def copyuvm (freelist : List Page) (pgdir : Pgdir) (sz : Nat) : Except Panic (List Page × Option Pgdir) :=
  match setupkvm freelist with
  | (freelist', none) => .ok (freelist', none)
  | (freelist', some d) =>
    match copyLoop pgdir freelist' d 0 ((sz + PGSIZE - 1) / PGSIZE) with
    | .error panic => .error panic
    | .ok (freelist'', d', true) => .ok (freelist'', some d')
    | .ok (freelist'', d', false) => .ok (freevm freelist'' d', none)

/-- `inituvm`: the one page of the first program. Both calls are taken to succeed. -/
def inituvm (freelist : List Page) (pgdir : Pgdir) : Except Panic (Option (List Page × Pgdir)) :=
  match kalloc freelist with
  | none => .ok none
  | some (mem, rest) => mappages rest pgdir 0 mem

end OsLabs.Lifecycle
