import OsLabs.Lib.Holdings
import OsLabs.Lifecycle.Memory

/-! The pages of a page directory against the free list: what a call takes from the one it
puts into the other. -/

set_option autoImplicit false

namespace OsLabs.Lifecycle

open OsLabs.Lib
open OsLabs.LazyVm (PGSIZE NPTENTRIES KERNBASE PHYSTOP DEVSPACE PDX PTX Panic)

def pageOf (pte : Option Page) : Multiset Page := pte.elim 0 fun pa => {pa}

def Pgtab.pages (t : Pgtab) : Multiset Page := {t.page} + ∑ i ∈ Finset.range NPTENTRIES, pageOf (t.entry i)

def tablePages (t : Option Pgtab) : Multiset Page := t.elim 0 Pgtab.pages

def Pgdir.pages (d : Pgdir) : Multiset Page := {d.page} + ∑ i ∈ Finset.range NPDENTRIES, tablePages (d.table i)

/-- The tables from `KERNBASE` on map no page of a process. -/
def Pgdir.Low (d : Pgdir) : Prop := ∀ i t, PDX KERNBASE ≤ i → d.table i = some t → ∀ j, t.entry j = none

/-- The address is one of the 2^32. -/
def Inside (va : Nat) : Prop := PDX va < NPDENTRIES

theorem PTX_lt (va : Nat) : PTX va < NPTENTRIES := Nat.mod_lt _ (by decide)

section Tables

variable {d d' : Pgdir} {va : Nat} {freelist freelist' : List Page}

theorem Pgdir.setTable_table (d : Pgdir) (pdx i : Nat) (t : Pgtab) :
    (d.setTable pdx t).table i = if i = pdx then some t else d.table i :=
  Function.update_apply ..

theorem Pgdir.pages_setTable {pdx : Nat} (inside : pdx < NPDENTRIES) (t : Pgtab) :
    (d.setTable pdx t).pages + tablePages (d.table pdx) = d.pages + t.pages := by
  have exchange := Holdings.sum_update_add (Finset.mem_range.mpr inside) d.table (some t) tablePages
  unfold Pgdir.pages Pgdir.setTable
  rw [add_assoc, exchange, add_assoc]
  rfl

theorem Pgtab.pages_update (t : Pgtab) (va : Nat) (pte : Option Page) :
    ({ t with entry := Function.update t.entry (PTX va) pte } : Pgtab).pages + pageOf (t.entry (PTX va)) =
      t.pages + pageOf pte := by
  have exchange := Holdings.sum_update_add (Finset.mem_range.mpr (PTX_lt va)) t.entry pte pageOf
  unfold Pgtab.pages
  rw [add_assoc, exchange, add_assoc]

theorem Pgdir.pages_setPte (inside : Inside va) {old : Option Page} (here : d.walk va = some old) (pte : Option Page) :
    (d.setPte va pte).pages + pageOf old = d.pages + pageOf pte := by
  obtain ⟨t, table, rfl⟩ := Option.map_eq_some_iff.mp here
  have outer := d.pages_setTable inside { t with entry := Function.update t.entry (PTX va) pte }
  have inner := t.pages_update va pte
  rw [table] at outer
  unfold Pgdir.setPte
  rw [table]
  -- the pages of the table are taken out of both sides, there being no subtraction
  apply add_right_cancel (b := t.pages)
  calc _ = (d.setTable (PDX va) { t with entry := Function.update t.entry (PTX va) pte }).pages + t.pages +
        pageOf (t.entry (PTX va)) := by abel
    _ = d.pages + ({ t with entry := Function.update t.entry (PTX va) pte } : Pgtab).pages +
        pageOf (t.entry (PTX va)) := by rw [← outer]; rfl
    _ = _ := by rw [add_assoc, inner]; abel

theorem kalloc_pages {r : Page} (taken : kalloc freelist = some (r, freelist')) :
    (freelist : Multiset Page) = {r} + freelist' := by
  unfold kalloc at taken
  split at taken
  · cases taken
  · cases taken
    rfl

theorem walkpgdir_pages (inside : Inside va) (walked : walkpgdir freelist d va = some (freelist', d')) :
    (freelist' : Multiset Page) + d'.pages = freelist + d.pages := by
  unfold walkpgdir at walked
  split at walked
  · cases walked
    rfl
  · next absent =>
    obtain ⟨⟨r, rest⟩, taken, same⟩ := Option.map_eq_some_iff.mp walked
    cases same
    have exchange := d.pages_setTable inside { page := r, entry := fun _ => none }
    have fresh : ({ page := r, entry := fun _ => none } : Pgtab).pages = {r} := by simp [Pgtab.pages, pageOf]
    rw [absent, fresh] at exchange
    have gone : tablePages none = 0 := rfl
    rw [gone, add_zero] at exchange
    rw [exchange, kalloc_pages taken]
    abel

theorem walkpgdir_low (low : d.Low) (walked : walkpgdir freelist d va = some (freelist', d')) : d'.Low := by
  unfold walkpgdir at walked
  split at walked
  · cases walked
    exact low
  · obtain ⟨⟨r, rest⟩, taken, same⟩ := Option.map_eq_some_iff.mp walked
    cases same
    intro i t high table j
    by_cases here : i = PDX va
    · rw [Pgdir.setTable_table, if_pos here] at table
      cases table
      rfl
    · rw [Pgdir.setTable_table, if_neg here] at table
      exact low i t high table j

theorem Pgdir.low_setPte (low : d.Low) (user : PDX va < PDX KERNBASE) (pte : Option Page) : (d.setPte va pte).Low := by
  unfold Pgdir.setPte
  split
  · exact low
  · intro i t high table j
    -- a user address and an entry of the kernel lie under different directory entries
    rw [Pgdir.setTable_table, if_neg (by omega)] at table
    exact low i t high table j

theorem walkpgdir_walk (walked : walkpgdir freelist d va = some (freelist', d')) : ∃ old, d'.walk va = some old := by
  unfold walkpgdir at walked
  split at walked
  · next t table =>
    cases walked
    exact ⟨_, by rw [Pgdir.walk, table]; rfl⟩
  · obtain ⟨⟨r, rest⟩, taken, same⟩ := Option.map_eq_some_iff.mp walked
    cases same
    exact ⟨_, by rw [Pgdir.walk, Pgdir.setTable_table, if_pos rfl]; rfl⟩

theorem mappages_eq_some {pa : Page} (mapped : mappages freelist d va pa = .ok (some (freelist', d'))) :
    ∃ d'', walkpgdir freelist d va = some (freelist', d'') ∧ d''.walk va = some none ∧ d' = d''.setPte va (some pa) := by
  unfold mappages at mapped
  split at mapped
  · cases mapped
  · next rest d'' walked =>
    obtain ⟨old, here⟩ := walkpgdir_walk walked
    rw [here] at mapped
    cases old with
    | none =>
      cases mapped
      exact ⟨d'', walked, here, rfl⟩
    | some pa' => cases mapped

theorem mappages_pages {pa : Page} (inside : Inside va)
    (mapped : mappages freelist d va pa = .ok (some (freelist', d'))) :
    (freelist' : Multiset Page) + d'.pages = freelist + d.pages + {pa} := by
  obtain ⟨d'', walked, here, rfl⟩ := mappages_eq_some mapped
  have exchange := Pgdir.pages_setPte inside here (some pa)
  have gone : pageOf none = 0 := rfl
  rw [gone, add_zero] at exchange
  rw [exchange, ← add_assoc, walkpgdir_pages inside walked]
  rfl

theorem mappages_low {pa : Page} (low : d.Low) (user : PDX va < PDX KERNBASE)
    (mapped : mappages freelist d va pa = .ok (some (freelist', d'))) : d'.Low := by
  obtain ⟨d'', walked, here, rfl⟩ := mappages_eq_some mapped
  exact Pgdir.low_setPte (walkpgdir_low low walked) user (some pa)

end Tables

/-! ## freevm -/

section Free

/-- The loop of `deallocuvm` moves pages from the entries to the free list. -/
theorem deallocLoop_pages (freelist : List Page) (d : Pgdir) {a oldsz : Nat} (user : oldsz ≤ KERNBASE) :
    ((deallocLoop freelist d a oldsz).1 : Multiset Page) + (deallocLoop freelist d a oldsz).2.pages = freelist + d.pages := by
  fun_induction deallocLoop freelist d a oldsz with
  | case1 freelist d a below absent ih => exact ih
  | case2 freelist d a below empty ih => exact ih
  | case3 freelist d a below pa here ih =>
    have inside : Inside a := by
      simp only [Inside, PDX, PGSIZE, NPTENTRIES, NPDENTRIES, KERNBASE] at user ⊢
      omega
    have exchange := Pgdir.pages_setPte inside here none
    have gone : pageOf none = 0 := rfl
    rw [gone, add_zero] at exchange
    rw [ih, ← exchange, kfree]
    show ({pa} + (freelist : Multiset Page)) + _ = _ + (_ + {pa})
    abel
  | case4 freelist d a last => rfl

theorem deallocLoop_low (freelist : List Page) {d : Pgdir} (low : d.Low) {a oldsz : Nat} (user : oldsz ≤ KERNBASE) :
    (deallocLoop freelist d a oldsz).2.Low := by
  fun_induction deallocLoop freelist d a oldsz with
  | case1 freelist d a below absent ih => exact ih low
  | case2 freelist d a below empty ih => exact ih low
  | case3 freelist d a below pa here ih =>
    apply ih
    apply Pgdir.low_setPte low
    simp only [PDX, PGSIZE, NPTENTRIES, KERNBASE] at user ⊢
    omega
  | case4 freelist d a last => exact low

def Unmapped (d : Pgdir) (va : Nat) : Prop := ∀ pa, d.walk va ≠ some (some pa)

theorem walk_setPte (d : Pgdir) (va b : Nat) (pte : Option Page) : (d.setPte va pte).walk b =
    if b / PGSIZE = va / PGSIZE then (d.walk va).map fun _ => pte else d.walk b := by
  have same : b / PGSIZE = va / PGSIZE ↔ PDX b = PDX va ∧ PTX b = PTX va := by
    simp only [PDX, PTX, PGSIZE, NPTENTRIES]
    omega
  simp only [same]
  cases table : d.table (PDX va) with
  | none =>
    by_cases dir : PDX b = PDX va
    · simp [Pgdir.setPte, Pgdir.walk, table, dir]
    · simp [Pgdir.setPte, Pgdir.walk, table, dir]
  | some t =>
    by_cases dir : PDX b = PDX va
    · by_cases index : PTX b = PTX va <;> simp [Pgdir.setPte, Pgdir.walk, Pgdir.setTable_table, table, dir, index]
    · simp [Pgdir.setPte, Pgdir.walk, Pgdir.setTable_table, table, dir]

theorem walk_congr (d : Pgdir) {a b : Nat} (page : a / PGSIZE = b / PGSIZE) : d.walk a = d.walk b := by
  have dir : PDX a = PDX b := by
    simp only [PDX, PGSIZE, NPTENTRIES] at page ⊢
    omega
  have index : PTX a = PTX b := by
    unfold PTX
    rw [page]
  rw [Pgdir.walk, Pgdir.walk, dir, index]

theorem deallocLoop_unmapped (freelist : List Page) {d : Pgdir} {a oldsz : Nat} (aligned : PGSIZE ∣ a)
    (clear : ∀ b, b < a → Unmapped d b) : ∀ b, b < oldsz → Unmapped (deallocLoop freelist d a oldsz).2 b := by
  have here : ∀ a b, PGSIZE ∣ a → ¬b < a → b < a + PGSIZE → b / PGSIZE = a / PGSIZE := by
    intro a b aligned above below
    simp only [PGSIZE] at aligned above below ⊢
    omega
  -- the loop takes a with all below it cleared to the next address of the kind
  fun_induction deallocLoop freelist d a oldsz with
  | case1 freelist d a below absent ih =>
    apply ih (Nat.dvd_mul_left_of_dvd (Nat.dvd_mul_right PGSIZE NPTENTRIES) _)
    intro b before
    by_cases earlier : b < a
    · exact clear b earlier
    · -- a page of the table that does not exist
      have dir : PDX b = PDX a := by
        simp only [PDX, PGSIZE, NPTENTRIES] at before earlier aligned ⊢
        omega
      intro pa walk
      rw [Pgdir.walk, dir, Option.map_eq_none_iff.mp absent] at walk
      cases walk
  | case2 freelist d a below empty ih =>
    apply ih (Nat.dvd_add aligned (Nat.dvd_refl PGSIZE))
    intro b before
    by_cases earlier : b < a
    · exact clear b earlier
    · intro pa walk
      rw [walk_congr d (here a b aligned earlier before), empty] at walk
      cases walk
  | case3 freelist d a below pa mapped ih =>
    apply ih (Nat.dvd_add aligned (Nat.dvd_refl PGSIZE))
    intro b before
    rw [Unmapped]
    intro pa' walk
    rw [walk_setPte] at walk
    by_cases earlier : b < a
    · split at walk
      · rw [mapped] at walk
        cases walk
      · exact clear b earlier pa' walk
    · rw [if_pos (here a b aligned earlier before), mapped] at walk
      cases walk
  | case4 freelist d a last => exact fun b below => clear b (by omega)

theorem pages_of_unmapped {d : Pgdir} (low : d.Low) (clear : ∀ b, b < KERNBASE → Unmapped d b) :
    d.pages = {d.page} + ∑ i ∈ Finset.range NPDENTRIES, (d.table i).elim 0 fun t => {t.page} := by
  have empty : ∀ i t, d.table i = some t → ∀ j, j < NPTENTRIES → t.entry j = none := by
    intro i t table j inside
    by_cases high : PDX KERNBASE ≤ i
    · exact low i t high table j
    · have below : i * (PGSIZE * NPTENTRIES) + j * PGSIZE < KERNBASE := by
        simp only [PDX, PGSIZE, NPTENTRIES, KERNBASE] at high inside ⊢
        omega
      have dir : PDX (i * (PGSIZE * NPTENTRIES) + j * PGSIZE) = i := by
        simp only [PDX, PGSIZE, NPTENTRIES] at inside ⊢
        omega
      have index : PTX (i * (PGSIZE * NPTENTRIES) + j * PGSIZE) = j := by
        simp only [PTX, PGSIZE, NPTENTRIES] at inside ⊢
        omega
      have unmapped := clear _ below
      unfold Unmapped at unmapped
      rw [Pgdir.walk, dir, index, table] at unmapped
      cases entry : t.entry j with
      | none => rfl
      | some pa => exact absurd (by rw [Option.map_some, entry]) (unmapped pa)
  have tables : ∀ i ∈ Finset.range NPDENTRIES, tablePages (d.table i) = (d.table i).elim 0 fun t => {t.page} := by
    intro i _
    cases table : d.table i with
    | none => rw [tablePages, Option.elim_none, Option.elim_none]
    | some t =>
      have none : ∑ j ∈ Finset.range NPTENTRIES, pageOf (t.entry j) = 0 := by
        refine Finset.sum_eq_zero fun j member => ?_
        rw [empty i t table j (Finset.mem_range.mp member), pageOf, Option.elim_none]
      rw [tablePages, Option.elim_some, Pgtab.pages, none, add_zero, Option.elim_some]
  rw [Pgdir.pages, Finset.sum_congr rfl tables]

theorem freeTables_pages (freelist : List Page) (d : Pgdir) (is : List Nat) :
    (freeTables freelist d is : Multiset Page) =
      freelist + (is.map fun i => (d.table i).elim (0 : Multiset Page) fun t => {t.page}).sum := by
  induction is generalizing freelist with
  | nil => simp [freeTables]
  | cons i rest ih =>
    rw [freeTables, ih, List.map_cons, List.sum_cons]
    cases d.table i with
    | none => simp
    | some t =>
      show ({t.page} + (freelist : Multiset Page)) + _ = _ + ({t.page} + _)
      abel

/-- `freevm` gives back all that the page directory refers to, and its own page. -/
theorem freevm_pages (freelist : List Page) {d : Pgdir} (low : d.Low) :
    (freevm freelist d : Multiset Page) = freelist + d.pages := by
  have moved := deallocLoop_pages freelist d (a := 0) (Nat.le_refl KERNBASE)
  -- without this the loop over the tables would drop pages that their entries still name
  have clear : ∀ b, b < KERNBASE → Unmapped (deallocLoop freelist d 0 KERNBASE).2 b := by
    apply deallocLoop_unmapped freelist (Nat.dvd_zero PGSIZE)
    intro b below
    omega
  have low' := deallocLoop_low freelist low (a := 0) (Nat.le_refl KERNBASE)
  unfold freevm
  generalize deallocLoop freelist d 0 KERNBASE = result at moved clear low'
  obtain ⟨freelist', d'⟩ := result
  rw [pages_of_unmapped low' clear] at moved
  dsimp only
  rw [kfree, ← Multiset.cons_coe, ← Multiset.singleton_add, freeTables_pages, ← moved]
  have tables : ((List.range NPDENTRIES).map fun i => (d'.table i).elim (0 : Multiset Page) fun t => {t.page}).sum =
      ∑ i ∈ Finset.range NPDENTRIES, (d'.table i).elim 0 fun t => {t.page} := rfl
  rw [tables]
  abel

end Free

/-! ## setupkvm and copyuvm -/

section Build

variable {d d' : Pgdir} {freelist freelist' : List Page}

theorem mapKernel_spec {pdxs : List Nat} (inside : ∀ pdx ∈ pdxs, pdx < NPDENTRIES) (low : d.Low) {ok : Bool}
    (mapped : mapKernel freelist d pdxs = (freelist', d', ok)) :
    (freelist' : Multiset Page) + d'.pages = freelist + d.pages ∧ d'.Low := by
  induction pdxs generalizing freelist d with
  | nil =>
    cases mapped
    exact ⟨rfl, low⟩
  | cons pdx rest ih =>
    rw [mapKernel] at mapped
    split at mapped
    · cases mapped
      exact ⟨rfl, low⟩
    · next freelist'' d'' walked =>
      have here : Inside (pdx * (PGSIZE * NPTENTRIES)) := by
        have bound := inside pdx List.mem_cons_self
        simp only [Inside, PDX, PGSIZE, NPTENTRIES, NPDENTRIES] at bound ⊢
        omega
      obtain ⟨same, low'⟩ := ih (fun pdx member => inside pdx (List.mem_cons_of_mem _ member))
        (walkpgdir_low low walked) mapped
      exact ⟨same.trans (walkpgdir_pages here walked), low'⟩

theorem setupkvm_spec (built : setupkvm freelist = (freelist', some d)) :
    (freelist' : Multiset Page) + d.pages = freelist ∧ d.Low := by
  unfold setupkvm at built
  split at built
  · cases built
  · next r rest taken =>
    have inside : ∀ pdx ∈ kmap, pdx < NPDENTRIES := fun pdx member => List.mem_range.mp (List.mem_filter.mp member).1
    have low : Pgdir.Low { page := r, table := fun _ => none } := nofun
    have fresh : ({ page := r, table := fun _ => none } : Pgdir).pages = {r} := by simp [Pgdir.pages, tablePages]
    split at built
    · next freelist'' pgdir mapped =>
      cases built
      obtain ⟨same, low'⟩ := mapKernel_spec inside low mapped
      refine ⟨?_, low'⟩
      rw [same, fresh, kalloc_pages taken]
      abel
    · cases built

theorem copyLoop_spec {pgdir : Pgdir} {i n : Nat} (user : i + n * PGSIZE ≤ KERNBASE) (low : d.Low)
    (copied : copyLoop pgdir freelist d i n = .ok (freelist', d', true)) :
    (freelist' : Multiset Page) + d'.pages = freelist + d.pages ∧ d'.Low := by
  induction n generalizing freelist d i with
  | zero =>
    cases copied
    exact ⟨rfl, low⟩
  | succ n ih =>
    have here : PDX i < PDX KERNBASE := by
      simp only [PDX, PGSIZE, NPTENTRIES, KERNBASE] at user ⊢
      omega
    have inside : Inside i := Nat.lt_trans here (by decide)
    rw [copyLoop] at copied
    split at copied
    · cases copied
    · cases copied
    · split at copied
      · cases copied
      · next mem rest taken =>
        split at copied
        · cases copied
        · cases copied
        · next freelist'' d'' mapped =>
          -- the induction is on the pages still to copy
          have next : i + PGSIZE + n * PGSIZE ≤ KERNBASE := by
            simp only [PGSIZE] at user ⊢
            omega
          obtain ⟨same, low'⟩ := ih next (mappages_low low here mapped) copied
          refine ⟨?_, low'⟩
          rw [same, mappages_pages inside mapped, kalloc_pages taken]
          abel

theorem copyuvm_spec {pgdir : Pgdir} {sz : Nat} (user : sz ≤ KERNBASE)
    (copied : copyuvm freelist pgdir sz = .ok (freelist', some d)) :
    (freelist' : Multiset Page) + d.pages = freelist ∧ d.Low := by
  unfold copyuvm at copied
  split at copied
  · cases copied
  · next freelist'' d'' built =>
    obtain ⟨taken, low⟩ := setupkvm_spec built
    have fits : 0 + (sz + PGSIZE - 1) / PGSIZE * PGSIZE ≤ KERNBASE := by
      simp only [PGSIZE, KERNBASE] at user ⊢
      omega
    split at copied
    · cases copied
    · next looped =>
      cases copied
      obtain ⟨same, low'⟩ := copyLoop_spec fits low looped
      exact ⟨same.trans taken, low'⟩
    · cases copied

theorem inituvm_spec (low : d.Low) (done : inituvm freelist d = .ok (some (freelist', d'))) :
    (freelist' : Multiset Page) + d'.pages = freelist + d.pages ∧ d'.Low := by
  unfold inituvm at done
  split at done
  · cases done
  · next mem rest taken =>
    have user : PDX 0 < PDX KERNBASE := by decide
    refine ⟨?_, mappages_low low user done⟩
    rw [mappages_pages (Nat.lt_trans user (by decide)) done, kalloc_pages taken]
    abel

end Build

end OsLabs.Lifecycle
