import Mathlib.Algebra.Group.Nat.Defs
import Mathlib.Logic.Function.Basic

/-! vm.c: page tables of two levels and the loops that fill, clear and copy the user part
of one. Physical memory never runs out and a page is mapped in one place only, so an
entry carries the bytes of its page. Every user page is mapped writable. -/

set_option autoImplicit false

namespace OsLabs.LazyVm

abbrev PGSIZE : Nat := 4096
abbrev NPTENTRIES : Nat := 1024
abbrev KERNBASE : Nat := 0x80000000
abbrev PHYSTOP : Nat := 0xE000000
abbrev DEVSPACE : Nat := 0xFE000000

/-- Sizes and addresses are `uint`. -/
abbrev wordSize : Nat := 2 ^ 32

def PGROUNDUP (sz : Nat) : Nat := (sz + PGSIZE - 1) % wordSize / PGSIZE * PGSIZE

def PGROUNDDOWN (a : Nat) : Nat := a / PGSIZE * PGSIZE

def PDX (va : Nat) : Nat := va / (PGSIZE * NPTENTRIES)

def PTX (va : Nat) : Nat := va / PGSIZE % NPTENTRIES

abbrev Page := Fin PGSIZE → UInt8

def zeroPage : Page := fun _ => 0

/-- An entry with `PTE_P`: the page and its `PTE_U`. -/
structure Pte where
  page : Page
  user : Bool

/-- A page directory; `none` for an entry without `PTE_P`, of the directory and of a table. -/
abbrev Pgdir := Nat → Option (Nat → Option Pte)

inductive Panic where
  -- "remap"
  | remap
  -- "copyuvm: pte should exist"
  | pteShouldExist
  -- "copyuvm: page not present"
  | pageNotPresent
  -- "trap": a fault of the kernel itself
  | trap
  deriving DecidableEq

/-- `walkpgdir` with `alloc` 0. -/
def walkpgdir (pgdir : Pgdir) (va : Nat) : Option (Option Pte) := (pgdir (PDX va)).map fun pgtab => pgtab (PTX va)

def entry (pgdir : Pgdir) (va : Nat) : Option Pte := (walkpgdir pgdir va).bind id

/-- Write the entry `walkpgdir` with `alloc` 1 points to. -/
def setPte (pgdir : Pgdir) (va : Nat) (pte : Option Pte) : Pgdir :=
  Function.update pgdir (PDX va) (some (Function.update ((pgdir (PDX va)).getD fun _ => none) (PTX va) pte))

def mappages (pgdir : Pgdir) (va : Nat) (pte : Pte) : Except Panic Pgdir :=
  if (entry pgdir va).isSome then .error .remap else .ok (setPte pgdir va (some pte))

def allocLoop (pgdir : Pgdir) (a newsz : Nat) : Except Panic Pgdir :=
  if a < newsz then
    match mappages pgdir a { page := zeroPage, user := true } with
    | .ok pgdir' => allocLoop pgdir' (a + PGSIZE) newsz
    | .error panic => .error panic
  else .ok pgdir
termination_by newsz - a
decreasing_by
  simp only [PGSIZE]
  omega

def allocuvm (pgdir : Pgdir) (oldsz newsz : Nat) : Except Panic (Pgdir × Nat) :=
  if KERNBASE ≤ newsz then .ok (pgdir, 0)
  else if newsz < oldsz then .ok (pgdir, oldsz)
  else (allocLoop pgdir (PGROUNDUP oldsz) newsz).map fun pgdir' => (pgdir', newsz)

def deallocLoop (pgdir : Pgdir) (a oldsz : Nat) : Pgdir :=
  if a < oldsz then
    match walkpgdir pgdir a with
    | none => deallocLoop pgdir ((PDX a + 1) * (PGSIZE * NPTENTRIES)) oldsz
    | some none => deallocLoop pgdir (a + PGSIZE) oldsz
    | some (some _) => deallocLoop (setPte pgdir a none) (a + PGSIZE) oldsz
  else pgdir
termination_by oldsz - a
decreasing_by
  all_goals
    simp only [PDX, PGSIZE, NPTENTRIES]
    omega

def deallocuvm (pgdir : Pgdir) (oldsz newsz : Nat) : Pgdir × Nat :=
  if oldsz ≤ newsz then (pgdir, oldsz) else (deallocLoop pgdir (PGROUNDUP newsz) oldsz, newsz)

/-- The kernel's own pages, present in every page table and without `PTE_U`. -/
def setupkvm : Pgdir := fun pdx =>
  if PDX KERNBASE ≤ pdx ∧ pdx < PDX (KERNBASE + PHYSTOP) ∨ PDX DEVSPACE ≤ pdx ∧ pdx < NPTENTRIES then
    some fun _ => some { page := zeroPage, user := false }
  else none

def copyLoop (pgdir d : Pgdir) (i sz : Nat) : Except Panic Pgdir :=
  if i < sz then
    match walkpgdir pgdir i with
    | none => .error .pteShouldExist
    | some none => .error .pageNotPresent
    | some (some pte) =>
      match mappages d i pte with
      | .ok d' => copyLoop pgdir d' (i + PGSIZE) sz
      | .error panic => .error panic
  else .ok d
termination_by sz - i
decreasing_by
  simp only [PGSIZE]
  omega

def copyuvm (pgdir : Pgdir) (sz : Nat) : Except Panic Pgdir := copyLoop pgdir setupkvm 0 sz

/-! ## Entries -/

theorem entry_setPte (pgdir : Pgdir) (va a : Nat) (pte : Option Pte) :
    entry (setPte pgdir va pte) a = if a / PGSIZE = va / PGSIZE then pte else entry pgdir a := by
  have same : a / PGSIZE = va / PGSIZE ↔ PDX a = PDX va ∧ PTX a = PTX va := by
    simp only [PDX, PTX, PGSIZE, NPTENTRIES]
    omega
  simp only [same]
  by_cases dir : PDX a = PDX va
  · by_cases index : PTX a = PTX va
    · simp [entry, walkpgdir, setPte, dir, index]
    · cases table : pgdir (PDX va) <;> simp [entry, walkpgdir, setPte, dir, index, table]
  · simp [entry, walkpgdir, setPte, dir]

theorem entry_congr (pgdir : Pgdir) {a b : Nat} (page : a / PGSIZE = b / PGSIZE) : entry pgdir a = entry pgdir b := by
  have dir : PDX a = PDX b := by
    simp only [PDX, PGSIZE, NPTENTRIES] at page ⊢
    omega
  have index : PTX a = PTX b := by
    unfold PTX
    rw [page]
  simp only [entry, walkpgdir, dir, index]

theorem mappages_of_absent {pgdir : Pgdir} {va : Nat} (pte : Pte) (absent : entry pgdir va = none) :
    mappages pgdir va pte = .ok (setPte pgdir va (some pte)) := by
  simp [mappages, absent]

theorem mappages_of_present {pgdir : Pgdir} {va : Nat} (pte : Pte) (present : (entry pgdir va).isSome) :
    mappages pgdir va pte = .error .remap :=
  if_pos present

/-! ## The loops -/

def Within (a top b : Nat) : Prop := a ≤ b / PGSIZE * PGSIZE ∧ b / PGSIZE * PGSIZE < top

instance (a top b : Nat) : Decidable (Within a top b) := inferInstanceAs (Decidable (_ ∧ _))

theorem within_iff {a top b : Nat} (aligned : PGSIZE ∣ a) (more : a < top) :
    Within a top b ↔ b / PGSIZE = a / PGSIZE ∨ Within (a + PGSIZE) top b := by
  simp only [Within, PGSIZE] at aligned ⊢
  omega

theorem not_within {a top : Nat} (last : ¬a < top) (b : Nat) : ¬Within a top b := by
  rintro ⟨above, below⟩
  omega

theorem allocLoop_eq (pgdir : Pgdir) {a : Nat} (newsz : Nat) (aligned : PGSIZE ∣ a)
    (absent : ∀ b, Within a newsz b → entry pgdir b = none) :
    ∃ pgdir', allocLoop pgdir a newsz = .ok pgdir' ∧
      ∀ b, entry pgdir' b = if Within a newsz b then some { page := zeroPage, user := true } else entry pgdir b := by
  rw [allocLoop]
  by_cases more : a < newsz
  · have next : PGSIZE ∣ a + PGSIZE := Nat.dvd_add aligned (Nat.dvd_refl PGSIZE)
    rw [if_pos more, mappages_of_absent _ (absent a ((within_iff aligned more).mpr (Or.inl rfl)))]
    obtain ⟨pgdir', done, entries⟩ := allocLoop_eq
      (setPte pgdir a (some { page := zeroPage, user := true })) newsz next (fun b within => by
        rw [entry_setPte, if_neg, absent b ((within_iff aligned more).mpr (Or.inr within))]
        simp only [Within, PGSIZE] at within ⊢
        omega)
    refine ⟨pgdir', done, fun b => ?_⟩
    rw [entries, entry_setPte]
    by_cases within : Within (a + PGSIZE) newsz b
    · rw [if_pos within, if_pos ((within_iff aligned more).mpr (Or.inr within))]
    · rw [if_neg within]
      exact if_congr ((within_iff aligned more).trans (or_iff_left within)).symm rfl rfl
  · rw [if_neg more]
    exact ⟨pgdir, rfl, fun b => (if_neg (not_within more b)).symm⟩
termination_by newsz - a
decreasing_by
  simp only [PGSIZE]
  omega

/-- The loop of `deallocuvm` clears the entries of its pages, going past the tables that
do not exist. -/
theorem entry_deallocLoop (pgdir : Pgdir) {a oldsz : Nat} (aligned : PGSIZE ∣ a) (b : Nat) :
    entry (deallocLoop pgdir a oldsz) b = if Within a oldsz b then none else entry pgdir b := by
  rw [deallocLoop]
  by_cases more : a < oldsz
  · rw [if_pos more]
    have next : PGSIZE ∣ a + PGSIZE := Nat.dvd_add aligned (Nat.dvd_refl PGSIZE)
    have here : ∀ pte, walkpgdir pgdir a = pte → entry pgdir a = pte.bind id := fun _ walk => by rw [entry, walk]
    cases walk : walkpgdir pgdir a with
    | none =>
      have table : PGSIZE ∣ (PDX a + 1) * (PGSIZE * NPTENTRIES) :=
        Nat.dvd_mul_left_of_dvd (Nat.dvd_mul_right PGSIZE NPTENTRIES) _
      dsimp only
      rw [entry_deallocLoop pgdir table b]
      by_cases within : Within ((PDX a + 1) * (PGSIZE * NPTENTRIES)) oldsz b
      · have before : Within a oldsz b := by
          simp only [Within, PDX, PGSIZE, NPTENTRIES] at within ⊢
          omega
        rw [if_pos within, if_pos before]
      · rw [if_neg within]
        split
        next before =>
          -- a page of the table that does not exist
          have dir : PDX b = PDX a := by
            simp only [Within, PDX, PGSIZE, NPTENTRIES] at within before aligned ⊢
            omega
          rw [entry, walkpgdir, dir, Option.map_eq_none_iff.mp walk]
          rfl
        next => rfl
    | some pte =>
      cases pte with
      | none =>
        dsimp only
        rw [entry_deallocLoop pgdir next b]
        by_cases within : Within (a + PGSIZE) oldsz b
        · rw [if_pos within, if_pos ((within_iff aligned more).mpr (Or.inr within))]
        · rw [if_neg within, if_congr ((within_iff aligned more).trans (or_iff_left within)) rfl rfl]
          split
          next page => rw [entry_congr pgdir page, here _ walk, Option.bind_some, id]
          next => rfl
      | some pte =>
        dsimp only
        rw [entry_deallocLoop _ next b, entry_setPte]
        by_cases within : Within (a + PGSIZE) oldsz b
        · rw [if_pos within, if_pos ((within_iff aligned more).mpr (Or.inr within))]
        · rw [if_neg within]
          exact if_congr ((within_iff aligned more).trans (or_iff_left within)).symm rfl rfl
  · rw [if_neg more, if_neg (not_within more b)]
termination_by oldsz - a
decreasing_by
  all_goals
    simp only [PDX, PGSIZE, NPTENTRIES]
    omega

theorem not_within_next {a top b : Nat} (aligned : PGSIZE ∣ a) (page : b / PGSIZE = a / PGSIZE) :
    ¬Within (a + PGSIZE) top b := by
  simp only [Within, PGSIZE] at aligned page ⊢
  omega

theorem copyLoop_eq {pgdir d : Pgdir} {i sz : Nat} (more : i < sz) :
    copyLoop pgdir d i sz =
      match walkpgdir pgdir i with
      | none => .error .pteShouldExist
      | some none => .error .pageNotPresent
      | some (some pte) =>
        if (entry d i).isSome then .error .remap else copyLoop pgdir (setPte d i (some pte)) (i + PGSIZE) sz := by
  rw [copyLoop, if_pos more]
  cases walkpgdir pgdir i with
  | none => rfl
  | some pte =>
    cases pte with
    | none => rfl
    | some pte =>
      by_cases present : (entry d i).isSome
      · simp only [mappages_of_present pte present, if_pos present]
      · simp only [mappages_of_absent pte (Option.not_isSome_iff_eq_none.mp present), if_neg present]

theorem copyLoop_ok_iff {pgdir d : Pgdir} {i sz : Nat} (aligned : PGSIZE ∣ i) :
    (∃ d', copyLoop pgdir d i sz = .ok d') ↔ ∀ b, Within i sz b → (entry pgdir b).isSome ∧ entry d b = none := by
  by_cases more : i < sz
  · rw [copyLoop_eq more]
    have first : Within i sz i := (within_iff aligned more).mpr (Or.inl rfl)
    have next : PGSIZE ∣ i + PGSIZE := Nat.dvd_add aligned (Nat.dvd_refl PGSIZE)
    cases walk : walkpgdir pgdir i with
    | none =>
      refine ⟨nofun, fun all => ?_⟩
      have present := (all i first).1
      simp [entry, walk] at present
    | some pte =>
      cases pte with
      | none =>
        refine ⟨nofun, fun all => ?_⟩
        have present := (all i first).1
        simp [entry, walk] at present
      | some pte =>
        have here : entry pgdir i = some pte := by rw [entry, walk, Option.bind_some, id]
        by_cases mapped : (entry d i).isSome
        · simp only [if_pos mapped]
          refine ⟨nofun, fun all => ?_⟩
          rw [(all i first).2] at mapped
          cases mapped
        · simp only [if_neg mapped]
          rw [copyLoop_ok_iff next]
          constructor
          · intro rest b within
            rcases (within_iff aligned more).mp within with page | later
            · rw [entry_congr pgdir page, entry_congr d page, here]
              exact ⟨rfl, Option.not_isSome_iff_eq_none.mp mapped⟩
            · have others := rest b later
              rwa [entry_setPte, if_neg fun page => not_within_next aligned page later] at others
          · intro all b later
            rw [entry_setPte, if_neg fun page => not_within_next aligned page later]
            exact all b ((within_iff aligned more).mpr (Or.inr later))
  · rw [copyLoop, if_neg more]
    exact ⟨fun _ b within => absurd within (not_within more b), fun _ => ⟨d, rfl⟩⟩
termination_by sz - i
decreasing_by
  simp only [PGSIZE]
  omega

theorem entry_copyLoop {pgdir d d' : Pgdir} {i sz : Nat} (aligned : PGSIZE ∣ i)
    (done : copyLoop pgdir d i sz = .ok d') (b : Nat) :
    entry d' b = if Within i sz b then entry pgdir b else entry d b := by
  by_cases more : i < sz
  · rw [copyLoop_eq more] at done
    have next : PGSIZE ∣ i + PGSIZE := Nat.dvd_add aligned (Nat.dvd_refl PGSIZE)
    cases walk : walkpgdir pgdir i with
    | none => simp [walk] at done
    | some pte =>
      cases pte with
      | none => simp [walk] at done
      | some pte =>
        have here : entry pgdir i = some pte := by rw [entry, walk, Option.bind_some, id]
        simp only [walk] at done
        split at done
        · cases done
        · rw [entry_copyLoop next done b, entry_setPte]
          by_cases later : Within (i + PGSIZE) sz b
          · rw [if_pos later, if_pos ((within_iff aligned more).mpr (Or.inr later))]
          · rw [if_neg later, if_congr ((within_iff aligned more).trans (or_iff_left later)) rfl rfl]
            split
            next page => rw [entry_congr pgdir page, here]
            next => rfl
  · rw [copyLoop, if_neg more] at done
    cases done
    rw [if_neg (not_within more b)]
termination_by sz - i
decreasing_by
  simp only [PGSIZE]
  omega

end OsLabs.LazyVm
