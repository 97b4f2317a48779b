import OsLabs.Lib.Machine
import OsLabs.Paging.Memory

/-! vm.c: `mappages` and `deallocuvm`, and what a directory translates after any calls of
them. -/

set_option autoImplicit false

namespace OsLabs.Paging

open OsLabs.Lib
open OsLabs.LazyVm (PGSIZE NPTENTRIES KERNBASE PHYSTOP wordSize PGROUNDUP PGROUNDDOWN PDX PTX)

namespace Kmem

/-- The loop of `mappages`, with `n` rounds to go after this one. `none` is a panic, "remap". -/
def mapLoop (pgdir : Frame) (perm : Word) : Nat → Kmem → Nat → Word → Option (Kmem × Int)
  | n, m, a, pa =>
    match m.walkpgdir pgdir a true with
    | (m, none) => some (m, -1)
    | (m, some pte) =>
      if Present (m.read pte) then none
      else
        let m := m.write pte (pa ||| perm ||| PTE_P)
        match n with
        | 0 => some (m, 0)
        | n + 1 => mapLoop pgdir perm n m ((a + PGSIZE) % wordSize) (pa + 4096)

def rounds (a last : Nat) : Nat := (last + wordSize - a) % wordSize / PGSIZE

def mappages (m : Kmem) (pgdir : Frame) (va size pa perm : Word) : Option (Kmem × Int) :=
  let a := PGROUNDDOWN va.toNat
  let last := PGROUNDDOWN (va + size - 1).toNat
  mapLoop pgdir perm (rounds a last) m a pa

/-- The loop of `deallocuvm`, for an `oldsz` up to `KERNBASE`, where `a` does not wrap. -/
def deallocLoop (kernelEnd : Nat) (pgdir : Frame) (m : Kmem) (a oldsz : Nat) : Option Kmem :=
  if a < oldsz then
    match m.walkpgdir pgdir a false with
    | (m, none) => deallocLoop kernelEnd pgdir m ((PDX a + 1) * (PGSIZE * NPTENTRIES)) oldsz
    | (m, some pte) =>
      if Present (m.read pte) then
        let pa := PTE_ADDR (m.read pte)
        if pa = 0 then none
        else
          match m.kfree kernelEnd (frameOf pa) with
          | none => none
          | some m => deallocLoop kernelEnd pgdir (m.write pte 0) (a + PGSIZE) oldsz
      else deallocLoop kernelEnd pgdir m (a + PGSIZE) oldsz
  else some m
termination_by oldsz - a
decreasing_by
  all_goals
    simp only [PDX, PGSIZE, NPTENTRIES]
    omega

def deallocuvm (kernelEnd : Nat) (m : Kmem) (pgdir : Frame) (oldsz newsz : Word) : Option (Kmem × Word) :=
  if oldsz ≤ newsz then some (m, oldsz)
  else (deallocLoop kernelEnd pgdir m (PGROUNDUP newsz.toNat) oldsz.toNat).map (·, newsz)

end Kmem

/-! ## Mapping -/

section Mapping

variable {m m' : Kmem} {dirs : Set Frame} {d : Frame} {perm pa : Word} {n a : Nat}

theorem mapLoop_round (n a : Nat) (pa perm : Word) (tables : Tables m dirs) (used : d ∈ dirs) :
    Kmem.mapLoop d perm n m a pa = some (m, -1) ∧ ¬Present (m.page d (PDX a)) ∧ m.freelist = [] ∨
      ∃ m₁ t, Walked m dirs d a m₁ t ∧ Kmem.mapLoop d perm n m a pa =
        if Present (m₁.page t (PTX a)) then none
        else
          let m := m₁.write (t, PTX a) (pa ||| perm ||| PTE_P)
          match n with
          | 0 => some (m, 0)
          | n + 1 => Kmem.mapLoop d perm n m ((a + PGSIZE) % wordSize) (pa + 4096) := by
  rw [Kmem.mapLoop]
  rcases tables.walkpgdir a used with ⟨walk, absent, free⟩ | ⟨m₁, t, walk, walked⟩
  · rw [walk]
    exact Or.inl ⟨rfl, absent, free⟩
  · rw [walk]
    exact Or.inr ⟨m₁, t, walked, rfl⟩

def Spans (a n b : Nat) : Prop := a / PGSIZE ≤ b / PGSIZE ∧ b / PGSIZE ≤ a / PGSIZE + n

instance (a n b : Nat) : Decidable (Spans a n b) := inferInstanceAs (Decidable (_ ∧ _))

def mappedEntry (a : Nat) (pa perm : Word) (b : Nat) : Word :=
  pa + BitVec.ofNat 32 ((b / PGSIZE - a / PGSIZE) * PGSIZE) ||| perm ||| PTE_P

theorem mappedEntry_first {b : Nat} (page : b / PGSIZE = a / PGSIZE) : mappedEntry a pa perm b = pa ||| perm ||| PTE_P := by
  rw [mappedEntry, page, Nat.sub_self, Nat.zero_mul]
  exact congrArg (· ||| perm ||| PTE_P) (BitVec.add_zero pa)

theorem mappedEntry_next {b : Nat} (above : a / PGSIZE < b / PGSIZE) :
    mappedEntry (a + PGSIZE) (pa + 4096) perm b = mappedEntry a pa perm b := by
  have next : (a + PGSIZE) / PGSIZE = a / PGSIZE + 1 := Nat.add_div_right a (by decide)
  have pages : (b / PGSIZE - a / PGSIZE) * PGSIZE = 4096 + (b / PGSIZE - (a / PGSIZE + 1)) * PGSIZE := by
    simp only [PGSIZE] at above ⊢
    omega
  rw [mappedEntry, mappedEntry, next, pages, BitVec.ofNat_add, BitVec.add_assoc]
  rfl

theorem Walked.write {m₁ : Kmem} {t : Frame} (walked : Walked m dirs d a m₁ t) (used : d ∈ dirs) (inside : a < wordSize)
    (w : Word) : Tables (m₁.write (t, PTX a) w) dirs ∧ ∀ d' ∈ dirs, ∀ b < wordSize,
      (m₁.write (t, PTX a) w).entry d' b =
        if d' = d ∧ b / PGSIZE = a / PGSIZE then Kmem.found w else m.entry d' b := by
  obtain ⟨tables, entries⟩ := walked.tables.write used inside walked.table
  refine ⟨tables, fun d' used' b inside' => ?_⟩
  rw [entries d' used' b inside', walked.entries d' used' b inside']

theorem mapLoop_succeeds (tables : Tables m dirs) (used : d ∈ dirs) (inside : a < wordSize)
    (done : Kmem.mapLoop d perm n m a pa = some (m', 0)) :
    ∃ m₁, Tables m₁ dirs ∧ (∀ d' ∈ dirs, ∀ b < wordSize, m₁.entry d' b =
        if d' = d ∧ b / PGSIZE = a / PGSIZE then some (mappedEntry a pa perm b) else m.entry d' b) ∧
      match n with
      | 0 => m' = m₁
      | n + 1 => Kmem.mapLoop d perm n m₁ ((a + PGSIZE) % wordSize) (pa + 4096) = some (m', 0) := by
  rcases mapLoop_round n a pa perm tables used with ⟨out, -⟩ | ⟨m₁, t, walked, round⟩
  · rw [out] at done
    cases done
  · obtain ⟨tables', entries⟩ := walked.write used inside (pa ||| perm ||| PTE_P)
    rw [round] at done
    split at done
    · cases done
    · refine ⟨_, tables', fun d' used' b inside' => ?_, ?_⟩
      · rw [entries d' used' b inside']
        split
        next here =>
          rw [mappedEntry_first here.2]
          exact if_pos (present_or _)
        next => rfl
      · cases n with
        | zero => exact (Prod.mk.inj (Option.some.inj done)).1.symm
        | succ n => exact done

theorem mapLoop_spec (tables : Tables m dirs) (used : d ∈ dirs) (fits : a + n * PGSIZE < wordSize)
    (done : Kmem.mapLoop d perm n m a pa = some (m', 0)) :
    Tables m' dirs ∧ ∀ d' ∈ dirs, ∀ b < wordSize,
      m'.entry d' b = if d' = d ∧ Spans a n b then some (mappedEntry a pa perm b) else m.entry d' b := by
  induction n generalizing m a pa with
  | zero =>
    obtain ⟨m₁, tables', entries, rfl⟩ := mapLoop_succeeds tables used (Nat.lt_of_add_right_lt fits) done
    have first : ∀ b, Spans a 0 b ↔ b / PGSIZE = a / PGSIZE := fun b => by
      unfold Spans
      omega
    refine ⟨tables', fun d' used' b inside => ?_⟩
    simp only [entries d' used' b inside, first]
  | succ n ih =>
    obtain ⟨m₁, tables₁, entries₁, rest⟩ := mapLoop_succeeds tables used (Nat.lt_of_add_right_lt fits) done
    have next : a + PGSIZE + n * PGSIZE < wordSize := by
      rw [Nat.succ_mul] at fits
      omega
    dsimp only at rest
    rw [Nat.mod_eq_of_lt (Nat.lt_of_add_right_lt next)] at rest
    obtain ⟨tables', entries⟩ := ih tables₁ next rest
    refine ⟨tables', fun d' used' b inside => ?_⟩
    have page : (a + PGSIZE) / PGSIZE = a / PGSIZE + 1 := Nat.add_div_right a (by decide)
    rw [entries d' used' b inside, entries₁ d' used' b inside]
    by_cases dir : d' = d
    · by_cases here : b / PGSIZE = a / PGSIZE
      · have first : Spans a (n + 1) b := ⟨here.ge, by omega⟩
        have not_later : ¬Spans (a + PGSIZE) n b := fun later => by
          have above := later.1
          omega
        rw [if_neg fun h => not_later h.2, if_pos ⟨dir, here⟩, if_pos ⟨dir, first⟩]
      · have later : Spans (a + PGSIZE) n b ↔ Spans a (n + 1) b := by
          simp only [Spans, page]
          omega
        simp only [dir, here, later, true_and, and_false, if_false]
        split
        next span =>
          have above : a / PGSIZE < b / PGSIZE := lt_of_le_of_ne span.1 (Ne.symm here)
          rw [mappedEntry_next above]
        next => rfl
    · simp only [dir, false_and, if_false]

/-- The page of `b` has bytes of the `size` from `va` on. -/
def Touches (va size : Word) (b : Nat) : Prop :=
  va.toNat / PGSIZE ≤ b / PGSIZE ∧ b / PGSIZE ≤ (va.toNat + size.toNat - 1) / PGSIZE

instance (va size : Word) (b : Nat) : Decidable (Touches va size b) := inferInstanceAs (Decidable (_ ∧ _))

theorem mappages_spec {va size : Word} (tables : Tables m dirs) (used : d ∈ dirs) (some_bytes : 0 < size.toNat)
    (fits : va.toNat + size.toNat ≤ wordSize) (done : m.mappages d va size pa perm = some (m', 0)) :
    Tables m' dirs ∧ ∀ d' ∈ dirs, ∀ b < wordSize,
      m'.entry d' b = if d' = d ∧ Touches va size b then some (mappedEntry va.toNat pa perm b) else m.entry d' b := by
  have last : (va + size - 1).toNat = va.toNat + size.toNat - 1 := by
    simp only [wordSize] at fits
    bv_omega
  have page : PGROUNDDOWN va.toNat / PGSIZE = va.toNat / PGSIZE := by
    simp only [PGROUNDDOWN, PGSIZE]
    omega
  have count : Kmem.rounds (PGROUNDDOWN va.toNat) (PGROUNDDOWN (va.toNat + size.toNat - 1)) =
      (va.toNat + size.toNat - 1) / PGSIZE - va.toNat / PGSIZE := by
    simp only [Kmem.rounds, PGROUNDDOWN, PGSIZE, wordSize] at fits ⊢
    omega
  rw [Kmem.mappages, last, count] at done
  obtain ⟨tables', entries⟩ := mapLoop_spec tables used (by
    simp only [PGROUNDDOWN, PGSIZE, wordSize] at fits ⊢
    omega) done
  refine ⟨tables', fun d' used' b inside => ?_⟩
  have touched : Spans (PGROUNDDOWN va.toNat) ((va.toNat + size.toNat - 1) / PGSIZE - va.toNat / PGSIZE) b ↔
      Touches va size b := by
    have order : va.toNat / PGSIZE ≤ (va.toNat + size.toNat - 1) / PGSIZE := Nat.div_le_div_right (by omega)
    rw [Spans, Touches, page]
    omega
  simp only [entries d' used' b inside, touched, mappedEntry, page]

end Mapping

/-! ## Unmapping -/

section Unmapping

open OsLabs.LazyVm (Within within_iff not_within)

variable {kernelEnd : Nat} {m m' : Kmem} {dirs : Set Frame} {d : Frame} {a oldsz : Nat}

theorem frameOf_pte_addr (w : Word) : frameOf (PTE_ADDR w) = frameOf w := by
  have flags : PTE_FLAGS w &&& 0xFFF = PTE_FLAGS w := by
    rw [PTE_FLAGS, BitVec.and_assoc, BitVec.and_self]
  rw [← frameOf_or flags, addr_or_flags]

def Returnable (m : Kmem) (dirs : Set Frame) (f : Frame) : Prop :=
  f ∉ m.freelist ∧ f ∉ dirs ∧ ∀ d ∈ dirs, ∀ i < NPTENTRIES, ¬m.Table d i f

/-- The pages mapped from `a` to below `oldsz` may all be given to `kfree`, each once. -/
structure Frees (m : Kmem) (dirs : Set Frame) (d : Frame) (a oldsz : Nat) : Prop where
  returnable : ∀ b < wordSize, Within a oldsz b → ∀ w, m.entry d b = some w → Returnable m dirs (frameOf w)
  once : ∀ b < wordSize, ∀ c < wordSize, Within a oldsz b → Within a oldsz c → ∀ w v, m.entry d b = some w →
    m.entry d c = some v → frameOf w = frameOf v → b / PGSIZE = c / PGSIZE

theorem Tables.kfree {f : Frame} (tables : Tables m dirs) (returnable : Returnable m dirs f)
    (freed : m.kfree kernelEnd f = some m') :
    Tables m' dirs ∧ m'.freelist = f :: m.freelist ∧ ∀ g, g ≠ f → m'.page g = m.page g := by
  obtain ⟨unfree, not_dir, not_table⟩ := returnable
  rw [Kmem.kfree] at freed
  split at freed
  · cases freed
  · cases freed
    have pages : ∀ g, g ≠ f → (((m.memset f 0x01010101).write (f, 0) (Kmem.link m.freelist)).page g) = m.page g :=
      fun g other => by rw [Kmem.page_write_other other, Kmem.page_memset_other other]
    refine ⟨tables.congr (fun d used => pages d fun same => not_dir (same ▸ used)) (tables.nodup.cons unfree) ?_, rfl, pages⟩
    intro g freed
    rcases List.mem_cons.mp freed with rfl | before
    · exact Or.inr ⟨not_dir, not_table⟩
    · exact Or.inl before

theorem Tables.kfree_entries {f : Frame} (tables : Tables m dirs) (returnable : Returnable m dirs f)
    (freed : m.kfree kernelEnd f = some m') {d : Frame} (used : d ∈ dirs) :
    (∀ i t, m'.Table d i t ↔ m.Table d i t) ∧ ∀ b < wordSize, m'.entry d b = m.entry d b := by
  obtain ⟨-, -, pages⟩ := tables.kfree returnable freed
  obtain ⟨-, not_dir, not_table⟩ := returnable
  have dir : m'.page d = m.page d := pages d fun same => not_dir (same ▸ used)
  refine ⟨fun i t => Kmem.table_congr (congrFun dir i), fun b inside => Kmem.entry_congr (congrFun dir _) fun t table => ?_⟩
  rw [pages t fun same => not_table d used _ (pdx_lt inside) (same ▸ table)]

theorem dealloc_page {t f : Frame} {m₁ : Kmem} (tables : Tables m dirs) (used : d ∈ dirs) (inside : a < wordSize)
    (table : m.Table d (PDX a) t) (returnable : Returnable m dirs f) (freed : m.kfree kernelEnd f = some m₁) :
    Tables (m₁.write (t, PTX a) 0) dirs ∧ (m₁.write (t, PTX a) 0).freelist = f :: m.freelist ∧
      (∀ d' ∈ dirs, ∀ i t', (m₁.write (t, PTX a) 0).Table d' i t' ↔ m.Table d' i t') ∧
      ∀ d' ∈ dirs, ∀ b < wordSize, (m₁.write (t, PTX a) 0).entry d' b =
        if d' = d ∧ b / PGSIZE = a / PGSIZE then none else m.entry d' b := by
  obtain ⟨tables₁, freelist, -⟩ := tables.kfree returnable freed
  have table₁ : m₁.Table d (PDX a) t := ((tables.kfree_entries returnable freed used).1 _ t).mpr table
  obtain ⟨tables₂, entries⟩ := tables₁.write (w := 0) used inside table₁
  refine ⟨tables₂, freelist, fun d' used' i t' => ?_, fun d' used' b inside' => ?_⟩
  · have other : d' ≠ t := fun same => tables.table_dir d used _ (pdx_lt inside) t table (same ▸ used')
    rw [← (tables.kfree_entries returnable freed used').1, Kmem.table_congr]
    rw [Kmem.page_write_other other]
  · rw [entries d' used' b inside', (tables.kfree_entries returnable freed used').2 b inside']
    exact if_congr Iff.rfl (if_neg (show ¬Present 0 by decide)) rfl

theorem Frees.mono {a' : Nat} (frees : Frees m dirs d a oldsz) (sub : ∀ b, Within a' oldsz b → Within a oldsz b) :
    Frees m dirs d a' oldsz where
  returnable b inside within := frees.returnable b inside (sub b within)
  once b inside c inside' within within' := frees.once b inside c inside' (sub b within) (sub c within')

theorem Frees.next {m₁ : Kmem} {w : Word} (frees : Frees m dirs d a oldsz) (aligned : PGSIZE ∣ a) (more : a < oldsz)
    (inside : a < wordSize) (here : m.entry d a = some w) (freelist : m₁.freelist = frameOf w :: m.freelist)
    (same : ∀ d' ∈ dirs, ∀ i t', m₁.Table d' i t' ↔ m.Table d' i t')
    (entries : ∀ b < wordSize, m₁.entry d b = if b / PGSIZE = a / PGSIZE then none else m.entry d b) :
    Frees m₁ dirs d (a + PGSIZE) oldsz := by
  have first : Within a oldsz a := (within_iff aligned more).mpr (Or.inl rfl)
  have later : ∀ b, Within (a + PGSIZE) oldsz b → Within a oldsz b := fun b within => (within_iff aligned more).mpr (Or.inr within)
  have before : ∀ b < wordSize, ∀ v, m₁.entry d b = some v → b / PGSIZE ≠ a / PGSIZE ∧ m.entry d b = some v := by
    intro b inside' v mapped
    rw [entries b inside'] at mapped
    split at mapped
    · cases mapped
    next other => exact ⟨other, mapped⟩
  refine ⟨?_, ?_⟩
  · intro b inside' within v mapped
    obtain ⟨other, mapped⟩ := before b inside' v mapped
    obtain ⟨unfree, not_dir, not_table⟩ := frees.returnable b inside' (later b within) v mapped
    refine ⟨?_, not_dir, fun d' used' i bound table => not_table d' used' i bound ((same d' used' i _).mp table)⟩
    rw [freelist, List.mem_cons, not_or]
    exact ⟨fun twice => other (frees.once b inside' a inside (later b within) first v w mapped here twice), unfree⟩
  · intro b inside' c inside'' within within' v u mapped mapped'
    exact frees.once b inside' c inside'' (later b within) (later c within') v u (before b inside' v mapped).2
      (before c inside'' u mapped').2

theorem deallocLoop_spec {m : Kmem} {a : Nat} (tables : Tables m dirs) (used : d ∈ dirs) (aligned : PGSIZE ∣ a) (low : oldsz ≤ wordSize)
    (frees : Frees m dirs d a oldsz) (done : Kmem.deallocLoop kernelEnd d m a oldsz = some m') :
    Tables m' dirs ∧ ∀ d' ∈ dirs, ∀ b < wordSize,
      m'.entry d' b = if d' = d ∧ Within a oldsz b then none else m.entry d' b := by
  rw [Kmem.deallocLoop] at done
  by_cases more : a < oldsz
  · rw [if_pos more] at done
    have inside : a < wordSize := more.trans_le low
    have next : PGSIZE ∣ a + PGSIZE := Nat.dvd_add aligned (Nat.dvd_refl PGSIZE)
    by_cases present : Present (m.page d (PDX a))
    · obtain ⟨t, table⟩ : ∃ t, m.Table d (PDX a) t := ⟨_, present, rfl⟩
      have here : m.entry d a = Kmem.found (m.read (t, PTX a)) := Kmem.entry_of_table table
      rw [Kmem.walkpgdir_of_table false table] at done
      dsimp only at done
      by_cases mapped : Present (m.read (t, PTX a))
      · rw [Kmem.found, if_pos mapped] at here
        rw [if_pos mapped, frameOf_pte_addr] at done
        have nonzero : PTE_ADDR (m.read (t, PTX a)) ≠ 0 := fun zero => by simp [zero] at done
        rw [if_neg nonzero] at done
        cases freed : m.kfree kernelEnd (frameOf (m.read (t, PTX a))) with
        | none => simp [freed] at done
        | some m₁ =>
          rw [freed] at done
          dsimp only at done
          have first : Within a oldsz a := (within_iff aligned more).mpr (Or.inl rfl)
          obtain ⟨tables₁, freelist, same, entries₁⟩ :=
            dealloc_page tables used inside table (frees.returnable a inside first _ here) freed
          have frees₁ := frees.next aligned more inside here freelist same fun b inside' => by
            simp only [entries₁ d used b inside', true_and]
          obtain ⟨tables', entries⟩ := deallocLoop_spec tables₁ used next low frees₁ done
          refine ⟨tables', fun d' used' b inside' => ?_⟩
          rw [entries d' used' b inside', entries₁ d' used' b inside', ← ite_or]
          refine if_congr ?_ rfl rfl
          rw [within_iff aligned more, and_or_left, or_comm]
      · rw [Kmem.found, if_neg mapped] at here
        rw [if_neg mapped] at done
        obtain ⟨tables', entries⟩ := deallocLoop_spec tables used next low
          (frees.mono fun b within => (within_iff aligned more).mpr (Or.inr within)) done
        refine ⟨tables', fun d' used' b inside' => ?_⟩
        rw [entries d' used' b inside']
        by_cases same : d' = d ∧ b / PGSIZE = a / PGSIZE
        · obtain ⟨rfl, page⟩ := same
          rw [Kmem.entry_page page, here, ite_self, ite_self]
        · have rest : d' = d → (Within (a + PGSIZE) oldsz b ↔ Within a oldsz b) := fun dir =>
            ((within_iff aligned more).trans (or_iff_right fun page => same ⟨dir, page⟩)).symm
          exact if_congr (and_congr_right rest) rfl rfl
    · rw [Kmem.walkpgdir_absent present] at done
      dsimp only at done
      have table : PGSIZE ∣ (PDX a + 1) * (PGSIZE * NPTENTRIES) :=
        Nat.dvd_mul_left_of_dvd (Nat.dvd_mul_right PGSIZE NPTENTRIES) _
      have skips : ∀ b, Within ((PDX a + 1) * (PGSIZE * NPTENTRIES)) oldsz b → Within a oldsz b := fun b within => by
        simp only [Within, PDX, PGSIZE, NPTENTRIES] at within ⊢
        omega
      obtain ⟨tables', entries⟩ := deallocLoop_spec tables used table low (frees.mono skips) done
      refine ⟨tables', fun d' used' b inside' => ?_⟩
      rw [entries d' used' b inside']
      by_cases skipped : d' = d ∧ PDX b = PDX a
      · obtain ⟨rfl, pdx⟩ := skipped
        rw [Kmem.entry_absent (pdx ▸ present), ite_self, ite_self]
      · have rest : d' = d → (Within ((PDX a + 1) * (PGSIZE * NPTENTRIES)) oldsz b ↔ Within a oldsz b) := by
          intro dir
          have other : PDX b ≠ PDX a := fun pdx => skipped ⟨dir, pdx⟩
          refine ⟨skips b, fun within => ?_⟩
          simp only [Within, PDX, PGSIZE, NPTENTRIES] at within other aligned ⊢
          omega
        exact if_congr (and_congr_right rest) rfl rfl
  · rw [if_neg more] at done
    cases done
    refine ⟨tables, fun d' used' b inside => ?_⟩
    rw [if_neg fun h => not_within more b h.2]
termination_by oldsz - a
decreasing_by
  all_goals
    simp only [PDX, PGSIZE, NPTENTRIES]
    omega

end Unmapping

end OsLabs.Paging
