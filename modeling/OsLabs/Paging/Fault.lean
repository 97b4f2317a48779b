import OsLabs.Paging.Lookup

/-! The page fault of a process below its `sz`: `trap` maps a new page there, with up to two
pages of the allocator's, and goes on when it has got none. -/

set_option autoImplicit false

namespace OsLabs.Paging

open OsLabs.LazyVm (PGSIZE NPTENTRIES KERNBASE PHYSTOP wordSize PGROUNDDOWN PDX PTX)

structure Proc where
  sz : Word
  pgdir : Frame
  killed : Bool

section Trap

variable (kernelEnd : Nat)

/-- `memset(0, 0, PGSIZE)` goes through the page table of the process; a fault of the kernel
there would be handled as this one, and never end. -/
def zeroNull (m : Kmem) (pgdir : Frame) : Option Kmem :=
  match m.entry pgdir 0 with
  | some pte => if pte &&& PTE_W ≠ 0 then some (m.memset (frameOf pte) 0) else none
  | none => none

/-- The page at `temp` is mapped to `mem`, which is none for the 0 of `kalloc`. -/
def mapFault (m : Kmem) (p : Proc) (temp : Word) (mem : Option Frame) : Option (Kmem × Proc) :=
  -- `V2P(0)` is 0x80000000
  let pa := mem.elim 0x80000000 Frame.addr
  (m.mappages p.pgdir temp 4096 pa (PTE_W ||| PTE_U)).bind fun (m, r) =>
    -- `kfree(0)` is a panic
    if r < 0 then (mem.bind fun f => m.kfree kernelEnd f).map fun m => (m, p) else some (m, p)

/-- `trap` with `T_PGFLT` from user mode, up to the point where it looks at `killed`; `none`
where the kernel panics or does not come back. -/
def trap (m : Kmem) (p : Proc) (cr2 : Word) : Option (Kmem × Proc) :=
  if cr2 < p.sz then
    let temp := BitVec.ofNat 32 (PGROUNDDOWN cr2.toNat)
    match m.kalloc with
    | some (mem, m) => mapFault kernelEnd (m.memset mem 0) p temp (some mem)
    -- `mem` is 0, and nothing returns
    | none => (zeroNull m p.pgdir).bind fun m => mapFault kernelEnd m p temp none
  else some (m, { p with killed := true })

end Trap

/-- What `allocuvm`, `fork` and `exec` keep: the pages of the page tables and those that
processes have mapped are apart, and none of them is free. -/
structure Sound (kernelEnd : Nat) (m : Kmem) (dirs : Set Frame) : Prop where
  tables : Tables m dirs
  frames : ∀ d ∈ dirs, ∀ a < KERNBASE, ∀ w, m.entry d a = some w → Returnable m dirs (frameOf w)
  managed : ∀ f ∈ m.freelist, kernelEnd ≤ f.addr.toNat ∧ f.addr.toNat < PHYSTOP

def Available (m : Kmem) (pgdir : Frame) (va : Nat) : Prop :=
  0 < m.freelist.length ∧ (¬Present (m.page pgdir (PDX va)) → 1 < m.freelist.length)

/-- The page of `va` is mapped to a page of zeros that no other uses, and nothing else has
changed. -/
structure Exact (dirs : Set Frame) (m : Kmem) (p : Proc) (va : Nat) (m' : Kmem) (p' : Proc) : Prop where
  same : p' = p
  mapped : ∃ mem ∈ m.freelist, m'.entry p.pgdir va = some (mem.addr ||| (PTE_W ||| PTE_U) ||| PTE_P) ∧
    (∀ i, m'.page mem i = 0) ∧
    ∀ d ∈ dirs, ∀ a < KERNBASE, ∀ w, m'.entry d a = some w → frameOf w = mem → d = p.pgdir ∧ a / PGSIZE = va / PGSIZE
  others : ∀ d ∈ dirs, ∀ a < wordSize, ¬(d = p.pgdir ∧ a / PGSIZE = va / PGSIZE) → m'.entry d a = m.entry d a
  memory : ∀ f, f ∉ m.freelist → f ≠ p.pgdir → ¬m.Table p.pgdir (PDX va) f → m'.page f = m.page f

/-- The process is killed, and of its memory and that of others nothing has changed. -/
structure Refused (dirs : Set Frame) (m : Kmem) (p : Proc) (m' : Kmem) (p' : Proc) : Prop where
  killed : p'.killed = true
  entries : ∀ d ∈ dirs, ∀ a < wordSize, m'.entry d a = m.entry d a
  memory : ∀ d ∈ dirs, ∀ a < KERNBASE, ∀ w, m.entry d a = some w → m'.page (frameOf w) = m.page (frameOf w)
  free : ∀ f ∈ m.freelist, f ∈ m'.freelist ∨ ∃ i < NPTENTRIES, m'.Table p.pgdir i f

def Handled (kernelEnd : Nat) (dirs : Set Frame) (m : Kmem) (p : Proc) (cr2 : Word) : Prop :=
  ∃ m' p', trap kernelEnd m p cr2 = some (m', p') ∧
    (Available m p.pgdir cr2.toNat → Exact dirs m p cr2.toNat m' p') ∧
      (¬Available m p.pgdir cr2.toNat → Refused dirs m p m' p')

section Fault

variable {kernelEnd : Nat} {dirs : Set Frame} {m : Kmem} {p : Proc} {d : Frame} {pa perm : Word} {cr2 : Word}

theorem pgrounddown_index (va : Nat) : PDX (PGROUNDDOWN va) = PDX va ∧ PTX (PGROUNDDOWN va) = PTX va := by
  simp only [PDX, PTX, PGROUNDDOWN, PGSIZE, NPTENTRIES]
  omega

theorem mappages_page (m : Kmem) (d : Frame) (va pa perm : Word) :
    m.mappages d (BitVec.ofNat 32 (PGROUNDDOWN va.toNat)) 4096 pa perm =
      Kmem.mapLoop d perm 0 m (PGROUNDDOWN va.toNat) pa := by
  have bound : PGROUNDDOWN va.toNat + 4095 < 4294967296 := by
    have bound : va.toNat < 4294967296 := va.isLt
    simp only [PGROUNDDOWN, PGSIZE]
    omega
  have start : (BitVec.ofNat 32 (PGROUNDDOWN va.toNat)).toNat = PGROUNDDOWN va.toNat :=
    Nat.mod_eq_of_lt (by omega)
  have last : (BitVec.ofNat 32 (PGROUNDDOWN va.toNat) + 4096 - 1).toNat = PGROUNDDOWN va.toNat + 4095 := by
    bv_omega
  have once : PGROUNDDOWN (PGROUNDDOWN va.toNat + 4095) = PGROUNDDOWN va.toNat := by
    simp only [PGROUNDDOWN, PGSIZE]
    omega
  have again : PGROUNDDOWN (PGROUNDDOWN va.toNat) = PGROUNDDOWN va.toNat := by
    simp only [PGROUNDDOWN, PGSIZE]
    omega
  have none_more : Kmem.rounds (PGROUNDDOWN va.toNat) (PGROUNDDOWN va.toNat) = 0 := by
    rw [Kmem.rounds, Nat.add_sub_cancel_left]
    rfl
  rw [Kmem.mappages, start, last, once, again, none_more]

theorem mappages_one (pa perm : Word) (tables : Tables m dirs) (used : d ∈ dirs) (absent : m.entry d cr2.toNat = none) :
    m.mappages d (BitVec.ofNat 32 (PGROUNDDOWN cr2.toNat)) 4096 pa perm = some (m, -1) ∧
        ¬Present (m.page d (PDX cr2.toNat)) ∧ m.freelist = [] ∨
      ∃ m₁ t, Walked m dirs d cr2.toNat m₁ t ∧
        m.mappages d (BitVec.ofNat 32 (PGROUNDDOWN cr2.toNat)) 4096 pa perm =
          some (m₁.write (t, PTX cr2.toNat) (pa ||| perm ||| PTE_P), 0) := by
  obtain ⟨pdx, ptx⟩ := pgrounddown_index cr2.toNat
  rw [mappages_page]
  rcases mapLoop_round 0 (PGROUNDDOWN cr2.toNat) pa perm tables used with out | ⟨m₁, t, walked, round⟩
  · rw [pdx] at out
    exact Or.inl out
  · have walked' : Walked m dirs d cr2.toNat m₁ t :=
      ⟨walked.tables, pdx ▸ walked.table, walked.entries, walked.frames, pdx ▸ walked.freelist, walked.before⟩
    refine Or.inr ⟨m₁, t, walked', ?_⟩
    have entry := walked.entries d used cr2.toNat cr2.isLt
    rw [absent, Kmem.entry_of_table walked'.table, Kmem.found, ite_eq_right_iff] at entry
    rw [round, ptx, if_neg fun present => Option.some_ne_none _ (entry present)]

def taken (m : Kmem) (mem : Frame) (rest : List Frame) : Kmem := { m with freelist := rest }.memset mem 0

section Taken

variable {mem : Frame} {rest : List Frame} (tables : Tables m dirs) (free : m.freelist = mem :: rest)

include tables free

omit tables in
theorem taken_page {f : Frame} (unfree : f ∉ m.freelist) : (taken m mem rest).page f = m.page f :=
  Kmem.page_memset_other fun same => unfree (by rw [same, free]; exact List.mem_cons_self)

theorem tables_taken : Tables (taken m mem rest) dirs := by
  have nodup : (mem :: rest).Nodup := free ▸ tables.nodup
  refine tables.congr (fun d used => taken_page free (tables.dir_used d used)) nodup.of_cons fun f freed => Or.inl ?_
  rw [free]
  exact List.mem_cons_of_mem _ freed

theorem table_taken {i : Nat} {t : Frame} (used : d ∈ dirs) : (taken m mem rest).Table d i t ↔ m.Table d i t :=
  Kmem.table_congr (congrFun (taken_page free (tables.dir_used d used)) i)

theorem entry_taken (used : d ∈ dirs) {a : Nat} (inside : a < wordSize) : (taken m mem rest).entry d a = m.entry d a := by
  refine Kmem.entry_congr (congrFun (taken_page free (tables.dir_used d used)) _) fun t table => ?_
  rw [taken_page free (tables.table_used d used _ (pdx_lt inside) t table)]

end Taken

section Walked

variable {mem t : Frame} {rest : List Frame} {m₁ : Kmem} (sound : Sound kernelEnd m dirs) (used : p.pgdir ∈ dirs)
  (free : m.freelist = mem :: rest) (walked : Walked (taken m mem rest) dirs p.pgdir cr2.toNat m₁ t)

include sound used free walked

theorem walked_table : m.Table p.pgdir (PDX cr2.toNat) t ∨ t ∈ rest := by
  rcases walked.freelist with same | ⟨-, free'⟩
  · have table := walked.table
    rw [same, table_taken sound.tables free used] at table
    exact Or.inl table
  · have free' : rest = t :: m₁.freelist := free'
    exact Or.inr (by rw [free']; exact List.mem_cons_self)

omit sound used free in
theorem walked_page {f : Frame} (unfree : f ∉ rest) (not_dir : f ≠ p.pgdir) (not_table : f ≠ t) (w : Word) :
    (m₁.write (t, PTX cr2.toNat) w).page f = (taken m mem rest).page f := by
  rw [Kmem.page_write_other not_table]
  exact walked.frames f unfree not_dir

theorem exact_of_walked : Exact dirs m p cr2.toNat
    (m₁.write (t, PTX cr2.toNat) (mem.addr ||| (PTE_W ||| PTE_U) ||| PTE_P)) p := by
  have first : mem ∈ m.freelist := by rw [free]; exact List.mem_cons_self
  have mem_rest : mem ∉ rest := (free ▸ sound.tables.nodup : (mem :: rest).Nodup).notMem
  have mem_dir : mem ≠ p.pgdir := fun same => sound.tables.dir_used p.pgdir used (same ▸ first)
  have from_ := walked_table sound used free walked
  have mem_table : mem ≠ t := by
    rintro rfl
    rcases from_ with table | later
    · exact sound.tables.table_used p.pgdir used _ (pdx_lt cr2.isLt) mem table first
    · exact mem_rest later
  obtain ⟨-, entries⟩ := walked.write used cr2.isLt (mem.addr ||| (PTE_W ||| PTE_U) ||| PTE_P)
  have here : (m₁.write (t, PTX cr2.toNat) (mem.addr ||| (PTE_W ||| PTE_U) ||| PTE_P)).entry p.pgdir cr2.toNat =
      some (mem.addr ||| (PTE_W ||| PTE_U) ||| PTE_P) := by
    rw [entries p.pgdir used cr2.toNat cr2.isLt, if_pos ⟨rfl, rfl⟩]
    exact if_pos (present_or _)
  have others : ∀ d ∈ dirs, ∀ a < wordSize, ¬(d = p.pgdir ∧ a / PGSIZE = cr2.toNat / PGSIZE) →
      (m₁.write (t, PTX cr2.toNat) (mem.addr ||| (PTE_W ||| PTE_U) ||| PTE_P)).entry d a = m.entry d a := by
    intro d used' a inside other
    rw [entries d used' a inside, if_neg other, entry_taken sound.tables free used' inside]
  refine ⟨rfl, ⟨mem, first, here, fun i => ?_, ?_⟩, others, ?_⟩
  · rw [walked_page walked mem_rest mem_dir mem_table]
    exact congrFun (Kmem.page_memset ..) i
  · intro d used' a low w mapped frame
    by_contra other
    rw [others d used' a (low.trans (by decide)) other] at mapped
    exact (sound.frames d used' a low w mapped).1 (frame ▸ first)
  · intro f unfree not_dir not_table
    have not_rest : f ∉ rest := fun later => unfree (by rw [free]; exact List.mem_cons_of_mem _ later)
    rw [walked_page walked not_rest not_dir, taken_page free unfree]
    rintro rfl
    exact from_.elim not_table not_rest

omit sound used free in
theorem walked_rest {f : Frame} (freed : f ∈ m₁.freelist) : f ∈ rest := by
  rcases walked.freelist with same | ⟨-, free'⟩
  · rwa [same] at freed
  · have free' : rest = t :: m₁.freelist := free'
    rw [free']
    exact List.mem_cons_of_mem _ freed

theorem returnable_walked {f : Frame} (w : Word) (not_rest : f ∉ rest) (not_dir : f ∉ dirs)
    (not_table : ∀ d ∈ dirs, ∀ i < NPTENTRIES, ¬m.Table d i f) : Returnable (m₁.write (t, PTX cr2.toNat) w) dirs f := by
  refine ⟨fun freed => not_rest (walked_rest walked freed), not_dir, fun d used' i bound table => ?_⟩
  have other : d ≠ t := fun same =>
    walked.tables.table_dir p.pgdir used _ (pdx_lt cr2.isLt) t walked.table (same ▸ used')
  rw [Kmem.table_congr (congrFun (Kmem.page_write_other other) i)] at table
  rcases walked.before d used' i f table with before | ⟨later, -⟩
  · exact not_table d used' i bound ((table_taken sound.tables free used').mp before)
  · exact not_rest later

theorem sound_of_walked : Sound kernelEnd
    (m₁.write (t, PTX cr2.toNat) (mem.addr ||| (PTE_W ||| PTE_U) ||| PTE_P)) dirs := by
  have first : mem ∈ m.freelist := by rw [free]; exact List.mem_cons_self
  have rest_free : ∀ f ∈ rest, f ∈ m.freelist := fun f later => by rw [free]; exact List.mem_cons_of_mem _ later
  obtain ⟨tables, entries⟩ := walked.write used cr2.isLt (mem.addr ||| (PTE_W ||| PTE_U) ||| PTE_P)
  refine ⟨tables, fun d used' a low w mapped => ?_, fun f freed => ?_⟩
  · rw [entries d used' a (low.trans (by decide))] at mapped
    split at mapped
    · rw [Kmem.found, if_pos (present_or _)] at mapped
      obtain rfl := Option.some.inj mapped
      rw [BitVec.or_assoc, frameOf_or (by decide), frameOf_addr]
      exact returnable_walked sound used free walked _ (free ▸ sound.tables.nodup : (mem :: rest).Nodup).notMem
        (fun dir => sound.tables.dir_used mem dir first)
        fun d used' i bound table => sound.tables.table_used d used' i bound mem table first
    · rw [entry_taken sound.tables free used' (low.trans (by decide))] at mapped
      obtain ⟨unfree, not_dir, not_table⟩ := sound.frames d used' a low w mapped
      exact returnable_walked sound used free walked _ (fun later => unfree (rest_free _ later)) not_dir not_table
  · exact sound.managed f (rest_free f (walked_rest walked freed))

theorem available_of_walked : Available m p.pgdir cr2.toNat := by
  rw [Available, free]
  refine ⟨Nat.succ_pos _, fun absent => ?_⟩
  have later : t ∈ rest := (walked_table sound used free walked).resolve_left fun table => absent table.1
  exact Nat.succ_lt_succ (List.length_pos_of_mem later)

end Walked

/-- The frame goes back when there is no page for a page table. -/
theorem refused_iff {mem : Frame} {m₁ : Kmem} (sound : Sound kernelEnd m dirs)
    (free : m.freelist = [mem]) (back : (taken m mem []).kfree kernelEnd mem = some m₁) :
    Refused dirs m p m₁ p ↔ p.killed = true := by
  refine ⟨Refused.killed, fun killed => ?_⟩
  have first : mem ∈ m.freelist := by rw [free]; exact List.mem_cons_self
  have tables := tables_taken sound.tables free
  have returnable : Returnable (taken m mem []) dirs mem := by
    refine ⟨List.not_mem_nil, fun dir => sound.tables.dir_used mem dir first, fun d used' i bound table => ?_⟩
    exact sound.tables.table_used d used' i bound mem ((table_taken sound.tables free used').mp table) first
  obtain ⟨-, freelist, pages⟩ := tables.kfree returnable back
  refine ⟨killed, fun d used' a inside => ?_, fun d used' a low w mapped => ?_, fun f freed => Or.inl ?_⟩
  · rw [(tables.kfree_entries returnable back used').2 a inside, entry_taken sound.tables free used' inside]
  · have unfree := (sound.frames d used' a low w mapped).1
    have other : frameOf w ≠ mem := fun same => unfree (same ▸ first)
    rw [pages _ other, taken_page free unfree]
  · rw [freelist]
    rw [free] at freed
    exact List.mem_cons.mpr (Or.inl (List.mem_singleton.mp freed))

theorem taken_managed {mem : Frame} {rest : List Frame} (sound : Sound kernelEnd m dirs) (free : m.freelist = mem :: rest) :
    ∃ m₁, (taken m mem rest).kfree kernelEnd mem = some m₁ := by
  have range := sound.managed mem (by rw [free]; exact List.mem_cons_self)
  refine ⟨_, if_neg ?_⟩
  rintro (low | high)
  · omega
  · omega

theorem trap_taken {mem : Frame} {rest : List Frame} (below : cr2 < p.sz) (free : m.freelist = mem :: rest) :
    trap kernelEnd m p cr2 =
      mapFault kernelEnd (taken m mem rest) p (BitVec.ofNat 32 (PGROUNDDOWN cr2.toNat)) (some mem) := by
  have got : m.kalloc = some (mem, { m with freelist := rest }) := by rw [Kmem.kalloc, free]
  unfold trap taken
  rw [if_pos below, got]

theorem trap_out (below : cr2 < p.sz) (free : m.freelist = []) : trap kernelEnd m p cr2 =
    (zeroNull m p.pgdir).bind fun m => mapFault kernelEnd m p (BitVec.ofNat 32 (PGROUNDDOWN cr2.toNat)) none := by
  have got : m.kalloc = none := by rw [Kmem.kalloc, free]
  unfold trap
  rw [if_pos below, got]

theorem mapFault_eq (mem : Option Frame) {temp : Word} {m' : Kmem} {r : Int}
    (done : m.mappages p.pgdir temp 4096 (mem.elim 0x80000000 Frame.addr) (PTE_W ||| PTE_U) = some (m', r)) :
    mapFault kernelEnd m p temp mem =
      if r < 0 then (mem.bind fun f => m'.kfree kernelEnd f).map fun m => (m, p) else some (m', p) := by
  rw [mapFault, done, Option.bind_some]

theorem zeroNull_tables {m₀ : Kmem} (sound : Sound kernelEnd m dirs) (used : p.pgdir ∈ dirs)
    (zeroed : zeroNull m p.pgdir = some m₀) :
    Tables m₀ dirs ∧ m₀.freelist = m.freelist ∧ ∀ a < wordSize, m₀.entry p.pgdir a = m.entry p.pgdir a := by
  rw [zeroNull] at zeroed
  split at zeroed
  next pte mapped =>
    split at zeroed
    · cases zeroed
      obtain ⟨-, not_dir, not_table⟩ := sound.frames p.pgdir used 0 (by decide) pte mapped
      have dir : ∀ d ∈ dirs, (m.memset (frameOf pte) 0).page d = m.page d := fun d used' =>
        Kmem.page_memset_other fun same => not_dir (same ▸ used')
      refine ⟨sound.tables.congr dir sound.tables.nodup fun f freed => Or.inl freed, rfl, fun a inside => ?_⟩
      refine Kmem.entry_congr (congrFun (dir p.pgdir used) _) fun t table => ?_
      rw [Kmem.page_memset_other]
      rintro rfl
      exact not_table p.pgdir used _ (pdx_lt inside) table
    · cases zeroed
  next => cases zeroed

/-- Without a page the process is not killed and something is mapped, or the kernel does not
come back. -/
theorem not_handled_out (sound : Sound kernelEnd m dirs) (used : p.pgdir ∈ dirs) (below : cr2 < p.sz)
    (absent : m.entry p.pgdir cr2.toNat = none) (free : m.freelist = []) : ¬Handled kernelEnd dirs m p cr2 := by
  rintro ⟨m', p', trapped, -, refused⟩
  have out : ¬Available m p.pgdir cr2.toNat := fun available => by
    have some_free := available.1
    rw [free] at some_free
    exact Nat.lt_irrefl 0 some_free
  have entry := (refused out).entries p.pgdir used cr2.toNat cr2.isLt
  rw [absent] at entry
  rw [trap_out below free, Option.bind_eq_some_iff] at trapped
  obtain ⟨m₀, zeroed, trapped⟩ := trapped
  obtain ⟨tables, -, entries⟩ := zeroNull_tables sound used zeroed
  have absent' : m₀.entry p.pgdir cr2.toNat = none := by rw [entries _ cr2.isLt, absent]
  rcases mappages_one 0x80000000 (PTE_W ||| PTE_U) tables used absent' with
    ⟨failed, -⟩ | ⟨m₁, t, walked, done⟩
  · rw [mapFault_eq none failed, if_pos (by decide)] at trapped
    cases trapped
  · rw [mapFault_eq none done, if_neg (by decide)] at trapped
    obtain ⟨-, entries'⟩ := walked.write used cr2.isLt (0x80000000 ||| (PTE_W ||| PTE_U) ||| PTE_P)
    cases trapped
    rw [entries' p.pgdir used _ cr2.isLt, if_pos ⟨rfl, rfl⟩] at entry
    exact absurd entry (by decide)

theorem absent_taken {mem : Frame} {rest : List Frame} (sound : Sound kernelEnd m dirs) (used : p.pgdir ∈ dirs)
    (absent : m.entry p.pgdir cr2.toNat = none) (free : m.freelist = mem :: rest) :
    (taken m mem rest).entry p.pgdir cr2.toNat = none := by
  rw [entry_taken sound.tables free used cr2.isLt, absent]

theorem Sound.trap {m' : Kmem} {p' : Proc} (sound : Sound kernelEnd m dirs) (used : p.pgdir ∈ dirs) (below : cr2 < p.sz)
    (absent : m.entry p.pgdir cr2.toNat = none) (available : Available m p.pgdir cr2.toNat)
    (trapped : trap kernelEnd m p cr2 = some (m', p')) : Sound kernelEnd m' dirs := by
  cases free : m.freelist with
  | nil =>
    have some_free := available.1
    rw [free] at some_free
    exact absurd some_free (Nat.lt_irrefl 0)
  | cons mem rest =>
    have tables := tables_taken sound.tables free
    rw [trap_taken below free] at trapped
    rcases mappages_one mem.addr (PTE_W ||| PTE_U) tables used (absent_taken sound used absent free) with
      ⟨failed, no_table, none_left⟩ | ⟨m₁, t, walked, done⟩
    · rw [taken_page free (sound.tables.dir_used p.pgdir used)] at no_table
      obtain rfl : rest = [] := none_left
      have two := available.2 no_table
      rw [free] at two
      exact absurd two (Nat.lt_irrefl 1)
    · rw [mapFault_eq (some mem) done, if_neg (by decide)] at trapped
      cases trapped
      exact sound_of_walked sound used free walked

/-- The fault is handled as it should be exactly when all it needs can be allocated, or
when only the page table cannot and the process has been killed before. -/
theorem handled_iff (sound : Sound kernelEnd m dirs) (used : p.pgdir ∈ dirs)
    (below : cr2 < p.sz) (absent : m.entry p.pgdir cr2.toNat = none) :
    Handled kernelEnd dirs m p cr2 ↔ Available m p.pgdir cr2.toNat ∨
      p.killed = true ∧ m.freelist.length = 1 ∧ ¬Present (m.page p.pgdir (PDX cr2.toNat)) := by
  cases free : m.freelist with
  | nil =>
    refine iff_of_false (not_handled_out sound used below absent free) ?_
    rintro (⟨some_free, -⟩ | ⟨-, one, -⟩)
    · rw [free] at some_free
      exact Nat.lt_irrefl 0 some_free
    · cases one
  | cons mem rest =>
    have tables := tables_taken sound.tables free
    rw [Handled, trap_taken below free]
    rcases mappages_one mem.addr (PTE_W ||| PTE_U) tables used (absent_taken sound used absent free) with
      ⟨failed, no_table, none_left⟩ | ⟨m₁, t, walked, done⟩
    · obtain rfl : rest = [] := none_left
      obtain ⟨m₁, back⟩ := taken_managed sound free
      have no_table' : ¬Present (m.page p.pgdir (PDX cr2.toNat)) := by
        rwa [taken_page free (sound.tables.dir_used p.pgdir used)] at no_table
      have out : ¬Available m p.pgdir cr2.toNat := fun available => by
        have two := available.2 no_table'
        rw [free] at two
        exact Nat.lt_irrefl 1 two
      rw [mapFault_eq (some mem) failed, if_pos (by decide), Option.bind_some, back, Option.map_some]
      constructor
      · rintro ⟨m', p', trapped, -, refused⟩
        cases trapped
        exact Or.inr ⟨(refused out).killed, rfl, no_table'⟩
      · rintro (available | ⟨killed, -, -⟩)
        · exact absurd available out
        · exact ⟨m₁, p, rfl, fun available => absurd available out, fun _ => (refused_iff sound free back).mpr killed⟩
    · have available := available_of_walked sound used free walked
      rw [mapFault_eq (some mem) done, if_neg (by decide)]
      refine iff_of_true ⟨_, p, rfl, fun _ => exact_of_walked sound used free walked, fun out => absurd available out⟩ ?_
      exact Or.inl available

end Fault

def untouched : Proc := { sz := 8192, pgdir := 0x200, killed := false }

theorem sound_of_empty {m : Kmem} {kernelEnd : Nat} {pgdir : Frame} (start : Empty m pgdir)
    (managed : ∀ f ∈ m.freelist, kernelEnd ≤ f.addr.toNat ∧ f.addr.toNat < PHYSTOP) : Sound kernelEnd m {pgdir} := by
  refine ⟨start.agrees.tables, ?_, managed⟩
  rintro d rfl a _ w mapped
  rw [Kmem.entry_absent (start.absent _)] at mapped
  cases mapped

theorem handled_untouched : Handled 0x100000 {0x200} emptyDirectory untouched 4096 :=
  (handled_iff (p := untouched) (m := emptyDirectory)
    (sound_of_empty emptyDirectory_empty (by simp [emptyDirectory, toNat_addr, PHYSTOP, PGSIZE])) rfl (by decide)
    (Kmem.entry_absent (emptyDirectory_empty.absent _))).mpr (Or.inl ⟨by decide, fun _ => by decide⟩)

/-- No page is left for the second page of the process, which goes on with a page mapped
that is not there. -/
theorem not_handled_out_of_memory : ¬Handled 0x100000 {0x200} onePage untouched 4096 := by
  have lives : (trap 0x100000 onePage untouched 4096).any (fun r => !r.2.killed) = true := by decide +kernel
  rintro ⟨m', p', trapped, -, refused⟩
  rw [trapped] at lives
  have killed := (refused fun available => absurd available.1 (by decide)).killed
  simp [killed] at lives

end OsLabs.Paging
