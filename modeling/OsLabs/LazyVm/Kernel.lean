import OsLabs.LazyVm.PageTable

/-! What a process can do to its memory under two kernels: the one whose `sbrk` calls
`growproc`, and the one whose `sbrk` changes `sz` only and whose `trap` maps a page at
the first access. -/

set_option autoImplicit false

namespace OsLabs.LazyVm

structure Proc where
  sz : Nat
  pgdir : Pgdir

/-- `sz + n` as a `uint`. -/
def moved (sz : Nat) (n : Int32) : Nat := ((sz + n.toInt) % wordSize).toNat

def toInt (word : Int) : Int := word.bmod wordSize

def growproc (p : Proc) (n : Int32) : Except Panic (Proc × Int) :=
  if 0 < n.toInt then
    match allocuvm p.pgdir p.sz (moved p.sz n) with
    | .error panic => .error panic
    -- 0 from allocuvm is its failure
    | .ok (pgdir, sz) => if sz = 0 then .ok ({ p with pgdir }, -1) else .ok ({ sz, pgdir }, 0)
  else if n.toInt < 0 then
    match deallocuvm p.pgdir p.sz (moved p.sz n) with
    -- the same test: a process that shrinks to nothing gets -1, its pages gone
    | (pgdir, sz) => if sz = 0 then .ok ({ p with pgdir }, -1) else .ok ({ sz, pgdir }, 0)
  else .ok (p, 0)

/-- What differs between the two kernels: what `sys_sbrk` does once it has its argument, and
what `trap` does on a page fault at an address. `none` is a fault that is not handled. -/
structure Kernel where
  resize : Proc → Int32 → Except Panic (Proc × Int)
  trap : Proc → Nat → Except Panic (Option Proc)

/-- `sys_sbrk` by `growproc`; no page fault is handled. -/
def eager : Kernel where
  resize p n :=
    match growproc p n with
    | .error panic => .error panic
    | .ok (q, value) => if value < 0 then .ok (q, -1) else .ok (q, toInt p.sz)
  trap _ _ := .ok none

/-- `sys_sbrk` adds to `sz`; a page fault below `sz` maps a page of zeros. -/
def onDemand : Kernel where
  resize p n :=
    let sz := moved p.sz n
    -- no page is freed when sz goes down
    .ok ({ p with sz }, toInt (toInt sz - n.toInt))
  trap p cr2 :=
    if cr2 < p.sz then
      -- a fault on a page that is present, the guard page for one, is a remap
      match mappages p.pgdir (PGROUNDDOWN cr2) { page := zeroPage, user := true } with
      | .error panic => .error panic
      | .ok pgdir => .ok (some { p with pgdir })
    else .ok none

/-- The kernel reads at a user address, for which it needs no `PTE_U`. It does not survive a
fault of its own that is not handled. -/
def touch (kernel : Kernel) (p : Proc) (a : Nat) : Except Panic Proc :=
  if (entry p.pgdir a).isSome then .ok p
  else
    match kernel.trap p a with
    | .ok (some q) => .ok q
    | .ok none => .error .trap
    | .error panic => .error panic

/-- The test of `fetchint`, with `addr + 4` a `uint`. -/
def Fetches (sz : Nat) (addr : UInt32) : Prop := addr.toNat < sz ∧ (addr + 4).toNat ≤ sz

instance (sz : Nat) (addr : UInt32) : Decidable (Fetches sz addr) := inferInstanceAs (Decidable (_ ∧ _))

/-- The process once the word at `addr` has been read, from two pages where it lies across
their boundary; `none` is a -1. -/
def fetchint (kernel : Kernel) (p : Proc) (addr : UInt32) : Except Panic (Option Proc) :=
  if Fetches p.sz addr then
    match touch kernel p addr.toNat with
    | .error panic => .error panic
    | .ok q => (touch kernel q (addr + 3).toNat).map some
  else .ok none

/-- The call with the argument `n`, which is the word at `addr`. -/
def sys_sbrk (kernel : Kernel) (p : Proc) (addr : UInt32) (n : Int32) : Except Panic (Proc × Int) :=
  match fetchint kernel p addr with
  | .error panic => .error panic
  | .ok none => .ok (p, -1)
  | .ok (some q) => kernel.resize q n

inductive Op where
  -- `sbrk(n)` with its argument at `addr`
  | sbrk (addr : UInt32) (n : Int32)
  | load (a : UInt32)
  | store (a : UInt32) (b : UInt8)
  deriving DecidableEq

inductive Reply where
  | returned (value : Int)
  | loaded (b : UInt8)
  | stored
  | killed
  | panicked (panic : Panic)
  deriving DecidableEq

/-- The processor lets a user access through: the page is present and has `PTE_U`. -/
def Usable (pgdir : Pgdir) (a : Nat) : Prop := (entry pgdir a).any (·.user) = true

instance (pgdir : Pgdir) (a : Nat) : Decidable (Usable pgdir a) := inferInstanceAs (Decidable (_ = true))

def offset (a : Nat) : Fin PGSIZE := ⟨a % PGSIZE, Nat.mod_lt a (by decide)⟩

def byteAt (pgdir : Pgdir) (a : Nat) : UInt8 := ((entry pgdir a).map fun pte => pte.page (offset a)).getD 0

def poke (pgdir : Pgdir) (a : Nat) (b : UInt8) : Pgdir :=
  setPte pgdir a ((entry pgdir a).map fun pte => { pte with page := Function.update pte.page (offset a) b })

/-- The process as an access finds it in the end: the instruction is started again after a
fault that has been handled. -/
def access (kernel : Kernel) (p : Proc) (a : Nat) : Except Panic (Option Proc) :=
  if Usable p.pgdir a then .ok (some p) else kernel.trap p a

def exec (kernel : Kernel) (p : Proc) : Op → Reply × Option Proc
  | .sbrk addr n =>
    match sys_sbrk kernel p addr n with
    | .ok (q, value) => (.returned value, some q)
    | .error panic => (.panicked panic, none)
  | .load a =>
    match access kernel p a.toNat with
    | .ok (some q) => (.loaded (byteAt q.pgdir a.toNat), some q)
    | .ok none => (.killed, none)
    | .error panic => (.panicked panic, none)
  | .store a b =>
    match access kernel p a.toNat with
    | .ok (some q) => (.stored, some { q with pgdir := poke q.pgdir a.toNat b })
    | .ok none => (.killed, none)
    | .error panic => (.panicked panic, none)

def fork (p : Proc) : Except Panic Proc :=
  match copyuvm p.pgdir p.sz with
  | .ok pgdir => .ok { sz := p.sz, pgdir }
  | .error panic => .error panic

/-- The memory of a process as `exec` and `growproc` leave it: all pages below `sz`, no
other of its own, and the kernel's out of its reach. -/
structure Image (p : Proc) : Prop where
  size : p.sz ≤ KERNBASE
  present : ∀ a, a < PGROUNDUP p.sz → (entry p.pgdir a).isSome
  absent : ∀ a, PGROUNDUP p.sz ≤ a → a < KERNBASE → entry p.pgdir a = none
  kernel : ∀ a, KERNBASE ≤ a → ¬Usable p.pgdir a

/-! ## Accesses -/

section Access

variable {pgdir : Pgdir} {p q : Proc} {a : Nat}

theorem usable_iff : Usable pgdir a ↔ ∃ pte, entry pgdir a = some pte ∧ pte.user = true := by
  unfold Usable
  cases entry pgdir a <;> simp

theorem byteAt_of_entry {pte : Pte} (here : entry pgdir a = some pte) : byteAt pgdir a = pte.page (offset a) := by
  rw [byteAt, here]
  rfl

theorem pgrounddown_page (a : Nat) : PGROUNDDOWN a / PGSIZE = a / PGSIZE := by
  simp only [PGROUNDDOWN, PGSIZE]
  omega

theorem trap_onDemand (p : Proc) (cr2 : Nat) : onDemand.trap p cr2 =
    if cr2 < p.sz then
      if (entry p.pgdir cr2).isSome then .error .remap
      else .ok (some { p with pgdir := setPte p.pgdir (PGROUNDDOWN cr2) (some { page := zeroPage, user := true }) })
    else .ok none := by
  have same := entry_congr p.pgdir (pgrounddown_page cr2)
  by_cases present : (entry p.pgdir cr2).isSome
  · simp only [onDemand, mappages, same, if_pos present]
  · simp only [onDemand, mappages, same, if_neg present]

theorem usable_of_access (done : access onDemand p a = .ok (some q)) : Usable q.pgdir a := by
  rw [access] at done
  split at done
  next usable =>
    cases done
    exact usable
  next =>
    rw [trap_onDemand] at done
    split at done
    · split at done
      · cases done
      · cases done
        rw [usable_iff, entry_setPte, if_pos (pgrounddown_page a).symm]
        exact ⟨_, rfl, rfl⟩
    · cases done

def Proc.withPage (p : Proc) (a : Nat) : Proc :=
  if (entry p.pgdir a).isSome then p
  else { p with pgdir := setPte p.pgdir (PGROUNDDOWN a) (some { page := zeroPage, user := true }) }

@[simp] theorem Proc.withPage_sz (p : Proc) (a : Nat) : (p.withPage a).sz = p.sz := by
  unfold withPage
  split <;> rfl

theorem Proc.isSome_withPage_iff {c : Nat} :
    (entry (p.withPage a).pgdir c).isSome ↔ (entry p.pgdir c).isSome ∨ c / PGSIZE = a / PGSIZE := by
  unfold withPage
  split
  next present =>
    refine ⟨Or.inl, Or.rec id fun page => ?_⟩
    rwa [entry_congr p.pgdir page]
  next absent =>
    rw [entry_setPte, pgrounddown_page]
    split
    next page => simp [page]
    next other => simp [other]

theorem touch_onDemand (within : a < p.sz ∨ (entry p.pgdir a).isSome) : touch onDemand p a = .ok (p.withPage a) := by
  rw [touch, Proc.withPage]
  split
  next => rfl
  next absent => rw [trap_onDemand, if_pos (within.resolve_right absent), if_neg absent]

theorem fetchint_onDemand (p : Proc) (addr : UInt32) : fetchint onDemand p addr =
    .ok (if Fetches p.sz addr then some ((p.withPage addr.toNat).withPage (addr + 3).toNat) else none) := by
  rw [fetchint]
  split
  next fetches =>
    obtain ⟨first, last⟩ := fetches
    have within : (addr + 3).toNat < (p.withPage addr.toNat).sz ∨
        (entry (p.withPage addr.toNat).pgdir (addr + 3).toNat).isSome := by
      rw [Proc.withPage_sz, Proc.isSome_withPage_iff]
      -- where `addr + 4` wraps to 0 the word ends with its page
      by_cases wraps : (addr + 4).toNat = 0
      · refine Or.inr (Or.inr ?_)
        simp only [UInt32.toNat_add, UInt32.reduceToNat, PGSIZE] at wraps ⊢
        have := addr.toNat_lt
        omega
      · refine Or.inl ?_
        simp only [UInt32.toNat_add, UInt32.reduceToNat] at wraps last ⊢
        omega
    simp only [touch_onDemand (Or.inl first), touch_onDemand within]
    rfl
  next => rfl

theorem resize_onDemand (p : Proc) (n : Int32) :
    onDemand.resize p n = .ok ({ p with sz := moved p.sz n }, toInt p.sz) := by
  have size : (moved p.sz n : Int) = (p.sz + n.toInt) % wordSize := by
    unfold moved
    rw [Int.toNat_of_nonneg]
    exact Int.emod_nonneg _ (by decide)
  simp only [onDemand, toInt, size, Int.bmod_sub_bmod]
  rw [← Int.bmod_sub_bmod, Int.emod_bmod, Int.bmod_sub_bmod, Int.add_sub_cancel]

theorem exec_sbrk_onDemand (p : Proc) (addr : UInt32) (n : Int32) : exec onDemand p (.sbrk addr n) =
    if Fetches p.sz addr then
      (.returned (toInt p.sz),
        some { (p.withPage addr.toNat).withPage (addr + 3).toNat with sz := moved p.sz n })
    else (.returned (-1), some p) := by
  simp only [exec, sys_sbrk, fetchint_onDemand]
  by_cases fetches : Fetches p.sz addr
  · simp only [if_pos fetches, resize_onDemand, Proc.withPage_sz]
  · simp only [if_neg fetches]

theorem offset_ne {b : Nat} (page : a / PGSIZE = b / PGSIZE) (other : a ≠ b) : offset a ≠ offset b := by
  simp only [offset, PGSIZE, ne_eq, Fin.mk.injEq] at page ⊢
  omega

end Access

/-! ## A small image -/

theorem setupkvm_low {a : Nat} (low : a < KERNBASE) : setupkvm (PDX a) = none := by
  apply if_neg
  simp only [PDX, PGSIZE, NPTENTRIES, KERNBASE, PHYSTOP, DEVSPACE] at low ⊢
  omega

/-- What `exec` makes of a program of one page: the page, the guard page, the stack. -/
def smallImage : Proc where
  sz := 3 * PGSIZE
  pgdir := Function.update setupkvm 0 (some fun i => if i < 3 then some { page := zeroPage, user := i ≠ 1 } else none)

theorem smallImage_table {pdx : Nat} (other : pdx ≠ 0) : smallImage.pgdir pdx = setupkvm pdx :=
  Function.update_of_ne other _ _

theorem entry_smallImage {a : Nat} (low : a < KERNBASE) : entry smallImage.pgdir a =
    if a / PGSIZE < 3 then some { page := zeroPage, user := a / PGSIZE ≠ 1 } else none := by
  by_cases dir : PDX a = 0
  · have index : PTX a = a / PGSIZE := by
      simp only [PDX, PTX, PGSIZE, NPTENTRIES] at dir ⊢
      omega
    simp [entry, walkpgdir, smallImage, dir, index]
  · have above : ¬a / PGSIZE < 3 := by
      simp only [PDX, PGSIZE, NPTENTRIES] at dir ⊢
      omega
    rw [if_neg above, entry, walkpgdir, smallImage_table dir, setupkvm_low low]
    rfl

theorem image_smallImage : Image smallImage where
  size := by decide
  present a low := by
    have small : a / PGSIZE < 3 := by
      simp only [smallImage, PGROUNDUP, PGSIZE, wordSize] at low ⊢
      omega
    rw [entry_smallImage, if_pos small]
    · rfl
    · simp only [KERNBASE, PGSIZE] at small ⊢
      omega
  absent a above low := by
    rw [entry_smallImage low, if_neg]
    simp only [smallImage, PGROUNDUP, PGSIZE, wordSize] at above ⊢
    omega
  kernel a high := by
    have dir : PDX a ≠ 0 := by
      simp only [PDX, PGSIZE, NPTENTRIES, KERNBASE] at high ⊢
      omega
    rw [usable_iff, entry, walkpgdir, smallImage_table dir, setupkvm]
    split <;> simp

end OsLabs.LazyVm
