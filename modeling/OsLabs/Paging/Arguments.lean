import OsLabs.Paging.Lookup

/-! `sys_get_va_to_pa` fetches its two pointers as numbers, so the kernel stores through
them wherever they point. -/

set_option autoImplicit false

namespace OsLabs.Paging

section Call

variable (load : Word → Word) (sz esp : Word)

/-- `none` is -1. -/
def fetchint (addr : Word) : Option Word :=
  if sz ≤ addr ∨ sz < addr + 4 then none else some (load addr)

def argint (n : Word) : Option Word := fetchint load sz (esp + 4 + 4 * n)

def args : Option (Word × Word × Word) := do
  let va ← argint load sz esp 0
  let pa ← argint load sz esp 1
  let flag ← argint load sz esp 2
  pure (va, pa, flag)

def sysGetVaToPa (store : Store) (m : Kmem) (pgdir : Frame) : Answer :=
  match args load sz esp with
  | none => { mem := m, ret := some (-1), stores := [] }
  | some (va, pa, flag) => getVaToPa store m pgdir va pa flag

end Call

def InWord (a b : Word) : Prop := (b - a).toNat < 4

/-- The call fails and stores nothing, or it stores at its two pointers only and all their
bytes are the caller's. -/
def Confined (sz : Word) (args : Option (Word × Word × Word)) (r : Answer) : Prop :=
  (r.ret = some (-1) ∧ r.stores = []) ∨
    ∃ va pa flag, args = some (va, pa, flag) ∧ (∀ s ∈ r.stores, s.1 = pa ∨ s.1 = flag) ∧
      ∀ b, InWord pa b ∨ InWord flag b → b.toNat < sz.toNat

section Confinement

variable {load : Word → Word} {sz esp : Word} {store : Store} {m : Kmem} {pgdir : Frame}

theorem word_inside_iff {a : Word} : (∀ b, InWord a b → b.toNat < sz.toNat) ↔ a.toNat + 4 ≤ sz.toNat := by
  unfold InWord
  constructor
  · intro inside
    by_contra high
    by_cases wraps : a.toNat + 3 < 4294967296
    · have last := inside (a + 3) (by bv_omega)
      revert last
      bv_omega
    · -- the word goes through the last byte of the address space
      have top := inside (-1) (by bv_omega)
      revert top
      bv_omega
  · intro inside b covered
    bv_omega

theorem getVaToPa_stores (store : Store) (m : Kmem) (pgdir : Frame) (va pa flag : Word) :
    (∀ s ∈ (getVaToPa store m pgdir va pa flag).stores, s.1 = pa ∨ s.1 = flag) ∧
    (getVaToPa store m pgdir va pa flag).ret ≠ some (-1) := by
  rw [getVaToPa]
  split
  · simp
  · split
    · dsimp only
      split
      · simp
      · split <;> simp
    · simp

/-- The call keeps to the caller's memory exactly when it cannot fetch its arguments or both
pointers point to words of the caller's. -/
theorem confined_iff : Confined sz (args load sz esp) (sysGetVaToPa load sz esp store m pgdir) ↔
    ∀ va pa flag, args load sz esp = some (va, pa, flag) → pa.toNat + 4 ≤ sz.toNat ∧ flag.toNat + 4 ≤ sz.toNat := by
  rw [sysGetVaToPa]
  cases fetched : args load sz esp with
  | none => exact iff_of_true (Or.inl ⟨rfl, rfl⟩) nofun
  | some triple =>
    obtain ⟨va, pa, flag⟩ := triple
    obtain ⟨pointers, succeeds⟩ := getVaToPa_stores store m pgdir va pa flag
    constructor
    · rintro (⟨failed, -⟩ | ⟨_, _, _, same, -, inside⟩) va' pa' flag' same'
      · exact absurd failed succeeds
      · cases same
        cases same'
        exact ⟨word_inside_iff.mp fun b here => inside b (Or.inl here), word_inside_iff.mp fun b here => inside b (Or.inr here)⟩
    · intro both
      obtain ⟨first, second⟩ := both va pa flag rfl
      refine Or.inr ⟨va, pa, flag, rfl, pointers, ?_⟩
      rintro b (here | here)
      · exact word_inside_iff.mpr first b here
      · exact word_inside_iff.mpr second b here

theorem getVaToPa_unmapped {va : Word} (pa flag : Word)
    (unmapped : ∀ m' wpg, m.walkpgdir pgdir va.toNat false = (m', some wpg) → ¬Present (m'.read wpg)) :
    (getVaToPa store m pgdir va pa flag).stores = [] := by
  rw [getVaToPa]
  split
  next => rfl
  next m' wpg walked => rw [if_neg (unmapped m' wpg walked)]

theorem getVaToPa_mapped (lands : ∀ m a w, (store m a w).isSome) {va : Word} (pa flag : Word) {m' : Kmem}
    {wpg : Frame × Nat} (walked : m.walkpgdir pgdir va.toNat false = (m', some wpg)) (present : Present (m'.read wpg)) :
    (getVaToPa store m pgdir va pa flag).stores.map Prod.fst = [pa, flag] := by
  obtain ⟨m₁, first⟩ := Option.isSome_iff_exists.mp (lands m' pa (PTE_ADDR (m'.read wpg) ||| (va &&& 0xFFF)))
  obtain ⟨m₂, second⟩ := Option.isSome_iff_exists.mp (lands m₁ flag (PTE_FLAGS (m₁.read wpg)))
  simp only [getVaToPa, walked, if_pos present, first, second, List.map_cons, List.map_nil]

/-- As for the stores alone, a bad pointer does no harm while the address is not mapped. -/
theorem stores_inside_iff (lands : ∀ m a w, (store m a w).isSome) :
    (∀ a ∈ (sysGetVaToPa load sz esp store m pgdir).stores.map Prod.fst, ∀ b, InWord a b → b.toNat < sz.toNat) ↔
      ∀ va pa flag m' wpg, args load sz esp = some (va, pa, flag) →
        m.walkpgdir pgdir va.toNat false = (m', some wpg) → Present (m'.read wpg) →
        pa.toNat + 4 ≤ sz.toNat ∧ flag.toNat + 4 ≤ sz.toNat := by
  simp only [word_inside_iff, sysGetVaToPa]
  cases fetched : args load sz esp with
  | none => simp
  | some triple =>
    obtain ⟨va, pa, flag⟩ := triple
    constructor
    · rintro inside va pa flag m' wpg ⟨⟩ walked present
      dsimp only at inside
      rw [getVaToPa_mapped lands pa flag walked present] at inside
      simpa using inside
    · intro both a member
      dsimp only at member
      by_cases mapped : ∃ m' wpg, m.walkpgdir pgdir va.toNat false = (m', some wpg) ∧ Present (m'.read wpg)
      · obtain ⟨m', wpg, walked, present⟩ := mapped
        rw [getVaToPa_mapped lands pa flag walked present] at member
        have inside := both va pa flag m' wpg rfl walked present
        simp only [List.mem_cons, List.not_mem_nil, or_false] at member
        rcases member with rfl | rfl
        · exact inside.1
        · exact inside.2
      · rw [getVaToPa_unmapped pa flag fun m' wpg walked present => mapped ⟨m', wpg, walked, present⟩] at member
        cases member

end Confinement

def kernelPointers : Word → Word := fun a => if a = 12004 then 0 else a - 12008 + 0x80100000

/-- Two words of the kernel are overwritten, and the call succeeds. -/
theorem not_confined_kernel : (sysGetVaToPa kernelPointers 12288 12000 elsewhere onePage 0x200).ret = some 1 ∧
    (sysGetVaToPa kernelPointers 12288 12000 elsewhere onePage 0x200).stores = [(0x80100000, 0x300000), (0x80100004, 7)] ∧
    ¬Confined 12288 (args kernelPointers 12288 12000) (sysGetVaToPa kernelPointers 12288 12000 elsewhere onePage 0x200) := by
  refine ⟨by decide +kernel, by decide +kernel, ?_⟩
  have fetched : args kernelPointers 12288 12000 = some (0, 0x80100000, 0x80100004) := by decide +kernel
  have returned : (sysGetVaToPa kernelPointers 12288 12000 elsewhere onePage 0x200).ret = some 1 := by decide +kernel
  rintro (⟨failed, -⟩ | ⟨va, pa, flag, same, -, inside⟩)
  · rw [returned] at failed
    cases failed
  · rw [fetched] at same
    cases same
    have first := word_inside_iff.mp fun b here => inside b (Or.inl here)
    revert first
    decide

end OsLabs.Paging
