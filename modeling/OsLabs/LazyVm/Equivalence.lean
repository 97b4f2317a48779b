import Mathlib.Data.Int.Order.Basic
import Mathlib.Order.Nat
import OsLabs.Lib.Machine
import OsLabs.LazyVm.Kernel

/-! When the two kernels cannot be told apart. Below `sz` an address that the lazy kernel
has not mapped reads as zero under the eager one. What `sbrk` leaves mapped when it
shrinks a process is followed byte by byte: under the eager kernel such a byte is gone, or
zero once `sz` is past it again. -/

set_option autoImplicit false

namespace OsLabs.LazyVm

open OsLabs.Lib

def replies (kernel : Kernel) (p : Proc) (ops : List Op) : List Reply :=
  Machine.observations (fun p op => (exec kernel p op).2) (fun p op => (exec kernel p op).1) p ops

/-- A process under the lazy kernel, with a history of its calls: the size `growproc` would
have left, the end of the pages it would have left, and the addresses past that end that the
lazy kernel has a page for: one an `sbrk` cut off, or one mapped for an argument to be read. -/
structure Tracked where
  proc : Proc
  size : Nat
  top : Nat
  left : Nat → Bool

/-- `growproc` succeeds: it does not reach `KERNBASE` nor come to 0. -/
def Resizes (size : Nat) (n : Int) : Prop :=
  (0 < n → size + n < KERNBASE) ∧ (n < 0 → 0 < size ∧ -n ≠ size)

instance (size : Nat) (n : Int) : Decidable (Resizes size n) := inferInstanceAs (Decidable (_ ∧ _))

namespace Tracked

def start (p : Proc) : Tracked := { proc := p, size := p.sz, top := PGROUNDUP p.sz, left := fun _ => false }

/-- Beyond `top` all that is present is left over. -/
def fetched (t : Tracked) (q : Proc) : Tracked :=
  { t with proc := q, left := fun a => t.left a || decide (t.top ≤ a) && (entry q.pgdir a).isSome }

/-- What `growproc` would have made of the size and of the pages. -/
def resized (t : Tracked) (n : Int32) : Tracked :=
  let size := (t.size + n.toInt).toNat
  if 0 < n.toInt ∧ size < KERNBASE then { t with size, top := PGROUNDUP size }
  else if n.toInt < 0 ∧ -n.toInt ≤ t.size then
    -- at 0 `growproc` frees the pages and fails
    { t with
      size := if size = 0 then t.size else size
      top := PGROUNDUP size
      left := fun a => t.left a || decide (PGROUNDUP size ≤ a) && (entry t.proc.pgdir a).isSome }
  else t

def after (t : Tracked) (q : Proc) : Op → Tracked
  | .sbrk addr n => if Fetches t.size addr then (t.fetched q).resized n else t.fetched q
  | .load _ => { t with proc := q }
  | .store a _ => { t with proc := q, left := Function.update t.left a.toNat false }

def step : Machine Tracked Op := fun t op => (exec onDemand t.proc op).2.map fun q => t.after q op

theorem fetched_fetched (t : Tracked) {q r : Proc}
    (kept : ∀ a, (entry q.pgdir a).isSome → (entry r.pgdir a).isSome) : (t.fetched q).fetched r = t.fetched r := by
  simp only [fetched, mk.injEq, true_and]
  funext a
  have kept := kept a
  rw [Bool.eq_iff_iff]
  simp only [Bool.or_eq_true, Bool.and_eq_true]
  tauto

theorem proc_resized (t : Tracked) (n : Int32) : (t.resized n).proc = t.proc := by
  simp only [resized]
  split
  · rfl
  · split <;> rfl

theorem proc_after (t : Tracked) (q : Proc) (op : Op) : (t.after q op).proc = q := by
  cases op with
  | sbrk addr n =>
    simp only [after]
    split
    · exact proc_resized _ n
    · rfl
  | load a | store a b => rfl

/-- Below `sz` all pages are ones that `growproc` would have left, and none is present
without `PTE_U`; from `sz` to their end the page has been mapped; after that nothing is left
of a page that was cut off. -/
def Reaches (t : Tracked) (a : Nat) : Prop :=
  (a < t.proc.sz → a < t.top ∧ ((entry t.proc.pgdir a).isSome → Usable t.proc.pgdir a)) ∧
  (t.proc.sz ≤ a → a < t.top → (entry t.proc.pgdir a).isSome ∧ (t.left a = true → Usable t.proc.pgdir a)) ∧
  (t.proc.sz ≤ a → t.top ≤ a → ¬Usable t.proc.pgdir a)

/-- `sbrk` finds its argument below both sizes and succeeds from the size that `growproc`
would have left, or fails under both kernels, where -1 may be the lazy one's `sz`; and no
access shows a page that is not mapped as `growproc` would have it, nor a byte that it would
have cleared. -/
def Meets (t : Tracked) : Op → Prop
  | .sbrk addr n =>
    if Fetches t.size addr then
      -- the page of the argument is there
      0 < t.top ∧
        if Fetches t.proc.sz addr then
          t.proc.sz = t.size ∧ Resizes t.size n.toInt ∨ toInt t.proc.sz = -1 ∧ ¬Resizes t.size n.toInt
        else ¬Resizes t.size n.toInt
    else Fetches t.proc.sz addr → toInt t.proc.sz = -1
  | .load a => t.Reaches a.toNat ∧ (t.left a.toNat = true → a.toNat < t.top → byteAt t.proc.pgdir a.toNat = 0)
  | .store a _ => t.Reaches a.toNat

end Tracked

/-! ## Sizes -/

section Sizes

theorem pgroundup_eq {sz : Nat} (size : sz ≤ KERNBASE) : PGROUNDUP sz = (sz + 4095) / 4096 * 4096 := by
  simp only [PGROUNDUP, PGSIZE, KERNBASE, wordSize] at size ⊢
  omega

theorem dvd_pgroundup (sz : Nat) : PGSIZE ∣ PGROUNDUP sz := Nat.dvd_mul_left _ _

theorem within_pgroundup {low high : Nat} (size : low ≤ KERNBASE) (size' : high ≤ KERNBASE) (b : Nat) :
    Within (PGROUNDUP low) high b ↔ PGROUNDUP low ≤ b ∧ b < PGROUNDUP high := by
  rw [pgroundup_eq size, pgroundup_eq size']
  simp only [Within, PGSIZE]
  omega

theorem lt_top_iff {top a b : Nat} (aligned : PGSIZE ∣ top) (page : a / PGSIZE = b / PGSIZE) :
    a < top ↔ b < top := by
  simp only [PGSIZE] at aligned page
  omega

theorem pgroundup_mono {low high : Nat} (size : high ≤ KERNBASE) (less : low ≤ high) :
    PGROUNDUP low ≤ PGROUNDUP high := by
  rw [pgroundup_eq size, pgroundup_eq (less.trans size)]
  omega

theorem pgroundup_le_kernbase {sz : Nat} (size : sz ≤ KERNBASE) : PGROUNDUP sz ≤ KERNBASE := by
  rw [pgroundup_eq size]
  simp only [KERNBASE] at size ⊢
  omega

theorem moved_eq {sz : Nat} {n : Int32} (nonneg : 0 ≤ sz + n.toInt) (low : sz + n.toInt ≤ KERNBASE) :
    moved sz n = (sz + n.toInt).toNat := by
  have word : sz + n.toInt < wordSize := by
    simp only [KERNBASE, wordSize] at low ⊢
    omega
  rw [moved, Int.emod_eq_of_lt nonneg word]

theorem moved_lt (sz : Nat) (n : Int32) : moved sz n < wordSize := by
  simp only [moved, wordSize]
  omega

theorem toInt_inj {sz sz' : Nat} (word : sz < wordSize) (word' : sz' < wordSize) (same : toInt sz = toInt sz') :
    sz = sz' := by
  simp only [toInt, Int.bmod_def, wordSize] at word word' same
  omega

theorem toInt_eq_neg_one_iff {sz : Nat} (word : sz < wordSize) : toInt sz = -1 ↔ sz = wordSize - 1 := by
  simp only [toInt, Int.bmod_def, wordSize] at word ⊢
  omega

end Sizes

/-! ## What a page table shows of an address -/

section Views

variable {pgdir : Pgdir} {a c : Nat} {b : UInt8} {pte : Option Pte}

theorem isSome_of_usable (usable : Usable pgdir a) : (entry pgdir a).isSome := by
  obtain ⟨pte, here, -⟩ := usable_iff.mp usable
  rw [here]
  rfl

theorem usable_setPte_of_ne (other : c / PGSIZE ≠ a / PGSIZE) : Usable (setPte pgdir a pte) c ↔ Usable pgdir c := by
  rw [Usable, entry_setPte, if_neg other]
  rfl

theorem byteAt_setPte_of_ne (other : c / PGSIZE ≠ a / PGSIZE) : byteAt (setPte pgdir a pte) c = byteAt pgdir c := by
  rw [byteAt, entry_setPte, if_neg other]
  rfl

theorem entry_poke : entry (poke pgdir a b) c =
    if c / PGSIZE = a / PGSIZE then
      (entry pgdir c).map fun pte => { pte with page := Function.update pte.page (offset a) b }
    else entry pgdir c := by
  rw [poke, entry_setPte]
  split
  next page => rw [entry_congr pgdir page]
  next => rfl

theorem isSome_poke : (entry (poke pgdir a b) c).isSome = (entry pgdir c).isSome := by
  rw [entry_poke]
  split
  · exact Option.isSome_map
  · rfl

theorem usable_poke : Usable (poke pgdir a b) c ↔ Usable pgdir c := by
  rw [Usable, Usable, entry_poke]
  split
  · rw [Option.any_map]
  · exact Iff.rfl

theorem byteAt_poke (present : (entry pgdir a).isSome) :
    byteAt (poke pgdir a b) c = if c = a then b else byteAt pgdir c := by
  rw [byteAt, byteAt, entry_poke]
  by_cases same : c = a
  · obtain ⟨pte, here⟩ := Option.isSome_iff_exists.mp present
    simp [same, here]
  · rw [if_neg same]
    by_cases page : c / PGSIZE = a / PGSIZE
    · rw [if_pos page]
      cases entry pgdir c with
      | none => rfl
      | some pte => simp [offset_ne page same]
    · rw [if_neg page]

end Views

/-! ## The two kernels side by side -/

/-- How the eager kernel's table stands to the lazy one's at an address below `sz`. -/
structure Agrees (lazy eager : Pgdir) (left : Bool) (a : Nat) : Prop where
  present : (entry eager a).isSome
  cleared : left = true ∨ entry lazy a = none → Usable eager a ∧ byteAt eager a = 0
  same : left = false → (entry lazy a).isSome → (Usable eager a ↔ Usable lazy a) ∧ byteAt eager a = byteAt lazy a

theorem Agrees.congr {lazy eager eager' : Pgdir} {left : Bool} {a : Nat} (agrees : Agrees lazy eager left a)
    (same : entry eager a = entry eager' a) : Agrees lazy eager' left a := by
  obtain ⟨present, cleared, agree⟩ := agrees
  unfold Usable byteAt at cleared agree
  rw [same] at present cleared agree
  exact ⟨present, cleared, agree⟩

theorem entry_map_page (lazy : Pgdir) (a c : Nat) :
    entry (setPte lazy (PGROUNDDOWN a) (some { page := zeroPage, user := true })) c =
      if c / PGSIZE = a / PGSIZE then some { page := zeroPage, user := true } else entry lazy c := by
  rw [entry_setPte, pgrounddown_page]

theorem Agrees.map_page {lazy eager : Pgdir} {left : Bool} {a c : Nat} (agrees : Agrees lazy eager left c)
    (missing : entry lazy a = none) :
    Agrees (setPte lazy (PGROUNDDOWN a) (some { page := zeroPage, user := true })) eager left c := by
  have here := entry_map_page lazy a c
  by_cases page : c / PGSIZE = a / PGSIZE
  · -- the eager kernel has a page of zeros there
    have cleared := agrees.cleared (Or.inr ((entry_congr _ page).trans missing))
    rw [if_pos page] at here
    refine ⟨agrees.present, fun _ => cleared, fun _ _ => ⟨iff_of_true cleared.1 ?_, cleared.2.trans ?_⟩⟩
    · exact usable_iff.mpr ⟨_, here, rfl⟩
    · rw [byteAt_of_entry here]
      rfl
  · have other : c / PGSIZE ≠ PGROUNDDOWN a / PGSIZE := by rwa [pgrounddown_page]
    rw [if_neg page] at here
    refine ⟨agrees.present, fun missing' => agrees.cleared ?_, fun left present => ?_⟩
    · rwa [here] at missing'
    · rw [here] at present
      rw [usable_setPte_of_ne other, byteAt_setPte_of_ne other]
      exact agrees.same left present

theorem Agrees.poke {lazy eager : Pgdir} {left : Nat → Bool} {a c : Nat} (agrees : Agrees lazy eager (left c) c)
    (usable : Usable lazy a) (usable' : Usable eager a) (b : UInt8) :
    Agrees (poke lazy a b) (poke eager a b) (Function.update left a false c) c := by
  have present := isSome_of_usable usable
  have present' := isSome_of_usable usable'
  by_cases same : c = a
  · subst same
    rw [Function.update_self]
    refine ⟨by rwa [isSome_poke], ?_, fun _ _ => ?_⟩
    · rintro (left | missing)
      · cases left
      · rw [← Option.not_isSome_iff_eq_none, isSome_poke] at missing
        exact absurd present missing
    · rw [usable_poke, usable_poke, byteAt_poke present, byteAt_poke present']
      exact ⟨iff_of_true usable' usable, (if_pos rfl).trans (if_pos rfl).symm⟩
  · rw [Function.update_of_ne same]
    refine ⟨by rw [isSome_poke]; exact agrees.present, fun missing => ?_, fun left here => ?_⟩
    · rw [usable_poke, byteAt_poke present', if_neg same]
      refine agrees.cleared (missing.imp_right fun missing => ?_)
      rwa [← Option.not_isSome_iff_eq_none, isSome_poke, Option.not_isSome_iff_eq_none] at missing
    · rw [isSome_poke] at here
      rw [usable_poke, usable_poke, byteAt_poke present, byteAt_poke present', if_neg same, if_neg same]
      exact agrees.same left here

/-- The two tables: below `top` the eager kernel has all pages; what the lazy one has after
it is left from before. -/
structure Matches (top : Nat) (left : Nat → Bool) (lazy eager : Pgdir) : Prop where
  below : ∀ a, a < top → Agrees lazy eager (left a) a
  absent : ∀ a, top ≤ a → a < KERNBASE → entry eager a = none
  stale : ∀ a, top ≤ a → a < KERNBASE → (entry lazy a).isSome → left a = true
  mapped : ∀ a, left a = true → (entry lazy a).isSome
  kernel : ∀ a, KERNBASE ≤ a → ¬Usable eager a

namespace Matches

variable {top top' a : Nat} {left : Nat → Bool} {lazy eager pgdir : Pgdir}

theorem not_usable (tables : Matches top left lazy eager) (above : top ≤ a) : ¬Usable eager a := by
  by_cases small : a < KERNBASE
  · rw [usable_iff, tables.absent a above small]
    simp
  · exact tables.kernel a (Nat.not_lt.mp small)

theorem map_page (tables : Matches top left lazy eager) (aligned : PGSIZE ∣ top) (small : a < top)
    (missing : entry lazy a = none) :
    Matches top left (setPte lazy (PGROUNDDOWN a) (some { page := zeroPage, user := true })) eager where
  below c below := (tables.below c below).map_page missing
  absent := tables.absent
  stale c above small' present := by
    have other : c / PGSIZE ≠ a / PGSIZE := fun page =>
      absurd ((lt_top_iff aligned page).mpr small) (Nat.not_lt.mpr above)
    rw [entry_map_page, if_neg other] at present
    exact tables.stale c above small' present
  mapped c left := by
    rw [entry_map_page]
    split
    · rfl
    · exact tables.mapped c left
  kernel := tables.kernel

theorem mark (tables : Matches top left lazy eager)
    (below : ∀ c, c < top → Agrees pgdir eager (left c) c)
    (kept : ∀ c, (entry lazy c).isSome → (entry pgdir c).isSome) :
    Matches top (fun c => left c || decide (top ≤ c) && (entry pgdir c).isSome) pgdir eager where
  below c small := by simpa [Nat.not_le.mpr small] using below c small
  absent := tables.absent
  stale c above _ present := by simp [above, present]
  mapped c marked := by
    simp only [Bool.or_eq_true, Bool.and_eq_true] at marked
    exact marked.elim (fun left => kept c (tables.mapped c left)) And.right
  kernel := tables.kernel

theorem poke (tables : Matches top left lazy eager) (usable : Usable lazy a) (usable' : Usable eager a) (b : UInt8) :
    Matches top (Function.update left a false) (LazyVm.poke lazy a b) (LazyVm.poke eager a b) where
  below c small := (tables.below c small).poke usable usable' b
  absent c above small := by
    rw [← Option.not_isSome_iff_eq_none, isSome_poke, Option.not_isSome_iff_eq_none]
    exact tables.absent c above small
  stale c above small here := by
    rw [isSome_poke] at here
    have other : c ≠ a := by
      rintro rfl
      exact tables.not_usable above usable'
    rw [Function.update_of_ne other]
    exact tables.stale c above small here
  mapped c left := by
    rw [isSome_poke]
    by_cases same : c = a
    · rw [same]
      exact isSome_of_usable usable
    · rw [Function.update_of_ne same] at left
      exact tables.mapped c left
  kernel c high := by
    rw [usable_poke]
    exact tables.kernel c high

/-- The eager kernel fills pages with zeros where the lazy one has nothing, or something
left from before. -/
theorem fill (tables : Matches top left lazy eager) (more : top ≤ top') (low : top' ≤ KERNBASE)
    (entries : ∀ c, entry pgdir c =
      if top ≤ c ∧ c < top' then some { page := zeroPage, user := true } else entry eager c) :
    Matches top' left lazy pgdir where
  below c small := by
    by_cases old : c < top
    · have same : entry pgdir c = entry eager c := by
        rw [entries, if_neg fun new => absurd new.1 (Nat.not_le.mpr old)]
      exact (tables.below c old).congr same.symm
    · have here := entries c
      rw [if_pos ⟨Nat.not_lt.mp old, small⟩] at here
      have cleared : Usable pgdir c ∧ byteAt pgdir c = 0 :=
        ⟨usable_iff.mpr ⟨_, here, rfl⟩, (byteAt_of_entry here).trans rfl⟩
      refine ⟨by rw [here]; rfl, fun _ => cleared, fun left present => ?_⟩
      have cut := tables.stale c (Nat.not_lt.mp old) (Nat.lt_of_lt_of_le small low) present
      exact Bool.noConfusion (left.symm.trans cut)
  absent c above small := by
    rw [entries, if_neg fun new => absurd new.2 (Nat.not_lt.mpr above)]
    exact tables.absent c (more.trans above) small
  stale c above small present := tables.stale c (more.trans above) small present
  mapped := tables.mapped
  kernel c high := by
    have same : entry pgdir c = entry eager c := by
      rw [entries, if_neg fun new => absurd new.2 (Nat.not_lt.mpr (low.trans high))]
    rw [Usable, same]
    exact tables.kernel c high

/-- What the eager kernel frees is what the lazy one leaves behind. -/
theorem cut (tables : Matches top left lazy eager) (less : top' ≤ top) (low : top ≤ KERNBASE)
    (entries : ∀ c, entry pgdir c = if top' ≤ c ∧ c < top then none else entry eager c) :
    Matches top' (fun c => left c || decide (top' ≤ c) && (entry lazy c).isSome) lazy pgdir where
  below c small := by
    have same : entry pgdir c = entry eager c := by
      rw [entries, if_neg fun gone => absurd gone.1 (Nat.not_le.mpr small)]
    have before := (tables.below c (Nat.lt_of_lt_of_le small less)).congr same.symm
    simpa [Nat.not_le.mpr small] using before
  absent c above small := by
    rw [entries]
    split
    next => rfl
    next kept => exact tables.absent c (Nat.not_lt.mp fun below => kept ⟨above, below⟩) small
  stale c above small present := by simp [above, present]
  mapped c left := by
    simp only [Bool.or_eq_true, Bool.and_eq_true] at left
    rcases left with left | ⟨-, present⟩
    · exact tables.mapped c left
    · exact present
  kernel c high := by
    have same : entry pgdir c = entry eager c := by
      rw [entries, if_neg fun gone => absurd gone.2 (Nat.not_lt.mpr (low.trans high))]
    rw [Usable, same]
    exact tables.kernel c high

end Matches

/-- The history is right about the eager kernel. It has no pages below its size after an
`sbrk` to 0 only, and then it cannot read an argument any more. -/
structure Related (t : Tracked) (e : Proc) : Prop where
  size : t.size = e.sz
  low : e.sz ≤ KERNBASE
  word : t.proc.sz < wordSize
  top : t.top = PGROUNDUP e.sz ∨ t.top = 0
  tables : Matches t.top t.left t.proc.pgdir e.pgdir

theorem related_image {p : Proc} (image : Image p) : Related (.start p) p where
  size := rfl
  low := image.size
  word := image.size.trans_lt (by decide)
  top := Or.inl rfl
  tables :=
    { below := fun a small => by
        have present := image.present a small
        refine ⟨present, ?_, fun _ _ => ⟨Iff.rfl, rfl⟩⟩
        rintro (left | missing)
        · cases left
        · exact absurd missing (Option.isSome_iff_ne_none.mp present)
      absent := image.absent
      stale := fun a above small present => by
        exact absurd (image.absent a above small) (Option.isSome_iff_ne_none.mp present)
      mapped := fun a left => by cases left
      kernel := image.kernel }

namespace Related

variable {t : Tracked} {e : Proc} {a : Nat}

theorem aligned (related : Related t e) : PGSIZE ∣ t.top := by
  rcases related.top with same | none_left
  · rw [same]
    exact dvd_pgroundup e.sz
  · rw [none_left]
    exact Nat.dvd_zero PGSIZE

theorem top_le (related : Related t e) : t.top ≤ PGROUNDUP e.sz := by
  rcases related.top with same | none_left
  · exact same.le
  · omega

theorem fetched (related : Related t e) {q : Proc} (word : q.sz < wordSize)
    (below : ∀ c, c < t.top → Agrees q.pgdir e.pgdir (t.left c) c)
    (kept : ∀ c, (entry t.proc.pgdir c).isSome → (entry q.pgdir c).isSome) : Related (t.fetched q) e :=
  { related with word, tables := related.tables.mark below kept }

theorem unfetched (related : Related t e) : Related (t.fetched t.proc) e :=
  related.fetched related.word related.tables.below fun _ => id

theorem withPage (related : Related t e) (a : Nat) : Related (t.fetched (t.proc.withPage a)) e := by
  refine related.fetched ?_ (fun c small => ?_) fun c present => Proc.isSome_withPage_iff.mpr (Or.inl present)
  · rw [Proc.withPage_sz]
    exact related.word
  · have agrees := related.tables.below c small
    unfold Proc.withPage
    split
    next => exact agrees
    next absent => exact agrees.map_page (Option.not_isSome_iff_eq_none.mp absent)

theorem argument_read (related : Related t e) (a b : Nat) {sz : Nat} (word : sz < wordSize) :
    Related (t.fetched { (t.proc.withPage a).withPage b with sz }) e := by
  have kept : ∀ c, (entry (t.proc.withPage a).pgdir c).isSome →
      (entry ((t.proc.withPage a).withPage b).pgdir c).isSome := fun c present =>
    Proc.isSome_withPage_iff.mpr (Or.inl present)
  have read := (related.withPage a).withPage b
  have again : (t.fetched (t.proc.withPage a)).fetched ((t.proc.withPage a).withPage b) =
      t.fetched ((t.proc.withPage a).withPage b) := Tracked.fetched_fetched t kept
  have read' : Related (t.fetched ((t.proc.withPage a).withPage b)) e := again ▸ read
  exact { read' with word }

/-- An access that shows nothing the eager kernel would not goes the same way under both. -/
theorem access_agrees (related : Related t e) (reaches : t.Reaches a) :
    (access onDemand t.proc a = .ok none ∧ access eager e a = .ok none) ∨
    ∃ q, access onDemand t.proc a = .ok (some q) ∧ access eager e a = .ok (some e) ∧
      Related { t with proc := q } e ∧ a < t.top ∧ Usable e.pgdir a ∧
        (entry t.proc.pgdir a = none ∨ q = t.proc) := by
  obtain ⟨low, middle, high⟩ := reaches
  have tables := related.tables
  by_cases usable : Usable t.proc.pgdir a
  · have below : a < t.top := by
      by_cases small : a < t.proc.sz
      · exact (low small).1
      · by_contra above
        exact high (Nat.not_lt.mp small) (Nat.not_lt.mp above) usable
    have agrees := tables.below a below
    have usable' : Usable e.pgdir a := by
      -- left from before a shrink, or the same page in both tables
      cases left : t.left a with
      | true => exact (agrees.cleared (Or.inl left)).1
      | false => exact (agrees.same left (isSome_of_usable usable)).1.mpr usable
    right
    exact ⟨t.proc, if_pos usable, if_pos usable', related, below, usable', Or.inr rfl⟩
  · have fault : access onDemand t.proc a = onDemand.trap t.proc a := if_neg usable
    rw [fault, trap_onDemand]
    by_cases small : a < t.proc.sz
    · -- the first access to the page
      obtain ⟨below, present⟩ := low small
      have missing : entry t.proc.pgdir a = none := by
        by_contra here
        exact usable (present (Option.isSome_iff_ne_none.mpr here))
      have usable' := ((tables.below a below).cleared (Or.inr missing)).1
      right
      refine ⟨{ t.proc with
        pgdir := setPte t.proc.pgdir (PGROUNDDOWN a) (some { page := zeroPage, user := true }) },
        ?_, if_pos usable', ?_, below, usable', Or.inl missing⟩
      · rw [if_pos small, if_neg (by rw [missing]; nofun)]
      · exact { related with tables := tables.map_page related.aligned below missing }
    · -- killed by both kernels
      left
      refine ⟨if_neg small, if_neg fun usable' => ?_⟩
      by_cases below : a < t.top
      · obtain ⟨present, left⟩ := middle (Nat.not_lt.mp small) below
        cases cut : t.left a with
        | true => exact usable (left cut)
        | false => exact usable (((tables.below a below).same cut present).1.mp usable')
      · exact tables.not_usable (Nat.not_lt.mp below) usable'

end Related

/-! ## The calls -/

section Calls

variable {t : Tracked} {e : Proc} {addr : UInt32} {n : Int32}

theorem growproc_grow (related : Related t e) (more : 0 < n.toInt) (size : e.sz + n.toInt < KERNBASE) :
    ∃ pgdir, growproc e n = .ok ({ sz := (e.sz + n.toInt).toNat, pgdir }, 0) ∧
      ∀ c, entry pgdir c = if PGROUNDUP e.sz ≤ c ∧ c < PGROUNDUP (e.sz + n.toInt).toNat then
        some { page := zeroPage, user := true } else entry e.pgdir c := by
  have same : moved e.sz n = (e.sz + n.toInt).toNat := moved_eq (by omega) size.le
  have new : moved e.sz n < KERNBASE := by omega
  have untouched : ∀ b, PGROUNDUP e.sz ≤ b → b < KERNBASE → entry e.pgdir b = none := fun b above =>
    related.tables.absent b (related.top_le.trans above)
  obtain ⟨pgdir, done, entries⟩ := allocLoop_eq e.pgdir (moved e.sz n) (dvd_pgroundup e.sz)
    (fun b within => by
      rw [within_pgroundup related.low new.le] at within
      exact untouched b within.1 (within.2.trans_le (pgroundup_le_kernbase new.le)))
  refine ⟨pgdir, ?_, fun c => ?_⟩
  · have positive : ¬(e.sz + n.toInt).toNat = 0 := by omega
    rw [growproc, if_pos more, allocuvm, if_neg (Nat.not_le.mpr new), if_neg (by omega), done]
    simp only [Except.map, same, if_neg positive]
  · rw [entries, ← same]
    exact if_congr (within_pgroundup related.low new.le c) rfl rfl

theorem growproc_shrink (low : e.sz ≤ KERNBASE) (less : n.toInt < 0) (size : -n.toInt ≤ e.sz) :
    ∃ pgdir, (growproc e n = if -n.toInt = e.sz then .ok ({ e with pgdir }, -1)
        else .ok ({ sz := (e.sz + n.toInt).toNat, pgdir }, 0)) ∧
      ∀ c, entry pgdir c = if PGROUNDUP (e.sz + n.toInt).toNat ≤ c ∧ c < PGROUNDUP e.sz then none
        else entry e.pgdir c := by
  have same : moved e.sz n = (e.sz + n.toInt).toNat := moved_eq (by omega) (by omega)
  have below : moved e.sz n ≤ e.sz := by omega
  refine ⟨deallocLoop e.pgdir (PGROUNDUP (moved e.sz n)) e.sz, ?_, fun c => ?_⟩
  · rw [growproc, if_neg (by omega), if_pos less, deallocuvm, if_neg (by omega)]
    by_cases whole : -n.toInt = e.sz
    · have empty : moved e.sz n = 0 := by omega
      simp only [if_pos whole, if_pos empty]
    · have positive : ¬(e.sz + n.toInt).toNat = 0 := by omega
      simp only [if_neg whole, same, if_neg positive]
  · rw [entry_deallocLoop _ (dvd_pgroundup _), same]
    exact if_congr (within_pgroundup (by omega) low c) rfl rfl

/-- `growproc` of less than nothing wraps to a size that is no smaller, and changes nothing. -/
theorem growproc_past (low : e.sz ≤ KERNBASE) (beyond : (e.sz : Int) < -n.toInt) :
    growproc e n = .ok (e, if e.sz = 0 then -1 else 0) := by
  have word : -2 ^ 31 ≤ n.toInt := n.le_toInt
  have wrapped : e.sz ≤ moved e.sz n := by
    simp only [moved, wordSize, KERNBASE] at low ⊢
    omega
  rw [growproc, if_neg (by omega), if_pos (by omega), deallocuvm, if_pos wrapped]
  by_cases empty : e.sz = 0
  · simp only [if_pos empty]
  · simp only [if_neg empty]

theorem growproc_large (low : e.sz ≤ KERNBASE) (more : 0 < n.toInt) (large : KERNBASE ≤ e.sz + n.toInt) :
    growproc e n = .ok (e, -1) := by
  have word : n.toInt < 2 ^ 31 := n.toInt_lt
  have above : KERNBASE ≤ moved e.sz n := by
    simp only [moved, wordSize, KERNBASE] at low large ⊢
    omega
  rw [growproc, if_pos more, allocuvm, if_pos above]
  rfl

namespace Related

theorem resized_grow (related : Related t e) (whole : t.top = PGROUNDUP e.sz) (more : 0 < n.toInt)
    (small : e.sz + n.toInt < KERNBASE) : ∃ q, growproc e n = .ok (q, 0) ∧ Related (t.resized n) q := by
  obtain ⟨pgdir, grown, entries⟩ := growproc_grow related more small
  refine ⟨_, grown, ?_⟩
  have new : (e.sz + n.toInt).toNat ≤ KERNBASE := by omega
  have tables := related.tables
  rw [whole] at tables
  have filled := tables.fill (pgroundup_mono new (by omega)) (pgroundup_le_kernbase new) entries
  have size := related.size
  have branch : 0 < n.toInt ∧ (t.size + n.toInt).toNat < KERNBASE := ⟨more, by omega⟩
  rw [Tracked.resized, if_pos branch, size]
  exact ⟨rfl, new, related.word, Or.inl rfl, filled⟩

theorem cut (related : Related t e) (whole : t.top = PGROUNDUP e.sz) (less : n.toInt < 0) {pgdir : Pgdir}
    (entries : ∀ c, entry pgdir c =
      if PGROUNDUP (e.sz + n.toInt).toNat ≤ c ∧ c < PGROUNDUP e.sz then none else entry e.pgdir c) :
    Matches (PGROUNDUP (e.sz + n.toInt).toNat)
      (fun a => t.left a || decide (PGROUNDUP (e.sz + n.toInt).toNat ≤ a) && (entry t.proc.pgdir a).isSome)
      t.proc.pgdir pgdir := by
  have tables := related.tables
  rw [whole] at tables
  exact tables.cut (pgroundup_mono related.low (by omega)) (pgroundup_le_kernbase related.low) entries

theorem resized_shrink (related : Related t e) (whole : t.top = PGROUNDUP e.sz) (less : n.toInt < 0)
    (part : -n.toInt ≤ e.sz) :
    ∃ q, growproc e n = .ok (q, if -n.toInt = e.sz then -1 else 0) ∧ Related (t.resized n) q := by
  obtain ⟨pgdir, grown, entries⟩ := growproc_shrink related.low less part
  have size := related.size
  have low := related.low
  have branch : n.toInt < 0 ∧ -n.toInt ≤ t.size := ⟨less, by omega⟩
  have tables := related.cut whole less entries
  by_cases all : -n.toInt = e.sz
  · rw [if_pos all] at grown ⊢
    refine ⟨_, grown, ?_⟩
    have empty : (e.sz + n.toInt).toNat = 0 := by omega
    rw [empty] at tables
    rw [Tracked.resized, if_neg (by omega), if_pos branch, size, empty]
    exact ⟨rfl, low, related.word, Or.inr rfl, tables⟩
  · rw [if_neg all] at grown ⊢
    refine ⟨_, grown, ?_⟩
    have positive : ¬(e.sz + n.toInt).toNat = 0 := by omega
    rw [Tracked.resized, if_neg (by omega), if_pos branch, size, if_neg positive]
    exact ⟨rfl, show (e.sz + n.toInt).toNat ≤ KERNBASE by omega, related.word, Or.inl rfl, tables⟩

theorem resized_unmoved (related : Related t e) (large : 0 < n.toInt → KERNBASE ≤ e.sz + n.toInt)
    (beyond : n.toInt < 0 → (e.sz : Int) < -n.toInt) : Related (t.resized n) e := by
  have size := related.size
  rw [Tracked.resized, if_neg (by omega), if_neg (by omega)]
  exact related

end Related

theorem resize_eager {q : Proc} {value : Int} (grown : growproc e n = .ok (q, value))
    (code : value = if Resizes e.sz n.toInt then 0 else -1) :
    eager.resize e n = .ok (q, if Resizes e.sz n.toInt then toInt e.sz else -1) := by
  subst code
  simp only [eager, grown]
  by_cases fits : Resizes e.sz n.toInt
  · simp [fits]
  · simp [fits]

theorem Related.resize (related : Related t e) (whole : t.top = PGROUNDUP e.sz) (n : Int32) :
    ∃ q, eager.resize e n = .ok (q, if Resizes e.sz n.toInt then toInt e.sz else -1) ∧ Related (t.resized n) q := by
  have low := related.low
  rcases lt_trichotomy 0 n.toInt with more | same | less
  · by_cases small : e.sz + n.toInt < KERNBASE
    · obtain ⟨q, grown, follows⟩ := related.resized_grow whole more small
      have fits : Resizes e.sz n.toInt := ⟨fun _ => small, fun less => by omega⟩
      exact ⟨q, resize_eager grown (if_pos fits).symm, follows⟩
    · have fails : ¬Resizes e.sz n.toInt := fun fits => small (fits.1 more)
      have grown := growproc_large low more (Int.not_lt.mp small)
      exact ⟨e, resize_eager grown (if_neg fails).symm,
        related.resized_unmoved (fun _ => by omega) fun less => by omega⟩
  · have fits : Resizes e.sz n.toInt := ⟨fun _ => by omega, fun _ => by omega⟩
    have grown : growproc e n = .ok (e, 0) := by
      rw [growproc, if_neg (by omega), if_neg (by omega)]
    exact ⟨e, resize_eager grown (if_pos fits).symm,
      related.resized_unmoved (fun _ => by omega) fun less => by omega⟩
  · by_cases part : -n.toInt ≤ e.sz
    · obtain ⟨q, grown, follows⟩ := related.resized_shrink whole less part
      refine ⟨q, resize_eager grown ?_, follows⟩
      by_cases all : -n.toInt = e.sz
      · rw [if_pos all, if_neg fun fits => (fits.2 less).2 all]
      · rw [if_neg all, if_pos ⟨fun _ => by omega, fun _ => ⟨by omega, all⟩⟩]
    · have beyond : (e.sz : Int) < -n.toInt := Int.not_le.mp part
      have code : (if e.sz = 0 then -1 else 0 : Int) = if Resizes e.sz n.toInt then 0 else -1 := by
        by_cases empty : e.sz = 0
        · rw [if_pos empty, if_neg fun fits => absurd (fits.2 less).1 (by omega)]
        · rw [if_neg empty, if_pos ⟨fun _ => by omega, fun _ => ⟨by omega, beyond.ne'⟩⟩]
      exact ⟨e, resize_eager (growproc_past low beyond) code,
        related.resized_unmoved (fun _ => by omega) fun _ => beyond⟩

theorem Related.fetchint_eager (related : Related t e) (fetches : Fetches e.sz addr) : fetchint eager e addr =
    if t.top = 0 then .error .trap else .ok (some e) := by
  obtain ⟨first, last⟩ := fetches
  have low := related.low
  rw [fetchint, if_pos ⟨first, last⟩]
  by_cases gone : t.top = 0
  · have missing : entry e.pgdir addr.toNat = none :=
      related.tables.absent _ (by omega) (first.trans_le low)
    simp [touch, missing, gone, eager]
  · have top : t.top = PGROUNDUP e.sz := related.top.resolve_right gone
    rw [pgroundup_eq low] at top
    have next : (addr + 3).toNat < e.sz := by
      simp only [UInt32.toNat_add, UInt32.reduceToNat, KERNBASE] at last low ⊢
      omega
    have present : ∀ a, a < e.sz → (entry e.pgdir a).isSome := fun a small =>
      (related.tables.below a (by omega)).present
    simp only [touch, if_pos (present _ first), if_pos (present _ next), if_neg gone]
    rfl

theorem Related.exec_eager_sbrk (related : Related t e) (addr : UInt32) (n : Int32) :
    (¬Fetches e.sz addr ∧ exec eager e (.sbrk addr n) = (.returned (-1), some e)) ∨
    (Fetches e.sz addr ∧ t.top = 0 ∧ exec eager e (.sbrk addr n) = (.panicked .trap, none)) ∨
    (Fetches e.sz addr ∧ 0 < t.top ∧ ∃ q, Related (t.resized n) q ∧
      exec eager e (.sbrk addr n) = (.returned (if Resizes e.sz n.toInt then toInt e.sz else -1), some q)) := by
  by_cases fetches : Fetches e.sz addr
  · have reads := related.fetchint_eager fetches
    by_cases gone : t.top = 0
    · rw [if_pos gone] at reads
      exact Or.inr (Or.inl ⟨fetches, gone, by simp only [exec, sys_sbrk, reads]⟩)
    · rw [if_neg gone] at reads
      obtain ⟨q, returns, follows⟩ := related.resize (related.top.resolve_right gone) n
      refine Or.inr (Or.inr ⟨fetches, Nat.pos_of_ne_zero gone, q, follows, ?_⟩)
      simp only [exec, sys_sbrk, reads, returns]
  · refine Or.inl ⟨fetches, ?_⟩
    simp only [exec, sys_sbrk, fetchint, if_neg fetches]

theorem Related.exec_lazy_sbrk (related : Related t e) (addr : UInt32) (n : Int32) :
    ∃ q, Related (t.fetched q) e ∧ exec onDemand t.proc (.sbrk addr n) =
      (.returned (if Fetches t.proc.sz addr then toInt t.proc.sz else -1), some q) := by
  rw [exec_sbrk_onDemand]
  by_cases fetches : Fetches t.proc.sz addr
  · simp only [if_pos fetches]
    exact ⟨_, related.argument_read _ _ (moved_lt _ _), rfl⟩
  · simp only [if_neg fetches]
    exact ⟨_, related.unfetched, rfl⟩

/-- The condition on an `sbrk` is that both return the same. -/
theorem Related.meets_sbrk_iff (related : Related t e) : t.Meets (.sbrk addr n) ↔
    (exec onDemand t.proc (.sbrk addr n)).1 = (exec eager e (.sbrk addr n)).1 := by
  obtain ⟨q, -, lazy⟩ := related.exec_lazy_sbrk addr n
  have size := related.size
  have word : t.size < wordSize := by
    rw [size]
    exact related.low.trans_lt (by decide)
  have positive : toInt t.size ≠ -1 := by
    rw [ne_eq, toInt_eq_neg_one_iff word, size]
    have low := related.low
    simp only [KERNBASE, wordSize] at low ⊢
    omega
  rw [lazy, Tracked.Meets, size]
  rcases related.exec_eager_sbrk addr n with ⟨none_read, done⟩ | ⟨reads, gone, done⟩ | ⟨reads, there, q', -, done⟩
  · rw [done, if_neg none_read]
    split <;> simp_all
  · rw [done, if_pos reads, gone]
    simp
  · rw [done, if_pos reads, and_iff_right there, ← size]
    by_cases fetches : Fetches t.proc.sz addr
    · by_cases fits : Resizes t.size n.toInt
      · simp only [if_pos fetches, if_pos fits, Reply.returned.injEq]
        refine ⟨?_, fun same => Or.inl ⟨toInt_inj related.word word same, fits⟩⟩
        rintro (⟨same, -⟩ | ⟨-, fails⟩)
        · rw [same]
        · exact absurd fits fails
      · simp [if_pos fetches, fits]
    · by_cases fits : Resizes t.size n.toInt
      · simp [if_neg fetches, fits, positive.symm]
      · simp [if_neg fetches, fits]

theorem sbrk_agrees (related : Related t e) (met : t.Meets (.sbrk addr n)) :
    (exec onDemand t.proc (.sbrk addr n)).1 = (exec eager e (.sbrk addr n)).1 ∧
      Option.Rel Related (t.step (.sbrk addr n)) (exec eager e (.sbrk addr n)).2 := by
  have same := related.meets_sbrk_iff.mp met
  refine ⟨same, ?_⟩
  obtain ⟨q, related', lazy⟩ := related.exec_lazy_sbrk addr n
  have size : t.size = e.sz := related.size
  rw [lazy] at same
  rw [Tracked.step, lazy]
  rcases related'.exec_eager_sbrk addr n with ⟨none_read, done⟩ | ⟨-, -, done⟩ | ⟨reads, -, q', follows, done⟩
  · rw [done]
    have after : t.after q (.sbrk addr n) = t.fetched q := if_neg (by rwa [size])
    rw [← after] at related'
    exact .some related'
  · rw [done] at same
    cases same
  · rw [done]
    have after : t.after q (.sbrk addr n) = (t.fetched q).resized n := if_pos (by rwa [size])
    rw [← after] at follows
    exact .some follows

theorem load_agrees {a : UInt32} (related : Related t e) (met : t.Meets (.load a)) :
    (exec onDemand t.proc (.load a)).1 = (exec eager e (.load a)).1 ∧
      Option.Rel Related (t.step (.load a)) (exec eager e (.load a)).2 := by
  obtain ⟨reaches, cleared⟩ := met
  rcases related.access_agrees reaches with ⟨lazy, eager⟩ | ⟨q, lazy, eager, related', below, usable, same⟩
  · simp only [Tracked.step, exec, lazy, eager]
    exact ⟨trivial, .none⟩
  · simp only [Tracked.step, exec, lazy, eager]
    refine ⟨?_, .some related'⟩
    have agrees := related'.tables.below a.toNat below
    have present := isSome_of_usable (usable_of_access lazy)
    congr 1
    -- a byte the eager kernel has cleared must be 0 under the lazy one
    cases left : t.left a.toNat with
    | true =>
      have mapped := related.tables.mapped a.toNat left
      rcases same with missing | rfl
      · rw [missing] at mapped
        cases mapped
      · rw [(agrees.cleared (Or.inl left)).2, cleared left below]
    | false => exact (agrees.same left present).2.symm

theorem store_agrees {a : UInt32} {b : UInt8} (related : Related t e) (met : t.Meets (.store a b)) :
    (exec onDemand t.proc (.store a b)).1 = (exec eager e (.store a b)).1 ∧
      Option.Rel Related (t.step (.store a b)) (exec eager e (.store a b)).2 := by
  rcases related.access_agrees met with ⟨lazy, eager⟩ | ⟨q, lazy, eager, related', below, usable, same⟩
  · simp only [Tracked.step, exec, lazy, eager]
    exact ⟨trivial, .none⟩
  · simp only [Tracked.step, exec, lazy, eager]
    exact ⟨trivial, .some { related' with tables := related'.tables.poke (usable_of_access lazy) usable b }⟩

/-! ## What the replies show -/

inductive Outcome where
  | through
  | killed
  | panicked (panic : Panic)

def outcome : Except Panic (Option Proc) → Outcome
  | .ok (some _) => .through
  | .ok none => .killed
  | .error panic => .panicked panic

theorem outcome_eq_of_load {kernel other : Kernel} {p q : Proc} {a : UInt32}
    (same : (exec kernel p (.load a)).1 = (exec other q (.load a)).1) :
    outcome (access kernel p a.toNat) = outcome (access other q a.toNat) := by
  simp only [exec] at same
  generalize access kernel p a.toNat = first at same ⊢
  generalize access other q a.toNat = second at same ⊢
  rcases first with panic | _ | p' <;> rcases second with panic' | _ | q' <;> simp [outcome] at same ⊢
  exact same

theorem outcome_eq_of_store {kernel other : Kernel} {p q : Proc} {a : UInt32} {b : UInt8}
    (same : (exec kernel p (.store a b)).1 = (exec other q (.store a b)).1) :
    outcome (access kernel p a.toNat) = outcome (access other q a.toNat) := by
  simp only [exec] at same
  generalize access kernel p a.toNat = first at same ⊢
  generalize access other q a.toNat = second at same ⊢
  rcases first with panic | _ | p' <;> rcases second with panic' | _ | q' <;> simp [outcome] at same ⊢
  exact same

theorem reaches_of_same {a : Nat} (related : Related t e)
    (same : outcome (access onDemand t.proc a) = outcome (access eager e a)) : t.Reaches a := by
  have tables := related.tables
  have fault : ¬Usable t.proc.pgdir a → access onDemand t.proc a = onDemand.trap t.proc a := fun usable => if_neg usable
  -- what the lazy kernel kills the eager one kills
  have kills : ¬Usable t.proc.pgdir a → t.proc.sz ≤ a → ¬Usable e.pgdir a := by
    intro usable above usable'
    rw [fault usable, trap_onDemand, if_neg (Nat.not_lt.mpr above), access, if_pos usable'] at same
    cases same
  have killed : t.top ≤ a → access eager e a = .ok none := fun above => if_neg (tables.not_usable above)
  refine ⟨fun small => ⟨?_, fun present => ?_⟩, fun above below => ?_, fun above beyond usable => ?_⟩
  · by_contra beyond
    rw [killed (Nat.not_lt.mp beyond)] at same
    by_cases usable : Usable t.proc.pgdir a
    · rw [access, if_pos usable] at same
      cases same
    · rw [fault usable, trap_onDemand, if_pos small] at same
      split at same <;> cases same
  · by_contra usable
    rw [fault usable, trap_onDemand, if_pos small, if_pos present] at same
    simp only [access, eager] at same
    split at same <;> cases same
  · have agrees := tables.below a below
    by_cases usable : Usable t.proc.pgdir a
    · exact ⟨isSome_of_usable usable, fun _ => usable⟩
    · have locked := kills usable above
      refine ⟨?_, fun left => absurd (agrees.cleared (Or.inl left)).1 locked⟩
      by_contra missing
      exact locked (agrees.cleared (Or.inr (Option.not_isSome_iff_eq_none.mp missing))).1
  · rw [killed beyond, access, if_pos usable] at same
    cases same

theorem meets_of_same {op : Op} (related : Related t e)
    (same : (exec onDemand t.proc op).1 = (exec eager e op).1) : t.Meets op := by
  cases op with
  | sbrk addr n => exact related.meets_sbrk_iff.mpr same
  | load a =>
    have reaches := reaches_of_same related (outcome_eq_of_load same)
    refine ⟨reaches, fun left below => ?_⟩
    have mapped := related.tables.mapped a.toNat left
    have cleared := (related.tables.below a.toNat below).cleared (Or.inl left)
    have usable : Usable t.proc.pgdir a.toNat := by
      by_cases small : a.toNat < t.proc.sz
      · exact (reaches.1 small).2 mapped
      · exact (reaches.2.1 (Nat.not_lt.mp small) below).2 left
    simp only [exec, access, if_pos usable, if_pos cleared.1, Reply.loaded.injEq] at same
    rw [same, cleared.2]
  | store a b => exact reaches_of_same related (outcome_eq_of_store same)

end Calls

theorem replies_tracked (t : Tracked) (ops : List Op) : replies onDemand t.proc ops =
    Machine.observations Tracked.step (fun t op => (exec onDemand t.proc op).1) t ops := by
  refine Machine.observations_congr (C := fun _ _ => True) (R := fun p t => t.proc = p) ?_ rfl
    (Machine.everyStep_of_forall fun _ _ => trivial)
  rintro p t op rfl -
  refine ⟨rfl, ?_⟩
  unfold Tracked.step
  cases (exec onDemand t.proc op).2 with
  | none => exact .none
  | some q => exact .some (t.proc_after q op)

/-- From the same image the two kernels give the same replies if every step meets the
condition, and only then. -/
theorem replies_eq_iff {p : Proc} (image : Image p) (ops : List Op) :
    replies onDemand p ops = replies eager p ops ↔
      Machine.EveryStep Tracked.step Tracked.Meets (.start p) ops := by
  have agree : ∀ t e op, Related t e → t.Meets op →
      (exec onDemand t.proc op).1 = (exec eager e op).1 ∧ Option.Rel Related (t.step op) (exec eager e op).2 := by
    intro t e op related met
    cases op with
    | sbrk addr n => exact sbrk_agrees related met
    | load a => exact load_agrees related met
    | store a b => exact store_agrees related met
  have tracked : replies onDemand p ops = _ := replies_tracked (.start p) ops
  rw [tracked]
  constructor
  · exact Machine.everyStep_of_observations_eq agree (fun t e op => meets_of_same) (related_image image)
  · exact Machine.observations_congr agree (related_image image)

def touchAndShrink : List Op :=
  [.sbrk 12000 8192, .store 16384 7, .load 16384, .sbrk 12000 (-4096), .load 12288, .store 8192 3,
    .sbrk 20000 4096, .load 20480]

instance (t : Tracked) (op : Op) : Decidable (t.Meets op) :=
  match op with
  | .sbrk _ _ | .load _ | .store _ _ => by unfold Tracked.Meets Tracked.Reaches; infer_instance

theorem replies_eq_touch_and_shrink :
    replies onDemand smallImage touchAndShrink = replies eager smallImage touchAndShrink := by
  have met : Machine.checkRun Tracked.step (fun t op => decide (t.Meets op))
      (.start smallImage) touchAndShrink = true := by decide +kernel
  exact (replies_eq_iff image_smallImage touchAndShrink).mpr
    (Machine.everyStep_of_checkRun (fun t op checked => of_decide_eq_true checked) met)

/-- The lazy kernel lets a process grow past `KERNBASE`. -/
theorem replies_ne_growth : ¬∀ p, Image p → ∀ ops, replies onDemand p ops = replies eager p ops := by
  intro same
  have wrong := same smallImage image_smallImage [.sbrk 12000 0x7fffffff]
  revert wrong
  decide +kernel

end OsLabs.LazyVm
