import OsLabs.Emufs.Mounting

/-! What disk.c has open. `opendevice` gives up after the descriptor is there, on a superblock
it does not accept and on a full table of mount points, and closes nothing then. Where it
gets no descriptor it may still return a mount point, one that stays free. -/

set_option autoImplicit false

namespace OsLabs.Emufs

open OsLabs.Lib
open Superblock

/-! ## What is open and who answers for it -/

namespace Host

def opened (h : Host) : Set Int := {fd | (h.descriptors fd).isSome}

theorem mem_opened {h : Host} {fd : Int} : fd ∈ h.opened ↔ (h.descriptors fd).isSome := Iff.rfl

/-- `add_new_mount_point` takes the other entries for free. -/
def InUse (h : Host) (m : Fin 10) : Prop := 0 < (h.mounts m).deviceFd

instance (h : Host) (m : Fin 10) : Decidable (h.InUse m) := inferInstanceAs (Decidable (_ < _))

/-- Every open descriptor is the `device_fd` of one entry in use, and of no second one. -/
structure Accounted (h : Host) : Prop where
  exact_ : ∀ fd, fd ∈ h.opened ↔ ∃ m, h.InUse m ∧ (h.mounts m).deviceFd = fd
  distinct : ∀ m m', h.InUse m → h.InUse m' → (h.mounts m).deviceFd = (h.mounts m').deviceFd → m = m'

structure Unchanged (h h' : Host) : Prop where
  mounts : h'.mounts = h.mounts
  opened : h'.opened = h.opened
  files : h'.files = h.files

end Host

inductive Access where
  | opendevice (env : DiskEnv) (deviceName : Option CString) (size : Int)
  | closedevice (m : Fin 10)

structure Desk where
  host : Host
  returned : Multiset (Fin 10)

namespace Desk

/-- One call with the mount point it returns; `closedevice` returns none. -/
def exec (s : Desk) : Access → Option (Desk × Option (Fin 10))
  | .opendevice env deviceName size =>
    (s.host.opendevice env deviceName size).map fun (host, m) =>
      ({ host, returned := m.elim s.returned (· ::ₘ s.returned) }, m)
  | .closedevice m => some ({ host := (s.host.closedevice (some m)).1, returned := s.returned.erase m }, none)

def step : Machine Desk Access := fun s e => (s.exec e).map Prod.fst

def start (files : CString → Option Image) : Desk where
  host :=
    { files
      descriptors := fun _ => none
      mounts := fun _ => { deviceFd := 0, deviceName := CString.empty, fsNumber := 0 } }
  returned := 0

/-- A descriptor that `open` gives is not in use; what is closed was returned and not closed before. -/
def Granted (s : Desk) : Access → Prop
  | .opendevice env _ _ => 0 ≤ env.fd → s.host.descriptors env.fd = none
  | .closedevice m => m ∈ s.returned

/-- The call returns with every descriptor accounted for, and an `opendevice` that returns
`NULL` has changed nothing. -/
def Clean (s : Desk) (e : Access) : Prop :=
  ∃ t m, s.exec e = some (t, m) ∧ t.host.Accounted ∧
    match e with
    | .opendevice _ _ _ => m = none → s.host.Unchanged t.host
    | .closedevice _ => True

/-- What `opendevice` takes for the superblock of an image: without a descriptor, or a whole
block in the image, it has read nothing. -/
def headerOf (env : DiskEnv) (image : Image) : Block :=
  if 0 ≤ env.fd ∧ 0 < image.extent then image.block 0 else fun i => env.stack i.val

def Consistent (sb : Block) : Prop := magicNumber sb = 6763 ∧ 2 < diskSize sb ∧ diskSize sb ≤ 42

instance (sb : Block) : Decidable (Consistent sb) := inferInstanceAs (Decidable (_ ∧ _ ∧ _))

def Admitted (name : CString) (size : Int) : Prop := name.val.length ≠ 0 ∧ 2 ≤ size ∧ size ≤ 42

/-- There is a free entry, the descriptor does not look like one and the name fits its field;
the image, if there is one, passes the checks on its superblock. -/
def Room (s : Desk) (env : DiskEnv) (name : CString) : Prop :=
  (∃ m, ¬s.host.InUse m) ∧ env.fd ≠ 0 ∧ name.val.length < 20 ∧
    ∀ image ∈ s.host.files name, Consistent (headerOf env image)

/-- Without a descriptor the name is still copied: to the superblock of a new image before
`fopen` fails to make it, and to a free entry where what is on the stack passes the checks. -/
def Copied (s : Desk) (env : DiskEnv) (name : CString) : Prop :=
  ∀ image ∈ s.host.fopen env name, Consistent (headerOf env image) ∧ ∃ m, ¬s.host.InUse m

/-- An `opendevice` that gets past the checks of its arguments and has a descriptor gets all
the way; one that has none has room for the name where it copies it. -/
def Through (s : Desk) : Access → Prop
  | .opendevice env deviceName size => ∀ name ∈ deviceName, Admitted name size →
    if env.fd < 0 then s.Copied env name → name.val.length < 20 else s.Room env name
  | .closedevice _ => True

end Desk

/-! ## The calls of disk.c -/

namespace Host

variable {h : Host} {fd : Int} {name : CString} {n : Int}

def mounted (h : Host) (i : Fin 10) (fd : Int) (name : CString) (n : Int) : Host :=
  { h with mounts := Function.update h.mounts i { deviceFd := fd, deviceName := name, fsNumber := n } }

theorem addNewMountPoint_full (full : ∀ m, h.InUse m) : h.addNewMountPoint fd name n = some (h, none) := by
  have taken : (Fin.find? fun i => decide ((h.mounts i).deviceFd ≤ 0)) = none := by
    apply Fin.find?_eq_none_iff.mpr
    intro i
    have used : 0 < (h.mounts i).deviceFd := full i
    exact decide_eq_false (by omega)
  unfold addNewMountPoint
  rw [taken]

theorem addNewMountPoint_room (fd : Int) (name : CString) (n : Int) {m : Fin 10} (room : ¬h.InUse m) :
    ∃ i, ¬h.InUse i ∧ h.addNewMountPoint fd name n =
      if 20 ≤ name.val.length then none else some (h.mounted i fd name n, some i) := by
  have free : (h.mounts m).deviceFd ≤ 0 := Int.not_lt.mp room
  unfold addNewMountPoint
  cases found : Fin.find? fun i => decide ((h.mounts i).deviceFd ≤ 0) with
  | none => exact absurd free (of_decide_eq_false (Fin.eq_false_of_find?_eq_none found m))
  | some i => exact ⟨i, Int.not_lt.mpr (of_decide_eq_true (Fin.eq_true_of_find?_eq_some found)), rfl⟩

variable {env : DiskEnv} {size : Int}

theorem opendevice_refused {deviceName : Option CString} (refused : ∀ name ∈ deviceName, ¬Desk.Admitted name size) :
    h.opendevice env deviceName size = some (h, none) := by
  unfold opendevice
  cases deviceName with
  | none => rfl
  | some name =>
    dsimp only
    split
    · rfl
    next nonempty =>
      split
      · rfl
      next range => exact absurd ⟨nonempty, by omega, by omega⟩ (refused name rfl)

theorem opendevice_new (env : DiskEnv) (admitted : Desk.Admitted name size) (absent : h.fopen env name = none) :
    ∃ image pos n, h.opendevice env (some name) size =
      if 20 ≤ name.val.length then none
      else if env.fd < 0 then some (h, none)
      else Host.addNewMountPoint (attached { h with files := Function.update h.files name (some image) } env.fd name pos)
        env.fd name n := by
  obtain ⟨nonempty, low, high⟩ := admitted
  have range : ¬(size > 42 ∨ size < 2) := by omega
  simp only [opendevice, if_neg nonempty, if_neg range, absent]
  exact ⟨_, _, _, rfl⟩

theorem readblock_headerOf (env : DiskEnv) (image : Image) :
    ∃ pos ret, Device.readblock env.fd 0 (fun i => env.stack i.val)
        { image := image.block, extent := image.extent, pos := 0, faults := [] } =
      ({ image := image.block, extent := image.extent, pos, faults := [] }, Desk.headerOf env image, ret) := by
  have first : Device.lseek { image := image.block, extent := image.extent, pos := 0, faults := [] } 0 = 0 := by
    simpa using Device.lseek_of_nonneg { image := image.block, extent := image.extent, pos := 0, faults := [] }
      (b := 0) (by omega)
  rw [Device.readblock, Desk.headerOf]
  by_cases fails : env.fd < 0
  · rw [if_pos fails, if_neg fun both => absurd both.1 (not_le.mpr fails)]
    exact ⟨0, -1, rfl⟩
  · rw [if_neg fails]
    by_cases whole : 0 < image.extent
    · simp only [first, if_pos whole, if_pos (And.intro (not_lt.mp fails) whole)]
      exact ⟨1, 1, rfl⟩
    · simp only [first, if_neg whole, if_neg fun both : 0 ≤ env.fd ∧ 0 < image.extent => whole both.2]
      exact ⟨0, -1, rfl⟩

theorem opendevice_old {image : Image} (admitted : Desk.Admitted name size) (present : h.fopen env name = some image) :
    ∃ pos, h.opendevice env (some name) size =
      if Desk.Consistent (Desk.headerOf env image) then
        (if env.fd < 0 then h else h.attached env.fd name pos).addNewMountPoint env.fd name
          (fsNumber (Desk.headerOf env image))
      else some (if env.fd < 0 then h else h.attached env.fd name pos, none) := by
  obtain ⟨nonempty, low, high⟩ := admitted
  have range : ¬(size > 42 ∨ size < 2) := by omega
  obtain ⟨pos, ret, read⟩ := readblock_headerOf env image
  refine ⟨pos, ?_⟩
  simp only [opendevice, if_neg nonempty, if_neg range, present, read]
  by_cases passes : Desk.Consistent (Desk.headerOf env image)
  · have accepted : ¬(magicNumber (Desk.headerOf env image) ≠ 6763 ∨ diskSize (Desk.headerOf env image) ≤ 2 ∨
        diskSize (Desk.headerOf env image) > 42) := by
      obtain ⟨magic, large, small⟩ := passes
      omega
    rw [if_neg accepted, if_pos passes]
  · have refused : magicNumber (Desk.headerOf env image) ≠ 6763 ∨ diskSize (Desk.headerOf env image) ≤ 2 ∨
        diskSize (Desk.headerOf env image) > 42 := by
      by_contra accepted
      exact passes ⟨by omega, by omega, by omega⟩
    rw [if_pos refused, if_neg passes]

/-! ## The account of a call -/

section Account

variable {h' : Host} {i : Fin 10} {mp : MountPoint}

theorem inUse_update (mounts : h'.mounts = Function.update h.mounts i mp) (m : Fin 10) :
    h'.InUse m ↔ if m = i then 0 < mp.deviceFd else h.InUse m := by
  rw [InUse, mounts]
  by_cases here : m = i
  · rw [if_pos here, here, Function.update_self]
  · rw [if_neg here, Function.update_of_ne here]
    rfl

theorem Accounted.mount (accounted : h.Accounted) {file : CString × Nat}
    (descriptors : h'.descriptors = Function.update h.descriptors mp.deviceFd (some file))
    (mounts : h'.mounts = Function.update h.mounts i mp) (fresh : h.descriptors mp.deviceFd = none)
    (positive : 0 < mp.deviceFd) (free : ¬h.InUse i) : h'.Accounted := by
  have closed : ¬∃ m, h.InUse m ∧ (h.mounts m).deviceFd = mp.deviceFd := by
    rw [← accounted.exact_, mem_opened, fresh]
    exact Bool.false_ne_true
  have entry : ∀ m, m ≠ i → h'.mounts m = h.mounts m := fun m other => by rw [mounts, Function.update_of_ne other]
  have new : h'.mounts i = mp := by rw [mounts, Function.update_self]
  have used := inUse_update mounts
  constructor
  · intro fd
    rw [mem_opened, descriptors]
    by_cases here : fd = mp.deviceFd
    · rw [here, Function.update_self]
      refine iff_of_true rfl ⟨i, ?_, by rw [new]⟩
      rwa [used, if_pos rfl]
    · rw [Function.update_of_ne here]
      refine (accounted.exact_ fd).trans ⟨?_, ?_⟩
      · rintro ⟨m, inUse, same⟩
        have other : m ≠ i := fun equal => free (equal ▸ inUse)
        exact ⟨m, by rwa [used, if_neg other], by rwa [entry m other]⟩
      · rintro ⟨m, inUse, same⟩
        have other : m ≠ i := fun equal => here (by rw [← same, equal, new])
        rw [used, if_neg other] at inUse
        exact ⟨m, inUse, by rwa [entry m other] at same⟩
  · intro m m' first second same
    rw [used] at first second
    by_cases left : m = i
    · by_cases right : m' = i
      · rw [left, right]
      · rw [if_neg right] at second
        rw [left, new, entry m' right] at same
        exact absurd ⟨m', second, same.symm⟩ closed
    · rw [if_neg left] at first
      by_cases right : m' = i
      · rw [right, new, entry m left] at same
        exact absurd ⟨m, first, same⟩ closed
      · rw [if_neg right] at second
        rw [entry m left, entry m' right] at same
        exact accounted.distinct m m' first second same

theorem Accounted.overwrite (accounted : h.Accounted) (descriptors : h'.descriptors = h.descriptors)
    (mounts : h'.mounts = Function.update h.mounts i mp) (negative : ¬0 < mp.deviceFd) (free : ¬h.InUse i) :
    h'.Accounted := by
  have entry : ∀ m, h.InUse m → h'.mounts m = h.mounts m := by
    intro m inUse
    have other : m ≠ i := fun equal => free (equal ▸ inUse)
    rw [mounts, Function.update_of_ne other]
  have used : ∀ m, h'.InUse m ↔ h.InUse m := by
    intro m
    rw [inUse_update mounts]
    by_cases here : m = i
    · rw [if_pos here, here]
      exact iff_of_false negative free
    · rw [if_neg here]
  constructor
  · intro fd
    rw [mem_opened, descriptors]
    refine (accounted.exact_ fd).trans (exists_congr fun m => ?_)
    rw [used]
    exact and_congr_right fun inUse => by rw [entry m inUse]
  · intro m m' first second same
    rw [used] at first second
    rw [entry m first, entry m' second] at same
    exact accounted.distinct m m' first second same

theorem Accounted.unmount (accounted : h.Accounted) (inUse : h.InUse i)
    (descriptors : h'.descriptors = Function.update h.descriptors (h.mounts i).deviceFd none)
    (mounts : h'.mounts = Function.update h.mounts i mp) (negative : ¬0 < mp.deviceFd) : h'.Accounted := by
  have entry : ∀ m, m ≠ i → h'.mounts m = h.mounts m := fun m other => by rw [mounts, Function.update_of_ne other]
  have used : ∀ m, h'.InUse m ↔ m ≠ i ∧ h.InUse m := by
    intro m
    rw [inUse_update mounts]
    by_cases here : m = i
    · simp [here, negative]
    · simp [here]
  constructor
  · intro fd
    rw [mem_opened, descriptors]
    by_cases here : fd = (h.mounts i).deviceFd
    · rw [here, Function.update_self]
      refine iff_of_false Bool.false_ne_true ?_
      rintro ⟨m, inUse', same⟩
      have ⟨other, held⟩ := (used m).mp inUse'
      rw [entry m other] at same
      exact other (accounted.distinct m i held inUse same)
    · rw [Function.update_of_ne here]
      refine (accounted.exact_ fd).trans ⟨?_, ?_⟩
      · rintro ⟨m, inUse', same⟩
        have other : m ≠ i := fun equal => here (by rw [← same, equal])
        exact ⟨m, (used m).mpr ⟨other, inUse'⟩, by rwa [entry m other]⟩
      · rintro ⟨m, inUse', same⟩
        have ⟨other, held⟩ := (used m).mp inUse'
        exact ⟨m, held, by rwa [entry m other] at same⟩
  · intro m m' first second same
    have ⟨left, held⟩ := (used m).mp first
    have ⟨right, held'⟩ := (used m').mp second
    rw [entry m left, entry m' right] at same
    exact accounted.distinct m m' held held' same

theorem closedevice_inUse {m : Fin 10} (inUse : h.InUse m) : (h.closedevice (some m)).1 =
    { h with
      descriptors := Function.update h.descriptors (h.mounts m).deviceFd none
      mounts := Function.update h.mounts m { deviceFd := -1, deviceName := CString.empty, fsNumber := -1 } } := by
  have positive : 0 < (h.mounts m).deviceFd := inUse
  simp only [closedevice, if_neg (not_lt.mpr positive.le)]

theorem inUse_closedevice {m : Fin 10} (inUse : h.InUse m) (m' : Fin 10) :
    (h.closedevice (some m)).1.InUse m' ↔ m' ≠ m ∧ h.InUse m' := by
  rw [closedevice_inUse inUse, inUse_update (h := h) rfl]
  by_cases here : m' = m
  · simp [here]
  · simp [here]

end Account

end Host

/-! ## Runs -/

namespace Desk

/-- What every call keeps: the entries in use are mount points still to be closed, and the
others of these cannot be taken for open. -/
structure Ledger (s : Desk) : Prop where
  accounted : s.host.Accounted
  awaited : ∀ m, s.host.InUse m → m ∈ s.returned
  returned : ∀ m ∈ s.returned, s.host.InUse m ∨ (s.host.mounts m).deviceFd < 0

theorem ledger_start (files : CString → Option Image) : (start files).Ledger where
  accounted :=
    { exact_ := fun _ => iff_of_false Bool.false_ne_true fun ⟨_, inUse, _⟩ => lt_irrefl 0 inUse
      distinct := fun _ _ inUse => absurd inUse (lt_irrefl 0) }
  awaited _ inUse := absurd inUse (lt_irrefl 0)
  returned m listed := absurd listed (Multiset.notMem_zero m)

theorem not_unchanged_attached {h : Host} {fd : Int} (fresh : h.descriptors fd = none) (name : CString) (pos : Nat)
    (files : CString → Option Image) : ¬h.Unchanged (Host.attached { h with files } fd name pos) := by
  intro unchanged
  have held : fd ∈ (Host.attached { h with files } fd name pos).opened := by
    simp [Host.mem_opened, Host.attached]
  rw [unchanged.opened, Host.mem_opened, fresh] at held
  exact Bool.false_ne_true held

section Opendevice

variable {s : Desk} {env : DiskEnv} {deviceName : Option CString} {name : CString} {size : Int}

theorem Ledger.give (ledger : s.Ledger) {host : Host} {i : Fin 10} {mp : MountPoint} (accounted : host.Accounted)
    (mounts : host.mounts = Function.update s.host.mounts i mp) (other : mp.deviceFd ≠ 0) :
    Ledger { host, returned := i ::ₘ s.returned } where
  accounted := accounted
  awaited m inUse := by
    rw [Host.inUse_update (h := s.host) mounts] at inUse
    rw [Multiset.mem_cons]
    by_cases here : m = i
    · exact Or.inl here
    · rw [if_neg here] at inUse
      exact Or.inr (ledger.awaited m inUse)
  returned m listed := by
    rw [Host.inUse_update (h := s.host) mounts, mounts]
    by_cases here : m = i
    · rw [if_pos here, here, Function.update_self]
      omega
    · rw [if_neg here, Function.update_of_ne here]
      exact ledger.returned m ((Multiset.mem_cons.mp listed).resolve_left here)

theorem Ledger.mount (ledger : s.Ledger) (fresh : s.host.descriptors env.fd = none) (positive : 0 < env.fd)
    (short : name.val.length < 20) (room : ∃ m, ¬s.host.InUse m) (files : CString → Option Image) (pos : Nat) (n : Int) :
    ∃ host i, (Host.attached { s.host with files } env.fd name pos).addNewMountPoint env.fd name n = some (host, some i) ∧
      Ledger { host, returned := i ::ₘ s.returned } := by
  obtain ⟨m, room⟩ := room
  obtain ⟨i, free, added⟩ := Host.addNewMountPoint_room (h := Host.attached { s.host with files } env.fd name pos)
    env.fd name n room
  rw [if_neg (not_le.mpr short)] at added
  exact ⟨_, i, added, ledger.give (ledger.accounted.mount rfl rfl fresh positive free) rfl positive.ne'⟩

theorem Ledger.unattached (ledger : s.Ledger) (fails : env.fd < 0) (n : Int)
    (fits : (∃ m, ¬s.host.InUse m) → name.val.length < 20) :
    ∃ host m, s.host.addNewMountPoint env.fd name n = some (host, m) ∧
      Ledger { host, returned := m.elim s.returned (· ::ₘ s.returned) } ∧ (m = none → host = s.host) := by
  by_cases full : ∀ m, s.host.InUse m
  · exact ⟨s.host, none, Host.addNewMountPoint_full full, ledger, fun _ => rfl⟩
  · obtain ⟨m, room⟩ := not_forall.mp full
    obtain ⟨i, free, added⟩ := Host.addNewMountPoint_room env.fd name n room
    rw [if_neg (not_le.mpr (fits ⟨m, room⟩))] at added
    have kept : (s.host.mounted i env.fd name n).Accounted :=
      ledger.accounted.overwrite rfl rfl (not_lt.mpr fails.le) free
    exact ⟨_, some i, added, ledger.give kept rfl fails.ne, nofun⟩

theorem opendevice_failing (ledger : s.Ledger) (fails : env.fd < 0) (admitted : Admitted name size)
    (fits : s.Copied env name → name.val.length < 20) :
    ∃ host m, s.host.opendevice env (some name) size = some (host, m) ∧
      Ledger { host, returned := m.elim s.returned (· ::ₘ s.returned) } ∧ (m = none → host = s.host) := by
  cases found : s.host.fopen env name with
  | none =>
    have short : name.val.length < 20 := fits fun image present => by simp [found] at present
    obtain ⟨image, pos, n, call⟩ := Host.opendevice_new env admitted found
    rw [if_neg (not_le.mpr short), if_pos fails] at call
    exact ⟨s.host, none, call, ledger, fun _ => rfl⟩
  | some image =>
    obtain ⟨pos, call⟩ := Host.opendevice_old admitted found
    rw [if_pos fails] at call
    by_cases passes : Consistent (headerOf env image)
    · rw [if_pos passes] at call
      rw [call]
      refine ledger.unattached fails _ fun room => fits fun image' present => ?_
      obtain rfl := Option.some.inj (found.symm.trans present)
      exact ⟨passes, room⟩
    · rw [if_neg passes] at call
      exact ⟨s.host, none, call, ledger, fun _ => rfl⟩

theorem opendevice_room (ledger : s.Ledger) (given : ¬env.fd < 0) (fresh : s.host.descriptors env.fd = none)
    (admitted : Admitted name size) (room : s.Room env name) :
    ∃ host i, s.host.opendevice env (some name) size = some (host, some i) ∧
      Ledger { host, returned := i ::ₘ s.returned } := by
  obtain ⟨room, other, short, sound⟩ := room
  have positive : 0 < env.fd := by omega
  have found := Host.fopen_of_nonneg (h := s.host) given name
  cases present : s.host.files name with
  | none =>
    obtain ⟨image, pos, n, call⟩ := Host.opendevice_new env admitted (found.trans present)
    rw [if_neg (not_le.mpr short), if_neg given] at call
    rw [call]
    exact ledger.mount fresh positive short room _ pos n
  | some image =>
    obtain ⟨pos, call⟩ := Host.opendevice_old admitted (found.trans present)
    rw [if_pos (sound image present), if_neg given] at call
    rw [call]
    exact ledger.mount fresh positive short room s.host.files pos _

theorem opendevice_through (ledger : s.Ledger) (granted : s.Granted (.opendevice env deviceName size))
    (through : s.Through (.opendevice env deviceName size)) :
    ∃ t m, s.exec (.opendevice env deviceName size) = some (t, m) ∧ t.Ledger ∧
      (m = none → s.host.Unchanged t.host) := by
  by_cases refused : ∀ name ∈ deviceName, ¬Admitted name size
  · refine ⟨s, none, ?_, ledger, fun _ => ⟨rfl, rfl, rfl⟩⟩
    simp [exec, Host.opendevice_refused refused]
  · simp only [not_forall, not_not] at refused
    obtain ⟨name, ⟨rfl⟩, admitted⟩ := refused
    have condition := through name rfl admitted
    by_cases fails : env.fd < 0
    · rw [if_pos fails] at condition
      obtain ⟨host, m, call, kept, same⟩ := opendevice_failing ledger fails admitted condition
      refine ⟨_, m, by rw [exec, call]; rfl, kept, fun null => ?_⟩
      rw [same null]
      exact ⟨rfl, rfl, rfl⟩
    · rw [if_neg fails] at condition
      obtain ⟨host, i, call, kept⟩ := opendevice_room ledger fails (granted (not_lt.mp fails)) admitted condition
      exact ⟨_, some i, by rw [exec, call]; rfl, kept, nofun⟩

/-- Without room a descriptor is left behind that no entry answers for. -/
theorem room_of_clean {host : Host} {m : Option (Fin 10)} (given : ¬env.fd < 0)
    (fresh : s.host.descriptors env.fd = none) (admitted : Admitted name size)
    (opened : s.host.opendevice env (some name) size = some (host, m)) (accounted : host.Accounted)
    (unchanged : m = none → s.host.Unchanged host) : s.Room env name := by
  -- a full table leaves the descriptor open, and a free entry is no use to descriptor 0
  have tail : ∀ files pos n, (Host.attached { s.host with files } env.fd name pos).addNewMountPoint env.fd name n =
      some (host, m) → (∃ m, ¬s.host.InUse m) ∧ env.fd ≠ 0 ∧ name.val.length < 20 := by
    intro files pos n added
    by_cases full : ∀ m, s.host.InUse m
    · rw [Host.addNewMountPoint_full (h := Host.attached { s.host with files } env.fd name pos) full] at added
      cases added
      exact absurd (unchanged rfl) (not_unchanged_attached fresh name pos files)
    · obtain ⟨m', room⟩ := not_forall.mp full
      obtain ⟨i, free, added'⟩ := Host.addNewMountPoint_room (h := Host.attached { s.host with files } env.fd name pos)
        env.fd name n room
      rw [added'] at added
      split at added
      · cases added
      · next short =>
        cases added
        refine ⟨⟨m', room⟩, fun zero => ?_, not_le.mp short⟩
        have held : env.fd ∈ (Host.mounted (Host.attached { s.host with files } env.fd name pos) i env.fd name n).opened := by
          simp [Host.mem_opened, Host.mounted, Host.attached]
        obtain ⟨m, inUse, same⟩ := (accounted.exact_ env.fd).mp held
        rw [Host.InUse, same, zero] at inUse
        exact lt_irrefl 0 inUse
  have found := Host.fopen_of_nonneg (h := s.host) given name
  cases present : s.host.files name with
  | none =>
    obtain ⟨image, pos, n, made⟩ := Host.opendevice_new env admitted (found.trans present)
    rw [made, if_neg given] at opened
    split at opened
    · cases opened
    · obtain ⟨room, other, short⟩ := tail _ pos n opened
      exact ⟨room, other, short, by simp [present]⟩
  | some image =>
    obtain ⟨pos, read⟩ := Host.opendevice_old admitted (found.trans present)
    rw [read, if_neg given] at opened
    by_cases passes : Consistent (headerOf env image)
    · rw [if_pos passes] at opened
      obtain ⟨room, other, short⟩ := tail s.host.files pos _ opened
      refine ⟨room, other, short, fun image' same => ?_⟩
      obtain rfl := Option.some.inj (present.symm.trans same)
      exact passes
    · rw [if_neg passes] at opened
      cases opened
      exact absurd (unchanged rfl) (not_unchanged_attached fresh name pos s.host.files)

theorem fits_of_failing {result : Host × Option (Fin 10)} (fails : env.fd < 0) (admitted : Admitted name size)
    (opened : s.host.opendevice env (some name) size = some result) (copied : s.Copied env name) :
    name.val.length < 20 := by
  by_contra long
  have overrun : 20 ≤ name.val.length := not_lt.mp long
  cases found : s.host.fopen env name with
  | none =>
    obtain ⟨image, pos, n, call⟩ := Host.opendevice_new env admitted found
    rw [call, if_pos overrun] at opened
    cases opened
  | some image =>
    obtain ⟨passes, m, room⟩ := copied image found
    obtain ⟨pos, call⟩ := Host.opendevice_old admitted found
    obtain ⟨i, -, added⟩ := Host.addNewMountPoint_room env.fd name (fsNumber (headerOf env image)) room
    rw [call, if_pos passes, if_pos fails, added, if_pos overrun] at opened
    cases opened

theorem through_of_clean (granted : s.Granted (.opendevice env deviceName size))
    (clean : s.Clean (.opendevice env deviceName size)) : s.Through (.opendevice env deviceName size) := by
  obtain ⟨t, m, call, accounted, unchanged⟩ := clean
  obtain ⟨⟨host, m⟩, opened, same⟩ := Option.map_eq_some_iff.mp call
  cases same
  rintro name ⟨rfl⟩ admitted
  by_cases fails : env.fd < 0
  · rw [if_pos fails]
    exact fits_of_failing fails admitted opened
  · rw [if_neg fails]
    exact room_of_clean fails (granted (not_lt.mp fails)) admitted opened accounted unchanged

end Opendevice

theorem closedevice_ledger {s : Desk} {m : Fin 10} (ledger : s.Ledger) (granted : m ∈ s.returned) :
    Ledger { host := (s.host.closedevice (some m)).1, returned := s.returned.erase m } := by
  rcases ledger.returned m granted with inUse | negative
  · have mounts : (s.host.closedevice (some m)).1.mounts = Function.update s.host.mounts m
        { deviceFd := -1, deviceName := CString.empty, fsNumber := -1 } := by
      rw [Host.closedevice_inUse inUse]
    refine ⟨?_, fun m' inUse' => ?_, fun m' listed => ?_⟩
    · rw [Host.closedevice_inUse inUse]
      exact ledger.accounted.unmount inUse rfl rfl (by decide)
    · obtain ⟨other, held⟩ := (Host.inUse_closedevice inUse m').mp inUse'
      exact (Multiset.mem_erase_of_ne other).mpr (ledger.awaited m' held)
    · rw [Host.inUse_closedevice inUse, mounts]
      by_cases here : m' = m
      · rw [here, Function.update_self]
        exact Or.inr (by decide)
      · rw [Function.update_of_ne here]
        have listed' := (Multiset.mem_erase_of_ne here).mp listed
        exact (ledger.returned m' listed').imp_left (And.intro here)
  · -- a mount point that was given out without a descriptor is as free as it was
    have same : (s.host.closedevice (some m)).1 = s.host := by simp only [Host.closedevice, if_pos negative]
    rw [same]
    refine ⟨ledger.accounted, fun m' inUse => ?_, fun m' listed => ?_⟩
    · have other : m' ≠ m := by
        rintro rfl
        exact lt_asymm inUse negative
      exact (Multiset.mem_erase_of_ne other).mpr (ledger.awaited m' inUse)
    · exact ledger.returned m' (Multiset.mem_of_mem_erase listed)

theorem Ledger.clean_iff {s : Desk} (ledger : s.Ledger) {e : Access} (granted : s.Granted e) : s.Clean e ↔ s.Through e := by
  cases e with
  | opendevice env deviceName size =>
    refine ⟨through_of_clean granted, fun through => ?_⟩
    obtain ⟨t, m, call, kept, unchanged⟩ := opendevice_through ledger granted through
    exact ⟨t, m, call, kept.accounted, unchanged⟩
  | closedevice m => exact iff_of_true ⟨_, _, rfl, (closedevice_ledger ledger granted).accounted, trivial⟩ trivial

theorem Ledger.step {s t : Desk} (ledger : s.Ledger) {e : Access} (granted : s.Granted e) (through : s.Through e)
    (step : Desk.step s e = some t) : t.Ledger := by
  cases e with
  | opendevice env deviceName size =>
    obtain ⟨t', m, call, kept, -⟩ := opendevice_through ledger granted through
    rw [Desk.step, call] at step
    cases step
    exact kept
  | closedevice m =>
    cases step
    exact closedevice_ledger ledger granted

/-- Every descriptor is accounted for after each call of a program, and nothing is left behind
by a call that returns `NULL`, exactly when every `opendevice` that accepts its arguments and
has a descriptor ends with a mount point. -/
theorem clean_iff_through {files : CString → Option Image} {calls : List Access}
    (granted : Machine.EveryStep step Granted (start files) calls) :
    Machine.EveryStep step Clean (start files) calls ↔ Machine.EveryStep step Through (start files) calls :=
  Machine.everyStep_iff_of_invariant (I := Ledger) (fun _ _ ledger granted => ledger.clean_iff granted)
    (fun _ _ _ ledger granted through => ledger.step granted through) (ledger_start files) granted

/-! ## A device too small to be opened again -/

instance (s : Desk) (e : Access) : Decidable (s.Granted e) :=
  match e with
  | .opendevice env _ _ => inferInstanceAs (Decidable (0 ≤ env.fd → s.host.descriptors env.fd = none))
  | .closedevice m => inferInstanceAs (Decidable (m ∈ s.returned))

instance (s : Desk) (env : DiskEnv) (name : CString) : Decidable (s.Room env name) :=
  inferInstanceAs (Decidable (_ ∧ _ ∧ _ ∧ _))

instance (s : Desk) (env : DiskEnv) (name : CString) : Decidable (s.Copied env name) :=
  inferInstanceAs (Decidable (∀ image ∈ s.host.fopen env name, _ ∧ _))

instance (s : Desk) (e : Access) : Decidable (s.Through e) :=
  match e with
  | .opendevice env deviceName size =>
    inferInstanceAs (Decidable (∀ name ∈ deviceName, name.val.length ≠ 0 ∧ 2 ≤ size ∧ size ≤ 42 →
      if env.fd < 0 then s.Copied env name → name.val.length < 20 else s.Room env name))
  | .closedevice _ => isTrue trivial

def opening (size : Int) : Access := .opendevice ⟨3, fun _ => 0, fun _ => 0, false⟩ (some diskName) size

def failing (unreadable : Bool) : Access := .opendevice ⟨-1, fun _ => 0, fun _ => 0, unreadable⟩ (some diskName) 3

theorem clean_three : Machine.EveryStep step Clean (start fun _ => none)
    [failing true, opening 3, failing false, .closedevice 0, opening 3] := by
  have granted : Machine.checkRun step (fun s e => decide (s.Granted e)) (start fun _ => none)
      [failing true, opening 3, failing false, .closedevice 0, opening 3] = true := by decide +kernel
  have through : Machine.checkRun step (fun s e => decide (s.Through e)) (start fun _ => none)
      [failing true, opening 3, failing false, .closedevice 0, opening 3] = true := by decide +kernel
  apply (clean_iff_through _).mpr
  · exact Machine.everyStep_of_checkRun (fun _ _ checked => of_decide_eq_true checked) through
  · exact Machine.everyStep_of_checkRun (fun _ _ checked => of_decide_eq_true checked) granted

/-- An image of two blocks, which `opendevice` makes, is one it does not accept. -/
theorem not_clean_two : ¬∀ (files : CString → Option Image) (calls : List Access),
    Machine.EveryStep step Granted (start files) calls → Machine.EveryStep step Clean (start files) calls := by
  intro claimed
  have granted : Machine.checkRun step (fun s e => decide (s.Granted e)) (start fun _ => none)
      [opening 2, .closedevice 0, opening 2] = true := by decide +kernel
  have clean := claimed (fun _ => none) [opening 2, .closedevice 0, opening 2]
    (Machine.everyStep_of_checkRun (fun _ _ checked => of_decide_eq_true checked) granted)
  have seen : (Machine.run step (start fun _ => none) [opening 2, .closedevice 0]).any (fun s =>
      (s.host.descriptors 3).isNone && (s.exec (opening 2)).any fun result =>
        result.2.isNone && (result.1.host.descriptors 3).isSome) = true := by decide +kernel
  obtain ⟨s, reached, seen⟩ := (Option.any_eq_true _ _).mp seen
  obtain ⟨closed, seen⟩ := (Bool.and_eq_true_iff ..).mp seen
  obtain ⟨result, call, seen⟩ := (Option.any_eq_true _ _).mp seen
  obtain ⟨null, held⟩ := (Bool.and_eq_true_iff ..).mp seen
  rw [Option.isNone_iff_eq_none] at closed null
  obtain ⟨t, m, call', -, unchanged⟩ :=
    Machine.everyStep_iff.mp clean [opening 2, .closedevice 0] (opening 2) [] s rfl reached
  cases call.symm.trans call'
  have same := (unchanged null).opened
  rw [← Host.mem_opened, same, Host.mem_opened, closed] at held
  cases held

end Desk

end OsLabs.Emufs
