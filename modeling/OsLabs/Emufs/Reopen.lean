import OsLabs.Emufs.AnyCall
import OsLabs.Emufs.Mounting

/-! Closing a device and opening it again: what `opendevice` finds in the image, and what a
program sees through the new mount point. -/

set_option autoImplicit false

namespace OsLabs.Emufs

open OsLabs.Lib
open Superblock Metadata Fs

/-! ## Mounted devices of a host -/

namespace Host

structure Serves (h : Host) (m : Fin 10) (deviceName : CString) (fs : Fs) : Prop where
  mount : h.mounts m = { deviceFd := fs.mp.deviceFd, deviceName, fsNumber := fs.mp.fsNumber }
  descriptor : h.descriptors fs.mp.deviceFd = some (deviceName, fs.dev.pos)
  image : h.files deviceName = some { block := fs.dev.image, extent := fs.dev.extent }
  sane : fs.dev.faults = []

namespace Serves

variable {h : Host} {m : Fin 10} {deviceName : CString} {fs fs' : Fs}

theorem fs_eq (serves : h.Serves m deviceName fs) : h.fs m = some fs := by
  obtain ⟨⟨image, extent, pos, faults⟩, ⟨deviceFd, fsNumber⟩⟩ := fs
  have sane : faults = [] := serves.sane
  subst sane
  simp only [Host.fs, serves.mount, serves.descriptor, serves.image, Option.bind_eq_bind, Option.bind_some]

theorem commit (serves : h.Serves m deviceName fs) (fd : fs'.mp.deviceFd = fs.mp.deviceFd)
    (sane : fs'.dev.faults = []) : (h.commit m fs').Serves m deviceName fs' := by
  unfold Host.commit
  simp only [serves.mount, serves.descriptor]
  constructor
  · simp only [Function.update_self, fd]
  · simp only [fd, Function.update_self]
  · simp only [Function.update_self]
  · exact sane

end Serves

end Host

namespace Session

def Serves (s : Session) (deviceName : CString) (w : World) : Prop :=
  s.host.Serves s.mountPoint deviceName w.fs ∧ s.files = w.files

variable {d : Nat} {s s' : Session} {deviceName : CString} {w w' : World} {c : Call}

def after (s : Session) (w : World) : Session :=
  { s with host := s.host.commit s.mountPoint w.fs, files := w.files }

theorem exec_eq (serves : s.Serves deviceName w) (c : Call) :
    s.exec c = (w.exec c).map fun result => (s.after result.1, result.2) := by
  obtain ⟨host, files⟩ := serves
  simp only [exec, host.fs_eq, files, Option.bind_eq_bind, Option.bind_some]
  cases w.exec c with
  | none => rfl
  | some result => rfl

theorem Serves.after (serves : s.Serves deviceName w) (carried : Carried d w.fs w'.fs) :
    (s.after w').Serves deviceName w' :=
  ⟨serves.1.commit (by rw [carried.mp]) carried.mounted.sane, rfl⟩

/-- The session serves a device on which every call so far has left what reopening reads. -/
def Upheld (d : Nat) (deviceName : CString) (fs : Fs) (s : Session) : Prop :=
  ∃ w, s.Serves deviceName w ∧ Carried d fs w.fs

theorem Upheld.step {fs : Fs} (upheld : s.Upheld d deviceName fs) (step : s.step c = some s') :
    s'.Upheld d deviceName fs := by
  obtain ⟨w, serves, carried⟩ := upheld
  rw [Session.step, exec_eq serves, Option.map_map] at step
  obtain ⟨⟨w', reply⟩, call, rfl⟩ := Option.map_eq_some_iff.mp step
  have next := exec_carried carried.mounted call
  refine ⟨w', serves.after next, next.mounted, next.mp.trans carried.mp, fun a low => ?_⟩
  rw [next.header a low, carried.header a low]

theorem Upheld.run {fs : Fs} {calls : List Call} (upheld : s.Upheld d deviceName fs)
    (reached : Machine.run Session.step s calls = some s') : s'.Upheld d deviceName fs :=
  Machine.invariant (I := Upheld d deviceName fs) (fun _ _ _ upheld step => upheld.step step) upheld reached

/-- Two sessions on one image through descriptors and at positions of their own. -/
def Alongside (d : Nat) (deviceName : CString) (s s' : Session) : Prop :=
  ∃ w fd pos, Mounted d w.fs ∧ 0 < fd ∧ s.Serves deviceName w ∧ s'.Serves deviceName (w.through fd pos)

theorem Alongside.call (alongside : Alongside d deviceName s s') (c : Call) :
    s.reply c = s'.reply c ∧ Option.Rel (Alongside d deviceName) (s.step c) (s'.step c) := by
  obtain ⟨w, fd, pos, mounted, opened, serves, serves'⟩ := alongside
  have same := exec_through mounted opened pos c
  simp only [reply, step, exec_eq serves, exec_eq serves', Option.map_map]
  generalize result : w.exec c = r at same
  generalize result' : (w.through fd pos).exec c = r' at same
  cases same with
  | none => exact ⟨rfl, .none⟩
  | @some r r' agree =>
    obtain ⟨reply, pos', next⟩ := agree
    have carried := exec_carried mounted result
    have carried' := exec_carried ((mounted.moved pos).onFd opened) result'
    refine ⟨congrArg some reply.symm, .some ⟨r.1, fd, pos', carried.mounted, opened, serves.after carried, ?_⟩⟩
    rw [← next]
    exact serves'.after carried'

theorem Alongside.observations (alongside : Alongside d deviceName s s') (calls : List Call) :
    Machine.observations Session.step Session.reply s calls =
      Machine.observations Session.step Session.reply s' calls :=
  Machine.observations_congr (C := fun _ _ => True) (fun _ _ c alongside _ => alongside.call c) alongside
    (Machine.everyStep_of_forall fun _ _ => trivial)

end Session

/-! ## What the superblock tells `opendevice` -/

/-- A block whose superblock, up to the bitmap, is that of a device of `size` blocks with file system `n`. -/
structure Labelled (size n : Int) (sb : Block) : Prop where
  magic : magicNumber sb = 6763
  size : diskSize sb = size
  number : fsNumber sb = n

theorem Labelled.congr {size n : Int} {sb sb' : Block} (labelled : Labelled size n sb)
    (header : ∀ a < 32, sb'.peek a = sb.peek a) : Labelled size n sb' where
  magic := (Bytes.loadInt_congr fun a _ high => header a (by omega)).trans labelled.magic
  size := (Bytes.loadInt_congr fun a _ high => header a (by omega)).trans labelled.size
  number := (Bytes.loadInt_congr fun a _ high => header a (by omega)).trans labelled.number

theorem labelled_newSuperblock (env : DiskEnv) (deviceName : CString) (size : Int) (short : deviceName.val.length < 20)
    (low : 2 ≤ size) (high : size ≤ 42) : Labelled size (-1) (Host.newSuperblock env deviceName size) := by
  let numbered : Block := setFsNumber (fun i => env.heap i.val) (-1)
  let named : Block := setDeviceName numbered deviceName
  let sized : Block := setDiskSize named size
  have number : fsNumber sized = -1 := by
    calc fsNumber sized = fsNumber named := Bytes.loadInt_storeInt_outside _ _ (by omega)
      _ = fsNumber numbered := Bytes.loadInt_congr fun a _ _ => Bytes.peek_strcpy_outside _ _ (by omega)
      _ = -1 := Bytes.loadInt_storeInt _ (by omega) (by omega) (by omega)
  have size : diskSize sized = size := Bytes.loadInt_storeInt _ (by omega) (by omega) (by omega)
  exact
    { magic := Bytes.loadInt_storeInt _ (by omega) (by omega) (by omega)
      size := (Bytes.loadInt_storeInt_outside _ _ (by omega)).trans size
      number := (Bytes.loadInt_storeInt_outside _ _ (by omega)).trans number }

theorem labelled_formattedSuperblock {size k n : Int} {sb : Block} (labelled : Labelled size k sb)
    (format : n = 0 ∨ n = 1) : Labelled size n (formattedSuperblock sb n) := by
  have same : ∀ a < 32, (formattedSuperblock sb n).peek a = (setFsNumber sb n).peek a := by
    intro a low
    unfold formattedSuperblock fillBitmap setBitmap
    dsimp only
    rw [Bytes.peek_blit_outside _ _ (by omega), Bytes.peek_blit_outside _ _ (by omega),
      Bytes.peek_blit_outside _ _ (by omega), Bytes.peek_blit_outside _ _ (by omega)]
  have numbered : Labelled size n (setFsNumber sb n) :=
    { magic := (Bytes.loadInt_storeInt_outside _ _ (by omega)).trans labelled.magic
      size := (diskSize_setFsNumber sb n).trans labelled.size
      number := Bytes.loadInt_storeInt _ (by omega) (by omega) (by omega) }
  exact numbered.congr same

/-! ## Opening and closing -/

namespace Host

variable {h h' : Host} {m : Fin 10} {deviceName : CString} {disk : DiskEnv} {size n : Int}

theorem addNewMountPoint_serves (fs : Fs)
    (added : h.addNewMountPoint fs.mp.deviceFd deviceName fs.mp.fsNumber = some (h', some m))
    (descriptor : h.descriptors fs.mp.deviceFd = some (deviceName, fs.dev.pos))
    (image : h.files deviceName = some { block := fs.dev.image, extent := fs.dev.extent }) (sane : fs.dev.faults = []) :
    deviceName.val.length < 20 ∧ h'.Serves m deviceName fs := by
  unfold addNewMountPoint at added
  split at added
  · cases added
  · split at added
    · cases added
    next short =>
      cases added
      exact ⟨by omega, Function.update_self .., descriptor, image, sane⟩

theorem addNewMountPoint_of_free (h : Host) (fd : Int) (n : Int) (short : deviceName.val.length < 20)
    (free : (h.mounts m).deviceFd ≤ 0) :
    ∃ h' mountPoint, h.addNewMountPoint fd deviceName n = some (h', some mountPoint) := by
  unfold addNewMountPoint
  cases found : Fin.find? fun i => decide ((h.mounts i).deviceFd ≤ 0) with
  | none => exact absurd free (of_decide_eq_false (Fin.eq_false_of_find?_eq_none found m))
  | some i => exact ⟨_, i, if_neg (by omega)⟩

theorem created (fd : 0 < disk.fd) (absent : h.files deviceName = none)
    (opened : h.opendevice disk (some deviceName) size = some (h', some m)) :
    deviceName.val.length ≠ 0 ∧ deviceName.val.length < 20 ∧ 2 ≤ size ∧ size ≤ 42 ∧
      ∃ fs, h'.Serves m deviceName fs ∧ Mounted size.toNat fs ∧ Labelled size (-1) fs.superblock := by
  have given : ¬disk.fd < 0 := not_lt.mpr fd.le
  unfold opendevice at opened
  dsimp only at opened
  split at opened
  · cases opened
  next nonempty =>
    split at opened
    · cases opened
    next range =>
      simp only [fopen_of_nonneg given, absent] at opened
      split at opened
      · cases opened
      next short =>
        have write : (newDevice size).writeblock disk.fd (0 : Nat)
            (superblockBuffer disk (newSuperblock disk deviceName size)) = _ :=
          Device.writeblock_eq _ fd rfl (by omega)
        have labelled := labelled_newSuperblock disk deviceName size (by omega) (by omega) (by omega)
        simp only [Nat.cast_zero] at write
        simp only [write, labelled.number] at opened
        let fs : Fs :=
          { dev :=
              { image := Function.update (fun _ _ => 0) 0 (superblockBuffer disk (newSuperblock disk deviceName size))
                extent := max size.toNat 1
                pos := 1
                faults := [] }
            mp := { deviceFd := disk.fd, fsNumber := -1 } }
        obtain ⟨fits, serves⟩ := addNewMountPoint_serves fs opened (Function.update_self ..)
          (Function.update_self ..) rfl
        refine ⟨nonempty, fits, by omega, by omega, fs, serves, ⟨fd, rfl, le_max_left _ _, by omega, by omega⟩, ?_⟩
        apply labelled.congr
        intro a low
        have copied : (superblockBuffer disk (newSuperblock disk deviceName size)).peek a =
            (newSuperblock disk deviceName size).peek (a - 0) :=
          Bytes.peek_blit_inside _ _ (by omega) (by omega) (by omega)
        rw [Fs.superblock]
        simp only [fs, Function.update_self]
        exact copied

theorem formatted {fs : Fs} (serves : h.Serves m deviceName fs) (mounted : Mounted size.toNat fs)
    (labelled : Labelled size (-1) fs.superblock) (format : n = 0 ∨ n = 1) (env : Env) :
    ∃ fs', h.createFileSystem env m n = some (h.commit m fs', 1) ∧ (h.commit m fs').Serves m deviceName fs' ∧
      Mounted size.toNat fs' ∧ fs'.mp.fsNumber = n ∧ Labelled size n fs'.superblock := by
  have done := createFileSystem_eq env n mounted
  let first := (fs.numbered n).put 0 (formattedSuperblock fs.superblock n)
  have sane : Mounted size.toNat first := (mounted.numbered n).put 0 _
  refine ⟨first.put 1 (first.toDevice (formattedMetadata env.garbage)), ?_, serves.commit rfl rfl, sane.put 1 _, rfl, ?_⟩
  · simp only [Host.createFileSystem, serves.fs_eq, Option.map_some, done, first]
  · rw [superblock_put_of_ne _ _ _ (by omega), superblock_put_self]
    exact labelled_formattedSuperblock labelled format

theorem closed {fs : Fs} (serves : h.Serves m deviceName fs) (opened : 0 < fs.mp.deviceFd) :
    (h.closedevice (some m)).2 = 1 ∧ (h.closedevice (some m)).1.files = h.files ∧
      ((h.closedevice (some m)).1.mounts m).deviceFd = -1 := by
  have device : ¬(h.mounts m).deviceFd < 0 := by
    rw [serves.mount]
    exact not_lt.mpr opened.le
  simp only [closedevice, if_neg device, Function.update_self, and_self]

/-- What `opendevice` makes of a name with a file: the checks on its superblock, then a mount point. -/
theorem opendevice_existing {image : Image} (fd : 0 < disk.fd) (present : h.files deviceName = some image)
    (whole : 0 < image.extent) (nonempty : deviceName.val.length ≠ 0) (low : 2 ≤ size) (high : size ≤ 42) :
    h.opendevice disk (some deviceName) size =
      let h := { h with descriptors := Function.update h.descriptors disk.fd (some (deviceName, 1)) }
      if magicNumber (image.block 0) ≠ 6763 ∨ diskSize (image.block 0) ≤ 2 ∨ diskSize (image.block 0) > 42 then
        some (h, none)
      else h.addNewMountPoint disk.fd deviceName (fsNumber (image.block 0)) := by
  have read := Device.readblock_eq { image := image.block, extent := image.extent, pos := 0, faults := [] } (b := 0)
    (fun i => disk.stack i.val) fd whole (by omega)
  have given : ¬disk.fd < 0 := not_lt.mpr fd.le
  simp only [Nat.cast_zero] at read
  simp only [opendevice, if_neg nonempty, if_neg (show ¬(size > 42 ∨ size < 2) by omega), fopen_of_nonneg given,
    present, read, if_neg given, attached]

section Closed

variable {fs : Fs} (serves : h.Serves m deviceName fs) (mounted : Mounted size.toNat fs)
  (labelled : Labelled size n fs.superblock) (fd : 0 < disk.fd) {size' : Int} (low : 2 ≤ size') (high : size' ≤ 42)
  (nonempty : deviceName.val.length ≠ 0)
include serves mounted labelled fd low high nonempty

theorem opendevice_closed : (h.closedevice (some m)).1.opendevice disk (some deviceName) size' =
    let h := (h.closedevice (some m)).1
    let h := { h with descriptors := Function.update h.descriptors disk.fd (some (deviceName, 1)) }
    if size ≤ 2 then some (h, none) else h.addNewMountPoint disk.fd deviceName n := by
  obtain ⟨-, files, -⟩ := closed serves mounted.opened
  have present := (congrFun files deviceName).trans serves.image
  have whole : 0 < fs.dev.extent := by
    have := mounted.whole
    have := mounted.atLeast
    omega
  have label : Labelled size n (fs.dev.image 0) := labelled
  have bound := mounted.atMost
  rw [opendevice_existing fd present whole nonempty low high]
  simp only [label.magic, label.size, label.number, ne_eq, not_true_eq_false, false_or,
    show ¬size > 42 by omega, or_false]

theorem opendevice_refuses (small : size ≤ 2) :
    ∃ h', (h.closedevice (some m)).1.opendevice disk (some deviceName) size' = some (h', none) := by
  rw [opendevice_closed serves mounted labelled fd low high nonempty]
  exact ⟨_, if_pos small⟩

theorem opendevice_accepts (large : 2 < size) (number : fs.mp.fsNumber = n) (short : deviceName.val.length < 20) :
    ∃ h' m', (h.closedevice (some m)).1.opendevice disk (some deviceName) size' = some (h', some m') ∧
      h'.Serves m' deviceName ((fs.moved 1).onFd disk.fd) := by
  obtain ⟨-, files, freed⟩ := closed serves mounted.opened
  rw [opendevice_closed serves mounted labelled fd low high nonempty]
  dsimp only
  rw [if_neg (by omega), ← number]
  generalize (h.closedevice (some m)).1 = after at files freed
  let host : Host := { after with descriptors := Function.update after.descriptors disk.fd (some (deviceName, 1)) }
  have free : (host.mounts m).deviceFd ≤ 0 := by
    show (after.mounts m).deviceFd ≤ 0
    omega
  obtain ⟨h', m', added⟩ := host.addNewMountPoint_of_free disk.fd fs.mp.fsNumber short free
  have present := (congrFun files deviceName).trans serves.image
  have serves' := addNewMountPoint_serves ((fs.moved 1).onFd disk.fd) added (Function.update_self ..) present mounted.sane
  exact ⟨h', m', added, serves'.2⟩

end Closed

end Host

/-! ## Closing and opening again -/

/-- The mount point that an `opendevice` returned has file system `n`, and every sequence of calls on files
opened through it gives what it would give in the session `s`. -/
def Reopened (n : Int) (s : Session) (result : Option (Host × Option (Fin 10))) : Prop :=
  ∃ h m, result = some (h, some m) ∧ (h.mounts m).fsNumber = n ∧
    ∀ calls, Machine.observations Session.step Session.reply { host := h, mountPoint := m, files := [] } calls =
      Machine.observations Session.step Session.reply { s with files := [] } calls

/-- `opendevice` makes devices of two blocks and does not take them back. -/
theorem reopened_iff {h h' h'' : Host} {disk disk' : DiskEnv} {env : Env} {deviceName : CString} {m : Fin 10}
    {size size' n r : Int} {calls : List Call} {s : Session} (fd : 0 < disk.fd) (fd' : 0 < disk'.fd)
    (absent : h.files deviceName = none) (opened : h.opendevice disk (some deviceName) size = some (h', some m))
    (format : n = 0 ∨ n = 1) (formatted : h'.createFileSystem env m n = some (h'', r))
    (reached : Machine.run Session.step { host := h'', mountPoint := m, files := [] } calls = some s)
    (low : 2 ≤ size') (high : size' ≤ 42) :
    (s.host.closedevice (some s.mountPoint)).2 = 1 ∧
      Reopened n s ((s.host.closedevice (some s.mountPoint)).1.opendevice disk' (some deviceName) size') ↔ 2 < size := by
  obtain ⟨nonempty, short, -, -, fs, serves, mounted, labelled⟩ := Host.created fd absent opened
  obtain ⟨fs₁, made, serves₁, mounted₁, number₁, labelled₁⟩ := Host.formatted serves mounted labelled format env
  obtain ⟨rfl, -⟩ := Prod.ext_iff.mp (Option.some.inj (made.symm.trans formatted))
  have start : Session.Upheld size.toNat deviceName fs₁ { host := h'.commit m fs₁, mountPoint := m, files := [] } :=
    ⟨{ fs := fs₁, files := [] }, ⟨serves₁, rfl⟩, mounted₁, rfl, fun _ _ => rfl⟩
  obtain ⟨w, ⟨servesHost, -⟩, carried⟩ := start.run reached
  have sane := carried.mounted
  have label : Labelled size n w.fs.superblock := labelled₁.congr carried.header
  have number : w.fs.mp.fsNumber = n := by rw [carried.mp, number₁]
  constructor
  · rintro ⟨-, h₁, m₁, mounted, -⟩
    by_contra small
    obtain ⟨h₂, refused⟩ := Host.opendevice_refuses servesHost sane label fd' low high nonempty (by omega)
    rw [refused] at mounted
    cases mounted
  · intro large
    obtain ⟨h₁, m₁, result, serves₂⟩ :=
      Host.opendevice_accepts servesHost sane label fd' low high nonempty large number short
    refine ⟨(Host.closed servesHost sane.opened).1, h₁, m₁, result, ?_, fun later => ?_⟩
    · rw [serves₂.mount]
      exact number
    · have alongside : Session.Alongside size.toNat deviceName { s with files := [] }
          { host := h₁, mountPoint := m₁, files := [] } :=
        ⟨{ fs := w.fs, files := [] }, disk'.fd, 1, sane, fd', ⟨servesHost, rfl⟩, serves₂, rfl⟩
      exact (alongside.observations later).symm

def Host.bare : Host where
  files _ := none
  descriptors _ := none
  mounts _ := { deviceFd := 0, deviceName := CString.empty, fsNumber := 0 }

def diskEnv : DiskEnv := ⟨3, fun _ => 0, fun _ => 0, false⟩

theorem opendevice_bare (size : Int) (low : 2 ≤ size) (high : size ≤ 42) :
    ∃ h m, Host.bare.opendevice diskEnv (some diskName) size = some (h, some m) := by
  have range : ¬(size > 42 ∨ size < 2) := by omega
  have empty : Host.bare.fopen diskEnv diskName = none := rfl
  simp only [Host.opendevice, empty, if_neg range]
  exact ⟨_, 0, rfl⟩

theorem Session.exists_run_eopen {s : Session} {deviceName : CString} {w : World} (serves : s.Serves deviceName w)
    (env : Env) (filename : CString) : ∃ s', Machine.run Session.step s [.eopen env filename] = some s' := by
  obtain ⟨result, call⟩ : ∃ result, w.exec (.eopen env filename) = some result := by
    simp only [World.exec]
    split
    · exact ⟨_, rfl⟩
    · exact ⟨_, rfl⟩
  refine ⟨s.after result.1, ?_⟩
  rw [Machine.run_cons, Session.step, Session.exec_eq serves, call]
  rfl

theorem reopened_one_file : ∃ h m h' s,
    Host.bare.opendevice diskEnv (some diskName) 3 = some (h, some m) ∧
    h.createFileSystem ⟨1, fun _ => 0, []⟩ m 1 = some (h', 1) ∧
    Machine.run Session.step { host := h', mountPoint := m, files := [] }
      [.eopen ⟨2, fun _ => 0, []⟩ ⟨[97], by decide⟩] = some s ∧
    Reopened 1 s ((s.host.closedevice (some s.mountPoint)).1.opendevice diskEnv (some diskName) 3) := by
  obtain ⟨h, m, opened⟩ := opendevice_bare 3 (by omega) (by omega)
  obtain ⟨-, -, -, -, fs, serves, mounted, labelled⟩ :=
    Host.created (h := Host.bare) (show 0 < diskEnv.fd by decide) rfl opened
  obtain ⟨fs', formatted, serves', -⟩ := Host.formatted serves mounted labelled (.inr rfl) ⟨1, fun _ => 0, []⟩
  obtain ⟨s, reached⟩ := Session.exists_run_eopen (s := { host := h.commit m fs', mountPoint := m, files := [] })
    (w := { fs := fs', files := [] }) ⟨serves', rfl⟩ ⟨2, fun _ => 0, []⟩ ⟨[97], by decide⟩
  refine ⟨h, m, h.commit m fs', s, opened, formatted, reached, ?_⟩
  exact ((reopened_iff (by decide) (by decide) rfl opened (.inr rfl) formatted reached (by decide) (by decide)).mpr
    (by decide)).2

/-- Of a device of two blocks nothing comes back. -/
theorem not_reopened_two : ¬∀ (h h' h'' : Host) (disk disk' : DiskEnv) (env : Env) (deviceName : CString) (m : Fin 10)
    (size n r : Int) (calls : List Call) (s : Session), 0 < disk.fd → 0 < disk'.fd → h.files deviceName = none →
    h.opendevice disk (some deviceName) size = some (h', some m) → n = 0 ∨ n = 1 →
    h'.createFileSystem env m n = some (h'', r) →
    Machine.run Session.step { host := h'', mountPoint := m, files := [] } calls = some s →
    (s.host.closedevice (some s.mountPoint)).2 = 1 ∧
      Reopened n s ((s.host.closedevice (some s.mountPoint)).1.opendevice disk' (some deviceName) size) := by
  intro all
  obtain ⟨h, m, opened⟩ := opendevice_bare 2 (by omega) (by omega)
  obtain ⟨nonempty, -, -, -, fs, serves, mounted, labelled⟩ :=
    Host.created (h := Host.bare) (show 0 < diskEnv.fd by decide) rfl opened
  obtain ⟨fs', formatted, serves', mounted', -, labelled'⟩ :=
    Host.formatted serves mounted labelled (.inl rfl) ⟨1, fun _ => 0, []⟩
  obtain ⟨-, h₁, m₁, result, -⟩ := all Host.bare h (h.commit m fs') diskEnv diskEnv _ diskName m 2 0 1 [] _
    (by decide) (by decide) rfl opened (.inl rfl) formatted rfl
  obtain ⟨h₂, refused⟩ := Host.opendevice_refuses serves' mounted' labelled' (show 0 < diskEnv.fd by decide)
    (le_refl 2) (by omega) nonempty (by omega)
  rw [refused] at result
  cases result

end OsLabs.Emufs
