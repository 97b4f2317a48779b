import Mathlib.Logic.Function.Basic

/-! A forest of processes in the slots of a table. A slot is claimed for a child before the
child has a parent, and lives from when it is published; a process hands its children to
its own parent before it dies, and a dead one keeps its slot until its parent reaps it. -/

set_option autoImplicit false

namespace OsLabs.Reparent

inductive Life where
  | free | claimed | live | dead
  deriving DecidableEq

/-- `builds` is the slot a process has claimed for a child, and whether the child has been
linked to it yet. -/
structure Family (Slot : Type*) where
  life : Slot → Life
  pid : Slot → Int
  parent : Slot → Option Slot
  builds : Slot → Option (Slot × Bool)
  next : Int

namespace Family

variable {Slot : Type*} [DecidableEq Slot]

def claim (f : Family Slot) (p i : Slot) : Family Slot where
  life := Function.update f.life i .claimed
  pid := Function.update f.pid i f.next
  parent := f.parent
  builds := Function.update f.builds p (some (i, false))
  next := f.next + 1

def giveUp (f : Family Slot) (p i : Slot) : Family Slot :=
  { f with life := Function.update f.life i .free, builds := Function.update f.builds p none }

def link (f : Family Slot) (p i : Slot) : Family Slot :=
  { f with
    parent := Function.update f.parent i (some p)
    builds := Function.update f.builds p (some (i, true)) }

def publish (f : Family Slot) (p i : Slot) : Family Slot :=
  { f with life := Function.update f.life i .live, builds := Function.update f.builds p none }

def handOver (f : Family Slot) (p t : Slot) : Family Slot :=
  { f with parent := fun q => if f.parent q = some p then some t else f.parent q }

def die (f : Family Slot) (p : Slot) : Family Slot := { f with life := Function.update f.life p .dead }

def reap (f : Family Slot) (q : Slot) : Family Slot :=
  { f with
    life := Function.update f.life q .free
    pid := Function.update f.pid q 0
    parent := Function.update f.parent q none }

/-- What can become of a family whose first process is `init`. -/
inductive Change (init : Slot) (f : Family Slot) : Family Slot → Prop where
  | none : Change init f f
  | claim (p i : Slot) (alive : f.life p = .live) (idle : f.builds p = none) (free : f.life i = .free) :
      Change init f (f.claim p i)
  | giveUp (p i : Slot) (builds : f.builds p = some (i, false)) : Change init f (f.giveUp p i)
  | link (p i : Slot) (alive : f.life p = .live) (builds : f.builds p = some (i, false)) : Change init f (f.link p i)
  | publish (p i : Slot) (builds : f.builds p = some (i, true)) : Change init f (f.publish p i)
  | handOver (p t : Slot) (parent : f.parent p = some t) (idle : f.builds p = none) : Change init f (f.handOver p t)
  | die (p : Slot) (other : p ≠ init) (alive : f.life p = .live) (idle : f.builds p = none)
      (childless : ∀ q, f.parent q ≠ some p) : Change init f (f.die p)
  | reap (q : Slot) (dead : f.life q = .dead) : Change init f (f.reap q)

structure Sound (init : Slot) (f : Family Slot) : Prop where
  initLives : f.life init = .live
  building : ∀ p i linked, f.builds p = some (i, linked) →
    f.life p = .live ∧ f.life i = .claimed ∧ f.parent i = (if linked then some p else none) ∧ f.pid p < f.pid i
  builder : ∀ i, f.life i = .claimed → ∃ p linked, f.builds p = some (i, linked)
  builders : ∀ p q i b c, f.builds p = some (i, b) → f.builds q = some (i, c) → p = q
  free : ∀ i, f.life i = .free → f.parent i = none
  parentLives : ∀ q r, f.parent q = some r → f.life r = .live
  adopted : ∀ q, f.life q = .live ∨ f.life q = .dead → q ≠ init → ∃ r, f.parent q = some r
  older : ∀ q r, f.parent q = some r → f.pid r < f.pid q
  pids : ∀ q r, f.pid q = f.pid r → f.pid q ≠ 0 → q = r
  fresh : ∀ q, 0 ≤ f.pid q ∧ f.pid q < f.next
  numbered : ∀ q, f.life q ≠ .free → f.pid q ≠ 0

namespace Sound

variable {init : Slot} {f g : Family Slot}

omit [DecidableEq Slot] in
theorem slot_of_pid (sound : Sound init f) {q r : Slot} (used : f.life r ≠ .free) (same : f.pid q = f.pid r) : q = r :=
  sound.pids q r same (same ▸ sound.numbered r used)

theorem claim (sound : Sound init f) {p i : Slot} (alive : f.life p = .live) (idle : f.builds p = none)
    (free : f.life i = .free) : Sound init (f.claim p i) := by
  -- the new pid is next, larger than every one given out: p is older than i
  have orphan := sound.free i free
  have below := sound.fresh i
  have below' := sound.fresh p
  constructor
  all_goals simp only [Family.claim, Function.update_apply]
  · grind [sound.initLives]
  · grind [sound.building]
  · intro j claimed
    by_cases same : j = i
    · exact ⟨p, false, by simp [same]⟩
    · rw [if_neg same] at claimed
      obtain ⟨q, linked, builds⟩ := sound.builder j claimed
      exact ⟨q, linked, by grind⟩
  · intro q r j b c first second
    -- nobody builds in a free slot
    have unclaimed : ∀ q b, f.builds q ≠ some (i, b) := by
      intro q b builds
      have claimed := (sound.building q i b builds).2.1
      simp [free] at claimed
    grind [sound.builders]
  · grind [sound.free]
  · grind [sound.parentLives]
  · grind [sound.adopted]
  · intro q r parent
    have older := sound.older q r parent
    have alive := sound.parentLives q r parent
    grind
  · intro q r same numbered
    have left := sound.fresh q
    have right := sound.fresh r
    have pids := sound.pids q r
    grind
  · intro q
    have fresh := sound.fresh q
    grind
  · intro q used
    have numbered := sound.numbered q
    grind

theorem giveUp (sound : Sound init f) {p i : Slot} (builds : f.builds p = some (i, false)) :
    Sound init (f.giveUp p i) := by
  obtain ⟨alive, claimed, orphan, -⟩ := sound.building p i false builds
  constructor
  all_goals simp only [Family.giveUp, Function.update_apply]
  · grind [sound.initLives]
  · grind [sound.building, sound.builders]
  · intro j claimed
    by_cases same : j = i
    · simp [same] at claimed
    · rw [if_neg same] at claimed
      obtain ⟨q, linked, builds'⟩ := sound.builder j claimed
      exact ⟨q, linked, by grind⟩
  · grind [sound.builders]
  · grind [sound.free]
  · grind [sound.parentLives]
  · grind [sound.adopted]
  · exact sound.older
  · exact sound.pids
  · exact sound.fresh
  · grind [sound.numbered]

theorem link (sound : Sound init f) {p i : Slot} (alive : f.life p = .live) (builds : f.builds p = some (i, false)) :
    Sound init (f.link p i) := by
  obtain ⟨-, claimed, orphan, older⟩ := sound.building p i false builds
  constructor
  all_goals simp only [Family.link, Function.update_apply]
  · exact sound.initLives
  · grind [sound.building, sound.builders]
  · intro j claimed
    obtain ⟨q, linked, builds'⟩ := sound.builder j claimed
    by_cases same : q = p
    · exact ⟨p, true, by grind⟩
    · exact ⟨q, linked, by grind⟩
  · grind [sound.builders]
  · grind [sound.free]
  · grind [sound.parentLives]
  · grind [sound.adopted]
  · intro q r parent
    have before := sound.older q r
    grind
  · exact sound.pids
  · exact sound.fresh
  · exact sound.numbered

theorem publish (sound : Sound init f) {p i : Slot} (builds : f.builds p = some (i, true)) :
    Sound init (f.publish p i) := by
  obtain ⟨alive, claimed, linked, -⟩ := sound.building p i true builds
  constructor
  all_goals simp only [Family.publish, Function.update_apply]
  · grind [sound.initLives]
  · grind [sound.building, sound.builders]
  · intro j claimed
    by_cases same : j = i
    · simp [same] at claimed
    · rw [if_neg same] at claimed
      obtain ⟨q, linked, builds'⟩ := sound.builder j claimed
      exact ⟨q, linked, by grind⟩
  · grind [sound.builders]
  · grind [sound.free]
  · grind [sound.parentLives]
  · grind [sound.adopted]
  · exact sound.older
  · exact sound.pids
  · exact sound.fresh
  · grind [sound.numbered]

/-- The children of `p` become those of the parent of `p`, which is older still. -/
theorem handOver (sound : Sound init f) {p t : Slot} (parent : f.parent p = some t) (idle : f.builds p = none) :
    Sound init (f.handOver p t) := by
  have alive := sound.parentLives p t parent
  have older := sound.older p t parent
  constructor
  all_goals simp only [Family.handOver]
  · exact sound.initLives
  · grind [sound.building]
  · exact sound.builder
  · exact sound.builders
  · grind [sound.free]
  · grind [sound.parentLives]
  · grind [sound.adopted]
  · intro q r passed
    -- a child of p is younger than p, and p than t
    have before := sound.older q
    grind
  · exact sound.pids
  · exact sound.fresh
  · exact sound.numbered

theorem die (sound : Sound init f) {p : Slot} (other : p ≠ init) (alive : f.life p = .live) (idle : f.builds p = none)
    (childless : ∀ q, f.parent q ≠ some p) : Sound init (f.die p) := by
  constructor
  all_goals simp only [Family.die, Function.update_apply]
  · grind [sound.initLives]
  · grind [sound.building]
  · intro j claimed
    by_cases same : j = p
    · simp [same] at claimed
    · rw [if_neg same] at claimed
      exact sound.builder j claimed
  · exact sound.builders
  · grind [sound.free]
  · grind [sound.parentLives]
  · grind [sound.adopted]
  · exact sound.older
  · exact sound.pids
  · exact sound.fresh
  · grind [sound.numbered]

theorem reap (sound : Sound init f) {q : Slot} (dead : f.life q = .dead) : Sound init (f.reap q) := by
  have childless : ∀ r, f.parent r ≠ some q := by
    intro r child
    have alive := sound.parentLives r q child
    simp [dead] at alive
  have below := sound.fresh q
  constructor
  all_goals simp only [Family.reap, Function.update_apply]
  · grind [sound.initLives]
  · grind [sound.building]
  · intro j claimed
    by_cases same : j = q
    · simp [same] at claimed
    · rw [if_neg same] at claimed
      exact sound.builder j claimed
  · exact sound.builders
  · grind [sound.free]
  · grind [sound.parentLives]
  · grind [sound.adopted]
  · intro r t parent
    have before := sound.older r t
    grind
  · grind [sound.pids]
  · intro r
    have fresh := sound.fresh r
    grind
  · grind [sound.numbered]

theorem change (sound : Sound init f) (change : Change init f g) : Sound init g := by
  cases change with
  | none => exact sound
  | claim p i alive idle free => exact sound.claim alive idle free
  | giveUp p i builds => exact sound.giveUp builds
  | link p i alive builds => exact sound.link alive builds
  | publish p i builds => exact sound.publish builds
  | handOver p t parent idle => exact sound.handOver parent idle
  | die p other alive idle childless => exact sound.die other alive idle childless
  | reap q dead => exact sound.reap dead

theorem handOver_childless (sound : Sound init f) {p t : Slot} (parent : f.parent p = some t) (q : Slot) :
    (f.handOver p t).parent q ≠ some p := by
  have older := sound.older p t parent
  simp only [Family.handOver]
  split
  · rintro ⟨⟩
    exact Int.lt_irrefl _ older
  · next other => exact other

end Sound

end Family

end OsLabs.Reparent
