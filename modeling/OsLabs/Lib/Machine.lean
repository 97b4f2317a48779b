import Mathlib.Data.List.Induction

/-! Deterministic labelled machines: runs, invariants of runs and simulations.

A label carries every choice its step depends on (the process that moves, the
arguments of a call, the bytes of uninitialised memory), so a run is a function
of its start and its labels. -/

set_option autoImplicit false

namespace OsLabs.Lib

/-- One labelled step; `none` is a label with no step from that state. -/
abbrev Machine (S E : Type*) := S → E → Option S

namespace Machine

variable {S E A F : Type*}

def run (step : Machine S E) : S → List E → Option S
  | s, [] => some s
  | s, e :: es => (step s e).bind fun t => run step t es

@[simp] theorem run_nil (step : Machine S E) (s : S) : run step s [] = some s := rfl

@[simp] theorem run_cons (step : Machine S E) (s : S) (e : E) (es : List E) :
    run step s (e :: es) = (step s e).bind fun t => run step t es := rfl

theorem run_append (step : Machine S E) (s : S) (es fs : List E) :
    run step s (es ++ fs) = (run step s es).bind fun t => run step t fs := by
  induction es generalizing s with
  | nil => rfl
  | cons e es ih => simp only [List.cons_append, run_cons, Option.bind_assoc, ih]

theorem run_cons_eq_some {step : Machine S E} {s u : S} {e : E} {es : List E} :
    run step s (e :: es) = some u ↔ ∃ t, step s e = some t ∧ run step t es = some u := by
  simp only [run_cons, Option.bind_eq_some_iff]

theorem run_snoc_eq_some {step : Machine S E} {s u : S} {es : List E} {e : E} :
    run step s (es ++ [e]) = some u ↔ ∃ t, run step s es = some t ∧ step t e = some u := by
  simp only [run_append, Option.bind_eq_some_iff, run_cons_eq_some, run_nil, Option.some.injEq,
    exists_eq_right]

/-- Induction along a run from a fixed start, the labels taken so far in hand. -/
theorem run_induction {step : Machine S E} {start : S} {P : List E → S → Prop}
    (first : P [] start)
    (next : ∀ es s e t, run step start es = some s → P es s → step s e = some t → P (es ++ [e]) t)
    {es : List E} {s : S} (reached : run step start es = some s) : P es s := by
  induction es using List.reverseRecOn generalizing s with
  | nil =>
    cases reached
    exact first
  | append_singleton es e ih =>
    obtain ⟨t, before, last⟩ := run_snoc_eq_some.mp reached
    exact next es t e s before (ih before) last

/-- What every step preserves holds wherever a run goes. -/
theorem invariant {step : Machine S E} {I : S → Prop}
    (preserved : ∀ s e t, I s → step s e = some t → I t)
    {s t : S} {es : List E} (start : I s) (reached : run step s es = some t) : I t :=
  run_induction (P := fun _ s => I s) start (fun _ s e t _ before => preserved s e t before) reached

/-- Where every step lowers a measure some run ends in a state with no further step. -/
theorem exists_rest {step : Machine S E} {I : S → Prop} (measure : S → Nat)
    (preserved : ∀ s e t, I s → step s e = some t → I t)
    (lowers : ∀ s e t, I s → step s e = some t → measure t < measure s) {s : S} (start : I s) :
    ∃ es t, run step s es = some t ∧ ∀ e, step t e = none := by
  by_cases rest : ∀ e, step s e = none
  · exact ⟨[], s, rfl, rest⟩
  · obtain ⟨e, more⟩ := not_forall.mp rest
    obtain ⟨t, first⟩ := Option.ne_none_iff_exists'.mp more
    have lower := lowers s e t start first
    obtain ⟨es, u, later, last⟩ := exists_rest measure preserved lowers (preserved s e t start first)
    exact ⟨e :: es, u, run_cons_eq_some.mpr ⟨t, first, later⟩, last⟩
termination_by measure s

/-- Each step of the run meets `C` in the state it is taken from. -/
def EveryStep (step : Machine S E) (C : S → E → Prop) : S → List E → Prop
  | _, [] => True
  | s, e :: es => C s e ∧ ∀ t, step s e = some t → EveryStep step C t es

theorem everyStep_cons {step : Machine S E} {C : S → E → Prop} {s t : S} {e : E} {es : List E}
    (first : step s e = some t) : EveryStep step C s (e :: es) ↔ C s e ∧ EveryStep step C t es := by
  simp only [EveryStep, first, Option.some.injEq, forall_eq']

theorem everyStep_append {step : Machine S E} {C : S → E → Prop} {s t : S} {es fs : List E}
    (reached : run step s es = some t) :
    EveryStep step C s (es ++ fs) ↔ EveryStep step C s es ∧ EveryStep step C t fs := by
  induction es generalizing s with
  | nil =>
    cases reached
    simp [EveryStep]
  | cons e es ih =>
    obtain ⟨u, first, rest⟩ := run_cons_eq_some.mp reached
    rw [List.cons_append, everyStep_cons first, everyStep_cons first, ih rest, and_assoc]

theorem EveryStep.imp_of_invariant {step : Machine S E} {C D : S → E → Prop} {I : S → Prop}
    (weaker : ∀ s e, I s → C s e → D s e) (preserved : ∀ s e t, I s → C s e → step s e = some t → I t)
    {s : S} {es : List E} (start : I s) (met : EveryStep step C s es) : EveryStep step D s es := by
  induction es generalizing s with
  | nil => trivial
  | cons e es ih =>
    exact ⟨weaker s e start met.1, fun t first => ih (preserved s e t start met.1 first) (met.2 t first)⟩

/-- Two conditions that agree under an invariant are met by the same runs, where either keeps the invariant. -/
theorem everyStep_iff_of_invariant {step : Machine S E} {K C D : S → E → Prop} {I : S → Prop}
    (same : ∀ s e, I s → K s e → (C s e ↔ D s e))
    (preserved : ∀ s e t, I s → K s e → D s e → step s e = some t → I t)
    {s : S} {es : List E} (start : I s) (domain : EveryStep step K s es) :
    EveryStep step C s es ↔ EveryStep step D s es := by
  induction es generalizing s with
  | nil => rfl
  | cons e es ih =>
    have here := same s e start domain.1
    constructor
    · rintro ⟨first, rest⟩
      have first := here.mp first
      exact ⟨first, fun t next => (ih (preserved s e t start domain.1 first next) (domain.2 t next)).mp (rest t next)⟩
    · rintro ⟨first, rest⟩
      exact ⟨here.mpr first,
        fun t next => (ih (preserved s e t start domain.1 first next) (domain.2 t next)).mpr (rest t next)⟩

theorem everyStep_congr {step : Machine S E} {C D : S → E → Prop} (same : ∀ s e t, step s e = some t → (C s e ↔ D s e))
    {s u : S} {es : List E} (reached : run step s es = some u) : EveryStep step C s es ↔ EveryStep step D s es := by
  induction es generalizing s with
  | nil => rfl
  | cons e es ih =>
    obtain ⟨t, first, rest⟩ := run_cons_eq_some.mp reached
    rw [everyStep_cons first, everyStep_cons first, same s e t first, ih rest]

theorem everyStep_and {step : Machine S E} {C D : S → E → Prop} {s : S} {es : List E} :
    EveryStep step (fun s e => C s e ∧ D s e) s es ↔ EveryStep step C s es ∧ EveryStep step D s es := by
  induction es generalizing s with
  | nil => simp [EveryStep]
  | cons e es ih => simp only [EveryStep, ih, forall_and, and_and_and_comm]

theorem everyStep_of_forall {step : Machine S E} {D : E → Prop} {s : S} {es : List E} (all : ∀ e ∈ es, D e) :
    EveryStep step (fun _ e => D e) s es := by
  induction es generalizing s with
  | nil => trivial
  | cons e es ih =>
    exact ⟨all e List.mem_cons_self, fun t _ => ih fun f member => all f (List.mem_cons_of_mem e member)⟩

theorem everyStep_taken {step : Machine S E} {s t : S} {es : List E} (reached : run step s es = some t) :
    EveryStep step (fun s e => ∃ t, step s e = some t) s es := by
  refine (everyStep_congr (D := fun _ _ => True) (fun s e t taken => ?_) reached).mpr (everyStep_of_forall fun _ _ => trivial)
  exact iff_true_intro ⟨t, taken⟩

/-- `C` holds at every step exactly when it holds after every part of the run. -/
theorem everyStep_iff {step : Machine S E} {C : S → E → Prop} {s : S} {es : List E} :
    EveryStep step C s es ↔ ∀ fs e gs t, es = fs ++ e :: gs → run step s fs = some t → C t e := by
  constructor
  · rintro met fs e gs t rfl reached
    exact ((everyStep_append reached).mp met).2.1
  · intro met
    induction es generalizing s with
    | nil => trivial
    | cons e es ih =>
      refine ⟨met [] e es s rfl rfl, fun t first => ih fun fs f gs u split reached => ?_⟩
      apply met (e :: fs) f gs u (by rw [split, List.cons_append])
      exact run_cons_eq_some.mpr ⟨t, first, reached⟩

theorem invariant_of_everyStep {step : Machine S E} {C : S → E → Prop} {I : S → Prop}
    (preserved : ∀ s e t, I s → C s e → step s e = some t → I t) {s t : S} {es : List E}
    (start : I s) (met : EveryStep step C s es) (reached : run step s es = some t) : I t := by
  induction es generalizing s with
  | nil =>
    cases reached
    exact start
  | cons e es ih =>
    obtain ⟨u, first, rest⟩ := run_cons_eq_some.mp reached
    exact ih (preserved s e u start met.1 first) (met.2 u first) rest

/-- A test of every step, to be evaluated along one run. -/
def checkRun (step : Machine S E) (check : S → E → Bool) : S → List E → Bool
  | _, [] => true
  | s, e :: es => check s e && (step s e).all fun t => checkRun step check t es

theorem everyStep_of_checkRun {step : Machine S E} {C : S → E → Prop} {check : S → E → Bool}
    (sound : ∀ s e, check s e = true → C s e) {s : S} {es : List E} (checked : checkRun step check s es = true) :
    EveryStep step C s es := by
  induction es generalizing s with
  | nil => trivial
  | cons e es ih =>
    obtain ⟨here, rest⟩ := Bool.and_eq_true_iff.mp checked
    refine ⟨sound s e here, fun t first => ih ?_⟩
    rwa [first] at rest

/-- The machine that keeps what each step gave back, oldest first. -/
def record {R : Type*} (exec : S → E → Option (S × R)) : Machine (S × List R) E :=
  fun s e => (exec s.1 e).map fun result => (result.1, s.2 ++ [result.2])

theorem record_eq_some {R : Type*} {exec : S → E → Option (S × R)} {s t : S} {log log' : List R} {e : E} :
    record exec (s, log) e = some (t, log') ↔ ∃ r, exec s e = some (t, r) ∧ log' = log ++ [r] := by
  constructor
  · intro step
    obtain ⟨⟨u, r⟩, call, same⟩ := Option.map_eq_some_iff.mp step
    cases same
    exact ⟨r, call, rfl⟩
  · rintro ⟨r, call, rfl⟩
    simp [record, call]

/-- The machine with a history beside it that every step taken adds to. -/
def watch {H : Type*} (note : S → E → H → H) (step : Machine S E) : Machine (S × H) E :=
  fun x e => (step x.1 e).map fun t => (t, note x.1 e x.2)

theorem watch_eq_some {H : Type*} {note : S → E → H → H} {step : Machine S E} {x y : S × H} {e : E} :
    watch note step x e = some y ↔ step x.1 e = some y.1 ∧ y.2 = note x.1 e x.2 := by
  rw [watch, Option.map_eq_some_iff]
  constructor
  · rintro ⟨t, taken, rfl⟩
    exact ⟨taken, rfl⟩
  · rintro ⟨taken, same⟩
    exact ⟨y.1, taken, by rw [← same]⟩

theorem watch_map {R H : Type*} {exec : S → E → Option (S × R)} {note : S → E → H → H} {x y : S × H} {e : E}
    (taken : watch note (fun s e => (exec s e).map Prod.fst) x e = some y) :
    (∃ r, exec x.1 e = some (y.1, r)) ∧ y.2 = note x.1 e x.2 := by
  obtain ⟨step, noted⟩ := watch_eq_some.mp taken
  obtain ⟨⟨t, r⟩, call, same⟩ := Option.map_eq_some_iff.mp step
  obtain rfl : t = y.1 := same
  exact ⟨⟨r, call⟩, noted⟩

theorem exists_watch {H : Type*} {note : S → E → H → H} {step : Machine S E} {x : S × H} {e : E} {t : S}
    (taken : step x.1 e = some t) : ∃ y, watch note step x e = some y :=
  ⟨(t, note x.1 e x.2), watch_eq_some.mpr ⟨taken, rfl⟩⟩

/-- The observations `observe` makes of the steps of a run. -/
def observations (step : Machine S E) (observe : S → E → F) : S → List E → List F
  | _, [] => []
  | s, e :: es => observe s e :: ((step s e).elim [] fun t => observations step observe t es)

/-- Two machines that stay related and agree on every step under `C` make the same
observations, and stop at the same label. -/
theorem observations_congr {step : Machine S E} {other : Machine A E} {C : S → E → Prop} {observe : S → E → F}
    {observe' : A → E → F} {R : S → A → Prop}
    (agree : ∀ s a e, R s a → C s e → observe s e = observe' a e ∧ Option.Rel R (step s e) (other a e))
    {s : S} {a : A} {es : List E} (related : R s a) (met : EveryStep step C s es) :
    observations step observe s es = observations other observe' a es := by
  induction es generalizing s a with
  | nil => rfl
  | cons e es ih =>
    obtain ⟨same, next⟩ := agree s a e related met.1
    have rest := met.2
    simp only [observations, same, List.cons.injEq, true_and]
    generalize step s e = t at next rest
    generalize other a e = b at next
    cases next with
    | some related' => exact ih related' (rest _ rfl)
    | none => rfl

theorem rel_bind {R : S → A → Prop} {Q : E → F → Prop} {x : Option S} {y : Option A} {f : S → Option E}
    {g : A → Option F} (related : Option.Rel R x y) (next : ∀ s a, x = some s → R s a → Option.Rel Q (f s) (g a)) :
    Option.Rel Q (x.bind f) (y.bind g) := by
  cases related with
  | none => exact .none
  | some related => exact next _ _ rfl related

theorem run_rel {step : Machine S E} {other : Machine A E} {C : S → E → Prop} {R : S → A → Prop}
    (agree : ∀ s a e, R s a → C s e → Option.Rel R (step s e) (other a e))
    {s : S} {a : A} {es : List E} (related : R s a) (met : EveryStep step C s es) :
    Option.Rel R (run step s es) (run other a es) := by
  induction es generalizing s a with
  | nil => exact .some related
  | cons e es ih =>
    rw [run_cons, run_cons]
    apply rel_bind (agree s a e related met.1)
    intro t b first related'
    exact ih related' (met.2 t first)

/-- Where equal observations of a step can only be made under `C`, runs with equal
observations have met it at every step. -/
theorem everyStep_of_observations_eq {step : Machine S E} {other : Machine A E} {C : S → E → Prop}
    {observe : S → E → F} {observe' : A → E → F} {R : S → A → Prop}
    (agree : ∀ s a e, R s a → C s e → observe s e = observe' a e ∧ Option.Rel R (step s e) (other a e))
    (only : ∀ s a e, R s a → observe s e = observe' a e → C s e)
    {s : S} {a : A} {es : List E} (related : R s a)
    (same : observations step observe s es = observations other observe' a es) : EveryStep step C s es := by
  induction es generalizing s a with
  | nil => trivial
  | cons e es ih =>
    simp only [observations, List.cons.injEq] at same
    have met := only s a e related same.1
    refine ⟨met, fun t first => ?_⟩
    have next := (agree s a e related met).2
    have rest := same.2
    rw [first] at next rest
    generalize other a e = b at next rest
    cases next with
    | some related' => exact ih related' rest

/-- A forward simulation, step by step under `C`, lifts to runs: the abstract machine
follows the observations of the concrete run. -/
theorem simulation {step : Machine S E} {abstract : Machine A F} {C : S → E → Prop}
    {observe : S → E → F} {R : S → A → Prop}
    (follows : ∀ s a e t, R s a → C s e → step s e = some t →
      ∃ b, abstract a (observe s e) = some b ∧ R t b)
    {s t : S} {a : A} {es : List E} (related : R s a) (met : EveryStep step C s es)
    (reached : run step s es = some t) :
    ∃ b, run abstract a (observations step observe s es) = some b ∧ R t b := by
  induction es generalizing s a with
  | nil =>
    cases reached
    exact ⟨a, rfl, related⟩
  | cons e es ih =>
    obtain ⟨u, first, rest⟩ := run_cons_eq_some.mp reached
    obtain ⟨b, move, related'⟩ := follows s a e u related met.1 first
    obtain ⟨c, moves, final⟩ := ih related' (met.2 u first) rest
    refine ⟨c, ?_, final⟩
    simp only [observations, first, Option.elim_some, run_cons, move, Option.bind_some, moves]

end Machine

end OsLabs.Lib
