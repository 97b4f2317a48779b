import Mathlib.Data.List.Induction
import OsLabs.Lib.Pointers
import OsLabs.Lib.Segments

/-! The pipe shell of plumb.c: the argument lists of the stages of a pipeline. -/

set_option autoImplicit false

namespace OsLabs.Shell.Plumb

open OsLabs.Lib

def maxNumTokens : Nat := 64

inductive Outcome where
  | blank
  | exited
  | ran (commands : List (List String))
  deriving DecidableEq

/-- The pipes counted; `a1` and `b1` are read only once they are set. -/
structure Pipes where
  noPipes : Nat
  a1 : Nat
  b1 : Nat
  deriving DecidableEq

def Pipes.token (p : Pipes) : String × Nat → Pipes
  | (t, i) =>
    if t = "|" then
      if p.noPipes + 1 = 1 then { p with noPipes := p.noPipes + 1, a1 := i }
      else { p with noPipes := p.noPipes + 1, b1 := i }
    else p

def pipes (tokens : List String) : Pipes := tokens.zipIdx.foldl Pipes.token ⟨0, 0, 0⟩

/-- `for (i = first; i < last; i++) cmd[i - first] = tokens[i]` into a new array. -/
def copy (tokens : List String) (first last : Nat) : Option (Pointers String) :=
  (List.range' first (last - first)).foldlM
    (fun cmd i => Pointers.store maxNumTokens cmd (i - first) tokens[i]?) Pointers.null

/-- A line other than `exit`, from `int no_pipes` on. -/
def launch (tokens : List String) : Option Outcome :=
  let p := pipes tokens
  if p.noPipes = 0 then some (.ran [tokens])
  else if p.noPipes = 1 then do
    let cmd1 ← copy tokens 0 p.a1
    let cmd1 ← cmd1.store maxNumTokens p.a1 none
    let cmd2 ← copy tokens (p.a1 + 1) tokens.length
    let cmd2 ← cmd2.store maxNumTokens (tokens.length - p.a1 - 1) none
    let argv1 ← cmd1.read maxNumTokens
    let argv2 ← cmd2.read maxNumTokens
    return .ran [argv1, argv2]
  else if p.noPipes = 2 then do
    let cmd1 ← copy tokens 0 p.a1
    let cmd1 ← cmd1.store maxNumTokens p.a1 none
    let cmd2 ← copy tokens (p.a1 + 1) p.b1
    let cmd2 ← cmd2.store maxNumTokens (p.b1 - p.a1 - 1) none
    let cmd3 ← copy tokens (p.b1 + 1) tokens.length
    -- the NULL meant for cmd3
    let cmd2 ← cmd2.store maxNumTokens (tokens.length - p.b1 - 1) none
    let argv1 ← cmd1.read maxNumTokens
    let argv2 ← cmd2.read maxNumTokens
    let argv3 ← cmd3.read maxNumTokens
    return .ran [argv1, argv2, argv3]
  else some (.ran [])

def main : List String → Option Outcome
  | [] => some .blank
  | first :: rest => if first = "exit" then some .exited else launch (first :: rest)

/-! ## The stages -/

theorem foldl_token_plain {seg : List String} (plain : "|" ∉ seg) (n : Nat) (p : Pipes) :
    (seg.zipIdx n).foldl Pipes.token p = p := by
  induction seg generalizing n with
  | nil => rfl
  | cons t seg ih =>
    have other : t ≠ "|" := fun same => plain (same ▸ List.mem_cons_self)
    rw [List.zipIdx_cons, List.foldl_cons, Pipes.token, if_neg other]
    exact ih (fun later => plain (List.mem_cons_of_mem t later)) (n + 1)

theorem pipes_two_stages {s₁ s₂ : List String} (plain₁ : "|" ∉ s₁) (plain₂ : "|" ∉ s₂) :
    pipes (s₁ ++ "|" :: s₂) = ⟨1, s₁.length, 0⟩ := by
  rw [pipes, List.zipIdx_append, List.foldl_append, foldl_token_plain plain₁, List.zipIdx_cons, List.foldl_cons,
    foldl_token_plain plain₂, Nat.zero_add]
  rfl

theorem pipes_three_stages {s₁ s₂ s₃ : List String} (plain₁ : "|" ∉ s₁) (plain₂ : "|" ∉ s₂) (plain₃ : "|" ∉ s₃) :
    pipes (s₁ ++ "|" :: (s₂ ++ "|" :: s₃)) = ⟨2, s₁.length, s₁.length + 1 + s₂.length⟩ := by
  rw [pipes, List.zipIdx_append, List.foldl_append, foldl_token_plain plain₁, List.zipIdx_cons, List.foldl_cons,
    List.zipIdx_append, List.foldl_append, foldl_token_plain plain₂, List.zipIdx_cons, List.foldl_cons,
    foldl_token_plain plain₃, Nat.zero_add]
  rfl

theorem copy_stretch (xs : List String) {seg : List String} (ys : List String) (few : seg.length < 64) :
    copy (xs ++ (seg ++ ys)) xs.length (xs.length + seg.length) = some (Pointers.ofList seg) := by
  rw [copy, Nat.add_sub_cancel_left]
  induction seg using List.reverseRecOn generalizing ys with
  | nil => rw [Pointers.ofList_nil]; rfl
  | append_singleton seg t ih =>
    rw [List.length_append, List.length_singleton] at few
    have here : (xs ++ (seg ++ t :: ys))[xs.length + seg.length]? = some t := by
      rw [List.getElem?_append_right (Nat.le_add_right ..), Nat.add_sub_cancel_left,
        List.getElem?_append_right (Nat.le_refl _), Nat.sub_self]
      rfl
    rw [← List.append_cons, List.length_append, List.length_singleton, List.range'_1_concat, List.foldlM_append,
      ih (t :: ys) (by omega)]
    change (Pointers.store maxNumTokens (Pointers.ofList seg) _ _ >>= pure) = _
    rw [here, Nat.add_sub_cancel_left, Pointers.store_of_lt _ _ (show seg.length < maxNumTokens from Nat.lt_of_succ_lt few)]
    exact congrArg some (by simpa using Pointers.update_ofList seg [] t)

theorem launch_two_stages {s₁ s₂ : List String} (plain₁ : "|" ∉ s₁) (plain₂ : "|" ∉ s₂)
    (few : (s₁ ++ "|" :: s₂).length < 64) : launch (s₁ ++ "|" :: s₂) = some (.ran [s₁, s₂]) := by
  have length : (s₁ ++ "|" :: s₂).length = s₁.length + 1 + s₂.length := by
    rw [List.length_append, List.length_cons]
    omega
  have short₁ : s₁.length < maxNumTokens := by simp only [maxNumTokens]; omega
  have short₂ : s₂.length < maxNumTokens := by simp only [maxNumTokens]; omega
  have first : copy (s₁ ++ "|" :: s₂) 0 s₁.length = some (Pointers.ofList s₁) := by
    simpa using copy_stretch [] ("|" :: s₂) short₁
  have second : copy (s₁ ++ "|" :: s₂) (s₁.length + 1) (s₁.length + 1 + s₂.length) = some (Pointers.ofList s₂) := by
    simpa using copy_stretch (s₁ ++ ["|"]) [] short₂
  have behind : s₁.length + 1 + s₂.length - s₁.length - 1 = s₂.length := by omega
  simp [launch, pipes_two_stages plain₁ plain₂, length, first, second, behind, Pointers.store_of_lt, short₁, short₂,
    Pointers.update_ofList_none, Pointers.read_ofList]

/-- With two pipes the second stage ends where the third does. -/
theorem launch_three_stages {s₁ s₂ s₃ : List String} (plain₁ : "|" ∉ s₁) (plain₂ : "|" ∉ s₂) (plain₃ : "|" ∉ s₃)
    (few : (s₁ ++ "|" :: (s₂ ++ "|" :: s₃)).length < 64) :
    launch (s₁ ++ "|" :: (s₂ ++ "|" :: s₃)) = some (.ran [s₁, s₂.take s₃.length, s₃]) := by
  have length : (s₁ ++ "|" :: (s₂ ++ "|" :: s₃)).length = s₁.length + 1 + s₂.length + 1 + s₃.length := by
    rw [List.length_append, List.length_cons, List.length_append, List.length_cons]
    omega
  have short₁ : s₁.length < maxNumTokens := by simp only [maxNumTokens]; omega
  have short₂ : s₂.length < maxNumTokens := by simp only [maxNumTokens]; omega
  have short₃ : s₃.length < maxNumTokens := by simp only [maxNumTokens]; omega
  have first : copy (s₁ ++ "|" :: (s₂ ++ "|" :: s₃)) 0 s₁.length = some (Pointers.ofList s₁) := by
    simpa using copy_stretch [] ("|" :: (s₂ ++ "|" :: s₃)) short₁
  have second : copy (s₁ ++ "|" :: (s₂ ++ "|" :: s₃)) (s₁.length + 1) (s₁.length + 1 + s₂.length) =
      some (Pointers.ofList s₂) := by
    simpa using copy_stretch (s₁ ++ ["|"]) ("|" :: s₃) short₂
  have third : copy (s₁ ++ "|" :: (s₂ ++ "|" :: s₃)) (s₁.length + 1 + s₂.length + 1)
      (s₁.length + 1 + s₂.length + 1 + s₃.length) = some (Pointers.ofList s₃) := by
    simpa [Nat.add_assoc, Nat.add_comm, Nat.add_left_comm] using copy_stretch (s₁ ++ "|" :: s₂ ++ ["|"]) [] short₃
  have behind₂ : s₁.length + 1 + s₂.length - s₁.length - 1 = s₂.length := by omega
  have behind₃ : s₁.length + 1 + s₂.length + 1 + s₃.length - (s₁.length + 1 + s₂.length) - 1 = s₃.length := by omega
  simp [launch, pipes_three_stages plain₁ plain₂ plain₃, length, first, second, third, behind₂, behind₃,
    Pointers.store_of_lt, short₁, short₂, short₃, Pointers.update_ofList_none, Pointers.read_ofList,
    Pointers.read_update_none]

theorem main_eq_launch {tokens : List String} (nonempty : tokens ≠ []) (staying : tokens.head? ≠ some "exit") :
    main tokens = launch tokens := by
  cases tokens with
  | nil => exact absurd rfl nonempty
  | cons first rest => exact if_neg fun same => staying (congrArg some same)

/-- The stages of a line with one or two pipes are passed on as they stand just when there
are not three of them with the third shorter than the second. -/
theorem main_runs_stages_iff (tokens : List String) (few : tokens.length < 64) (staying : tokens.head? ≠ some "exit")
    (piped : tokens.count "|" = 1 ∨ tokens.count "|" = 2) :
    main tokens = some (.ran (tokens.splitOn "|")) ↔
      ∀ s₁ s₂ s₃, tokens.splitOn "|" = [s₁, s₂, s₃] → s₂.length ≤ s₃.length := by
  have found : "|" ∈ tokens := List.count_pos_iff.mp (by omega)
  rw [main_eq_launch (List.ne_nil_of_mem found) staying]
  obtain ⟨s₁, rest, rfl, plain₁⟩ := List.eq_append_cons_of_mem found
  rw [List.count_append, List.count_eq_zero_of_not_mem plain₁, List.count_cons_self] at piped
  rw [List.splitOn_append_cons_self_of_not_mem plain₁]
  by_cases second : "|" ∈ rest
  · obtain ⟨s₂, s₃, rfl, plain₂⟩ := List.eq_append_cons_of_mem second
    have plain₃ : "|" ∉ s₃ := by
      rw [List.count_append, List.count_cons_self] at piped
      exact List.count_eq_zero.mp (by omega)
    rw [List.splitOn_append_cons_self_of_not_mem plain₂, List.splitOn_eq_singleton plain₃,
      launch_three_stages plain₁ plain₂ plain₃ few, Option.some.injEq, Outcome.ran.injEq]
    constructor
    · intro same s₁ s₂ s₃ stages
      obtain ⟨rfl, rfl, rfl⟩ : _ ∧ _ ∧ _ := by simpa using stages
      have whole : s₂.take s₃.length = s₂ := by simpa using same
      rw [← whole]
      exact List.length_take_le ..
    · intro longer
      rw [List.take_of_length_le (longer s₁ s₂ s₃ rfl)]
  · rw [List.splitOn_eq_singleton second]
    refine iff_of_true (launch_two_stages plain₁ second few) fun _ _ _ stages => ?_
    cases stages

theorem main_runs_stages_growing :
    main ["ls", "|", "wc", "|", "tr", "a"] = some (.ran [["ls"], ["wc"], ["tr", "a"]]) :=
  (main_runs_stages_iff ["ls", "|", "wc", "|", "tr", "a"] (by decide) (by decide) (by decide)).mpr
    fun s₁ s₂ s₃ stages => by
      have cut : ["ls", "|", "wc", "|", "tr", "a"].splitOn "|" = [["ls"], ["wc"], ["tr", "a"]] := by decide
      obtain ⟨rfl, rfl, rfl⟩ : ["ls"] = s₁ ∧ ["wc"] = s₂ ∧ ["tr", "a"] = s₃ := by simpa [cut] using stages
      decide

/-- `tr a b` before `wc` is run as `tr`. -/
theorem main_cuts_second_stage :
    main ["ls", "|", "tr", "a", "b", "|", "wc"] = some (.ran [["ls"], ["tr"], ["wc"]]) ∧
      ["ls", "|", "tr", "a", "b", "|", "wc"].splitOn "|" = [["ls"], ["tr", "a", "b"], ["wc"]] := by
  decide

end OsLabs.Shell.Plumb
