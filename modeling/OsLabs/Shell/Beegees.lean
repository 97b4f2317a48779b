import OsLabs.Lib.Pointers
import OsLabs.Lib.Segments

/-! The `&&` shell of beegees.c: what one line of tokens makes it run. -/

set_option autoImplicit false

namespace OsLabs.Shell.Beegees

open OsLabs.Lib

def maxNumTokens : Nat := 64

/-- What `main` does with a line, with the argument lists it gives to `execvp`. -/
inductive Outcome where
  | blank
  | unexpected
  | exited
  | ran (commands : List (List String))
  deriving DecidableEq

/-- The locals of the `&&` branch. A child leaves through `execvp` or `exit`, so `pid` is
never 0 in the loop. -/
structure Split where
  temp : Pointers String
  tempCounter : Nat
  commands : List (List String)

namespace Split

def spawn (s : Split) : Option Split :=
  match s.temp 0 with
  | none => some s
  | some _ => (s.temp.read maxNumTokens).map fun argv => { s with commands := s.commands ++ [argv] }

def token (s : Split) (t : String) : Option Split :=
  if t = "&&" then { s with tempCounter := 0 }.spawn
  else (Pointers.store maxNumTokens s.temp s.tempCounter (some t)).map fun temp =>
    { s with temp, tempCounter := s.tempCounter + 1 }

def initial : Split := ⟨Pointers.null, 0, []⟩

end Split

def main : List String → Option Outcome
  | [] => some .blank
  | first :: rest =>
    if first = "&&" then some .unexpected
    else if first = "exit" then some .exited
    else if (first :: rest).count "&&" = 0 then some (.ran [first :: rest])
    else do
      let s ← (first :: rest).foldlM Split.token Split.initial
      let s ← s.spawn
      return .ran s.commands

/-! ## The argument lists -/

/-- The argument lists of the segments, when `old` was left in `temp`. -/
def argvs (old : List String) : List (List String) → List (List String)
  | [] => []
  | seg :: rest =>
    let ws := seg ++ old.drop seg.length
    (if ws = [] then [] else [ws]) ++ argvs ws rest

theorem length_overwritten {seg old : List String} :
    (seg ++ old.drop seg.length).length = max seg.length old.length := by
  rw [List.length_append, List.length_drop]
  omega

theorem Split.spawn_ofList {ws : List String} (n : Nat) (commands : List (List String)) (short : ws.length < 64) :
    spawn ⟨Pointers.ofList ws, n, commands⟩ =
      some ⟨Pointers.ofList ws, n, commands ++ if ws = [] then [] else [ws]⟩ := by
  cases ws with
  | nil => simp [spawn, Pointers.ofList]
  | cons w ws =>
    have first : Pointers.ofList (w :: ws) 0 = some w := rfl
    simp only [spawn, first, Pointers.read_ofList (show (w :: ws).length < maxNumTokens from short), Option.map_some,
      reduceCtorEq, if_false]

/-- The tokens of a segment overwrite those left there. -/
theorem Split.foldlM_segment {seg : List String} (plain : "&&" ∉ seg) (old done : List String)
    (commands : List (List String)) (short : (done ++ seg).length < 64) :
    seg.foldlM token ⟨Pointers.ofList (done ++ old.drop done.length), done.length, commands⟩ =
      some ⟨Pointers.ofList (done ++ seg ++ old.drop (done ++ seg).length), (done ++ seg).length, commands⟩ := by
  induction seg generalizing done with
  | nil => simp
  | cons t seg ih =>
    have other : t ≠ "&&" := fun same => plain (same ▸ List.mem_cons_self)
    have inside : done.length < maxNumTokens := by
      rw [List.length_append, List.length_cons] at short
      exact (by omega : done.length < 64)
    have stored : token ⟨Pointers.ofList (done ++ old.drop done.length), done.length, commands⟩ t =
        some ⟨Pointers.ofList (done ++ [t] ++ old.drop (done ++ [t]).length), (done ++ [t]).length, commands⟩ := by
      rw [token, if_neg other, Pointers.store_of_lt _ _ inside, Pointers.update_ofList]
      simp
    rw [List.append_cons] at short ⊢
    rw [List.foldlM_cons, stored]
    exact ih (fun later => plain (List.mem_cons_of_mem t later)) (done ++ [t]) short

theorem Split.segment {seg : List String} (plain : "&&" ∉ seg) (old : List String) (commands : List (List String))
    (short : seg.length < 64) :
    seg.foldlM token ⟨Pointers.ofList old, 0, commands⟩ =
      some ⟨Pointers.ofList (seg ++ old.drop seg.length), seg.length, commands⟩ := by
  simpa using foldlM_segment plain old [] commands short

theorem Split.foldlM_spawn {tokens : List String} (few : tokens.length < 64) {old : List String}
    (short : old.length < 64) (commands : List (List String)) :
    ∃ s, (tokens.foldlM token ⟨Pointers.ofList old, 0, commands⟩ >>= spawn) = some s ∧
      s.commands = commands ++ argvs old (tokens.splitOn "&&") := by
  induction tokens using segments_induction "&&" generalizing old commands with
  | last seg plain =>
    rw [segment plain old commands few, List.splitOn_eq_singleton plain]
    exact ⟨_, spawn_ofList _ commands (by rw [length_overwritten]; omega), by rw [argvs, argvs, List.append_nil]⟩
  | more seg rest plain ih =>
    rw [List.length_append, List.length_cons] at few
    have whole : (seg ++ old.drop seg.length).length < 64 := by
      rw [length_overwritten]
      omega
    have cut : token ⟨Pointers.ofList (seg ++ old.drop seg.length), seg.length, commands⟩ "&&" = some _ :=
      spawn_ofList 0 commands whole
    obtain ⟨s, ran, same⟩ := ih (by omega) whole _
    refine ⟨s, ?_, ?_⟩
    · rw [List.foldlM_append, segment plain old commands (by omega)]
      change (token _ "&&" >>= fun s => rest.foldlM token s) >>= spawn = some s
      rw [cut]
      exact ran
    · rw [List.splitOn_append_cons_self_of_not_mem plain, argvs, ← List.append_assoc]
      exact same

theorem length_argvs {old : List String} (written : old ≠ []) (segs : List (List String)) :
    (argvs old segs).length = segs.length := by
  induction segs generalizing old with
  | nil => rfl
  | cons seg segs ih =>
    have still : seg ++ old.drop seg.length ≠ [] := by
      rw [← List.length_pos_iff] at written ⊢
      rw [length_overwritten]
      omega
    rw [argvs, if_neg still, List.length_append, ih still, List.length_singleton, List.length_cons, Nat.add_comm]

/-- Every segment is run as it stands just when none is shorter than one before it. -/
theorem argvs_eq_filter_iff {old : List String} {segs : List (List String)} :
    argvs old segs = segs.filter (· ≠ []) ↔
      (∀ seg ∈ segs, old.length ≤ seg.length) ∧ (segs.map List.length).Pairwise (· ≤ ·) := by
  induction segs generalizing old with
  | nil => simp [argvs]
  | cons seg segs ih =>
    rw [List.map_cons, List.pairwise_cons, List.forall_mem_cons, argvs, List.filter_cons]
    by_cases covered : old.length ≤ seg.length
    · rw [List.drop_eq_nil_of_le covered, List.append_nil]
      have head : (if decide (seg ≠ []) = true then seg :: segs.filter (· ≠ []) else segs.filter (· ≠ [])) =
          (if seg = [] then [] else [seg]) ++ segs.filter (· ≠ []) := by
        by_cases empty : seg = [] <;> simp [empty]
      rw [head, List.append_cancel_left_eq, ih]
      constructor
      · rintro ⟨covers, sorted⟩
        exact ⟨⟨covered, fun later member => Nat.le_trans covered (covers later member)⟩, by simpa using covers, sorted⟩
      · rintro ⟨-, covers, sorted⟩
        exact ⟨by simpa using covers, sorted⟩
    · refine iff_of_false (fun same => ?_) fun sorted => covered sorted.1.1
      -- what is left of the longer segment is run with this one
      have length : (seg ++ old.drop seg.length).length = old.length := by
        rw [length_overwritten]
        omega
      have written : seg ++ old.drop seg.length ≠ [] := by
        rw [← List.length_pos_iff]
        omega
      rw [if_neg written] at same
      by_cases empty : seg = []
      · have counted := congrArg List.length same
        rw [if_neg (by simp [empty]), List.length_append, length_argvs written, List.length_singleton] at counted
        have := List.length_filter_le (fun s : List String => decide (s ≠ [])) segs
        omega
      · rw [if_pos (by simpa using empty), List.singleton_append, List.cons.injEq] at same
        have := congrArg List.length same.1
        omega

/-- On a line with `&&` the commands run are its segments just when no segment is shorter
than one before it. -/
theorem main_runs_segments_iff (tokens : List String) (few : tokens.length < 64) (split : "&&" ∈ tokens)
    (leading : tokens.head? ≠ some "&&") (staying : tokens.head? ≠ some "exit") :
    main tokens = some (.ran ((tokens.splitOn "&&").filter (· ≠ []))) ↔
      ((tokens.splitOn "&&").map List.length).Pairwise (· ≤ ·) := by
  obtain ⟨s, ran, same⟩ := Split.foldlM_spawn few (show ([] : List String).length < 64 by decide) []
  have outcome : main tokens = some (.ran (argvs [] (tokens.splitOn "&&"))) := by
    cases tokens with
    | nil => cases split
    | cons first rest =>
      rw [main, if_neg (by simpa using leading), if_neg (by simpa using staying),
        if_neg (Nat.ne_of_gt (List.count_pos_iff.mpr split)), ← List.nil_append (argvs ..), ← same]
      rw [Pointers.ofList_nil] at ran
      obtain ⟨s', filled, spawned⟩ := Option.bind_eq_some_iff.mp ran
      exact Option.bind_eq_some_iff.mpr ⟨s', filled, Option.bind_eq_some_iff.mpr ⟨s, spawned, rfl⟩⟩
  rw [outcome, Option.some.injEq, Outcome.ran.injEq, argvs_eq_filter_iff]
  exact and_iff_right fun seg _ => Nat.zero_le seg.length

theorem main_runs_segments_longer :
    main ["ls", "&&", "echo", "a"] = some (.ran [["ls"], ["echo", "a"]]) :=
  (main_runs_segments_iff ["ls", "&&", "echo", "a"] (by decide) (by decide) (by decide) (by decide)).mpr (by decide)

/-- `ls` is run with the word left over from `echo a`. -/
theorem main_runs_leftover :
    main ["echo", "a", "&&", "ls"] = some (.ran [["echo", "a"], ["ls", "a"]]) ∧
      (["echo", "a", "&&", "ls"].splitOn "&&").filter (· ≠ []) = [["echo", "a"], ["ls"]] := by
  decide

end OsLabs.Shell.Beegees
