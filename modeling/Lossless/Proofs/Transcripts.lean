import Lossless.Command.Run
import Lossless.Proofs.Grammatical
import Lossless.Proofs.Trials

/-!
# What commands print

The tree of a program is printed in the same way whether it comes from the
parser or from a concrete tree built from it, and the round-trip checks pass on
every program. So the commands agree on every file (`run_project_and_check`).
-/

namespace Lossless

open Cst

namespace StrategyName

theorem strategy_mem_bundled (n : StrategyName) :
    n.strategy ∈ Strategy.bundled := by
  cases n with
  | virtual => exact .head _
  | labels => exact .tail _ (.head _)

theorem exists_schema (n : StrategyName) :
    ∃ s, n.schema = .ok s ∧ s.IsBundled ∧ s.strategy = n.strategy := by
  obtain ⟨s, hs⟩ := exists_make_functions n.strategy_mem_bundled
  exact ⟨s, hs, ⟨_, n.strategy_mem_bundled, hs⟩, (Schema.make_eq_ok hs).2.1⟩

end StrategyName

namespace Command

/-- The strategies that are checked: the one that is asked for, or all. -/
def checkedNames (selected : Option StrategyName) :
    List StrategyName := match selected with
  | some name => [name]
  | none => StrategyName.all

variable {path text : String} {p : Program}

theorem readProgram_of_parse (h : Program.parse text = .ok p) :
    readProgram ⟨path, text⟩ = .ok p := by
  rw [readProgram, h]

theorem readProgram_of_error {e : SyntaxError} (path : String)
    (h : Program.parse text = .error e) :
    ∃ failed, readProgram ⟨path, text⟩ = .error failed ∧
      failed.2 = .noProgram path :=
  ⟨_, by rw [readProgram, h], rfl⟩

theorem buildTree_of_build {s : Schema} {f : SourceFile} {tree : Cst}
    (h : build s p.ast p.tokens = .ok tree) : buildTree s f p = .ok tree := by
  rw [buildTree, h]

/-- The tree of a program is printed alike, whether a concrete tree was built
from it first or not. -/
theorem run_project (input : Except ReadError String) (path : String)
    (name : StrategyName) :
    run input (.project path name) = run input (.ast path) := by
  obtain ⟨s, hs, hbundled, -⟩ := name.exists_schema
  cases input with
  | error e => rfl
  | ok text =>
    simp only [run, readFile, hs, checked, Outcome.ok_bind]
    cases hp : Program.parse text with
    | error e =>
      obtain ⟨failed, hread, -⟩ := readProgram_of_error path hp
      rw [hread]
      rfl
    | ok p =>
      obtain ⟨hgrammar, hstrategy, hsound⟩ := hbundled.sound
      obtain ⟨tree, htree⟩ := exists_build_of_parse hp hsound hstrategy hgrammar
      simp only [readProgram_of_parse hp, buildTree_of_build htree,
        hbundled.strip_eq htree, Outcome.ok_bind]

/-- The schemas of some strategies, which are all made. -/
theorem exists_schemas (names : List StrategyName) :
    ∃ schemas : List Schema, names.mapM (fun name => checked name.schema) =
        .ok schemas ∧
      (∀ s ∈ schemas, s.IsBundled) ∧
      schemas.map Schema.strategy = names.map StrategyName.strategy := by
  induction names with
  | nil => exact ⟨[], rfl, List.forall_mem_nil _, rfl⟩
  | cons name names ih =>
    obtain ⟨s, hs, hbundled, hstrategy⟩ := name.exists_schema
    obtain ⟨schemas, hschemas, hall, hmap⟩ := ih
    refine ⟨s :: schemas, ?_,
      List.forall_mem_cons.2 ⟨hbundled, hall⟩, by simp [hstrategy, hmap]⟩
    rw [List.mapM_cons, hs, hschemas]
    rfl

/-- Every program passes the round-trip checks. -/
theorem run_check_of_parse (hp : Program.parse text = .ok p)
    (selected : Option StrategyName) :
    run (.ok text) (.check path selected) =
      .lines ((checkedNames selected).map fun name =>
      "ok " ++ path ++ " (" ++ name.strategy.name ++ ")") := by
  obtain ⟨schemas, hschemas, hbundled, hmap⟩ :=
    exists_schemas (checkedNames selected)
  have hbuilt :
      ∀ s ∈ schemas, ∃ tree, build s p.ast p.tokens = .ok tree := fun s hs => by
    obtain ⟨hgrammar, hstrategy, hsound⟩ := (hbundled s hs).sound
    exact exists_build_of_parse hp hsound hstrategy hgrammar
  have hself := Program.equal_self_of_parse hp
  have htext : String.join (p.tokens.map SourceToken.text) = text :=
    join_of_tokenize (Program.parse_eq_ok hp).2.2.1
  have hfailures :=
    RoundTrip.failures_of_build hbundled ⟨path, text⟩ hself hbuilt
  have hnotices :=
    RoundTrip.notices_of_passed hbundled ⟨path, text⟩ path hself hbuilt htext
  rw [if_pos htext] at hfailures
  have hlines :
      schemas.map (fun s => "ok " ++ path ++ " (" ++ s.strategy.name ++ ")") =
        (checkedNames selected).map fun name =>
          "ok " ++ path ++ " (" ++ name.strategy.name ++ ")" := by
    have h := congrArg (List.map fun strategy : Strategy =>
      "ok " ++ path ++ " (" ++ strategy.name ++ ")") hmap
    rw [List.map_map, List.map_map] at h
    exact h
  have hrun : run (.ok text) (.check path selected) =
      ofNotices ⟨path, text⟩ none (schemas.map fun s =>
        .out ("ok " ++ path ++ " (" ++ s.strategy.name ++ ")")) := by
    change finish
      ((checkedNames selected).mapM (fun name => checked name.schema) >>= _) = _
    rw [hschemas, Outcome.ok_bind, readProgram_of_parse hp, Outcome.ok_bind]
    simp only [hfailures, hnotices]
    rfl
  rw [hrun, ← hlines, ofNotices, Transcript.lines]
  simp [List.filterMap_map]

/-- A file that is no program is not checked. -/
theorem status_check_of_error {e : SyntaxError}
    (hp : Program.parse text = .error e) (selected : Option StrategyName) :
    (run (.ok text) (.check path selected)).status = 1 := by
  obtain ⟨schemas, hschemas, -, -⟩ := exists_schemas (checkedNames selected)
  obtain ⟨failed, hread, -⟩ := readProgram_of_error path hp
  have hrun :
      run (.ok text) (.check path selected) = finish (.error failed) := by
    change finish
      ((checkedNames selected).mapM (fun name => checked name.schema) >>= _) = _
    rw [hschemas, Outcome.ok_bind, hread]
    rfl
  rw [hrun]
  rfl

/-- For every file, readable or not: the command that builds a tree and strips
it does all that the command for the syntax tree does, line by line and down to
the failure; and the checks end well exactly if the file is a program, printing
one line for each strategy, in order, and nothing else. -/
theorem run_project_and_check (input : Except ReadError String) (path : String)
    (name : StrategyName) (selected : Option StrategyName) :
    run input (.project path name) = run input (.ast path) ∧
      ((run input (.check path selected)).status = 0 ↔
        ∃ text p, input = .ok text ∧ Program.parse text = .ok p) ∧
      ∀ text p, input = .ok text → Program.parse text = .ok p →
        run input (.check path selected) =
          .lines ((checkedNames selected).map fun name =>
        "ok " ++ path ++ " (" ++ name.strategy.name ++ ")") := by
  refine ⟨run_project input path name, ⟨fun h => ?_, ?_⟩, ?_⟩
  · cases input with
    | error e => exact nomatch h
    | ok text =>
      cases hp : Program.parse text with
      | ok p => exact ⟨text, p, rfl, hp⟩
      | error e =>
        exact nomatch (status_check_of_error hp selected).symm.trans h
  · rintro ⟨text, p, rfl, hp⟩
    rw [run_check_of_parse hp]
    rfl
  · rintro text p rfl hp
    exact run_check_of_parse hp selected

end Command

end Lossless
