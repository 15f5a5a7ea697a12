import Lossless.Proofs.Equality
import Lossless.Proofs.RoundTrip
import Lossless.Report.RoundTrip

/-!
# What trials come to

Under a bundled strategy a tree is built or not, whichever of the strategies it
is (`exists_build_iff`). If it is built, its source is the text of the tokens
and it strips to the tree it was built from. So trials fail together: all of
them, or none (`failures_trials`).
-/

namespace Lossless

open Cst Cst.Build

/-- A schema of the bundled grammar and a bundled strategy. -/
def Schema.IsBundled (s : Schema) : Prop :=
  ∃ strategy ∈ Strategy.bundled, make .functions strategy = .ok s

namespace Schema.IsBundled

variable {s s' : Schema} {t : Ast} {tokens : List SourceToken} {tree : Cst}

theorem sound (hs : s.IsBundled) :
    s.grammar = .functions ∧ s.strategy ∈ Strategy.bundled ∧ s.Sound := by
  obtain ⟨strategy, hstrategy, hmake⟩ := hs
  obtain ⟨hgrammar, rfl, hsound⟩ := Schema.make_eq_ok hmake
  exact ⟨hgrammar, hstrategy, hsound⟩

/-- Which trees are built from which tokens does not depend on the strategy. -/
theorem exists_build_iff (hs : s.IsBundled) :
    (∃ tree, build s t tokens = .ok tree) ↔
      Tiles 0 tokens ∧ Grammar.functions.check t = .ok () ∧
        Leaf.verdict (streamEnd tokens) (t.leaves .functions)
          (tokens.filter (!·.isExtra)) = none := by
  obtain ⟨hgrammar, hbundled, hsound⟩ := hs.sound
  have hdistinct : s.grammar.Distinct := hgrammar ▸
    Grammar.distinct_of_validate Grammar.validate_functions
  have hverdict (htiles : Tiles 0 tokens)
      (hcheck : s.grammar.check t = .ok ()) :=
    build_eq_verdict (hsound.resolves hbundled ⟨rfl, rfl⟩) hdistinct
      htiles hcheck
  have hleaves (hcheck : s.grammar.check t = .ok ()) :
      t.leaves s.layout = t.leaves .functions :=
    leaves_functions hsound hbundled hgrammar (Grammar.conforms_of_check hcheck)
  constructor
  · rintro ⟨tree, htree⟩
    have hcheck := (build_eq_ok htree).1
    obtain ⟨_, htiles, -⟩ := Outcome.bind_eq_ok.1 htree
    have htiles := checkTiling_eq_ok.1 htiles
    refine ⟨htiles, hgrammar ▸ hcheck, ?_⟩
    have hbuild := hverdict htiles hcheck
    rw [hleaves hcheck] at hbuild
    split at hbuild
    · exact nomatch htree.symm.trans hbuild
    · assumption
  · rintro ⟨htiles, hcheck, hnone⟩
    rw [← hgrammar] at hcheck
    have hbuild := hverdict htiles hcheck
    rwa [hleaves hcheck, hnone] at hbuild

theorem source_eq (hs : s.IsBundled) (h : build s t tokens = .ok tree) :
    tree.source s = .ok (String.join (tokens.map SourceToken.text)) := by
  obtain ⟨-, hbundled, hsound⟩ := hs.sound
  exact source_eq_join (hsound.resolves hbundled ⟨rfl, rfl⟩)
    (Strategy.local_bundled hbundled) h

theorem strip_eq (hs : s.IsBundled) (h : build s t tokens = .ok tree) :
    tree.strip = .ok t :=
  strip_of_plain (plain_of_build hs.sound.2.2 h)

end Schema.IsBundled

namespace RoundTrip

variable {s : Schema} {ast : Ast} {tokens : List SourceToken} {text : String}

/-- What is wrong with a text that should be another one. -/
def textFaults (text source : String) : List Fault :=
  if source = text then []
  else [.otherText (firstDifference 0 text.toList source.toList)]

/-- Once the tree is built, only the text of the tokens can be wrong. -/
theorem trial_of_build (hs : s.IsBundled) (hast : ast.equal ast = true)
    {tree : Cst} (h : build s ast tokens = .ok tree) :
    trial text ast tokens s =
      ⟨s.strategy.name,
        textFaults text (String.join (tokens.map SourceToken.text)),
        some (String.join (tokens.map SourceToken.text))⟩ := by
  simp only [trial, h, hs.source_eq h, hs.strip_eq h, stripFault?, hast,
    sourceFault?, textFaults, Except.toOption]
  split <;> rfl

theorem trial_of_error {e : CstError} (h : build s ast tokens = .error e) :
    trial text ast tokens s = ⟨s.strategy.name, [.notBuilt e], none⟩ := by
  rw [trial, h]

/-- Trials that wrote the same source, if any, do not disagree. -/
theorem disagreements_eq_nil {ts : List Trial} (source : String)
    (h : ∀ t ∈ ts, ∀ written ∈ t.source?, written = source) :
    disagreements ts = [] := by
  have hsources : ∀ p ∈ sources ts, p.2 = source := by
    intro p hp
    obtain ⟨t, ht, hwritten⟩ := List.mem_filterMap.1 hp
    obtain ⟨written, hsource, rfl⟩ := Option.map_eq_some_iff.1 hwritten
    exact h t ht written hsource
  rw [disagreements]
  split
  · rfl
  · rename_i first written others hall
    rw [hall, List.forall_mem_cons] at hsources
    have hothers : others.filter (·.2 ≠ written) = [] :=
      List.filter_eq_nil_iff.2 fun p hp => by
        simp [(hsources.2 p hp).trans hsources.1.symm]
    rw [hothers, List.map_nil]

theorem failures_eq {ts : List Trial} (passed : Bool)
    (hdisagreements : disagreements ts = []) (h : ∀ t ∈ ts, t.passed = passed) :
    failures ts = if passed then 0 else ts.length := by
  rw [failures, hdisagreements, List.length_nil, Nat.add_zero]
  cases passed with
  | true => exact List.countP_eq_zero.2 fun t ht => by simp [h t ht]
  | false => exact List.countP_eq_length.2 fun t ht => by simp [h t ht]

/-- An offset at which two texts differ first: what stands in front of it is
common to both, and from there on they begin with different characters, or
one of them ends. -/
def DiffersAt (text text' : List Char) (offset : Nat) : Prop :=
  ∃ common rest rest', text = common ++ rest ∧ text' = common ++ rest' ∧
    offset = (String.ofList common).utf8ByteSize ∧ rest.head? ≠ rest'.head?

theorem differsAt_firstDifference {cs ds : List Char} (h : cs ≠ ds) :
    DiffersAt cs ds (firstDifference 0 cs ds) := by
  have hshift (offset : Nat) :
      ∃ common rest rest', cs = common ++ rest ∧ ds = common ++ rest' ∧
        firstDifference offset cs ds =
          offset + (String.ofList common).utf8ByteSize ∧
        rest.head? ≠ rest'.head? := by
    fun_induction firstDifference offset cs ds with
    | case1 offset cs d ds ih =>
      obtain ⟨common, rest, rest', rfl, rfl, hoffset, hdiffer⟩ :=
        ih fun he => h (congrArg _ he)
      refine ⟨d :: common, rest, rest', rfl, rfl, ?_, hdiffer⟩
      rw [hoffset, String.ofList_cons, String.utf8ByteSize_append,
        String.utf8ByteSize_singleton, Nat.add_assoc]
    | case2 offset c cs d ds hne =>
      exact ⟨[], c :: cs, d :: ds, rfl, rfl, rfl, by simpa using hne⟩
    | case3 cs offset ds hcons =>
      refine ⟨[], cs, ds, rfl, rfl, rfl, ?_⟩
      cases cs with
      | nil => cases ds <;> simp_all
      | cons c cs =>
        cases ds with
        | nil => simp
        | cons d ds => exact (hcons c cs d ds rfl rfl).elim
  simpa [DiffersAt] using hshift 0

/-! ### Messages -/

theorem head_append_ne {a : String} (b : String) {c d : Char}
    (ha : a.toList.head? = some d) (hd : d ≠ c) :
    (a ++ b).toList.head? ≠ some c := by
  rw [String.toList_append, List.head?_append, ha, Option.some_or]
  simpa using hd

theorem head_shapeMessage_ne (e : ShapeError) :
    e.message.toList.head? ≠ some 'p' := by
  unfold ShapeError.message
  cases e <;> simp only [String.append_assoc, Text.backquote]
  case unexpectedRoot | notANode =>
    exact head_append_ne (d := 'e') _ rfl (by decide)
  case unknownType => exact head_append_ne (d := 'u') _ rfl (by decide)
  case missingField | fieldSet =>
    exact head_append_ne (d := '`') _ rfl (by decide)
  case fieldShape => exact head_append_ne (d := 'f') _ rfl (by decide)

/-- No error is worded like a tree that differs. -/
theorem message_ne_projection (e : CstError) :
    e.message ≠ "projection differs from the parsed AST" := by
  suffices hhead :
      e.message.toList.head? ≠ some 'p' from fun h => hhead (h ▸ rfl)
  unfold CstError.message
  cases e <;> simp only [String.append_assoc]
  case invalidLabel => exact head_append_ne (d := 'l') _ rfl (by decide)
  case unresolvableAnchor => exact head_append_ne (d := 'e') _ rfl (by decide)
  case tokenMismatch => exact head_append_ne (d := 't') _ rfl (by decide)
  case malformed => exact head_append_ne (d := 'm') _ rfl (by decide)
  case incomplete => exact head_append_ne (d := 's') _ rfl (by decide)
  case shape e => exact head_shapeMessage_ne e

/-- The names of the bundled strategies go on differently, so that what is
printed behind a name tells it. -/
theorem eq_of_append_eq {name first report report' : String}
    (hname : name ∈ Strategy.bundled.map Strategy.name)
    (hfirst : first ∈ Strategy.bundled.map Strategy.name)
    (h : name ++ report = first ++ report') : report = report' := by
  simp only [Strategy.bundled, List.map_cons, List.map_nil, List.mem_cons,
    List.not_mem_nil, or_false] at hname hfirst
  have hfront := congrArg (fun text => text.toList.head?) h
  rcases hname with rfl | rfl <;> rcases hfirst with rfl | rfl
  case inl.inr | inr.inl =>
    simp [Strategy.virtualNodes, Strategy.extendedLabels] at hfront
  all_goals exact (String.append_right_inj _).1 h

/-! ### All trials -/

section

variable {schemas : List Schema} (hschemas : ∀ s ∈ schemas, s.IsBundled)
  (file : SourceFile)
include hschemas

/-- If every schema builds the tree, every trial finds the same fault in
the text, if any. -/
theorem trials_of_build (hast : ast.equal ast = true)
    (hbuilt : ∀ s ∈ schemas, ∃ tree, build s ast tokens = .ok tree) :
    trials schemas file ast tokens = schemas.map fun s =>
      ⟨s.strategy.name,
        textFaults file.text (String.join (tokens.map SourceToken.text)),
        some (String.join (tokens.map SourceToken.text))⟩ :=
  List.map_congr_left fun s hs => by
    obtain ⟨tree, htree⟩ := hbuilt s hs
    exact trial_of_build (hschemas s hs) hast htree

/-- If one schema does not build the tree, none does, and every trial says so
and nothing else. -/
theorem trials_of_not_built
    (hbuilt : ¬∀ s ∈ schemas, ∃ tree, build s ast tokens = .ok tree) :
    ∀ t ∈ trials schemas file ast tokens, ∃ s ∈ schemas, ∃ e,
      t = ⟨s.strategy.name, [.notBuilt e], none⟩ := by
  push Not at hbuilt
  obtain ⟨s', hs', hnone⟩ := hbuilt
  intro t ht
  obtain ⟨s, hs, rfl⟩ := List.mem_map.1 ht
  cases hbuild : build s ast tokens with
  | error e => exact ⟨s, hs, e, trial_of_error hbuild⟩
  | ok tree =>
    obtain ⟨tree', htree'⟩ := (hschemas s' hs').exists_build_iff.2
      ((hschemas s hs).exists_build_iff.1 ⟨tree, hbuild⟩)
    exact absurd htree' (hnone tree')

theorem disagreements_trials (tokens : List SourceToken)
    (hast : ast.equal ast = true) :
    disagreements (trials schemas file ast tokens) = [] := by
  refine disagreements_eq_nil (String.join (tokens.map SourceToken.text))
    fun t ht => ?_
  by_cases hbuilt : ∀ s ∈ schemas, ∃ tree, build s ast tokens = .ok tree
  · rw [trials_of_build hschemas file hast hbuilt] at ht
    obtain ⟨s, -, rfl⟩ := List.mem_map.1 ht
    exact fun written hwritten => (Option.some.inj hwritten).symm
  · obtain ⟨s, -, e, rfl⟩ := trials_of_not_built hschemas file hbuilt t ht
    exact fun written hwritten => nomatch hwritten

theorem notices_trials (path : String) (tokens : List SourceToken)
    (hast : ast.equal ast = true) :
    notices path (trials schemas file ast tokens) =
      (trials schemas file ast tokens).flatMap (Trial.notices path) := by
  rw [notices, disagreements_trials hschemas file tokens hast, List.map_nil,
    List.append_nil]

/-- All that trials report on the standard error, apart from diagnostics, are
errors of single strategies. -/
theorem exists_error_of_mem_notices {path line : String}
    (hast : ast.equal ast = true)
    (h : .err line ∈ notices path (trials schemas file ast tokens)) :
    ∃ name ∈ Strategy.bundled.map Strategy.name, ∃ e : CstError,
      line = name ++ ": " ++ e.message := by
  rw [notices_trials hschemas file path tokens hast] at h
  obtain ⟨t, ht, hline⟩ := List.mem_flatMap.1 h
  by_cases hbuilt : ∀ s ∈ schemas, ∃ tree, build s ast tokens = .ok tree
  · rw [trials_of_build hschemas file hast hbuilt] at ht
    obtain ⟨s, -, rfl⟩ := List.mem_map.1 ht
    by_cases htext : String.join (tokens.map SourceToken.text) = file.text <;>
      simp [Trial.notices, Trial.passed, textFaults, htext,
        Fault.notices] at hline
  · obtain ⟨s, hs, e, rfl⟩ := trials_of_not_built hschemas file hbuilt t ht
    refine ⟨s.strategy.name, List.mem_map_of_mem (hschemas s hs).sound.2.1, e,
      ?_⟩
    simpa [Trial.notices, Trial.passed, Fault.notices] using hline

theorem failures_of_build (hast : ast.equal ast = true)
    (hbuilt : ∀ s ∈ schemas, ∃ tree, build s ast tokens = .ok tree) :
    failures (trials schemas file ast tokens) =
      if String.join (tokens.map SourceToken.text) = file.text then 0
        else schemas.length := by
  have hagree := disagreements_trials hschemas file tokens hast
  rw [trials_of_build hschemas file hast hbuilt] at hagree ⊢
  by_cases htext : String.join (tokens.map SourceToken.text) = file.text
  · rw [failures_eq true hagree (by simp [textFaults, htext, Trial.passed]),
      if_pos htext]
    rfl
  · rw [failures_eq false hagree (by simp [textFaults, htext, Trial.passed]),
      if_neg htext]
    simp

theorem failures_of_not_built (hast : ast.equal ast = true)
    (hbuilt : ¬∀ s ∈ schemas, ∃ tree, build s ast tokens = .ok tree) :
    failures (trials schemas file ast tokens) = schemas.length := by
  have hfailed :
      ∀ t ∈ trials schemas file ast tokens, t.passed = false := fun t ht => by
    obtain ⟨s, -, e, rfl⟩ := trials_of_not_built hschemas file hbuilt t ht
    rfl
  rw [failures_eq false
    (disagreements_trials hschemas file tokens hast) hfailed]
  exact List.length_map _

/-- Where nothing is wrong, every trial says so. -/
theorem notices_of_passed (path : String) (hast : ast.equal ast = true)
    (hbuilt : ∀ s ∈ schemas, ∃ tree, build s ast tokens = .ok tree)
    (htext : String.join (tokens.map SourceToken.text) = file.text) :
    notices path (trials schemas file ast tokens) = schemas.map fun s =>
      .out ("ok " ++ path ++ " (" ++ s.strategy.name ++ ")") := by
  rw [notices_trials hschemas file path tokens hast,
    trials_of_build hschemas file hast hbuilt, List.flatMap_map, textFaults,
    if_pos htext]
  exact List.map_eq_flatMap.symm

/-- Where only the text is wrong, every trial reports the first difference. -/
theorem notices_of_otherText (path : String) (hast : ast.equal ast = true)
    (hbuilt : ∀ s ∈ schemas, ∃ tree, build s ast tokens = .ok tree)
    (htext : String.join (tokens.map SourceToken.text) ≠ file.text) :
    ∃ offset, DiffersAt file.text.toList
        (String.join (tokens.map SourceToken.text)).toList offset ∧
      notices path (trials schemas file ast tokens) = schemas.map fun s =>
        .diagnostic
          ⟨s.strategy.name ++ ": reconstructed text differs from the source",
            ⟨offset, offset + 1⟩, "first difference"⟩ := by
  have hchars :
      file.text.toList ≠ (String.join (tokens.map SourceToken.text)).toList :=
    fun h => htext (String.toList_injective h.symm)
  refine ⟨_, differsAt_firstDifference hchars, ?_⟩
  rw [notices_trials hschemas file path tokens hast,
    trials_of_build hschemas file hast hbuilt, List.flatMap_map, textFaults,
    if_neg htext]
  exact List.map_eq_flatMap.symm

end

/-- Trials fail together. None of them fails exactly if the tree is built and
the tokens have the text of the file; otherwise all of them do, and the count is
theirs. No report is about a tree that differs or about two strategies; and if
the tree is built, every report points at the first difference of the texts. -/
theorem failures_trials {schemas : List Schema}
    (hschemas : ∀ s ∈ schemas, s.IsBundled) {ast : Ast}
    (hast : ast.NumbersOnly) (file : SourceFile) (tokens : List SourceToken) :
    let results := trials schemas file ast tokens
    let text := String.join (tokens.map SourceToken.text)
    (failures results = 0 ↔ schemas = [] ∨
      (∀ s ∈ schemas, ∃ tree, build s ast tokens = .ok tree) ∧
        text = file.text) ∧
    (failures results = 0 ∨ failures results = schemas.length) ∧
    (∀ first ∈ Strategy.bundled.map Strategy.name, ∀ second,
      .err (first ++ ": projection differs from the parsed AST") ∉
        notices file.path results ∧
      .err (first ++ " and " ++ second ++ " reconstruct different text") ∉
        notices file.path results) ∧
    ((∀ s ∈ schemas, ∃ tree, build s ast tokens = .ok tree) → text ≠ file.text →
      ∃ offset, DiffersAt file.text.toList text.toList offset ∧
        notices file.path results = schemas.map fun s =>
          .diagnostic
            ⟨s.strategy.name ++ ": reconstructed text differs from the source",
              ⟨offset, offset + 1⟩, "first difference"⟩) := by
  have hself := Ast.equal_self hast
  have hlength : schemas.length = 0 ↔ schemas = [] := List.length_eq_zero_iff
  dsimp only
  refine ⟨?_, ?_, fun first hfirst second => ⟨fun h => ?_, fun h => ?_⟩,
    notices_of_otherText hschemas file file.path hself⟩
  · by_cases hbuilt : ∀ s ∈ schemas, ∃ tree, build s ast tokens = .ok tree
    · rw [failures_of_build hschemas file hself hbuilt]
      split
      · exact iff_of_true rfl (.inr ⟨hbuilt, ‹_›⟩)
      · rw [hlength]
        exact ⟨.inl, fun h => h.resolve_right fun h => absurd h.2 ‹_›⟩
    · rw [failures_of_not_built hschemas file hself hbuilt, hlength]
      exact ⟨.inl, fun h => h.resolve_right fun h => hbuilt h.1⟩
  · by_cases hbuilt : ∀ s ∈ schemas, ∃ tree, build s ast tokens = .ok tree
    · rw [failures_of_build hschemas file hself hbuilt]
      split
      · exact .inl rfl
      · exact .inr rfl
    · exact .inr (failures_of_not_built hschemas file hself hbuilt)
  · obtain ⟨name, hname, e, hline⟩ :=
      exists_error_of_mem_notices hschemas file hself h
    rw [String.append_assoc] at hline
    have hmessage := eq_of_append_eq hfirst hname hline
    exact message_ne_projection e
      ((String.append_right_inj ": ").1 hmessage.symm)
  · obtain ⟨name, hname, e, hline⟩ :=
      exists_error_of_mem_notices hschemas file hself h
    simp only [String.append_assoc] at hline
    have hfront := congrArg (fun text => text.toList.head?)
      (eq_of_append_eq hfirst hname hline)
    simp at hfront

/-- The sample tree passes with the text of its tokens, and fails once for each
strategy with another one. -/
theorem failures_trials_sample :
    ∃ s s' : Schema, s.strategy.name ≠ s'.strategy.name ∧
      failures (trials [s, s'] ⟨"f", "f( true )"⟩ sampleTree sampleTokens) = 0 ∧
      failures (trials [s, s'] ⟨"f", "f( (true))"⟩ sampleTree sampleTokens) =
        2 := by
  have hvirtual : Strategy.virtualNodes ∈ Strategy.bundled := .head _
  have hlabels : Strategy.extendedLabels ∈ Strategy.bundled := .tail _ (.head _)
  obtain ⟨s, hs⟩ := exists_make_functions hvirtual
  obtain ⟨s', hs'⟩ := exists_make_functions hlabels
  have hschemas : ∀ u ∈ [s, s'], u.IsBundled := List.forall_mem_cons.2
    ⟨⟨_, hvirtual, hs⟩, List.forall_mem_singleton.2 ⟨_, hlabels, hs'⟩⟩
  have hast : sampleTree.NumbersOnly := by decide +kernel
  have htext : String.join (sampleTokens.map SourceToken.text) =
      "f( true )" := by decide +kernel
  have hcheck : Grammar.functions.check sampleTree = .ok () := by
    have hok : (Grammar.functions.check sampleTree).isOk = true := by
      decide +kernel
    obtain ⟨⟨⟩, hok⟩ := Outcome.exists_of_isOk hok
    exact hok
  have hbuilt : ∀ u ∈ [s, s'], ∃ tree,
      build u sampleTree sampleTokens = .ok tree := fun u hu =>
    (hschemas u hu).exists_build_iff.2
      ⟨checkTiling_eq_ok.1 rfl, hcheck, by decide +kernel⟩
  have hpass := failures_trials hschemas hast ⟨"f", "f( true )"⟩ sampleTokens
  have hfail := failures_trials hschemas hast ⟨"f", "f( (true))"⟩ sampleTokens
  refine ⟨s, s', ?_, hpass.1.2 (.inr ⟨hbuilt, htext⟩), ?_⟩
  · rw [(Schema.make_eq_ok hs).2.1, (Schema.make_eq_ok hs').2.1]
    decide
  · refine hfail.2.1.resolve_left fun h => ?_
    rcases hfail.1.1 h with h | ⟨-, h⟩
    · exact nomatch h
    · rw [htext] at h
      exact absurd h (by decide)

end RoundTrip

end Lossless
