import Lossless.Proofs.Bundled
import Lossless.Proofs.Filing

/-!
# Attached extras

Under the anchors of a bundled strategy, whatever the schedules are, the labels
of a built tree and the runs of extras in its text correspond to each other.
Under any schema that separates its places the tree stores exactly the extras of
the text. Making a schema does not ask for this: `gatherStrategy`, which anchors
two gaps of a program in one place, is accepted and loses a run
(`exists_lost_extras`).
-/

namespace Lossless

namespace Cst

/-- Under the anchors of a bundled strategy each run of extras is kept under one
label of one record, and each label keeps one run; a record has its labels in
the order of the text. -/
theorem extras_kept_of_build {g : Grammar} {strategy model : Strategy}
    {s : Schema} {t : Ast} {tokens : List SourceToken} {tree : Cst}
    (hmodel : model ∈ Strategy.bundled) (hlike : strategy.AnchorsLike model)
    (hs : Schema.make g strategy = .ok s) (h : build s t tokens = .ok tree) :
    Keeps tree.records (extraRuns tokens).zipIdx := by
  obtain ⟨-, rfl, hsound⟩ := Schema.make_eq_ok hs
  exact keeps_of_build hsound (hsound.separates (hlike.local_bundled hmodel)) h

theorem extras_kept_of_build_sample :
    ∃ s tree, Schema.make .functions sampleStrategy = .ok s ∧
      build s sampleTree sampleTokens = .ok tree ∧
      Keeps tree.records [([⟨.blank, " ", ⟨⟨2, 3⟩, ⟨0, 2⟩, ⟨0, 3⟩⟩⟩], 0),
        ([⟨.blank, " ", ⟨⟨7, 8⟩, ⟨0, 7⟩, ⟨0, 8⟩⟩⟩], 1)] := by
  have h : (Schema.make .functions sampleStrategy >>= fun s =>
      build s sampleTree sampleTokens).isOk = true := by decide +kernel
  obtain ⟨tree, h⟩ := Outcome.exists_of_isOk h
  obtain ⟨s, hs, htree⟩ := Outcome.bind_eq_ok.1 h
  have hruns : (extraRuns sampleTokens).zipIdx =
      [([⟨.blank, " ", ⟨⟨2, 3⟩, ⟨0, 2⟩, ⟨0, 3⟩⟩⟩], 0),
        ([⟨.blank, " ", ⟨⟨7, 8⟩, ⟨0, 7⟩, ⟨0, 8⟩⟩⟩], 1)] := by decide +kernel
  have hlike : sampleStrategy.AnchorsLike .virtualNodes := ⟨rfl, rfl⟩
  refine ⟨s, tree, hs, htree, ?_⟩
  rw [← hruns]
  exact extras_kept_of_build List.mem_cons_self hlike hs htree

/-! ### The tokens that are stored -/

/-- The tokens in the records of a tree. -/
def storedTokens (t : Cst) : List Token :=
  (t.records.flatMap fun r => r.2.entries.map Prod.snd).flatten

theorem storedTokens_perm {s : Schema} {t : Ast} {tokens : List SourceToken}
    {tree : Cst} (hs : s.Sound) (hseparates : s.Separates)
    (h : build s t tokens = .ok tree) :
    tree.storedTokens.Perm
      ((tokens.filter SourceToken.isExtra).map SourceToken.token) := by
  have hstored := (keeps_of_build hs hseparates h).stored.flatten
  rw [List.zipIdx_map_fst, flatten_extraRuns] at hstored
  exact hstored

/-- As many tokens are stored as stand between those that carry meaning, if no
two gaps share a place. -/
theorem length_storedTokens_of_build {g : Grammar} {strategy : Strategy}
    {s : Schema} {t : Ast} {tokens : List SourceToken} {tree : Cst}
    (hs : Schema.make g strategy = .ok s) (hseparates : s.Separates)
    (h : build s t tokens = .ok tree) :
    tree.storedTokens.length = tokens.countP SourceToken.isExtra := by
  obtain ⟨-, -, hsound⟩ := Schema.make_eq_ok hs
  rw [(storedTokens_perm hsound hseparates h).length_eq, List.length_map,
    List.countP_eq_length_filter]

theorem length_storedTokens_of_build_sample :
    ∃ s tree, Schema.make .functions sampleStrategy = .ok s ∧ s.Separates ∧
      build s sampleTree sampleTokens = .ok tree ∧
      tree.storedTokens.length = 2 := by
  have h : (Schema.make .functions sampleStrategy >>= fun s =>
      build s sampleTree sampleTokens).isOk = true := by decide +kernel
  obtain ⟨tree, h⟩ := Outcome.exists_of_isOk h
  obtain ⟨s, hs, htree⟩ := Outcome.bind_eq_ok.1 h
  obtain ⟨-, hstrategy, hsound⟩ := Schema.make_eq_ok hs
  have hlike : s.strategy.AnchorsLike .virtualNodes := hstrategy ▸ ⟨rfl, rfl⟩
  have hseparates := hsound.separates (hlike.local_bundled List.mem_cons_self)
  have hcount : sampleTokens.countP SourceToken.isExtra = 2 := by decide +kernel
  refine ⟨s, tree, hs, hseparates, htree, ?_⟩
  rw [← hcount]
  exact length_storedTokens_of_build hs hseparates htree

/-! ### Gaps that share a place -/

/-- The strategy with virtual nodes, except that all extras between the
statements of a program are kept with the program. -/
def gatherStrategy : Strategy :=
  { Strategy.virtualNodes with
    anchor := fun owner schedule gap =>
      if owner = .node "Program" then .ok ⟨.owner, .inside⟩
      else Strategy.virtualNodes.anchor owner schedule gap }

/-- The tokens of an empty statement between two spaces. -/
def spacedTokens : List SourceToken :=
  [⟨.extra, ⟨.blank, " ", ⟨⟨0, 1⟩, ⟨0, 0⟩, ⟨0, 1⟩⟩⟩⟩,
    ⟨.semantic, ⟨.semicolon, ";", ⟨⟨1, 2⟩, ⟨0, 1⟩, ⟨0, 2⟩⟩⟩⟩,
    ⟨.extra, ⟨.blank, " ", ⟨⟨2, 3⟩, ⟨0, 2⟩, ⟨0, 3⟩⟩⟩⟩]

theorem gatherStrategy_anchor_ground {owner : Owner} {schedule : Schedule}
    {gap gap' : Gap} {a : Anchor} (hground : gap.ground = gap'.ground)
    (h : gatherStrategy.anchor owner schedule gap = .ok a) :
    gatherStrategy.anchor owner schedule gap' = .ok a := by
  by_cases howner : owner = .node "Program"
  · simp only [gatherStrategy, howner, if_true] at h ⊢
    exact h
  · simp only [gatherStrategy, howner, if_false] at h ⊢
    exact Strategy.anchor_ground List.mem_cons_self hground h

/-- A strategy that is accepted and does not look at indices may still lose
extras: of the two spaces around an empty statement only one is stored. -/
theorem exists_lost_extras :
    ∃ s tree, Schema.make .functions gatherStrategy = .ok s ∧
      (∀ owner schedule gap gap' a, Gap.ground gap = gap'.ground →
        gatherStrategy.anchor owner schedule gap = .ok a →
        gatherStrategy.anchor owner schedule gap' = .ok a) ∧
      build s (.program [.emptyStatement]) spacedTokens = .ok tree ∧
      tree.storedTokens.length = 1 ∧
      spacedTokens.countP SourceToken.isExtra = 2 := by
  have h : ((Schema.make .functions gatherStrategy >>= fun s =>
      build s (.program [.emptyStatement]) spacedTokens).map fun tree =>
        tree.storedTokens.length).toOption = some 1 := by decide +kernel
  cases hs : Schema.make .functions gatherStrategy with
  | error e =>
    rw [hs] at h
    exact nomatch h
  | ok s =>
    rw [hs, Outcome.ok_bind] at h
    cases htree : build s (.program [.emptyStatement]) spacedTokens with
    | error e =>
      rw [htree] at h
      exact nomatch h
    | ok tree =>
      rw [htree] at h
      exact ⟨s, tree, rfl, fun _ _ _ _ _ => gatherStrategy_anchor_ground, htree,
        Option.some.inj h, by decide +kernel⟩

end Cst

end Lossless
