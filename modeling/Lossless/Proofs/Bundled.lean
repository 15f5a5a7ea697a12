import Lossless.Proofs.Acceptance
import Lossless.Proofs.Shell
import Lossless.Proofs.Written

/-!
# The bundled strategies

The two bundled strategies have their own schedules, but the same layout:
looking through virtual nodes, both spell the nodes of a program in the same way
(`Layout.functions`). Their anchors can be followed. So what building does with
a program's tree is said once for both, by its leaves (`build_functions`).
-/

namespace Lossless

/-! ### Anchors -/

/-- A strategy resolves gaps and admits labels as another one does. The
schedules may differ. -/
def Strategy.AnchorsLike (strategy model : Strategy) : Prop :=
  strategy.anchor = model.anchor ∧ strategy.vocabulary = model.vocabulary

theorem Gap.labels_ground {g g' : Gap} (h : g.ground = g'.ground)
    (schedule : Schedule) : g.labels schedule = g'.labels schedule := by
  have hleft : g.left.slot? = g'.left.slot? := by
    rw [← Element.slot?_ground g.left, ← Element.slot?_ground g'.left]
    exact congrArg (fun x : Gap => x.left.slot?) h
  have hright : g.right.slot? = g'.right.slot? := by
    rw [← Element.slot?_ground g.right, ← Element.slot?_ground g'.right]
    exact congrArg (fun x : Gap => x.right.slot?) h
  rw [labels, labels, high, high, low, low, hleft, hright]

namespace Strategy

theorem ownLabel_eq_ok {pick : List Label → Option Label} {owner : Owner}
    {schedule : Schedule} {g : Gap} {a : Anchor}
    (h : ownLabel pick owner schedule g = .ok a) :
    ∃ label, pick (g.labels schedule) = some label ∧ a = ⟨.owner, label⟩ := by
  rw [ownLabel] at h
  cases hpick : pick (g.labels schedule) with
  | none => simp [hpick] at h
  | some label =>
    simp only [hpick] at h
    exact ⟨label, rfl, (Except.ok.inj h).symm⟩

theorem ownLabel_ground {pick : List Label → Option Label} {owner : Owner}
    {schedule : Schedule} {g g' : Gap}
    {a : Anchor} (hground : g.ground = g'.ground)
    (h : ownLabel pick owner schedule g = .ok a) :
    ownLabel pick owner schedule g' = .ok a := by
  obtain ⟨label, hlabel, rfl⟩ := ownLabel_eq_ok h
  rw [ownLabel, ← Gap.labels_ground hground, hlabel]

theorem anchor_ground {model : Strategy} (hmodel : model ∈ bundled)
    {owner : Owner} {schedule : Schedule}
    {g g' : Gap} {a : Anchor} (hground : g.ground = g'.ground)
    (h : model.anchor owner schedule g = .ok a) :
    model.anchor owner schedule g' = .ok a := by
  have hleft : g.left.ground = g'.left.ground := congrArg Gap.left hground
  have hright : g.right.ground = g'.right.ground := congrArg Gap.right hground
  rcases List.mem_cons.1 hmodel with rfl | hmodel
  · have hchild :
        ∀ e e' : Element, e.ground = e'.ground → e.isChild = e'.isChild := by
      intro e e' he
      rw [← Element.isChild_ground e, he, Element.isChild_ground]
    change VirtualNodes.anchor owner schedule g = .ok a at h
    change VirtualNodes.anchor owner schedule g' = .ok a
    rw [VirtualNodes.anchor, hchild _ _ hleft, hchild _ _ hright] at h
    rw [VirtualNodes.anchor]
    split at h
    · rwa [if_pos ‹_›]
    · split at h
      · rwa [if_neg ‹_›, if_pos ‹_›]
      · rw [if_neg ‹_›, if_neg ‹_›]
        exact ownLabel_ground hground h
  · cases List.mem_singleton.1 hmodel
    have hitem :
        ∀ e e' : Element, e.ground = e'.ground → e.isItem = e'.isItem := by
      intro e e' he
      rw [← Element.isItem_ground e, he, Element.isItem_ground]
    change ExtendedLabels.anchor owner schedule g = .ok a at h
    change ExtendedLabels.anchor owner schedule g' = .ok a
    rw [ExtendedLabels.anchor, hitem _ _ hleft, hitem _ _ hright] at h
    rw [ExtendedLabels.anchor]
    split at h
    · rwa [if_pos ‹_›]
    · split at h
      · rwa [if_neg ‹_›, if_pos ‹_›]
      · rw [if_neg ‹_›, if_neg ‹_›]
        exact ownLabel_ground hground h

/-- The anchors of the bundled strategies lead to places at their gaps. -/
theorem local_bundled {model : Strategy} (hmodel : model ∈ bundled) :
    model.Local := by
  have hown : ∀ {pick : List Label → Option Label} {owner schedule g a},
      (∀ labels label, pick labels = some label → label ∈ labels) →
      ownLabel pick owner schedule g = .ok a → a.Lies g schedule := by
    intro pick owner schedule g a hpick h
    obtain ⟨label, hlabel, rfl⟩ := ownLabel_eq_ok h
    exact hpick _ _ hlabel
  intro owner schedule g a h
  rcases List.mem_cons.1 hmodel with rfl | hmodel
  · change VirtualNodes.anchor owner schedule g = .ok a at h
    rw [VirtualNodes.anchor] at h
    split at h
    · rw [← Except.ok.inj h]
      rfl
    · split at h
      · rw [← Except.ok.inj h]
        rfl
      · exact hown (fun _ _ => List.mem_of_head?) h
  · cases List.mem_singleton.1 hmodel
    change ExtendedLabels.anchor owner schedule g = .ok a at h
    rw [ExtendedLabels.anchor] at h
    split at h
    · rw [← Except.ok.inj h]
      rfl
    · split at h
      · rw [← Except.ok.inj h]
        rfl
      · exact hown (fun _ _ => List.mem_of_getLast?) h

theorem AnchorsLike.local_bundled {strategy model : Strategy}
    (hlike : strategy.AnchorsLike model) (hmodel : model ∈ bundled) :
    strategy.Local := by
  intro owner schedule g a ha
  rw [hlike.1] at ha
  exact Strategy.local_bundled hmodel owner schedule g a ha

end Strategy

/-! ### Vocabularies -/

theorem Vocabulary.mem_foldl_addLabel {earlier labels : List Label}
    {label : Label} :
    label ∈ labels.foldl addLabel earlier ↔
      label ∈ earlier ∨ label ∈ labels := by
  induction labels generalizing earlier with
  | nil => simp
  | cons l labels ih =>
    rw [List.foldl_cons, ih, addLabel, List.mem_cons]
    by_cases hl : l ∈ earlier
    · rw [if_pos hl]
      constructor
      · rintro (h | h)
        · exact .inl h
        · exact .inr (.inr h)
      · rintro (h | rfl | h)
        · exact .inl h
        · exact .inl hl
        · exact .inr h
    · rw [if_neg hl, List.mem_append, List.mem_singleton, or_assoc]

theorem Vocabulary.contains_ofList {owner : String} {labels : List Label}
    {label : Label} :
    (ofList owner labels).contains label = true ↔ label ∈ labels := by
  rw [contains, ofList, List.contains_iff_mem, mem_foldl_addLabel]
  simp

/-- Labels that one owner shares belong to every vocabulary. -/
theorem Strategy.contains_of_shared {model : Strategy}
    (hmodel : model ∈ bundled) {owner owner' : Owner} {schedule : Schedule}
    {label : Label} (h : (model.vocabulary owner []).contains label = true) :
    (model.vocabulary owner' schedule).contains label = true := by
  rcases List.mem_cons.1 hmodel with rfl | hmodel
  · exact Vocabulary.contains_ofList.2 (Vocabulary.contains_ofList.1 h)
  · cases List.mem_singleton.1 hmodel
    refine Vocabulary.contains_ofList.2 ?_
    have hlabel : label ∈ [Label.before, Label.after] ++ Schedule.labels [] :=
      Vocabulary.contains_ofList.1 h
    exact List.mem_append_left _ (by simpa [Schedule.labels] using hlabel)

/-- Whatever its schedules are, a strategy that anchors as a bundled one does
can be followed. -/
theorem Schema.Sound.resolves {s : Schema} {model : Strategy} (hs : s.Sound)
    (hmodel : model ∈ Strategy.bundled) (hlike : s.strategy.AnchorsLike model) :
    s.Resolves := by
  refine ⟨hs, fun owner schedule g g' a hground h => ?_,
    fun owner owner' e e' he he' label h => ?_⟩
  · rw [hlike.1] at h ⊢
    exact Strategy.anchor_ground hmodel hground h
  · rw [hs.vocabulary_eq he', hlike.2]
    rw [hlike.2] at h
    exact Strategy.contains_of_shared hmodel h

/-! ### Layouts -/

/-- What the nodes of a program are spelled with. -/
def Layout.functions : Layout
  | "Program" => [.list "body" none]
  | "FunctionDeclaration" =>
    [.token "function", .node "id", .token "(", .list "params" (some ","),
      .token ")", .node "body"]
  | "BlockStatement" => [.token "\x7b", .list "body" none, .token "\x7d"]
  | "ReturnStatement" => [.token "return", .optional "argument"]
  | "ExpressionStatement" => [.node "expression"]
  | "EmptyStatement" => [.token ";"]
  | "CallExpression" =>
    [.node "callee", .token "(", .list "arguments" (some ","), .token ")"]
  | "Identifier" => [.scalar "name"]
  | "Literal" => [.scalar "raw"]
  | _ => []

/-- The slots of a strategy for a node type, with virtual nodes
looked through. -/
def Strategy.layout (strategy : Strategy) : Layout := fun type =>
  ((strategy.schedule? (.node type)).getD []).flatMap fun
    | .virtual role => (strategy.schedule? (.virtual role)).getD []
    | slot => [slot]

/-- Places for extras and implied scalars spell nothing. -/
def Slot.spells : Slot → Bool
  | .extras _ | .implied _ => false
  | _ => true

theorem Schema.Sound.layout_eq {s : Schema} (hs : s.Sound) {type : String}
    {declared : List FieldDef}
    (hdeclared : s.grammar.fields? type = some declared) :
    s.layout type = s.strategy.layout type := by
  obtain ⟨e, he⟩ := hs.covers type declared hdeclared
  obtain ⟨declared', -, hnode⟩ := hs.node type e he
  rw [Schema.layout, he, Strategy.layout, hnode.schedule, Option.getD_some]
  refine List.flatMap_congr fun slot hslot => ?_
  cases slot with
  | virtual role =>
    have hsome := hnode.hasRoles role (List.mem_filterMap.2 ⟨_, hslot, rfl⟩)
    cases he' : s.roles.lookup role with
    | none => simp [Schema.wrapped?, he'] at hsome
    | some e' =>
      have hentry : s.entry? (.virtual role) = some e' := he'
      rw [Schema.inline, hentry]
      simp only
      rw [(hs.role role e' hentry).schedule, Option.getD_some]
  | _ => rfl

/-- The bundled strategies spell a program alike. -/
theorem Strategy.layout_bundled {strategy : Strategy} (h : strategy ∈ bundled)
    {type : String} {declared : List FieldDef}
    (hdeclared : Grammar.functions.fields? type = some declared) :
    (strategy.layout type).filter Slot.spells = Layout.functions type := by
  have hall : ∀ strategy ∈ bundled, ∀ t ∈ Grammar.functions.types,
      (strategy.layout t.1).filter Slot.spells = Layout.functions t.1 := by
    decide
  exact hall strategy h (type, declared) (Named.mem_of_lookup hdeclared)

/-- Layouts that spell the types of a grammar alike spell its trees alike. -/
theorem Ast.leaves_congr {g : Grammar} {layout layout' : Layout}
    (h : ∀ type declared fields, g.fields? type = some declared →
      Leaf.ofSlots type fields (layout type) =
        Leaf.ofSlots type fields (layout' type))
    {t : Ast} (ht : g.Conforms t) : t.leaves layout = t.leaves layout' := by
  induction t using Branching.induction with
  | step t ih =>
    cases ht with
    | @node type fields defs hdeclared hnames hshapes hbelow =>
      have hvalue : ∀ value : Value, (∀ u ∈ value.nodes,
          u ∈ Branching.children (Ast.node type fields)) →
          spelling layout value = spelling layout' value := by
        intro value hmem
        cases value with
        | node u =>
          have hu := hmem u (List.mem_singleton_self u)
          rw [spelling, spelling, ih u hu (hbelow u hu)]
        | list items =>
          rw [spelling, spelling, itemLeaves_eq_map, itemLeaves_eq_map]
          congr 1
          exact List.map_congr_left fun u hu =>
            ih u (hmem u hu) (hbelow u (hmem u hu))
        | absent => rfl
        | scalar value => rfl
      have hfields :
          ∀ fs : List (String × Value), (∀ field ∈ fs, field ∈ fields) →
            spellings layout fs = spellings layout' fs := by
        intro fs hfs
        induction fs with
        | nil => rfl
        | cons field fs ihFields =>
          obtain ⟨name, value⟩ := field
          rw [spellings, spellings,
            ihFields fun f hf => hfs f (List.mem_cons_of_mem _ hf), hvalue]
          exact fun u hu => List.mem_flatMap.2 ⟨(name, value),
            hfs _ List.mem_cons_self, hu⟩
      rw [leaves, leaves, hfields fields fun _ hf => hf,
        h type defs _ hdeclared]

theorem leaves_functions {s : Schema} (hs : s.Sound)
    (hstrategy : s.strategy ∈ Strategy.bundled)
    (hgrammar : s.grammar = .functions) {t : Ast} (ht : s.grammar.Conforms t) :
    t.leaves s.layout = t.leaves .functions := by
  refine Ast.leaves_congr (fun type declared fields hdeclared => ?_) ht
  have hlayout := hs.layout_eq hdeclared
  rw [hgrammar] at hdeclared
  rw [hlayout, ← Strategy.layout_bundled hstrategy hdeclared]
  refine (Leaf.ofSlots_filter type fields _ fun slot hslot => ?_).symm
  cases slot <;> first | rfl | exact nomatch hslot

/-! ### Writing under other schedules -/

namespace Cst

/-- Whatever the schedules of a strategy are that anchors as a bundled one does:
a tree that was built has the text of all its tokens as its source. -/
theorem source_of_build {g : Grammar} {strategy model : Strategy} {s : Schema}
    {t : Ast} {tokens : List SourceToken} {tree : Cst}
    (hmodel : model ∈ Strategy.bundled) (hlike : strategy.AnchorsLike model)
    (hs : Schema.make g strategy = .ok s) (h : build s t tokens = .ok tree) :
    tree.source s = .ok (String.join (tokens.map SourceToken.text)) := by
  obtain ⟨-, hstrategy, hsound⟩ := Schema.make_eq_ok hs
  rw [← hstrategy] at hlike
  exact source_eq_join (hsound.resolves hmodel hlike)
    (hlike.local_bundled hmodel) h

/-- The strategy with virtual nodes, but without one for the
arguments of a call. -/
def sampleStrategy : Strategy :=
  { Strategy.virtualNodes with
    schedule? := fun
      | .node "CallExpression" =>
        some (.node "callee" ::
          Strategy.VirtualNodes.parenthesized "arguments")
      | owner => Strategy.virtualNodes.schedule? owner }

theorem source_of_build_sample :
    ∃ s tree, Schema.make .functions sampleStrategy = .ok s ∧
      build s sampleTree sampleTokens = .ok tree ∧
      tree.source s = .ok "f( true )" := by
  have h : (Schema.make .functions sampleStrategy >>= fun s =>
      build s sampleTree sampleTokens).isOk = true := by decide +kernel
  obtain ⟨tree, h⟩ := Outcome.exists_of_isOk h
  obtain ⟨s, hs, htree⟩ := Outcome.bind_eq_ok.1 h
  have hjoin : String.join (sampleTokens.map SourceToken.text) =
      "f( true )" := by decide +kernel
  have hlike : sampleStrategy.AnchorsLike .virtualNodes := ⟨rfl, rfl⟩
  refine ⟨s, tree, hs, htree, ?_⟩
  rw [← hjoin]
  exact source_of_build List.mem_cons_self hlike hs htree

end Cst

/-! ### Building a program -/

theorem exists_make_functions {strategy : Strategy}
    (h : strategy ∈ Strategy.bundled) :
    ∃ s, Schema.make .functions strategy = .ok s := by
  have hall : ∀ strategy ∈ Strategy.bundled,
      (Schema.make .functions strategy).isOk = true := by
    decide +kernel
  exact Outcome.exists_of_isOk (hall strategy h)

namespace Cst

open Build

/-- What building does with any tree and any tokens under a bundled strategy. A
token that breaks the tiling comes first, then a tree that is none of the
grammar; otherwise the leaves of the tree are compared with the tokens that
carry meaning. Extras never matter. -/
theorem build_functions {strategy : Strategy}
    (h : strategy ∈ Strategy.bundled) :
    ∃ s, Schema.make .functions strategy = .ok s ∧ ∀ t tokens,
      (¬Tiles 0 tokens →
        ∃ front token behind, tokens = front ++ token :: behind ∧
          Tiles 0 front ∧
        ¬Continues (streamEnd front) token ∧
        build s t tokens =
          .error (.tokenMismatch (.startingAt (streamEnd front))
          (.tokenAt token.text token.token.span) token.range)) ∧
      (Tiles 0 tokens → ∀ e, Grammar.functions.check t = .error e →
        build s t tokens = .error (.shape e)) ∧
      (Tiles 0 tokens → Grammar.functions.check t = .ok () →
        match Leaf.verdict (streamEnd tokens) (t.leaves .functions)
          (tokens.filter (!·.isExtra)) with
        | some e => build s t tokens = .error e
        | none => ∃ tree, build s t tokens = .ok tree) := by
  obtain ⟨s, hs⟩ := exists_make_functions h
  obtain ⟨hgrammar, hstrategy, hsound⟩ := Schema.make_eq_ok hs
  refine ⟨s, hs, fun t tokens => ⟨fun htiles => ?_, fun htiles e hcheck => ?_,
    fun htiles hcheck => ?_⟩⟩
  · obtain ⟨front, token, behind, htokens, hfront, ht⟩ := exists_break htiles
    refine ⟨front, token, behind, htokens, hfront, ?_, ?_⟩
    · rw [streamEnd_eq_stopFrom]
      exact ht
    · rw [streamEnd_eq_stopFrom front, build, htokens,
        checkTiling_of_break hfront ht]
      rfl
  · rw [build, checkTiling_eq_ok.2 htiles, Outcome.ok_bind, hgrammar, hcheck]
  · have hdistinct : s.grammar.Distinct := hgrammar ▸
      Grammar.distinct_of_validate Grammar.validate_functions
    rw [← hgrammar] at hcheck
    have hconforms := Grammar.conforms_of_check hcheck
    -- under either strategy the tree has the leaves that the
    -- one layout gives it
    rw [← leaves_functions hsound (hstrategy ▸ h) hgrammar hconforms]
    exact build_eq_verdict
      (hsound.resolves (hstrategy ▸ h) ⟨rfl, rfl⟩) hdistinct htiles hcheck

/-- The sample tree is built from its tokens; without the closing
parenthesis the end of the text is reported, and without the first token one
that breaks the tiling. -/
theorem build_functions_sample :
    ∃ s, Schema.make .functions .virtualNodes = .ok s ∧
      (∃ tree, build s sampleTree sampleTokens = .ok tree) ∧
      build s sampleTree (sampleTokens.take 5) =
        .error (.tokenMismatch (.text ")") .endOfInput (.empty 8)) ∧
      ∃ front token behind, sampleTokens.drop 1 = front ++ token :: behind ∧
        Tiles 0 front ∧ ¬Continues (streamEnd front) token ∧
        build s sampleTree (sampleTokens.drop 1) =
          .error (.tokenMismatch (.startingAt (streamEnd front))
            (.tokenAt token.text token.token.span) token.range) := by
  obtain ⟨s, hs, h⟩ :=
    build_functions
      (List.mem_cons_self : Strategy.virtualNodes ∈ Strategy.bundled)
  have hcheck : Grammar.functions.check sampleTree = .ok () := by
    have hok : (Grammar.functions.check sampleTree).isOk = true := by
      decide +kernel
    obtain ⟨⟨⟩, hok⟩ := Outcome.exists_of_isOk hok
    exact hok
  have hverdict :
      Leaf.verdict (streamEnd sampleTokens) (sampleTree.leaves .functions)
        (sampleTokens.filter (!·.isExtra)) = none := by decide +kernel
  have hverdict' : Leaf.verdict (streamEnd (sampleTokens.take 5))
        (sampleTree.leaves .functions)
        ((sampleTokens.take 5).filter (!·.isExtra)) =
      some (.tokenMismatch (.text ")") .endOfInput (.empty 8)) := by
    decide +kernel
  refine ⟨s, hs, ?_, ?_, ?_⟩
  · have hbuild :=
      (h sampleTree sampleTokens).2.2 (checkTiling_eq_ok.1 rfl) hcheck
    rw [hverdict] at hbuild
    exact hbuild
  · have hbuild :=
      (h sampleTree (sampleTokens.take 5)).2.2 (checkTiling_eq_ok.1 rfl) hcheck
    rw [hverdict'] at hbuild
    exact hbuild
  · exact (h sampleTree (sampleTokens.drop 1)).1 fun htiles =>
      absurd htiles.1.1 (by decide)

end Cst

end Lossless
