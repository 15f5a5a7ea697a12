import Lossless.Proofs.Covering
import Lossless.Proofs.Grammatical
import Lossless.Proofs.Rebuilding
import Lossless.Proofs.RoundTrip
import Lossless.Proofs.WellFormed

/-!
# Which node keeps a run

The gaps of a program belong to the lowest node or virtual node around them, and
the bundled strategies share them out between this node and its children. With
virtual nodes the child behind a gap comes first, then the one in front of it
(`KeptByChild`); with extended labels only the items of lists take part, and the
node itself names the other gaps (`KeptByItem`). So it is for every run of
extras in every text that is a program (`run_kept_of_parse`).
-/

namespace Lossless

/-! ### Programs inside of programs -/

/-- A program contains no other program. -/
theorem Ast.IsProgram.inner {lex : Lexicon} {t : Ast} (h : IsProgram lex t) :
    ∀ u ∈ (Branching.nodes t).tail, u.type ≠ "Program" := by
  intro u hu htype
  obtain ⟨v, hv, hu⟩ := Branching.exists_parent hu
  obtain ⟨way, hway⟩ := mem_nodes_iff.1 hv
  obtain ⟨inner, hpart, -⟩ := (IsPart.program h).of_leads hway
  obtain ⟨field, hfield, hu⟩ := List.mem_flatMap.1 hu
  exact program_notMem_fieldTypes v.type field.1
    (htype ▸ (hpart.fields field hfield u hu).type_mem)

/-- The tree of a text contains no program but itself. -/
theorem Program.inner_of_parse {text : String} {p : Program}
    (h : parse text = .ok p) :
    ∀ u ∈ (Branching.nodes p.ast).tail, u.type ≠ "Program" := by
  -- which names and literals the grammar allows does not matter here
  let lex : Lexicon := ⟨fun _ => True, fun _ _ => True⟩
  have hcovers : ∀ t ∈ tokenize text, lex.Covers t :=
    fun _ _ => ⟨fun _ => trivial, fun _ _ => trivial⟩
  exact (grammatical_of_parse hcovers h).1.inner

/-! ### The labels of schedules with virtual nodes -/

namespace Strategy

theorem leafSchedule?_labels {type : String} {schedule : Schedule}
    (h : leafSchedule? type = some schedule) : schedule.labels = [] := by
  rw [leafSchedule?.eq_def] at h
  split at h
  case h_3 => exact nomatch h
  all_goals
    cases h
    rfl

theorem VirtualNodes.labels_of_schedule? {owner : Owner} {schedule : Schedule}
    (h : schedule? owner = some schedule) :
    ∀ label ∈ schedule.labels, label = Label.inside := by
  rw [schedule?.eq_def] at h
  split at h
  case h_1 type =>
    split at h
    case h_8 =>
      rw [leafSchedule?_labels h]
      exact fun label hlabel => absurd hlabel List.not_mem_nil
    all_goals
      cases h
      decide
  all_goals
    cases h
    decide

end Strategy

namespace Cst

/-! ### The node of a gap and its children -/

/-- An item among the members of a node. -/
def itemOf? : Element × Member → Option Value
  | (.item .., .child item) => some item
  | _ => none

/-- A run between two members is kept in front of the child behind it; or else
behind the child in front of it; or else inside of the value. -/
def KeptByChild (value : Value) (left right : Option (Element × Member))
    (run : List Token) : Prop :=
  match left.bind (·.2.child?), right.bind (·.2.child?) with
  | _, some child => child.record.get .before = run
  | some child, none => child.record.get .after = run
  | none, none => value.record.get .inside = run

/-- A run between two members is kept in front of the item behind it; or else
behind the item in front of it; or else under the last label of the value's
schedule between the two. -/
def KeptByItem (s : Schema) (value : Value)
    (left right : Option (Element × Member)) (run : List Token) : Prop :=
  match left.bind itemOf?, right.bind itemOf? with
  | _, some item => item.record.get .before = run
  | some item, none => item.record.get .after = run
  | none, none =>
    ∃ label, (Gap.labels ⟨left.elim .start Prod.fst,
      right.elim .stop Prod.fst⟩ (value.schedule s)).getLast? =
        some label ∧
      value.record.get label = run

section

variable {s : Schema} {value : Value} {m : Element × Member}
  {left right : Option (Element × Member)} {run : List Token}

theorem label_eq_inside (hs : s.Sound) (hstrategy : s.strategy = .virtualNodes)
    {g : Gap} {label : Label} (h : label ∈ g.labels (value.schedule s)) :
    label = .inside := by
  have hlabel : label ∈ (value.schedule s).labels :=
    Schedule.mem_labels_of_sublist
      ((List.drop_sublist _ _).trans (List.take_sublist _ _)) h
  cases howner : value.owner?.bind s.entry? with
  | none =>
    rw [Value.schedule, howner] at hlabel
    exact absurd hlabel List.not_mem_nil
  | some e =>
    obtain ⟨owner, -, he⟩ := Option.bind_eq_some_iff.1 howner
    obtain ⟨_, hfits⟩ := hs.entryFits he
    have hschedule := hfits.schedule
    rw [hstrategy] at hschedule
    rw [Value.schedule, howner] at hlabel
    exact Strategy.VirtualNodes.labels_of_schedule? hschedule label hlabel

/-- Beside a gap there is a child where the element says so, the ends of the
text being none. -/
theorem isChild_elim {e : Element} (he : e.isChild = false)
    (h : ∀ m ∈ left, m ∈ value.members s) :
    (left.elim e Prod.fst).isChild = (left.bind (·.2.child?)).isSome := by
  cases left with
  | none => exact he
  | some m => exact Value.isChild_of_mem (h m rfl)

theorem isItem_elim {e : Element} (he : e.isItem = false)
    (h : ∀ m ∈ left, m ∈ value.members s) :
    (left.elim e Prod.fst).isItem = (left.bind itemOf?).isSome := by
  cases left with
  | none => exact he
  | some m =>
    have hchild := Value.isChild_of_mem (h m rfl)
    obtain ⟨e, m⟩ := m
    cases e with
    | item slot index =>
      cases m with
      | word text => exact nomatch hchild
      | child item => rfl
    | _ => rfl

theorem child?_of_itemOf? {item : Value} (h : left.bind itemOf? = some item) :
    left.bind (·.2.child?) = some item := by
  obtain ⟨⟨e, m⟩, rfl, hm⟩ := Option.bind_eq_some_iff.1 h
  rw [itemOf?.eq_def] at hm
  split at hm
  · rename_i he
    cases he
    exact hm
  · exact nomatch hm

theorem under_child {child : Value} (h : left.bind (·.2.child?) = some child)
    (label : Label) :
    under (left.bind (·.2.record?)) label = child.record.get label := by
  obtain ⟨⟨e, m⟩, rfl, hm⟩ := Option.bind_eq_some_iff.1 h
  cases m with
  | word text => exact nomatch hm
  | child value =>
    cases Option.some.inj hm
    rfl

theorem Anchored.keptByChild (h : Anchored s value left right run)
    (hs : s.Sound) (hstrategy : s.strategy = .virtualNodes)
    (hleft : ∀ m ∈ left, m ∈ value.members s)
    (hright : ∀ m ∈ right, m ∈ value.members s) :
    KeptByChild value left right run := by
  obtain ⟨owner, a, -, ha, hview⟩ := h
  rw [Schema.resolve, hstrategy] at ha
  change Strategy.VirtualNodes.anchor _ _ _ = .ok a at ha
  rw [Strategy.VirtualNodes.anchor, isChild_elim rfl hleft,
    isChild_elim rfl hright] at ha
  rw [KeptByChild]
  split
  case h_1 child hchild =>
    rw [hchild] at ha
    cases Except.ok.inj ha
    rwa [← under_child hchild]
  case h_2 child hchild hnone =>
    rw [hnone, hchild] at ha
    cases Except.ok.inj ha
    rwa [← under_child hchild]
  case h_3 hnone hnone' =>
    rw [hnone, hnone'] at ha
    obtain ⟨label, hlabel, rfl⟩ := Strategy.ownLabel_eq_ok ha
    rwa [← label_eq_inside hs hstrategy (List.mem_of_head? hlabel)]

theorem Anchored.keptByItem (h : Anchored s value left right run)
    (hstrategy : s.strategy = .extendedLabels)
    (hleft : ∀ m ∈ left, m ∈ value.members s)
    (hright : ∀ m ∈ right, m ∈ value.members s) :
    KeptByItem s value left right run := by
  obtain ⟨owner, a, -, ha, hview⟩ := h
  rw [Schema.resolve, hstrategy] at ha
  change Strategy.ExtendedLabels.anchor _ _ _ = .ok a at ha
  rw [Strategy.ExtendedLabels.anchor, isItem_elim rfl hleft,
    isItem_elim rfl hright] at ha
  rw [KeptByItem]
  split
  case h_1 item hitem =>
    rw [hitem] at ha
    cases Except.ok.inj ha
    rwa [← under_child (child?_of_itemOf? hitem)]
  case h_2 item hitem hnone =>
    rw [hnone, hitem] at ha
    cases Except.ok.inj ha
    rwa [← under_child (child?_of_itemOf? hitem)]
  case h_3 hnone hnone' =>
    rw [hnone, hnone'] at ha
    obtain ⟨label, hlabel, rfl⟩ := Strategy.ownLabel_eq_ok ha
    exact ⟨label, hlabel, hview⟩

theorem AnchoredAt.keptByChild {i : Nat} (h : AnchoredAt s value i run)
    (hs : s.Sound) (hstrategy : s.strategy = .virtualNodes) :
    KeptByChild value (memberBefore? s (value.members s) i)
      (memberAt? s (value.members s) i) run :=
  Anchored.keptByChild h hs hstrategy (fun _ => mem_of_memberBefore?) fun _ =>
    mem_of_memberAt?

theorem AnchoredAt.keptByItem {i : Nat} (h : AnchoredAt s value i run)
    (hstrategy : s.strategy = .extendedLabels) :
    KeptByItem s value (memberBefore? s (value.members s) i)
      (memberAt? s (value.members s) i) run :=
  Anchored.keptByItem h hstrategy (fun _ => mem_of_memberBefore?) fun _ =>
    mem_of_memberAt?

end

/-! ### The runs of a program -/

/-- A run of extras in a stream that has no extras on either side. -/
structure MaximalRun (tokens front run behind : List SourceToken) : Prop where
  split : tokens = front ++ (run ++ behind)
  extras : ∀ t ∈ run, t.isExtra = true
  nonempty : run ≠ []
  left : ∀ t, front.getLast? = some t → t.isExtra = false
  right : ∀ t, behind.head? = some t → t.isExtra = false

theorem Piece.leavesIn_le {tokens front behind : List SourceToken}
    (h : tokens = front ++ behind) : leavesIn front ≤ leavesIn tokens := by
  rw [h, leavesIn, leavesIn, List.countP_append]
  exact Nat.le_add_right _ _

/-- The leaves of a stream are its tokens that carry meaning. -/
theorem Piece.leaves_ofTokens (tokens : List SourceToken) :
    leaves (ofTokens tokens) =
      (tokens.filter (!·.isExtra)).map fun t => .text t.text := by
  rw [leaves, row_ofTokens, Sign.words_of_stream, List.map_map]
  rfl

theorem leavesOf_of_laid {s : Schema} {t : Cst} {ps : List Piece}
    (hlaid : Laid s t) (h : t.pieces s = .ok ps) :
    leavesOf s ((Value.node t).members s) = Piece.leaves ps := by
  cases hlaid with
  | @node type fields extras e here inner below =>
    obtain ⟨-, halong⟩ := along_of_node here h
    rw [leaves_along halong, members_node here extras]

/-- The tree that is built from a program is laid out. -/
theorem laid_of_parse {text : String} {p : Program}
    (hp : Program.parse text = .ok p) {s : Schema}
    (hs : s.Sound) (hstrategy : s.strategy ∈ Strategy.bundled)
    (hgrammar : s.grammar = .functions) {tree : Cst}
    (htree : build s p.ast p.tokens = .ok tree) : Laid s tree := by
  have hdistinct : s.grammar.Distinct := hgrammar ▸
    Grammar.distinct_of_validate Grammar.validate_functions
  obtain ⟨hpieces, -⟩ := pieces_of_build (hs.resolves hstrategy ⟨rfl, rfl⟩)
    (Strategy.local_bundled hstrategy) htree
  have hplain := plain_of_build hs htree
  have hconforms : s.grammar.Conforms p.ast :=
    hgrammar ▸ (Program.parse_eq_ok hp).1
  refine laid_of_pieces hs (lone_of_bundled hs hstrategy hgrammar) hdistinct
    tree hplain hconforms (fun u hu htype => ?_) hpieces
  have hmem : u.type ∈ ((Branching.nodes tree).map type).tail := by
    rw [← List.map_tail]
    exact List.mem_map_of_mem hu
  rw [types_of_plain hplain, ← List.map_tail] at hmem
  obtain ⟨b, hb, hbu⟩ := List.mem_map.1 hmem
  refine Program.inner_of_parse hp b hb (hbu.trans (htype.trans ?_))
  rw [hgrammar]
  rfl

/-- Where the runs of extras of a program are kept. Some value of its tree owns
the gap that a run fills: the lowest node or virtual node around the two tokens
with meaning beside it, or the root where one of these is missing. The bundled
strategies share the gap out between the two members of the value that these
tokens belong to. -/
theorem run_kept_of_parse {text : String} {p : Program}
    (hp : Program.parse text = .ok p) {strategy : Strategy}
    (hstrategy : strategy ∈ Strategy.bundled) :
    ∃ s tree, Schema.make .functions strategy = .ok s ∧
      build s p.ast p.tokens = .ok tree ∧
      leavesOf s ((Value.node tree).members s) =
        (p.tokens.filter (!·.isExtra)).map (fun t => .text t.text) ∧
      ∀ front run behind, MaximalRun p.tokens front run behind →
        (∃ value offset, Owns s tree (Piece.leavesIn front) value offset) ∧
          ∀ value offset, Owns s tree (Piece.leavesIn front) value offset →
            (strategy = .virtualNodes → KeptByChild value (memberBefore? s
              (value.members s) (Piece.leavesIn front - offset))
              (memberAt? s (value.members s) (Piece.leavesIn front - offset))
              (run.map SourceToken.token)) ∧
              (strategy = .extendedLabels → KeptByItem s value (memberBefore? s
                (value.members s) (Piece.leavesIn front - offset))
                (memberAt? s (value.members s) (Piece.leavesIn front - offset))
                (run.map SourceToken.token)) := by
  obtain ⟨s, hs⟩ := exists_make_functions hstrategy
  obtain ⟨hgrammar, hmade, hsound⟩ := Schema.make_eq_ok hs
  have hbundled : s.strategy ∈ Strategy.bundled := hmade ▸ hstrategy
  have hlocal := Strategy.local_bundled hbundled
  obtain ⟨tree, htree⟩ := exists_build_of_parse hp hsound hbundled hgrammar
  obtain ⟨hpieces, -⟩ :=
    pieces_of_build (hsound.resolves hbundled ⟨rfl, rfl⟩) hlocal htree
  have hlaid := laid_of_parse hp hsound hbundled hgrammar htree
  have hleaves : leavesOf s ((Value.node tree).members s) =
      (p.tokens.filter (!·.isExtra)).map (fun t => .text t.text) := by
    rw [leavesOf_of_laid hlaid hpieces, Piece.leaves_ofTokens]
  refine ⟨s, tree, hs, htree, hleaves, fun front run behind hrun => ?_⟩
  obtain ⟨hexists, hall⟩ := anchoredAt_of_laid hsound hlocal
    (solid_of_bundled hsound hbundled hgrammar) hlaid hpieces
    (Piece.leavesIn front)
  have hbefore :
      Piece.runBefore (Piece.ofTokens p.tokens) (Piece.leavesIn front) =
        run.map SourceToken.token := by
    rw [hrun.split]
    exact Piece.runBefore_ofTokens hrun.left hrun.extras hrun.right
  have hwidth : (Value.node tree).width s = Piece.leavesIn p.tokens := by
    rw [Value.width, widthOf, hleaves, List.length_map, Piece.leavesIn,
      List.countP_eq_length_filter]
  refine ⟨hexists, fun value offset howns => ?_⟩
  have hanchored :=
    hall value offset howns (hwidth ▸ Piece.leavesIn_le hrun.split)
      (hbefore ▸ by simpa using hrun.nonempty)
  rw [hbefore] at hanchored
  exact ⟨fun h => hanchored.keptByChild hsound (hmade.trans h),
    fun h => hanchored.keptByItem (hmade.trans h)⟩

/-- In `f( true )` the space behind `true` belongs to a node or virtual node,
which keeps it or has one of its children keep it. -/
theorem run_kept_of_parse_sample :
    ∃ p s tree value offset, Program.parse "f( true )" = .ok p ∧
      Schema.make .functions .virtualNodes = .ok s ∧
      build s p.ast p.tokens = .ok tree ∧ Owns s tree 3 value offset ∧
      KeptByChild value (memberBefore? s (value.members s) (3 - offset))
        (memberAt? s (value.members s) (3 - offset)) [⟨.blank, " ",
          ⟨⟨7, 8⟩, ⟨0, 7⟩, ⟨0, 8⟩⟩⟩] := by
  have htokens : (Program.parse "f( true )").map Program.tokens =
      .ok sampleTokens := by decide +kernel
  obtain ⟨p, hp, htokens⟩ := Outcome.map_eq_ok.1 htokens
  obtain ⟨s, tree, hs, htree, -, hkept⟩ :=
    run_kept_of_parse hp
      (List.mem_cons_self : Strategy.virtualNodes ∈ Strategy.bundled)
  have hrun :
      MaximalRun p.tokens (sampleTokens.take 4) ((sampleTokens.drop 4).take 1)
        (sampleTokens.drop 5) := by
    refine ⟨htokens, by decide, by decide, ?_, ?_⟩
    · rintro t ⟨⟩
      rfl
    · rintro t ⟨⟩
      rfl
  obtain ⟨⟨value, offset, howns⟩, hall⟩ := hkept _ _ _ hrun
  exact ⟨p, s, tree, value, offset, hp, hs, htree, howns,
    (hall value offset howns).1 rfl⟩

end Cst

end Lossless
