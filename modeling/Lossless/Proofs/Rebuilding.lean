import Lossless.Proofs.Attachment
import Lossless.Proofs.Rigidity
import Lossless.Proofs.Spelled

/-!
# Trees that are built again

A concrete tree need not come from building. If it has a source and its syntax
tree belongs to the grammar, then building its syntax tree from what is written
for it gives the tree again, up to the places of tokens and the order of labels
in a record (`exists_rebuild`): there is no other way to attach the same extras.
The two exceptions are stated as hypotheses: a node of the root's type below the
root, which begins and ends with nothing, and a virtual node around an empty
list, which building never makes.
-/

namespace Lossless

/-! ### Records -/

namespace Extras

/-- The entries of a record with their tokens apart from their places. -/
def signs (x : Extras) : List (Label × List Sign) :=
  x.entries.map fun entry => (entry.1, entry.2.map Token.sign)

/-- Two records keep the same extras under the same labels, wherever these stand
in their texts and in whatever order the labels are. -/
def Alike (x y : Extras) : Prop := x.signs.Perm y.signs

theorem names_signs (x : Extras) :
    x.signs.map Prod.fst = x.entries.map Prod.fst := by
  rw [signs, List.map_map]
  rfl

theorem Proper.mem_names {x : Extras} (h : x.Proper) {label : Label} :
    label ∈ x.entries.map Prod.fst ↔ x.get label ≠ [] := by
  refine ⟨fun hlabel => ?_, Cst.mem_names_of_get⟩
  obtain ⟨run, hrun⟩ := Named.exists_lookup hlabel
  rw [get, hrun]
  exact h.runs _ (Named.mem_of_lookup hrun)

theorem Proper.lookup_signs {x : Extras} {label : Label}
    (hlabel : label ∈ x.entries.map Prod.fst) :
    x.signs.lookup label = some ((x.get label).map Token.sign) := by
  obtain ⟨run, hrun⟩ := Named.exists_lookup hlabel
  rw [signs, Named.lookup_map, get, hrun]
  rfl

theorem Proper.alike {x y : Extras} (hx : x.Proper) (hy : y.Proper)
    (h : ∀ label, Cst.Agree x.get y.get label) : x.Alike y := by
  have hmem : ∀ label, label ∈ x.entries.map Prod.fst ↔
      label ∈ y.entries.map Prod.fst := by
    intro label
    have hlength := congrArg List.length (h label)
    rw [List.length_map, List.length_map] at hlength
    rw [hx.mem_names, hy.mem_names, ← List.length_pos_iff,
      ← List.length_pos_iff, hlength]
  have hnames := (List.perm_ext_iff_of_nodup hx.nodup hy.nodup).2 hmem
  rw [← names_signs, ← names_signs] at hnames
  refine Named.perm (names_signs x ▸ hx.nodup) hnames fun label hlabel => ?_
  rw [names_signs] at hlabel
  rw [Proper.lookup_signs hlabel, Proper.lookup_signs ((hmem label).1 hlabel),
    h label]

theorem Holds.proper {x : Extras} {runs : List (List Token × Nat)}
    (h : x.Holds runs) (hruns : ∀ r ∈ runs, r.1 ≠ []) : x.Proper := by
  refine ⟨h.labels, fun entry he => ?_⟩
  have hmem : entry.2 ∈ runs.map Prod.fst := h.runs_eq ▸ List.mem_map_of_mem he
  obtain ⟨r, hr, heq⟩ := List.mem_map.1 hmem
  exact heq ▸ hruns r hr

end Extras

namespace Cst

open Build

theorem ne_nil_of_mem_extraRuns {tokens : List SourceToken} {run : List Token}
    (h : run ∈ extraRuns tokens) : run ≠ [] := by
  rintro rfl
  exact absurd (List.mem_filter.1 h).2 (by simp)

/-- All records of a tree are proper. -/
def Proper (t : Cst) : Prop := ∀ r ∈ t.records, r.2.Proper

instance (t : Cst) : Decidable t.Proper :=
  inferInstanceAs (Decidable (∀ r ∈ t.records, r.2.Proper))

theorem Keeps.proper {records : List (Owner × Extras)}
    {runs : List (List Token × Nat)} (h : Keeps records runs)
    (hruns : ∀ r ∈ runs, r.1 ≠ []) : ∀ r ∈ records, r.2.Proper := by
  obtain ⟨shares, hshares, hperm⟩ := h
  have hall :
      ∀ share ∈ shares, ∀ r ∈ share, r.1 ≠ [] := fun share hshare r hr =>
    hruns r (hperm.mem_iff.1 (List.mem_flatten_of_mem hshare hr))
  clear hperm
  induction hshares with
  | nil => exact fun r hr => absurd hr List.not_mem_nil
  | cons hholds _ ih =>
    intro r hr
    rcases List.mem_cons.1 hr with rfl | hr
    · exact hholds.proper (hall _ List.mem_cons_self)
    · exact ih
        (fun share hshare => hall share (List.mem_cons_of_mem _ hshare)) r hr

/-- The records of a tree that was built are proper. -/
theorem proper_of_build {s : Schema} {t : Ast} {tokens : List SourceToken}
    {tree : Cst} (hs : s.Sound) (hseparates : s.Separates)
    (h : build s t tokens = .ok tree) : tree.Proper := by
  refine (keeps_of_build hs hseparates h).proper fun r hr => ?_
  have hrun : r.1 ∈ (extraRuns tokens).zipIdx.map Prod.fst :=
    List.mem_map_of_mem hr
  rw [List.zipIdx_map_fst] at hrun
  exact ne_nil_of_mem_extraRuns hrun

/-- Two trees of one shape keep the same extras under the same labels, wherever
these stand in their texts and in whatever order the labels of a record are. -/
structure Alike (t t' : Cst) : Prop where
  blank : t'.blank = t.blank
  records :
    List.Forall₂ (fun r r' => r.1 = r'.1 ∧ r.2.Alike r'.2) t.records t'.records

theorem alike_of_sameRecords {rs rs' : List (Owner × Extras)}
    (hrs : ∀ r ∈ rs, r.2.Proper) (hrs' : ∀ r ∈ rs', r.2.Proper)
    (h : SameRecords rs rs') :
    List.Forall₂ (fun r r' => r.1 = r'.1 ∧ r.2.Alike r'.2) rs rs' := by
  induction h with
  | nil => exact .nil
  | cons hfirst _ ih =>
    refine .cons ⟨hfirst.1, ?_⟩ (ih (fun r hr =>
      hrs r (List.mem_cons_of_mem _ hr))
      fun r hr => hrs' r (List.mem_cons_of_mem _ hr))
    exact (hrs _ List.mem_cons_self).alike (hrs' _ List.mem_cons_self) hfirst.2

/-! ### Building again -/

theorem source_eq_ok {s : Schema} {t : Cst} {text : String}
    (h : t.source s = .ok text) :
    ∃ ps, t.pieces s = .ok ps ∧ ps.countP Piece.isExtras = t.labelCount ∧
      text = String.join (ps.map Piece.text) := by
  rw [source] at h
  obtain ⟨ps, hps, h⟩ := Outcome.bind_eq_ok.1 h
  split at h
  · exact ⟨ps, hps, ‹_›, (Except.ok.inj h).symm⟩
  · cases h

/-- Tokens that spell some leaves one by one go together with them. -/
theorem verdict_of_texts (streamEnd : Nat) (tokens : List SourceToken) :
    Leaf.verdict streamEnd (tokens.map fun t => .text t.text) tokens =
      none := by
  induction tokens with
  | nil => rfl
  | cons t ts ih => exact (if_pos rfl).trans ih

/-- A tree that has a source and belongs to the grammar is built again from what
is written for it. -/
theorem rebuild_of_pieces {s : Schema} (hs : s.Resolves)
    (hlocal : s.strategy.Local) (hsolid : s.Solid) (hlone : s.Lone)
    (hdistinct : s.grammar.Distinct) {t : Cst} {a : Ast} {ps : List Piece}
    {tokens : List SourceToken} (hproper : t.Proper) (hplain : t.plain = some a)
    (hcheck : s.grammar.check a = .ok ())
    (hinner : ∀ u ∈ (Branching.nodes t).tail, u.type ≠ s.grammar.root)
    (hsome : t.WrapsSome) (hpieces : t.pieces s = .ok ps)
    (hcount : ps.countP Piece.isExtras = t.labelCount) (htiles : Tiles 0 tokens)
    (hsigns : tokens.map SourceToken.sign = Piece.row ps) :
    ∃ t', build s a tokens = .ok t' ∧ t.Alike t' := by
  have hconforms := Grammar.conforms_of_check hcheck
  have hlaid :=
    laid_of_pieces hs.sound hlone hdistinct t hplain hconforms hinner hpieces
  -- the tokens that carry meaning spell the leaves of the syntax tree
  have hleaves : a.leaves s.layout =
      (tokens.filter (!·.isExtra)).map fun t => .text t.text := by
    rw [← leaves_of_node hs.sound hlaid hplain hpieces, Piece.leaves, ← hsigns,
      Sign.words_of_stream, List.map_map]
    rfl
  have hbuild := build_eq_verdict hs hdistinct htiles hcheck
  rw [hleaves, verdict_of_texts] at hbuild
  obtain ⟨t', ht'⟩ := hbuild
  have hblank : t'.blank = t.blank := by
    rw [blank_of_build hs.sound ht', blank_of_laid hlaid hsome hplain]
  obtain ⟨hpieces', hcount'⟩ := pieces_of_build hs hlocal ht'
  have hrow : Piece.row ps = Piece.row (Piece.ofTokens tokens) := by
    rw [Piece.row_ofTokens, hsigns]
  have hsame := sameRecords_of_row hs.sound hlocal hsolid hlaid hblank hpieces
    hpieces' hrow hcount hcount'
  have hproper' := proper_of_build hs.sound (hs.sound.separates hlocal) ht'
  exact ⟨t', ht', hblank, alike_of_sameRecords hproper hproper' hsame⟩

/-! ### The bundled strategies -/

theorem lone_of_bundled {s : Schema} (hs : s.Sound)
    (hstrategy : s.strategy ∈ Strategy.bundled)
    (hgrammar : s.grammar = .functions) : s.Lone := by
  have hall : ∀ strategy ∈ Strategy.bundled, ∀ t ∈ Grammar.functions.types,
      ((strategy.schedule? (.node t.1)).getD []).roles.length ≤ 1 := by decide
  intro owner e he role hrole role' hrole'
  cases owner with
  | node type =>
    obtain ⟨declared, hdeclared, hfits⟩ := hs.node type e he
    rw [hgrammar] at hdeclared
    have hlength := hall _ hstrategy _ (Named.mem_of_lookup hdeclared)
    rw [hfits.schedule, Option.getD_some] at hlength
    obtain ⟨i, hi, rfl⟩ := List.getElem_of_mem hrole
    obtain ⟨j, hj, rfl⟩ := List.getElem_of_mem hrole'
    have hij : i = j := by omega
    subst hij
    rfl
  | «virtual» role =>
    rw [(hs.role role e he).noRoles] at hrole
    exact absurd hrole List.not_mem_nil

theorem solid_of_bundled {s : Schema} (hs : s.Sound)
    (hstrategy : s.strategy ∈ Strategy.bundled)
    (hgrammar : s.grammar = .functions) : s.Solid := by
  have hnode : ∀ strategy ∈ Strategy.bundled, ∀ t ∈ Grammar.functions.types,
      t.1 ≠ Grammar.functions.root →
      ((strategy.schedule? (.node t.1)).getD []).any Slot.firm = true := by
    decide
  have hrole : ∀ strategy ∈ Strategy.bundled, ∀ role ∈ VirtualRole.all,
      (strategy.schedule? (.virtual role)).all (·.any Slot.firm) = true := by
    decide
  intro owner e he howner
  suffices hany : e.schedule.any Slot.firm = true from List.any_eq_true.1 hany
  cases owner with
  | node type =>
    obtain ⟨declared, hdeclared, hfits⟩ := hs.node type e he
    rw [hgrammar] at hdeclared howner
    have hfirm := hnode _ hstrategy _ (Named.mem_of_lookup hdeclared) fun h =>
      howner (congrArg _ h)
    rwa [hfits.schedule, Option.getD_some] at hfirm
  | «virtual» role =>
    have hfirm := hrole _ hstrategy role (by cases role <;> decide)
    rwa [(hs.role role e he).schedule, Option.all_some] at hfirm

/-- Under a bundled strategy a concrete tree has one place for each of its
extras only. If the syntax tree inside a tree is a program and the tree has a
source, its records being made by setting labels, then whatever tokens lay out
what is written for it, one behind the other from the start of a text, the
syntax tree is built from them, and the tree that comes out is the same one, up
to the places of tokens and the order of labels. -/
theorem exists_rebuild {strategy : Strategy}
    (hstrategy : strategy ∈ Strategy.bundled) :
    ∃ s, Schema.make .functions strategy = .ok s ∧
      ∀ (t : Cst) (a : Ast) (text : String), t.Proper → t.strip = .ok a →
        Grammar.functions.check a = .ok () → t.source s = .ok text →
        (∀ u ∈ (Branching.nodes t).tail, u.type ≠ "Program") → t.WrapsSome →
        ∃ ps, t.pieces s = .ok ps ∧ (∃ tokens, Tiles 0 tokens ∧
          tokens.map SourceToken.sign = Piece.row ps) ∧
          ∀ tokens, Tiles 0 tokens →
            tokens.map SourceToken.sign = Piece.row ps →
            ∃ t', build s a tokens = .ok t' ∧ t.Alike t' := by
  obtain ⟨s, hs⟩ := exists_make_functions hstrategy
  obtain ⟨hgrammar, hmade, hsound⟩ := Schema.make_eq_ok hs
  have hbundled : s.strategy ∈ Strategy.bundled := hmade ▸ hstrategy
  have hdistinct : s.grammar.Distinct := hgrammar ▸
    Grammar.distinct_of_validate Grammar.validate_functions
  refine ⟨s, hs, fun t a text hproper hstrip hcheck hsource hinner hsome => ?_⟩
  obtain ⟨ps, hpieces, hcount, -⟩ := source_eq_ok hsource
  refine ⟨ps, hpieces,
    ⟨Sign.lay 0 (Piece.row ps), Sign.tiles_lay _ _, Sign.map_sign_lay _ _⟩,
    fun tokens htiles hsigns => ?_⟩
  have hroot : s.grammar.root = "Program" := by
    rw [hgrammar]
    rfl
  exact rebuild_of_pieces (hsound.resolves hbundled ⟨rfl, rfl⟩)
    (Strategy.local_bundled hbundled)
    (solid_of_bundled hsound hbundled hgrammar)
    (lone_of_bundled hsound hbundled hgrammar) hdistinct
    hproper (plain_of_strip hstrip) (hgrammar ▸ hcheck)
    (hroot ▸ hinner) hsome hpieces hcount htiles hsigns

/-- A tree of `f( true )` made by hand: its tokens have no places, and the space
behind `true` was stored before the one in front of it. -/
def sampleConcrete : Cst :=
  let space (text : String) : Token := ⟨.blank, text, ⟨⟨0, 0⟩, ⟨0, 0⟩, ⟨0, 0⟩⟩⟩
  let f : Cst := .node "Identifier" [("name", .scalar (.string "f"))] .empty
  let literal : Cst := .node "Literal"
    [("value", .scalar (.bool true)), ("raw", .scalar (.string "true"))]
    ⟨[(.after, [space " "]), (.before, [space " "])]⟩
  let call : Cst := .node "CallExpression"
    [("callee", .node f),
      ("arguments", .virtual .argumentList (some (.list [literal])) .empty)]
    .empty
  .node "Program" [("body", .list
    [.node "ExpressionStatement" [("expression", .node call)] .empty])] .empty

theorem exists_rebuild_sample :
    ∃ s ps t', Schema.make .functions .virtualNodes = .ok s ∧
      sampleConcrete.pieces s = .ok ps ∧
      build s sampleTree (Sign.lay 0 (Piece.row ps)) = .ok t' ∧
      sampleConcrete.Alike t' := by
  obtain ⟨s, hs, h⟩ :=
    exists_rebuild
      (List.mem_cons_self : Strategy.virtualNodes ∈ Strategy.bundled)
  have hsource : (Schema.make .functions .virtualNodes >>= fun s =>
      sampleConcrete.source s).isOk = true := by decide +kernel
  rw [hs, Outcome.ok_bind] at hsource
  obtain ⟨text, hsource⟩ := Outcome.exists_of_isOk hsource
  have hcheck : (Grammar.functions.check sampleTree).isOk = true := by
    decide +kernel
  obtain ⟨⟨⟩, hcheck⟩ := Outcome.exists_of_isOk hcheck
  obtain ⟨ps, hps, -, hbuild⟩ :=
    h sampleConcrete sampleTree text (by decide) (strip_of_plain rfl) hcheck
      hsource (by decide +kernel) (by decide +kernel)
  obtain ⟨t', ht', halike⟩ :=
    hbuild _ (Sign.tiles_lay _ _) (Sign.map_sign_lay _ _)
  exact ⟨s, ps, t', hs, hps, ht', halike⟩

end Cst

end Lossless
