import Lossless.Proofs.Copies
import Lossless.Proofs.Crossing
import Lossless.Proofs.Printing
import Lossless.Proofs.Stripping
import Lossless.Proofs.Trials

/-!
# Writing lifted trees

A lifted tree keeps no extras, so what is written for it are the leaves of its
syntax tree. Under extended labels it is what building makes of the tree from
any tokens without extras, and of no others (`eq_ofAst_iff`); so it has a source
wherever all leaves are texts (`source_ofAst`). Virtual nodes ask for a virtual
node in each function and each call, and a lifted tree has none: it has a source
exactly if it holds neither (`exists_source_ofAst_iff`).
-/

namespace Lossless

open Cst Cst.Build

/-! ### Leaves that are texts -/

namespace Leaf

variable {leaves : List Leaf} {leaf : Leaf}

/-- Leaves go together with tokens that spell them one by one, and
with no others. -/
theorem verdict_eq_none_iff {streamEnd : Nat} {tokens : List SourceToken} :
    verdict streamEnd leaves tokens = none ↔
      leaves = tokens.map fun t => .text t.text := by
  fun_induction verdict streamEnd leaves tokens with
  | case1 => simp
  | case2 t ts => simp
  | case3 type field leaves tokens => cases tokens <;> simp
  | case4 leaves t ts ih => simp [ih]
  | case5 w leaves t ts hword => simp [Ne.symm hword]
  | case6 w leaves => simp

theorem eq_map_texts (h : ∀ leaf ∈ leaves, ∃ w, leaf = .text w) :
    leaves = (texts leaves).map .text := by
  induction leaves with
  | nil => rfl
  | cons leaf leaves ih =>
    obtain ⟨⟨w, rfl⟩, hleaves⟩ := List.forall_mem_cons.1 h
    exact congrArg (Leaf.text w :: ·) (ih hleaves)

theorem texts_map (words : List String) : texts (words.map .text) = words := by
  induction words with
  | nil => rfl
  | cons w words ih => exact congrArg (w :: ·) ih

theorem text_of_mem_ofSeparator {separator : Option String} {index : Nat}
    (h : leaf ∈ ofSeparator separator index) : ∃ w, leaf = .text w := by
  cases index with
  | zero => exact absurd h List.not_mem_nil
  | succ index =>
    obtain ⟨w, -, rfl⟩ := List.mem_map.1 h
    exact ⟨w, rfl⟩

/-- What items are spelled with are separators, which are texts, and what each
of the items is. -/
theorem text_or_mem_of_mem_ofItems {separator : Option String} {index : Nat}
    {items : List (List Leaf)} (h : leaf ∈ ofItems separator index items) :
    (∃ w, leaf = .text w) ∨ ∃ item ∈ items, leaf ∈ item := by
  induction items generalizing index with
  | nil => exact absurd h List.not_mem_nil
  | cons item items ih =>
    rw [ofItems, List.mem_append, List.mem_append] at h
    rcases h with h | h | h
    · exact .inl (text_of_mem_ofSeparator h)
    · exact .inr ⟨item, List.mem_cons_self, h⟩
    · rcases ih h with hword | ⟨other, hother, h⟩
      · exact .inl hword
      · exact .inr ⟨other, List.mem_cons_of_mem _ hother, h⟩

end Leaf

namespace Ast

/-- Whether a value is a text. -/
def Value.isText : Value → Bool
  | .scalar (.string _) => true
  | _ => false

theorem Value.exists_of_isText {value : Value} (h : value.isText = true) :
    ∃ w, value = .scalar (.string w) := by
  rw [Value.isText.eq_def] at h
  split at h
  · exact ⟨_, rfl⟩
  · exact nomatch h

/-- The names of identifiers and the spellings of literals are texts. -/
def Spelled (t : Ast) : Prop := ∀ u ∈ Branching.nodes t,
  (u.type = "Identifier" → (u.field? "name").any Value.isText = true) ∧
    (u.type = "Literal" → (u.field? "raw").any Value.isText = true)

instance (t : Ast) : Decidable t.Spelled :=
  inferInstanceAs (Decidable (∀ u ∈ Branching.nodes t,
    (u.type = "Identifier" → (u.field? "name").any Value.isText = true) ∧
      (u.type = "Literal" → (u.field? "raw").any Value.isText = true)))

/-- The nodes of a program spell a scalar in two places only. -/
theorem scalar_mem_functions {type field : String}
    (h : .scalar field ∈ Layout.functions type) :
    type = "Identifier" ∧ field = "name" ∨
      type = "Literal" ∧ field = "raw" := by
  unfold Layout.functions at h
  split at h <;> simp_all

variable {type field : String} {fields : List (String × Value)} {leaf : Leaf}
  {slot : Slot}

theorem Spelled.field?_isText (h : (node type fields).Spelled)
    (hslot : .scalar field ∈ Layout.functions type) :
    (fields.lookup field).any Value.isText = true := by
  obtain ⟨hname, hraw⟩ := h _ (Branching.mem_nodes_self _)
  rcases scalar_mem_functions hslot with ⟨rfl, rfl⟩ | ⟨rfl, rfl⟩
  · exact hname rfl
  · exact hraw rfl

/-- A slot of a node is spelled with texts if all nodes below are. -/
theorem Spelled.text_of_mem_ofSlot (h : (node type fields).Spelled)
    (hslot : slot ∈ Layout.functions type)
    (hbelow : ∀ u ∈ Branching.children (node type fields),
      ∀ leaf ∈ u.leaves .functions, ∃ w, leaf = .text w)
    (hleaf : leaf ∈ Leaf.ofSlot type (spellings .functions fields) slot) :
    ∃ w, leaf = .text w := by
  have hchild :
      ∀ {name : String} {value : Value}, fields.lookup name = some value →
        ∀ u ∈ value.nodes, ∀ leaf ∈ u.leaves .functions, ∃ w,
          leaf = .text w := fun hlookup u hu =>
    hbelow u (List.mem_flatMap.2 ⟨_, Named.mem_of_lookup hlookup, hu⟩)
  cases slot with
  | extras | implied | «virtual» => exact absurd hleaf List.not_mem_nil
  | token word => exact ⟨word, List.mem_singleton.1 hleaf⟩
  | scalar field =>
    obtain ⟨value, hlookup, htext⟩ :=
      (Option.any_eq_true ..).1 (h.field?_isText hslot)
    rw [Leaf.ofSlot, lookup_spellings, hlookup] at hleaf
    obtain ⟨w, rfl⟩ := Value.exists_of_isText htext
    exact ⟨w, List.mem_singleton.1 hleaf⟩
  | node field | optional field =>
    rw [Leaf.ofSlot, lookup_spellings] at hleaf
    cases hlookup : fields.lookup field with
    | none => simp [hlookup] at hleaf
    | some value =>
      cases value with
      | node u =>
        rw [hlookup] at hleaf
        exact hchild hlookup u (List.mem_singleton_self u) leaf hleaf
      | absent | list | scalar => simp [hlookup, spelling] at hleaf
  | list field separator =>
    rw [Leaf.ofSlot, lookup_spellings] at hleaf
    cases hlookup : fields.lookup field with
    | none => simp [hlookup] at hleaf
    | some value =>
      cases value with
      | list items =>
        rw [hlookup] at hleaf
        rcases Leaf.text_or_mem_of_mem_ofItems hleaf with hword |
          ⟨item, hitem, hleaf⟩
        · exact hword
        · rw [itemLeaves_eq_map] at hitem
          obtain ⟨u, hu, rfl⟩ := List.mem_map.1 hitem
          exact hchild hlookup u hu leaf hleaf
      | node | absent | scalar => simp [hlookup, spelling] at hleaf

/-- Where names and literals are texts, all leaves are. -/
theorem Spelled.leaves_eq {t : Ast} (h : t.Spelled) :
    t.leaves .functions = (Leaf.texts (t.leaves .functions)).map .text := by
  suffices htext : ∀ leaf ∈ t.leaves .functions, ∃ w,
      leaf = .text w from Leaf.eq_map_texts htext
  induction t using Branching.induction with
  | step t ih =>
    obtain ⟨type, fields⟩ := t
    intro leaf hleaf
    rw [leaves, Leaf.ofSlots] at hleaf
    obtain ⟨slot, hslot, hleaf⟩ := List.mem_flatMap.1 hleaf
    refine h.text_of_mem_ofSlot hslot (fun u hu => ih u hu fun v hv => ?_) hleaf
    exact h v (Branching.mem_nodes_of_mem_children hu hv)

end Ast

namespace Cst

/-! ### Trees without records -/

theorem size_extras_eq_zero_iff {x : Extras} : x.size = 0 ↔ x = .empty := by
  obtain ⟨entries⟩ := x
  simp [Extras.size, Extras.empty]

theorem size_eq_of_same {x y : Extras} (h : x.same y = true) :
    x.size = y.size := by
  rw [Extras.same, Bool.and_eq_true] at h
  exact eq_of_beq h.1

mutual

/-- A tree has no labels exactly if emptying its records changes nothing. -/
theorem labelCount_eq_zero_iff (t : Cst) : t.labelCount = 0 ↔ t.blank = t := by
  cases t with
  | node type fields extras =>
    rw [labelCount, blank, Nat.add_eq_zero_iff, size_extras_eq_zero_iff,
      fieldsLabelCount_eq_zero_iff fields]
    simp [and_comm, eq_comm]

theorem fieldsLabelCount_eq_zero_iff (fields : List (String × Value)) :
    fieldsLabelCount fields = 0 ↔ blankFields fields = fields := by
  match fields with
  | [] => simp [fieldsLabelCount, blankFields]
  | (name, value) :: fields =>
    rw [fieldsLabelCount, blankFields, Nat.add_eq_zero_iff,
      valueLabelCount_eq_zero_iff value, fieldsLabelCount_eq_zero_iff fields]
    simp

theorem valueLabelCount_eq_zero_iff (value : Value) :
    valueLabelCount value = 0 ↔ blankValue value = value := by
  match value with
  | .node child =>
    rw [valueLabelCount, blankValue, labelCount_eq_zero_iff child]
    simp
  | .list items =>
    rw [valueLabelCount, blankValue, itemsLabelCount_eq_zero_iff items]
    simp
  | .virtual role (some value) extras =>
    rw [valueLabelCount, blankValue, Nat.add_eq_zero_iff,
      size_extras_eq_zero_iff, valueLabelCount_eq_zero_iff value]
    simp [and_comm, eq_comm]
  | .virtual role none extras =>
    rw [valueLabelCount, blankValue, size_extras_eq_zero_iff]
    simp [eq_comm]
  | .absent | .scalar _ => simp [valueLabelCount, blankValue]

theorem itemsLabelCount_eq_zero_iff (items : List Cst) :
    itemsLabelCount items = 0 ↔ blankItems items = items := by
  cases items with
  | nil => simp [itemsLabelCount, blankItems]
  | cons item items =>
    rw [itemsLabelCount, blankItems, Nat.add_eq_zero_iff,
      labelCount_eq_zero_iff item, itemsLabelCount_eq_zero_iff items]
    simp

end

/-- A value stays as it is among virtual nodes around lists if its nodes do. -/
theorem encloseValue_eq_self {role? : String → String → Option VirtualRole}
    {value : Value} (h : ∀ u ∈ value.nodes, u.enclose role? = u) :
    encloseValue role? value = value := by
  fun_induction Value.nodes value with
  | case1 child => rw [encloseValue, h child (List.mem_singleton_self _)]
  | case2 items =>
    rw [encloseValue, encloseItems_eq_map, List.map_congr_left h, List.map_id']
  | case3 role value extras ih => rw [encloseValue, ih h]
  | case4 | case5 | case6 => rfl

/-- A tree with virtual nodes around its lists is the tree itself where no node
has a role for a field. -/
theorem enclose_eq_self {role? : String → String → Option VirtualRole} {t : Cst}
    (h : ∀ u ∈ Branching.nodes t, ∀ name, role? u.type name = none) :
    t.enclose role? = t := by
  induction t using Branching.induction with
  | step t ih =>
    obtain ⟨type, fields, extras⟩ := t
    have hchildren : ∀ u ∈ Branching.children (node type fields extras),
        u.enclose role? = u :=
      fun u hu => ih u hu fun v hv =>
        h v (Branching.mem_nodes_of_mem_children hu hv)
    have hfields : ∀ field ∈ fields, (field.1,
      encloseList (role? type field.1) (encloseValue role? field.2)) =
        field := by
      intro field hfield
      rw [show role? type field.1 =
          none from h _ (Branching.mem_nodes_self _) field.1,
        encloseList_none, encloseValue_eq_self fun u hu =>
          hchildren u (List.mem_flatMap.2 ⟨field, hfield, hu⟩)]
    rw [enclose, encloseFields_eq_map, List.map_congr_left hfields,
      List.map_id']

mutual

/-- Equal trees have as many labels. -/
theorem labelCount_of_equal {t u : Cst} (h : t.equal u = true) :
    t.labelCount = u.labelCount := by
  cases t with
  | node type fields extras =>
    cases u with
    | node type' fields' extras' =>
      simp only [equal, Bool.and_eq_true] at h
      rw [labelCount, labelCount, fieldsLabelCount_of_equal h.1.2,
        size_eq_of_same h.2]

theorem fieldsLabelCount_of_equal {fields fields' : List (String × Value)}
    (h : fieldsEqual fields fields' = true) :
    fieldsLabelCount fields = fieldsLabelCount fields' := by
  match fields, fields' with
  | [], [] => rfl
  | [], _ :: _ | _ :: _, [] => simp [fieldsEqual] at h
  | (name, value) :: fields, (name', value') :: fields' =>
    simp only [fieldsEqual, Bool.and_eq_true] at h
    rw [fieldsLabelCount, fieldsLabelCount, valueLabelCount_of_equal h.1.2,
      fieldsLabelCount_of_equal h.2]

theorem valueLabelCount_of_equal {value value' : Value}
    (h : valueEqual value value' = true) :
    valueLabelCount value = valueLabelCount value' := by
  match value with
  | .node child =>
    cases value' with
    | node child' =>
      rw [valueEqual] at h
      rw [valueLabelCount, valueLabelCount, labelCount_of_equal h]
    | absent | list | scalar | «virtual» => simp [valueEqual] at h
  | .list items =>
    cases value' with
    | list items' =>
      rw [valueEqual] at h
      rw [valueLabelCount, valueLabelCount, itemsLabelCount_of_equal h]
    | node | absent | scalar | «virtual» => simp [valueEqual] at h
  | .virtual role (some wrapped) extras =>
    cases value' with
    | «virtual» role' wrapped? extras' =>
      cases wrapped? with
      | some wrapped' =>
        simp only [valueEqual, Bool.and_eq_true] at h
        rw [valueLabelCount, valueLabelCount, valueLabelCount_of_equal h.1.2,
          size_eq_of_same h.2]
      | none => simp [valueEqual] at h
    | node | absent | list | scalar => simp [valueEqual] at h
  | .virtual role none extras =>
    cases value' with
    | «virtual» role' wrapped? extras' =>
      cases wrapped? with
      | some wrapped' => simp [valueEqual] at h
      | none =>
        simp only [valueEqual, Bool.and_eq_true] at h
        rw [valueLabelCount, valueLabelCount, size_eq_of_same h.2]
    | node | absent | list | scalar => simp [valueEqual] at h
  | .absent | .scalar s =>
    cases value' <;> simp [valueEqual, valueLabelCount] at h ⊢

theorem itemsLabelCount_of_equal {items items' : List Cst}
    (h : itemsEqual items items' = true) :
    itemsLabelCount items = itemsLabelCount items' := by
  match items, items' with
  | [], [] => rfl
  | [], _ :: _ | _ :: _, [] => simp [itemsEqual] at h
  | item :: items, item' :: items' =>
    simp only [itemsEqual, Bool.and_eq_true] at h
    rw [itemsLabelCount, itemsLabelCount, labelCount_of_equal h.1,
      itemsLabelCount_of_equal h.2]

end

theorem blank_ofAst (t : Ast) : (ofAst t).blank = ofAst t := by
  induction t using Branching.induction with
  | step t ih =>
    obtain ⟨type, fields⟩ := t
    have hvalue : ∀ field ∈ fields,
        blankValue (liftValue field.2) = liftValue field.2 := by
      intro field hfield
      have hnodes : ∀ u ∈ field.2.nodes, (ofAst u).blank = ofAst u :=
        fun u hu => ih u (List.mem_flatMap.2 ⟨field, hfield, hu⟩)
      cases hv : field.2 with
      | node u =>
        rw [hv] at hnodes
        rw [liftValue, blankValue, hnodes u (List.mem_singleton_self u)]
      | list items =>
        rw [hv] at hnodes
        rw [liftValue, blankValue, blankItems_eq_map, List.map_map]
        exact congrArg Value.list (List.map_congr_left hnodes)
      | absent | scalar => rfl
    rw [ofAst_node, blank, blankFields_eq_map, List.map_map]
    exact congrArg (node type · .empty) (List.map_congr_left fun field hfield =>
      congrArg (Prod.mk field.1) (hvalue field hfield))

end Cst

/-! ### Lifted trees under the bundled strategies -/

section

variable {s : Schema} {t : Ast} {tokens : List SourceToken} {tree : Cst}

/-- Pieces of a stream hold runs exactly if some token of it is an extra. -/
theorem Cst.Piece.countP_ofTokens_eq_zero_iff :
    (ofTokens tokens).countP isExtras = 0 ↔
      ∀ x ∈ tokens, x.isExtra = false := by
  induction tokens with
  | nil => simp [ofTokens]
  | cons t ts ih =>
    cases ht : t.isExtra with
    | false => simp [ofTokens_cons_of_leaf ht, ih, ht, isExtras]
    | true =>
      have hsome : 0 < (addToken t (ofTokens ts)).countP isExtras := by
        rw [addToken, ht]
        cases ofTokens ts with
        | nil => simp [addExtra, isExtras]
        | cons p ps => cases p <;> simp [addExtra, isExtras]
      simpa [ofTokens, ht] using Nat.ne_of_gt hsome

/-- The tokens with meaning that a tree is built from spell its leaves. -/
theorem texts_of_build (hs : s.IsBundled) (h : build s t tokens = .ok tree) :
    (tokens.filter (!·.isExtra)).map SourceToken.text =
      Leaf.texts (t.leaves .functions) := by
  obtain ⟨-, -, hverdict⟩ := hs.exists_build_iff.1 ⟨tree, h⟩
  rw [Leaf.verdict_eq_none_iff.1 hverdict, ← Leaf.texts_map (List.map ..),
    List.map_map]
  rfl

theorem labelCount_of_build (hs : s.IsBundled)
    (h : build s t tokens = .ok tree) :
    tree.labelCount = 0 ↔ ∀ x ∈ tokens, x.isExtra = false := by
  obtain ⟨hgrammar, hstrategy, hsound⟩ := hs.sound
  obtain ⟨-, hcount⟩ := pieces_of_build (hsound.resolves hstrategy ⟨rfl, rfl⟩)
    (Strategy.local_bundled hstrategy) h
  rw [← hcount, Cst.Piece.countP_ofTokens_eq_zero_iff]

/-- Building a tree under extended labels makes the lifted tree of tokens
without extras, and of no others. -/
theorem eq_ofAst_iff (hs : Schema.make .functions .extendedLabels = .ok s)
    (h : build s t tokens = .ok tree) :
    tree = ofAst t ↔ ∀ x ∈ tokens, x.isExtra = false := by
  have hbundled : s.IsBundled := ⟨_, .tail _ (.head _), hs⟩
  rw [← blank_of_extendedLabels hs h, ← labelCount_of_build hbundled h,
    labelCount_eq_zero_iff, eq_comm]

/-- Words that are laid out one behind the other are tokens without extras. -/
theorem Sign.lay_leaves (offset : Nat) (words : List String) :
    (lay offset (words.map leaf)).map SourceToken.text = words ∧
      ∀ x ∈ lay offset (words.map leaf), x.isExtra = false := by
  induction words generalizing offset with
  | nil => exact ⟨rfl, List.forall_mem_nil _⟩
  | cons w words ih =>
    obtain ⟨htexts, hplain⟩ := ih (token offset (leaf w)).range.stop
    exact ⟨congrArg (w :: ·) htexts, List.forall_mem_cons.2 ⟨rfl, hplain⟩⟩

/-- A tree whose leaves are texts is built from tokens without extras. -/
theorem exists_build_of_spelled (hs : s.IsBundled)
    (hcheck : Grammar.functions.check t = .ok ()) (ht : t.Spelled) :
    ∃ tokens tree, build s t tokens = .ok tree ∧
      tokens.map SourceToken.text = Leaf.texts (t.leaves .functions) ∧
      ∀ x ∈ tokens, x.isExtra = false := by
  obtain ⟨htexts, hplain⟩ :=
    Sign.lay_leaves 0 (Leaf.texts (t.leaves .functions))
  have htiles :=
    Sign.tiles_lay 0 ((Leaf.texts (t.leaves .functions)).map Sign.leaf)
  generalize Sign.lay 0 ((Leaf.texts (t.leaves .functions)).map Sign.leaf) =
    tokens at htexts hplain htiles
  have hfilter : tokens.filter (!·.isExtra) = tokens :=
    List.filter_eq_self.2 (by simpa using hplain)
  have hleaves : t.leaves .functions = tokens.map fun x => .text x.text := by
    rw [ht.leaves_eq, ← htexts, List.map_map]
    rfl
  obtain ⟨tree, htree⟩ := hs.exists_build_iff.2
    ⟨htiles, hcheck, by rw [hfilter, Leaf.verdict_eq_none_iff, hleaves]⟩
  exact ⟨tokens, tree, htree, htexts, hplain⟩

theorem source_ofAst (hs : Schema.make .functions .extendedLabels = .ok s)
    (hcheck : Grammar.functions.check t = .ok ()) (ht : t.Spelled) :
    (ofAst t).source s =
      .ok (String.join (Leaf.texts (t.leaves .functions))) := by
  have hbundled : s.IsBundled := ⟨_, .tail _ (.head _), hs⟩
  obtain ⟨tokens, tree, htree, htexts, hplain⟩ :=
    exists_build_of_spelled hbundled hcheck ht
  rw [← (eq_ofAst_iff hs htree).2 hplain, ← htexts]
  exact hbundled.source_eq htree

/-- Only functions and calls have lists in parentheses. -/
theorem parenthesized?_eq_none {type : String}
    (hfunction : type ≠ "FunctionDeclaration") (hcall : type ≠ "CallExpression")
    (name : String) : parenthesized? type name = none := by
  unfold parenthesized?
  split <;> simp_all

/-- Under virtual nodes a lifted tree has a source exactly if it holds no
function and no call. -/
theorem exists_source_ofAst_iff
    (hs : Schema.make .functions .virtualNodes = .ok s)
    (hcheck : Grammar.functions.check t = .ok ()) (ht : t.Spelled) :
    (∃ text, (ofAst t).source s = .ok text) ↔
      ∀ u ∈ Branching.nodes t, u.type ≠ "FunctionDeclaration" ∧
        u.type ≠ "CallExpression" := by
  constructor
  · rintro ⟨text, htext⟩
    -- the lifted tree has a source under extended labels as well
    obtain ⟨s', hs'⟩ := exists_make_functions
      (.tail _ (.head _) : Strategy.extendedLabels ∈ Strategy.bundled)
    obtain ⟨hgrammar, hstrategy, hsound⟩ := Schema.make_eq_ok hs
    obtain ⟨hgrammar', hstrategy', hsound'⟩ := Schema.make_eq_ok hs'
    exact (source_unique_bundled hsound hstrategy hgrammar
      hsound' hstrategy' hgrammar' (plain_ofAst t)
      (Grammar.conforms_of_check hcheck) htext (source_ofAst hs' hcheck ht)).2
  · intro htypes
    have hbundled : s.IsBundled := ⟨_, .head _, hs⟩
    obtain ⟨tokens, tree, htree, -, hplain⟩ :=
      exists_build_of_spelled hbundled hcheck ht
    have hroles : ∀ u ∈ Branching.nodes (ofAst t), ∀ name,
        parenthesized? u.type name = none := by
      intro u hu name
      have htype : u.type ∈ (Branching.nodes t).map Ast.type :=
        types_of_plain (plain_ofAst t) ▸ List.mem_map_of_mem hu
      obtain ⟨v, hv, htype⟩ := List.mem_map.1 htype
      exact parenthesized?_eq_none (htype ▸ (htypes v hv).1)
        (htype ▸ (htypes v hv).2) name
    have hblank : tree.blank = ofAst t := by
      rw [blank_of_virtualNodes hs htree, enclose_eq_self hroles]
    rw [(labelCount_eq_zero_iff tree).1
      ((labelCount_of_build hbundled htree).2 hplain)] at hblank
    exact ⟨_, hblank ▸ hbundled.source_eq htree⟩

/-- A tree that is built under extended labels equals the lifted tree if there
are no extras and all numbers are some, and only then. -/
theorem equal_ofAst_iff_of_build
    (hs : Schema.make .functions .extendedLabels = .ok s)
    (h : build s t tokens = .ok tree) :
    tree.equal (ofAst t) = true ↔
      (∀ x ∈ tokens, x.isExtra = false) ∧ t.NumbersOnly := by
  have hself : (ofAst t).equal (ofAst t) = true ↔ t.NumbersOnly := by
    rw [equal_ofAst_iff, ← Ast.equal_iff_same, Ast.equal_self_iff]
  constructor
  · intro hequal
    have hcount : tree.labelCount = 0 :=
      (labelCount_of_equal hequal).trans
        ((labelCount_eq_zero_iff _).2 (blank_ofAst t))
    have hplain := (labelCount_of_build ⟨_, .tail _ (.head _), hs⟩ h).1 hcount
    rw [(eq_ofAst_iff hs h).2 hplain] at hequal
    exact ⟨hplain, hself.1 hequal⟩
  · rintro ⟨hplain, hnumbers⟩
    rw [(eq_ofAst_iff hs h).2 hplain]
    exact hself.2 hnumbers

/-- A lifted tree, if the bundled grammar accepts its syntax tree and all names
and spellings are texts. Under extended labels its source is the text of its
leaves, which is that of the tokens with meaning wherever the syntax tree is
built from some; and it is what is built exactly if these are all tokens, where
a number that is none keeps the two from being equal. Under virtual nodes it has
no source exactly if there is a function or a call. -/
theorem source_of_lifted (hcheck : Grammar.functions.check t = .ok ())
    (ht : t.Spelled) :
    ∃ s s', Schema.make .functions .extendedLabels = .ok s ∧
      Schema.make .functions .virtualNodes = .ok s' ∧ (ofAst t).source s =
        .ok (String.join (Leaf.texts (t.leaves .functions))) ∧
      (∀ r ∈ [s, s'], ∀ tokens tree, build r t tokens = .ok tree →
        String.join ((tokens.filter (!·.isExtra)).map SourceToken.text) =
          String.join (Leaf.texts (t.leaves .functions))) ∧
      (∀ tokens tree, build s t tokens = .ok tree →
        (tree = ofAst t ↔ ∀ x ∈ tokens, x.isExtra = false) ∧
          (tree.equal (ofAst t) = true ↔ (∀ x ∈ tokens, x.isExtra = false) ∧
            t.NumbersOnly)) ∧
      ((∃ e, (ofAst t).source s' = .error e) ↔
        ∃ u ∈ Branching.nodes t, u.type = "FunctionDeclaration" ∨
          u.type = "CallExpression") := by
  obtain ⟨s, hs⟩ := exists_make_functions
    (.tail _ (.head _) : Strategy.extendedLabels ∈ Strategy.bundled)
  obtain ⟨s', hs'⟩ :=
    exists_make_functions (.head _ : Strategy.virtualNodes ∈ Strategy.bundled)
  have hbundled : ∀ r ∈ [s, s'], r.IsBundled := List.forall_mem_cons.2
    ⟨⟨_, .tail _ (.head _), hs⟩, List.forall_mem_singleton.2 ⟨_, .head _, hs'⟩⟩
  have hsource := exists_source_ofAst_iff hs' hcheck ht
  refine ⟨s, s', hs, hs', source_ofAst hs hcheck ht,
    fun r hr tokens tree h => ?_, fun tokens tree h =>
    ⟨eq_ofAst_iff hs h, equal_ofAst_iff_of_build hs h⟩, ?_⟩
  · rw [texts_of_build (hbundled r hr) h]
  · cases hlifted : (ofAst t).source s' with
    | ok text =>
      refine iff_of_false (fun ⟨e, he⟩ => nomatch he) fun ⟨u, hu, htype⟩ => ?_
      obtain ⟨hfunction, hcall⟩ := hsource.1 ⟨text, hlifted⟩ u hu
      exact htype.elim hfunction hcall
    | error e =>
      refine iff_of_true ⟨e, rfl⟩ ?_
      by_contra hnone
      push Not at hnone
      obtain ⟨text, htext⟩ := hsource.2 hnone
      exact nomatch hlifted.symm.trans htext

/-- The lifted tree of `f(true)` is what is built from the four tokens of this
text, but not from the tokens of `f( true )`. -/
theorem source_of_lifted_sample :
    Grammar.functions.check sampleTree = .ok () ∧ sampleTree.Spelled ∧
      ∃ s s' tree tree' e, Schema.make .functions .extendedLabels = .ok s ∧
        Schema.make .functions .virtualNodes = .ok s' ∧
        (ofAst sampleTree).source s = .ok "f(true)" ∧
        build s sampleTree tightTokens = .ok tree ∧ tree = ofAst sampleTree ∧
        build s sampleTree sampleTokens = .ok tree' ∧ tree' ≠ ofAst sampleTree ∧
        (ofAst sampleTree).source s' = .error e := by
  have hok : (Grammar.functions.check sampleTree).isOk = true := by
    decide +kernel
  obtain ⟨⟨⟩, hcheck⟩ := Outcome.exists_of_isOk hok
  have hspelled : sampleTree.Spelled := by decide +kernel
  obtain ⟨s, s', hs, hs', hsource, -, hbuild, hvirtual⟩ :=
    source_of_lifted hcheck hspelled
  have hall : ∀ tokens ∈ [tightTokens, sampleTokens],
      (Schema.make .functions .extendedLabels >>= fun s =>
      build s sampleTree tokens).isOk = true := by decide +kernel
  simp only [hs, Outcome.ok_bind, List.forall_mem_cons] at hall
  obtain ⟨tree, htree⟩ := Outcome.exists_of_isOk hall.1
  obtain ⟨tree', htree'⟩ := Outcome.exists_of_isOk hall.2.1
  have htexts : String.join (Leaf.texts (sampleTree.leaves .functions)) =
      "f(true)" := by decide +kernel
  have hcall : ∃ u ∈ Branching.nodes sampleTree,
      u.type = "FunctionDeclaration" ∨ u.type = "CallExpression" := by
    decide +kernel
  obtain ⟨e, he⟩ := hvirtual.2 hcall
  refine ⟨hcheck, hspelled, s, s', tree, tree', e, hs, hs', htexts ▸ hsource,
    htree, ?_, htree', ?_, he⟩
  · exact (hbuild _ _ htree).1.2 (by decide)
  · exact fun heq => absurd ((hbuild _ _ htree').1.1 heq) (by decide)

end

end Lossless
