import Lossless.Proofs.Bundled

/-!
# Trees of one shape

What a schema makes of a syntax tree, records aside, is the lifted tree with
virtual nodes around some of its lists (`shell_eq_enclose`). Under extended
labels there are none, and under virtual nodes they stand around parameters and
arguments. So two trees that are built from one syntax tree and different tokens
differ in their records only, and a walk of either passes the types that a walk
of the syntax tree passes (`shape_of_build`).
-/

namespace Lossless

namespace Cst

/-! ### Lifted trees -/

/-- The concrete value for a value of a syntax tree. -/
def liftValue : Ast.Value → Value
  | .node t => .node (ofAst t)
  | .absent => .absent
  | .list items => .list (items.map ofAst)
  | .scalar s => .scalar s

theorem value_ofAst (value : Ast.Value) (supply : List Cst) :
    Value.ofAst (value.nodes.map ofAst ++ supply) value =
      (liftValue value, supply) := by
  cases value with
  | node t => rfl
  | absent => rfl
  | list items => simp [Value.ofAst, Ast.Value.nodes, liftValue]
  | scalar s => rfl

theorem fieldsOfAst_eq (fields : List (String × Ast.Value)) :
    fieldsOfAst ((fields.flatMap fun field => field.2.nodes).map ofAst) fields =
      fields.map fun field => (field.1, liftValue field.2) := by
  induction fields with
  | nil => rfl
  | cons field fields ih =>
    rw [List.flatMap_cons, List.map_append, fieldsOfAst, value_ofAst, ih,
      List.map_cons]

/-- A lifted tree has the lifted fields of the syntax tree. -/
theorem ofAst_node (type : String) (fields : List (String × Ast.Value)) :
    ofAst (.node type fields) =
      .node type
        (fields.map fun field => (field.1, liftValue field.2)) .empty := by
  rw [ofAst, Branching.foldPure_eq]
  exact congrArg (fun fields => Cst.node type fields .empty)
    (fieldsOfAst_eq fields)

/-! ### Lists in virtual nodes -/

/-- A virtual node of a role around a list; it wraps nothing where
the list is empty. -/
def encloseList : Option VirtualRole → Value → Value
  | some role, .list [] => .virtual role none .empty
  | some role, .list (item :: items) =>
    .virtual role (some (.list (item :: items))) .empty
  | _, value => value

mutual

/-- A tree with virtual nodes around its lists, where a type and a
field have a role. -/
def enclose (role? : String → String → Option VirtualRole) : Cst → Cst
  | .node type fields extras =>
    .node type (encloseFields role? type fields) extras

/-- The fields of a node of a type with virtual nodes around
the lists in them. -/
def encloseFields (role? : String → String → Option VirtualRole)
    (type : String) : List (String × Value) → List (String × Value)
  | [] => []
  | (name, value) :: fields =>
    (name, encloseList (role? type name) (encloseValue role? value)) ::
      encloseFields role? type fields

/-- A value with virtual nodes around the lists below it. -/
def encloseValue (role? : String → String → Option VirtualRole) : Value → Value
  | .node child => .node (enclose role? child)
  | .absent => .absent
  | .list items => .list (encloseItems role? items)
  | .scalar s => .scalar s
  | .virtual role (some value) extras =>
    .virtual role (some (encloseValue role? value)) extras
  | .virtual role none extras => .virtual role none extras

/-- Trees with virtual nodes around the lists in them. -/
def encloseItems (role? : String → String → Option VirtualRole) :
    List Cst → List Cst
  | [] => []
  | item :: items => enclose role? item :: encloseItems role? items

end

theorem encloseFields_eq_map (role? : String → String → Option VirtualRole)
    (type : String) (fields : List (String × Value)) :
    encloseFields role? type fields = fields.map fun field =>
      (field.1,
        encloseList (role? type field.1) (encloseValue role? field.2)) := by
  induction fields with
  | nil => rfl
  | cons field fields ih => rw [encloseFields, ih, List.map_cons]

theorem encloseItems_eq_map (role? : String → String → Option VirtualRole)
    (items : List Cst) :
    encloseItems role? items = items.map (enclose role?) := by
  induction items with
  | nil => rfl
  | cons item items ih => rw [encloseItems, ih, List.map_cons]

theorem encloseList_none (value : Value) : encloseList none value = value := by
  cases value <;> rfl

mutual

theorem enclose_none (t : Cst) : t.enclose (fun _ _ => none) = t := by
  cases t with
  | node type fields extras => rw [enclose, encloseFields_none type fields]

theorem encloseFields_none (type : String) (fields : List (String × Value)) :
    encloseFields (fun _ _ => none) type fields = fields := by
  cases fields with
  | nil => rfl
  | cons field fields =>
    obtain ⟨name, value⟩ := field
    rw [encloseFields, encloseList_none, encloseValue_none value,
      encloseFields_none type fields]

theorem encloseValue_none (value : Value) :
    encloseValue (fun _ _ => none) value = value := by
  match value with
  | .node child => rw [encloseValue, enclose_none child]
  | .list items => rw [encloseValue, encloseItems_none items]
  | .virtual role (some value) extras =>
    rw [encloseValue, encloseValue_none value]
  | .absent | .scalar _ | .virtual _ none _ => rfl

theorem encloseItems_none (items : List Cst) :
    encloseItems (fun _ _ => none) items = items := by
  cases items with
  | nil => rfl
  | cons item items =>
    rw [encloseItems, enclose_none item, encloseItems_none items]

end

/-! ### The shape under a schema -/

theorem wrap_eq_encloseList (slot : Option Slot) (value : Value) :
    wrap slot value = encloseList (slot.bind Slot.role?) value := by
  match slot, value with
  | some (.virtual role), .list [] => rfl
  | some (.virtual role), .list (item :: items) => rfl
  | some (.virtual role), .node _ | some (.virtual role), .absent => rfl
  | some (.virtual role), .scalar _ | some (.virtual role), .virtual .. => rfl
  | none, value | some (.extras _), value | some (.token _),
      value | some (.scalar _), value
  | some (.implied _), value | some (.node _), value | some (.optional _), value
  | some (.list ..), value => exact (encloseList_none value).symm

/-- The shape that a schema gives to a tree of its grammar is the lifted tree
with virtual nodes around the lists that the schema wraps. -/
theorem shell_eq_enclose {s : Schema}
    {role? : String → String → Option VirtualRole}
    (hrole : ∀ type declared, s.grammar.fields? type = some declared →
      ∀ d ∈ declared, (s.slotOf? type d.name).bind Slot.role? =
        role? type d.name) {t : Ast} (ht : s.grammar.Conforms t) :
    shell s t = (ofAst t).enclose role? := by
  induction t using Branching.induction with
  | step t ih =>
    cases ht with
    | @node type fields declared hdeclared hnames hshapes hbelow =>
      have hbelow' : ∀ u ∈ Branching.children (Ast.node type fields),
          shell s u = (ofAst u).enclose role? :=
        fun u hu => ih u hu (hbelow u hu)
      have hvalue : ∀ field ∈ fields,
          shellValue s field.2 = encloseValue role? (liftValue field.2) := by
        intro field hfield
        have hnodes :
            ∀ u ∈ field.2.nodes, shell s u = (ofAst u).enclose role? :=
          fun u hu => hbelow' u (List.mem_flatMap.2 ⟨field, hfield, hu⟩)
        cases hv : field.2 with
        | node u =>
          rw [hv] at hnodes
          rw [shellValue, liftValue, encloseValue,
            hnodes u (List.mem_singleton_self u)]
        | list items =>
          rw [hv] at hnodes
          rw [shellValue, liftValue, encloseValue, shellItems_eq_map,
            encloseItems_eq_map, List.map_map]
          exact congrArg Value.list (List.map_congr_left hnodes)
        | absent => rfl
        | scalar value => rfl
      rw [shell, ofAst_node, enclose, shellFields_eq_map, encloseFields_eq_map,
        List.map_map]
      congr 1
      apply List.map_congr_left
      intro field hfield
      -- the name of the field is declared, so the schema says whether
      -- its list is wrapped
      have hname : field.1 ∈ declared.map FieldDef.name :=
        hnames ▸ List.mem_map_of_mem hfield
      obtain ⟨d, hd, hd'⟩ := List.mem_map.1 hname
      rw [Function.comp_apply, hvalue field hfield, wrap_eq_encloseList, ← hd',
        hrole type declared hdeclared d hd]

/-! ### The bundled strategies -/

/-- The lists in parentheses. -/
def parenthesized? : String → String → Option VirtualRole
  | "FunctionDeclaration", "params" => some .paramList
  | "CallExpression", "arguments" => some .argumentList
  | _, _ => none

/-- A schema wraps the lists of the bundled grammar that have a
role, and no others. -/
def wrapsAs (role? : String → String → Option VirtualRole)
    (s : Schema) : Bool :=
  Grammar.functions.types.all fun t => t.2.all fun d =>
    (s.slotOf? t.1 d.name).bind Slot.role? == role? t.1 d.name

theorem blank_of_wrapsAs {strategy : Strategy}
    {role? : String → String → Option VirtualRole}
    (hwraps : ((Schema.make .functions strategy).map (wrapsAs role?)).toOption =
      some true)
    {s : Schema} (hs : Schema.make .functions strategy = .ok s) {t : Ast}
    {tokens : List SourceToken} {tree : Cst} (h : build s t tokens = .ok tree) :
    tree.blank = (ofAst t).enclose role? := by
  obtain ⟨hgrammar, -, hsound⟩ := Schema.make_eq_ok hs
  have hall : wrapsAs role? s = true := by
    rw [hs] at hwraps
    exact Option.some.inj hwraps
  rw [blank_of_build hsound h]
  refine shell_eq_enclose (fun type declared hdeclared d hd => ?_)
    (Grammar.conforms_of_check (build_eq_ok h).1)
  rw [hgrammar] at hdeclared
  rw [wrapsAs, List.all_eq_true] at hall
  have htype := hall (type, declared) (Named.mem_of_lookup hdeclared)
  exact eq_of_beq (List.all_eq_true.1 htype d hd)

theorem blank_of_virtualNodes {s : Schema}
    (hs : Schema.make .functions .virtualNodes = .ok s) {t : Ast}
    {tokens : List SourceToken} {tree : Cst} (h : build s t tokens = .ok tree) :
    tree.blank = (ofAst t).enclose parenthesized? := by
  refine blank_of_wrapsAs ?_ hs h
  decide +kernel

theorem blank_of_extendedLabels {s : Schema}
    (hs : Schema.make .functions .extendedLabels = .ok s) {t : Ast}
    {tokens : List SourceToken} {tree : Cst} (h : build s t tokens = .ok tree) :
    tree.blank = ofAst t := by
  rw [← enclose_none (ofAst t)]
  refine blank_of_wrapsAs ?_ hs h
  decide +kernel

/-- The tokens have no part in the shape of a tree that is built under a bundled
strategy: it is the lifted syntax tree, under virtual nodes with one around each
list in parentheses, and a walk of it enters and leaves the types that a walk of
the syntax tree does. -/
theorem shape_of_build {strategy : Strategy}
    (hstrategy : strategy ∈ Strategy.bundled) {s : Schema}
    (hs : Schema.make .functions strategy = .ok s) {t : Ast}
    {tokens tokens' : List SourceToken} {tree tree' : Cst}
    (h : build s t tokens = .ok tree) (h' : build s t tokens' = .ok tree') :
    tree.blank = tree'.blank ∧
      (strategy = .extendedLabels → tree.blank = ofAst t) ∧
      (strategy = .virtualNodes →
        tree.blank = (ofAst t).enclose parenthesized?) ∧
      (Branching.events tree).map (Branching.Event.map type) =
        (Branching.events t).map (Branching.Event.map Ast.type) := by
  obtain ⟨-, -, hsound⟩ := Schema.make_eq_ok hs
  refine ⟨?_, ?_, ?_, ?_⟩
  · rw [blank_of_build hsound h, blank_of_build hsound h']
  · rintro rfl
    exact blank_of_extendedLabels hs h
  · rintro rfl
    exact blank_of_virtualNodes hs h
  · exact events_of_plain (plain_of_build hsound h)

/-- The tokens of `f(true)`. -/
def tightTokens : List SourceToken :=
  [⟨.semantic, ⟨.identifier, "f", ⟨⟨0, 1⟩, ⟨0, 0⟩, ⟨0, 1⟩⟩⟩⟩,
    ⟨.semantic, ⟨.leftParen, "(", ⟨⟨1, 2⟩, ⟨0, 1⟩, ⟨0, 2⟩⟩⟩⟩,
    ⟨.semantic, ⟨.trueWord, "true", ⟨⟨2, 6⟩, ⟨0, 2⟩, ⟨0, 6⟩⟩⟩⟩,
    ⟨.semantic, ⟨.rightParen, ")", ⟨⟨6, 7⟩, ⟨0, 6⟩, ⟨0, 7⟩⟩⟩⟩]

/-- With blanks around its argument and without, the call has one shape: its
argument stands in a virtual node. -/
theorem shape_of_build_sample :
    ∃ s tree tree', Schema.make .functions .virtualNodes = .ok s ∧
      build s sampleTree sampleTokens = .ok tree ∧
      build s sampleTree tightTokens = .ok tree' ∧ tree.blank = tree'.blank ∧
      tree.blank = (ofAst sampleTree).enclose parenthesized? := by
  have hstrategy : Strategy.virtualNodes ∈ Strategy.bundled :=
    List.mem_cons_self
  have hall : ∀ tokens ∈ [sampleTokens, tightTokens],
      (Schema.make .functions .virtualNodes >>= fun s =>
      build s sampleTree tokens).isOk = true := by decide +kernel
  obtain ⟨s, hs⟩ := exists_make_functions hstrategy
  have hbuilt : ∀ tokens ∈ [sampleTokens, tightTokens], ∃ tree,
      build s sampleTree tokens = .ok tree := by
    intro tokens htokens
    have h := hall tokens htokens
    rw [hs, Outcome.ok_bind] at h
    exact Outcome.exists_of_isOk h
  obtain ⟨tree, htree⟩ := hbuilt sampleTokens (by simp)
  obtain ⟨tree', htree'⟩ := hbuilt tightTokens (by simp)
  obtain ⟨hblank, -, hvirtual, -⟩ := shape_of_build hstrategy hs htree htree'
  exact ⟨s, tree, tree', hs, htree, htree', hblank, hvirtual rfl⟩

end Cst

end Lossless
