import Lossless.Cst.Strip
import Lossless.Proofs.Walk
import Mathlib.Data.List.Forall2

/-!
# Concrete trees without their extras

`blank` empties every record of a concrete tree, so what is left is the shape:
nodes, virtual nodes and scalars. `plain` is the syntax tree inside a concrete
tree by recursion; it does not look at records (`plain_blank`), and where it
exists it is what `strip` works out along a walk (`strip_of_plain`). Walks of
both trees pass the same types (`events_of_plain`).
-/

namespace Lossless

namespace Cst

mutual

/-- A tree with all records emptied. -/
def blank : Cst → Cst
  | .node type fields _ => .node type (blankFields fields) .empty

/-- Fields with all records emptied. -/
def blankFields : List (String × Value) → List (String × Value)
  | [] => []
  | (name, value) :: fields => (name, blankValue value) :: blankFields fields

/-- A value with all records emptied. -/
def blankValue : Value → Value
  | .node child => .node (blank child)
  | .absent => .absent
  | .list items => .list (blankItems items)
  | .scalar s => .scalar s
  | .virtual role (some value) _ =>
    .virtual role (some (blankValue value)) .empty
  | .virtual role none _ => .virtual role none .empty

/-- Trees with all records emptied. -/
def blankItems : List Cst → List Cst
  | [] => []
  | item :: items => blank item :: blankItems items

end

mutual

/-- The syntax tree inside a concrete tree, if every virtual node wraps a
list or nothing. -/
def plain : Cst → Option Ast
  | .node type fields _ => (plainFields fields).map (.node type)

/-- What some fields stand for. -/
def plainFields : List (String × Value) → Option (List (String × Ast.Value))
  | [] => some []
  | (name, value) :: fields => do
    let value ← plainValue value
    let fields ← plainFields fields
    some ((name, value) :: fields)

/-- What a value stands for. -/
def plainValue : Value → Option Ast.Value
  | .node child => (plain child).map .node
  | .absent => some .absent
  | .list items => (plainItems items).map .list
  | .scalar s => some (.scalar s)
  | .virtual _ none _ => some (.list [])
  | .virtual _ (some (.list items)) _ => (plainItems items).map .list
  | .virtual _ (some _) _ => none

/-- The syntax trees inside some concrete trees. -/
def plainItems : List Cst → Option (List Ast)
  | [] => some []
  | item :: items => do
    let item ← plain item
    let items ← plainItems items
    some (item :: items)

end

/-! ### Records do not matter -/

theorem blankFields_eq_map (fields : List (String × Value)) :
    blankFields fields =
      fields.map fun field => (field.1, blankValue field.2) := by
  induction fields with
  | nil => rfl
  | cons field fields ih => rw [blankFields, ih, List.map_cons]

theorem blankItems_eq_map (items : List Cst) :
    blankItems items = items.map blank := by
  induction items with
  | nil => rfl
  | cons item items ih => rw [blankItems, ih, List.map_cons]

theorem nodes_blankValue (value : Value) :
    (blankValue value).nodes = value.nodes.map blank := by
  fun_induction Value.nodes value with
  | case1 child => rfl
  | case2 items => exact blankItems_eq_map items
  | case3 role value extras ih => exact ih
  | case4 | case5 | case6 => rfl

theorem children_blank (t : Cst) :
    Branching.children t.blank = (Branching.children t).map blank := by
  obtain ⟨type, fields, extras⟩ := t
  change (blankFields fields).flatMap (fun field => field.2.nodes) =
    (fields.flatMap fun field => field.2.nodes).map blank
  rw [blankFields_eq_map, List.flatMap_map, List.map_flatMap]
  exact List.flatMap_congr fun field _ => nodes_blankValue field.2

mutual

theorem plain_blank (t : Cst) : t.blank.plain = t.plain := by
  cases t with
  | node type fields extras =>
    rw [blank, plain, plain, plainFields_blank fields]

theorem plainFields_blank (fields : List (String × Value)) :
    plainFields (blankFields fields) = plainFields fields := by
  cases fields with
  | nil => rfl
  | cons field fields =>
    rcases field with ⟨name, value⟩
    rw [blankFields, plainFields, plainFields, plainValue_blank value,
      plainFields_blank fields]

theorem plainValue_blank (value : Value) :
    plainValue (blankValue value) = plainValue value := by
  match value with
  | .node child => rw [blankValue, plainValue, plainValue, plain_blank child]
  | .absent => rfl
  | .list items =>
    rw [blankValue, plainValue, plainValue, plainItems_blank items]
  | .scalar s => rfl
  | .virtual role none extras => rfl
  | .virtual role (some (.list items)) extras =>
    rw [blankValue, blankValue, plainValue, plainValue, plainItems_blank items]
  | .virtual role (some (.node child)) extras => rfl
  | .virtual role (some .absent) extras => rfl
  | .virtual role (some (.scalar s)) extras => rfl
  | .virtual role (some (.virtual role' none extras')) extras => rfl
  | .virtual role (some (.virtual role' (some value') extras')) extras => rfl

theorem plainItems_blank (items : List Cst) :
    plainItems (blankItems items) = plainItems items := by
  cases items with
  | nil => rfl
  | cons item items =>
    rw [blankItems, plainItems, plainItems, plain_blank item,
      plainItems_blank items]

end

/-! ### The walk and the recursion -/

theorem mapM_strip_of_plainItems {items : List Cst} {trees : List Ast}
    (ih : ∀ t ∈ items, ∀ a, t.plain = some a → t.strip = .ok a)
    (h : plainItems items = some trees) : items.mapM strip = .ok trees := by
  induction items generalizing trees with
  | nil =>
    cases Option.some.inj h
    rfl
  | cons item items ihItems =>
    rw [plainItems] at h
    rcases Option.bind_eq_some_iff.1 h with ⟨tree, htree, h⟩
    rcases Option.bind_eq_some_iff.1 h with ⟨others, hothers, h⟩
    cases Option.some.inj h
    rw [List.mapM_cons, ih item List.mem_cons_self tree htree,
      ihItems (fun t ht => ih t (List.mem_cons_of_mem _ ht)) hothers]
    rfl

theorem length_of_plainItems {items : List Cst} {trees : List Ast}
    (h : plainItems items = some trees) : trees.length = items.length := by
  induction items generalizing trees with
  | nil =>
    cases Option.some.inj h
    rfl
  | cons item items ih =>
    rw [plainItems] at h
    rcases Option.bind_eq_some_iff.1 h with ⟨tree, -, h⟩
    rcases Option.bind_eq_some_iff.1 h with ⟨others, hothers, h⟩
    cases Option.some.inj h
    rw [List.length_cons, List.length_cons, ih hothers]

/-- A value takes its own nodes from the front of the supply and
leaves the rest. -/
theorem strip_of_plainValue (type : String) {value : Value} {value' : Ast.Value}
    (ih : ∀ t ∈ value.nodes, ∀ a, t.plain = some a → t.strip = .ok a)
    (h : plainValue value = some value') :
    ∃ trees, value.nodes.mapM strip = .ok trees ∧
      ∀ supply, value.strip type (trees ++ supply) = .ok (value', supply) := by
  match value with
  | .node child =>
    rcases Option.map_eq_some_iff.1 h with ⟨a, ha, rfl⟩
    refine ⟨[a], ?_, fun supply => rfl⟩
    rw [Value.nodes, List.mapM_cons, ih child (by simp [Value.nodes]) a ha]
    rfl
  | .absent =>
    cases Option.some.inj h
    exact ⟨[], rfl, fun supply => rfl⟩
  | .scalar s =>
    cases Option.some.inj h
    exact ⟨[], rfl, fun supply => rfl⟩
  | .virtual role none extras =>
    cases Option.some.inj h
    exact ⟨[], rfl, fun supply => Value.strip_virtual ..⟩
  | .list items =>
    rcases Option.map_eq_some_iff.1 h with ⟨trees, htrees, rfl⟩
    refine ⟨trees, mapM_strip_of_plainItems ih htrees, fun supply => ?_⟩
    rw [Value.strip, takeList, ← length_of_plainItems htrees, List.take_left,
      List.drop_left]
  | .virtual role (some (.list items)) extras =>
    rcases Option.map_eq_some_iff.1 h with ⟨trees, htrees, rfl⟩
    refine ⟨trees, mapM_strip_of_plainItems ih htrees, fun supply => ?_⟩
    rw [Value.strip_virtual]
    simp only [takeList]
    rw [← length_of_plainItems htrees, List.take_left, List.drop_left]
  | .virtual role (some (.node child)) extras => exact nomatch h
  | .virtual role (some .absent) extras => exact nomatch h
  | .virtual role (some (.scalar s)) extras => exact nomatch h
  | .virtual role (some (.virtual role' wrapped extras')) extras =>
    exact nomatch h

theorem strip_of_plainFields (type : String) {fields : List (String × Value)}
    {fields' : List (String × Ast.Value)}
    (ih : ∀ t ∈ fields.flatMap (fun field => field.2.nodes),
      ∀ a, t.plain = some a → t.strip = .ok a)
    (h : plainFields fields = some fields') :
    ∃ trees, (fields.flatMap fun field => field.2.nodes).mapM strip =
        .ok trees ∧
      ∀ supply, stripFields type (trees ++ supply) fields = .ok fields' := by
  induction fields generalizing fields' with
  | nil =>
    cases Option.some.inj h
    exact ⟨[], rfl, fun supply => rfl⟩
  | cons field fields ihFields =>
    rcases field with ⟨name, value⟩
    rw [plainFields] at h
    rcases Option.bind_eq_some_iff.1 h with ⟨value', hvalue, h⟩
    rcases Option.bind_eq_some_iff.1 h with ⟨others, hothers, h⟩
    cases Option.some.inj h
    rw [List.flatMap_cons] at ih ⊢
    rcases strip_of_plainValue type
      (fun t ht => ih t (List.mem_append_left _ ht)) hvalue with
      ⟨trees, htrees, hstrip⟩
    rcases ihFields (fun t ht => ih t (List.mem_append_right _ ht)) hothers with
      ⟨trees', htrees', hstrip'⟩
    refine ⟨trees ++ trees', ?_, fun supply => ?_⟩
    · rw [List.mapM_append, htrees, htrees']
      rfl
    · rw [stripFields, List.append_assoc, hstrip, Outcome.ok_bind]
      simp only
      rw [hstrip', Outcome.ok_bind]

/-- The syntax tree that the recursion finds is the one that the
walk works out. -/
theorem strip_of_plain {t : Cst} {a : Ast} (h : t.plain = some a) :
    t.strip = .ok a := by
  induction t using Branching.induction generalizing a with
  | step t ih =>
    cases t with
    | node type fields extras =>
      rw [plain] at h
      rcases Option.map_eq_some_iff.1 h with ⟨fields', hfields, rfl⟩
      rcases strip_of_plainFields type
        (fun t ht a ha => ih t ht ha) hfields with ⟨trees, htrees, hstrip⟩
      have hchildren :
          (Branching.children (Cst.node type fields extras)).mapM strip =
            .ok trees := htrees
      have hsupply := hstrip []
      rw [List.append_nil] at hsupply
      rw [strip, Branching.fold_eq]
      change ((Branching.children (Cst.node type fields extras)).mapM strip >>=
        _) = _
      rw [hchildren, Outcome.ok_bind, Cst.type, hsupply, Outcome.ok_bind]

theorem isSome_plainItems {items : List Cst} (h : ∀ t ∈ items, t.plain.isSome) :
    (plainItems items).isSome := by
  induction items with
  | nil => rfl
  | cons item items ih =>
    rcases Option.isSome_iff_exists.1 (h item List.mem_cons_self) with ⟨a, ha⟩
    rcases Option.isSome_iff_exists.1 (ih fun t ht =>
      h t (List.mem_cons_of_mem _ ht)) with ⟨as, has⟩
    rw [plainItems, ha, has]
    rfl

/-- A value that the walk takes stands for something. -/
theorem isSome_plainValue {type : String} {supply : List Ast} {value : Value}
    {r : Ast.Value × List Ast} (h : value.strip type supply = .ok r)
    (hnodes : ∀ t ∈ value.nodes, t.plain.isSome) :
    (plainValue value).isSome := by
  match value with
  | .node child =>
    rw [plainValue, Option.isSome_map]
    exact hnodes child (List.mem_singleton_self child)
  | .absent | .scalar _ | .virtual _ none _ => rfl
  | .list items | .virtual _ (some (.list items)) _ =>
    rw [plainValue, Option.isSome_map]
    exact isSome_plainItems hnodes
  | .virtual _ (some (.node _)) _ | .virtual _ (some .absent) _
  | .virtual _ (some (.scalar _)) _ | .virtual _ (some (.virtual ..)) _ =>
    rw [Value.strip_virtual] at h
    cases h

theorem isSome_plainFields {type : String} {supply : List Ast}
    {fields : List (String × Value)} {fields' : List (String × Ast.Value)}
    (h : stripFields type supply fields = .ok fields')
    (hnodes : ∀ t ∈ fields.flatMap (fun field => field.2.nodes),
      t.plain.isSome) : (plainFields fields).isSome := by
  induction fields generalizing supply fields' with
  | nil => rfl
  | cons field fields ih =>
    rcases field with ⟨name, value⟩
    rw [stripFields] at h
    rcases Outcome.bind_eq_ok.1 h with ⟨r, hvalue, h⟩
    rcases Outcome.bind_eq_ok.1 h with ⟨others, hothers, -⟩
    rw [List.flatMap_cons] at hnodes
    have hfirst :=
      isSome_plainValue hvalue fun t ht => hnodes t (List.mem_append_left _ ht)
    have hrest := ih hothers fun t ht => hnodes t (List.mem_append_right _ ht)
    rcases Option.isSome_iff_exists.1 hfirst with ⟨value', hvalue'⟩
    rcases Option.isSome_iff_exists.1 hrest with ⟨others', hothers'⟩
    rw [plainFields, hvalue', hothers']
    rfl

/-- What the walk works out is what the recursion finds. -/
theorem plain_of_strip {t : Cst} {a : Ast} (h : t.strip = .ok a) :
    t.plain = some a := by
  have hsome : ∀ u : Cst, ∀ b, u.strip = .ok b → u.plain.isSome := by
    intro u
    induction u using Branching.induction with
    | step u ih =>
      intro b hb
      rw [strip, Branching.fold_eq] at hb
      rcases Outcome.bind_eq_ok.1 hb with ⟨trees, htrees, hb⟩
      rcases Outcome.bind_eq_ok.1 hb with ⟨fields', hfields, -⟩
      cases u with
      | node type fields extras =>
        rw [plain, Option.isSome_map]
        refine isSome_plainFields hfields fun w hw => ?_
        rcases Outcome.exists_of_mapM htrees hw with ⟨b', hb'⟩
        exact ih w hw b' hb'
  rcases Option.isSome_iff_exists.1 (hsome t a h) with ⟨b, hb⟩
  rw [hb, Except.ok.inj (h.symm.trans (strip_of_plain hb))]

/-! ### Nodes side by side -/

theorem forall₂_plainItems {items : List Cst} {trees : List Ast}
    (h : plainItems items = some trees) :
    List.Forall₂ (fun t a => t.plain = some a) items trees := by
  induction items generalizing trees with
  | nil =>
    cases Option.some.inj h
    exact .nil
  | cons item items ih =>
    rw [plainItems] at h
    obtain ⟨tree, htree, h⟩ := Option.bind_eq_some_iff.1 h
    obtain ⟨others, hothers, h⟩ := Option.bind_eq_some_iff.1 h
    rw [← Option.some.inj h]
    exact .cons htree (ih hothers)

/-- The nodes of a value stand for those of the value that it stands for. -/
theorem forall₂_plainValue {value : Value} {value' : Ast.Value}
    (h : plainValue value = some value') :
    List.Forall₂ (fun t a => t.plain = some a) value.nodes value'.nodes := by
  match value with
  | .node child =>
    obtain ⟨a, ha, rfl⟩ := Option.map_eq_some_iff.1 h
    exact .cons ha .nil
  | .absent | .scalar _ | .virtual _ none _ =>
    cases Option.some.inj h
    exact .nil
  | .list items | .virtual _ (some (.list items)) _ =>
    obtain ⟨trees, htrees, rfl⟩ := Option.map_eq_some_iff.1 h
    exact forall₂_plainItems htrees
  | .virtual _ (some (.node _)) _ | .virtual _ (some .absent) _
  | .virtual _ (some (.scalar _)) _ | .virtual _ (some (.virtual ..)) _ =>
    exact nomatch h

/-- The children of a concrete tree stand for the children of
its syntax tree. -/
theorem forall₂_children {t : Cst} {a : Ast} (h : t.plain = some a) :
    List.Forall₂ (fun u b => u.plain = some b) (Branching.children t)
      (Branching.children a) := by
  obtain ⟨type, fields, extras⟩ := t
  obtain ⟨fields', hfields, rfl⟩ := Option.map_eq_some_iff.1 h
  change List.Forall₂ _ (fields.flatMap fun field => field.2.nodes)
    (fields'.flatMap fun field => field.2.nodes)
  clear h
  induction fields generalizing fields' with
  | nil =>
    cases Option.some.inj hfields
    exact .nil
  | cons field fields ih =>
    rw [plainFields] at hfields
    obtain ⟨value', hvalue, hfields⟩ := Option.bind_eq_some_iff.1 hfields
    obtain ⟨others, hothers, hfields⟩ := Option.bind_eq_some_iff.1 hfields
    rw [← Option.some.inj hfields, List.flatMap_cons, List.flatMap_cons]
    exact List.rel_append (forall₂_plainValue hvalue) (ih others hothers)

/-- Lists of trees side by side give the same, read one by one,
if the trees do. -/
theorem flatMap_eq_of_forall₂ {β : Type} {f : Cst → List β} {g : Ast → List β}
    {ts : List Cst} {as : List Ast}
    (h : List.Forall₂ (fun t a => t.plain = some a) ts as)
    (heq : ∀ t ∈ ts, ∀ a, t.plain = some a → f t = g a) :
    ts.flatMap f = as.flatMap g := by
  induction h with
  | nil => rfl
  | @cons t a ts as ha _ ih =>
    rw [List.flatMap_cons, List.flatMap_cons, heq t List.mem_cons_self a ha,
      ih fun u hu => heq u (List.mem_cons_of_mem _ hu)]

/-- A walk of a concrete tree enters and leaves nodes of the types that a walk
of its syntax tree does. -/
theorem events_of_plain {t : Cst} {a : Ast} (h : t.plain = some a) :
    (Branching.events t).map (Branching.Event.map type) =
      (Branching.events a).map (Branching.Event.map Ast.type) := by
  induction t using Branching.induction generalizing a with
  | step t ih =>
    have htype : t.type = a.type := by
      obtain ⟨type, fields, extras⟩ := t
      obtain ⟨fields', -, rfl⟩ := Option.map_eq_some_iff.1 h
      rfl
    have hbelow :=
      flatMap_eq_of_forall₂ (forall₂_children h) fun u hu b hb => ih u hu hb
    rw [Branching.events_eq, Branching.events_eq]
    simp [Branching.Event.map, List.map_flatMap, htype, hbelow]

/-- A concrete tree has nodes of the types that its syntax tree has, in
the same order. -/
theorem types_of_plain {t : Cst} {a : Ast} (h : t.plain = some a) :
    (Branching.nodes t).map type = (Branching.nodes a).map Ast.type := by
  rw [Branching.map_nodes, Branching.map_nodes, events_of_plain h]

end Cst

end Lossless
