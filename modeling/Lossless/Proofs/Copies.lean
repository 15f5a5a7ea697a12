import Lossless.Proofs.Enclosing
import Lossless.Proofs.Equality

/-!
# Equal trees, copies and lifted trees

`Ast.Same` says by recursion on two trees that they are equal: the same types,
the same names in the same order, lists of the same lengths, an absent node only
where the other tree has none either, and equal scalars. Three traversals that
do not recurse agree with it. The comparison by pairs that wait finds out
whether trees are the same (`equal_iff_same`), lifting keeps whether they are
(`equal_ofAst_iff`), and a copy that is put together from the leaves up is the
tree itself (`copy_eq`). So a copy equals its original unless it holds a number
that is none (`equal_self_iff`).
-/

namespace Lossless

namespace Ast

mutual

/-- Two trees are the same up to equality of their scalars. -/
def Same : Ast → Ast → Prop
  | .node type fields, .node type' fields' =>
    type = type' ∧ SameFields fields fields'

/-- Two runs of fields have the same names in the same order, and
the same values. -/
def SameFields : List (String × Value) → List (String × Value) → Prop
  | [], [] => True
  | (name, value) :: fields, (name', value') :: fields' =>
    name = name' ∧ SameValue value value' ∧ SameFields fields fields'
  | _, _ => False

/-- Two values are of the same sort and the same. An absent node is no
scalar, not even null. -/
def SameValue : Value → Value → Prop
  | .node t, .node t' => Same t t'
  | .absent, .absent => True
  | .list items, .list items' => SameItems items items'
  | .scalar s, .scalar s' => s.equal s' = true
  | _, _ => False

/-- Two lists have the same length and the same trees. -/
def SameItems : List Ast → List Ast → Prop
  | [], [] => True
  | t :: items, t' :: items' => Same t t' ∧ SameItems items items'
  | _, _ => False

end

/-! ### Pairs that wait -/

mutual

/-- The comparison of two trees finds out whether they are the same. -/
theorem equal_iff_same (a b : Ast) : a.equal b = true ↔ a.Same b := by
  obtain ⟨type, fields⟩ := a
  obtain ⟨type', fields'⟩ := b
  rw [equal_node, Same, forall₂_equalField_iff_same fields fields']

theorem forall₂_equalField_iff_same (fields fields' : List (String × Value)) :
    List.Forall₂ EqualField fields fields' ↔ SameFields fields fields' := by
  match fields, fields' with
  | [], [] => simp [SameFields]
  | [], _ :: _ | _ :: _, [] => simp [SameFields]
  | (name, value) :: fields, (name', value') :: fields' =>
    rw [List.forall₂_cons, SameFields, EqualField,
      value_equal_iff_same value value',
      forall₂_equalField_iff_same fields fields', and_assoc]

theorem value_equal_iff_same (value value' : Value) :
    value.Equal value' ↔ SameValue value value' := by
  match value with
  | .node t =>
    cases value' with
    | node t' =>
      rw [SameValue, ← equal_iff_same t t']
      exact ⟨fun (.node h) => h, .node⟩
    | absent | list | scalar => simpa [SameValue] using fun h => nomatch h
  | .absent =>
    cases value' with
    | absent => simpa [SameValue] using .absent
    | node | list | scalar => simpa [SameValue] using fun h => nomatch h
  | .list items =>
    cases value' with
    | list items' =>
      rw [SameValue, ← forall₂_equal_iff_same items items']
      exact ⟨fun (.list h) => h, .list⟩
    | node | absent | scalar => simpa [SameValue] using fun h => nomatch h
  | .scalar s =>
    cases value' with
    | scalar s' =>
      rw [SameValue]
      exact ⟨fun (.scalar h) => h, .scalar⟩
    | node | absent | list => simpa [SameValue] using fun h => nomatch h

theorem forall₂_equal_iff_same (items items' : List Ast) :
    List.Forall₂ (fun a b => a.equal b = true) items items' ↔
      SameItems items items' := by
  match items, items' with
  | [], [] => simp [SameItems]
  | [], _ :: _ | _ :: _, [] => simp [SameItems]
  | t :: items, t' :: items' =>
    rw [List.forall₂_cons, SameItems, equal_iff_same t t',
      forall₂_equal_iff_same items items']

end

/-! ### Copies -/

theorem value_refill (value : Value) (supply : List Ast) :
    value.refill (value.nodes ++ supply) = (value, supply) := by
  cases value with
  | node t => rfl
  | absent => rfl
  | list items => simp [Value.refill, Value.nodes]
  | scalar s => rfl

/-- The nodes of some fields fill these fields again. -/
theorem refill_nodes (fields : List (String × Value)) :
    refill (fields.flatMap fun field => field.2.nodes) fields = fields := by
  induction fields with
  | nil => rfl
  | cons field fields ih =>
    obtain ⟨name, value⟩ := field
    rw [List.flatMap_cons, refill, value_refill, ih]

/-- A copy is the tree itself. -/
theorem copy_eq (t : Ast) : t.copy = t := by
  induction t using Branching.induction with
  | step t ih =>
    have hchildren : (Branching.children t).map copy = Branching.children t :=
      (List.map_congr_left ih).trans (List.map_id _)
    obtain ⟨type, fields⟩ := t
    rw [copy, Branching.foldPure_eq]
    change node type
      (refill ((Branching.children (node type fields)).map copy) fields) = _
    rw [hchildren]
    exact congrArg (node type) (refill_nodes fields)

/-! ### Trees that differ from themselves -/

theorem Value.Equal.isNaN_eq_false {value : Value} (h : value.Equal value) :
    value.isNaN = false := by
  cases h with
  | node | absent | list => rfl
  | @scalar s _ h =>
    cases s with
    | number x =>
      cases x with
      | nan => exact nomatch h
      | infinite | finite => rfl
    | null | bool | string => rfl

theorem Value.Equal.self_of_mem_nodes {value : Value} (h : value.Equal value)
    {c : Ast} (hc : c ∈ value.nodes) : c.equal c = true := by
  cases h with
  | node h => rwa [List.mem_singleton.1 hc]
  | list h => exact List.forall₂_same.1 h c hc
  | absent | scalar => exact absurd hc List.not_mem_nil

/-- A tree equals itself if every number in it is one, and only then. -/
theorem equal_self_iff (t : Ast) : t.equal t = true ↔ t.NumbersOnly := by
  refine ⟨fun h => ?_, equal_self⟩
  induction t using Branching.induction with
  | step t ih =>
    obtain ⟨type, fields⟩ := t
    have hfields : ∀ field ∈ fields, EqualField field field :=
      List.forall₂_same.1 (equal_node.1 h).2
    intro u hu
    rw [Branching.nodes_eq] at hu
    rcases List.mem_cons.1 hu with rfl | hu
    · exact fun field hfield => (hfields field hfield).2.isNaN_eq_false
    · obtain ⟨c, hc, hu⟩ := List.mem_flatMap.1 hu
      obtain ⟨field, hfield, hnode⟩ :=
        List.mem_flatMap.1 (show c ∈ (node type fields).children from hc)
      exact ih c hc ((hfields field hfield).2.self_of_mem_nodes hnode) u hu

end Ast

namespace Cst

/-! ### Lifted trees -/

mutual

/-- Lifted trees are equal if the syntax trees are the same, and only then. -/
theorem equal_ofAst_iff (a b : Ast) :
    (ofAst a).equal (ofAst b) = true ↔ a.Same b := by
  obtain ⟨type, fields⟩ := a
  obtain ⟨type', fields'⟩ := b
  rw [ofAst_node, ofAst_node, equal, Ast.Same,
    ← fieldsEqual_lift_iff fields fields']
  simp [Extras.same, Extras.empty, Extras.size]

theorem fieldsEqual_lift_iff (fields fields' : List (String × Ast.Value)) :
    fieldsEqual (fields.map fun field => (field.1, liftValue field.2))
        (fields'.map fun field => (field.1, liftValue field.2)) = true ↔
      Ast.SameFields fields fields' := by
  match fields, fields' with
  | [], [] => simp [fieldsEqual, Ast.SameFields]
  | [], _ :: _ | _ :: _, [] => simp [fieldsEqual, Ast.SameFields]
  | (name, value) :: fields, (name', value') :: fields' =>
    rw [Ast.SameFields, ← fieldsEqual_lift_iff fields fields',
      ← valueEqual_lift_iff value value']
    simp [fieldsEqual, and_assoc]

theorem valueEqual_lift_iff (value value' : Ast.Value) :
    valueEqual (liftValue value) (liftValue value') = true ↔
      Ast.SameValue value value' := by
  match value with
  | .node t =>
    cases value' with
    | node t' =>
      rw [liftValue, liftValue, valueEqual, Ast.SameValue]
      exact equal_ofAst_iff t t'
    | absent | list | scalar => simp [liftValue, valueEqual, Ast.SameValue]
  | .absent => cases value' <;> simp [liftValue, valueEqual, Ast.SameValue]
  | .list items =>
    cases value' with
    | list items' =>
      rw [liftValue, liftValue, valueEqual, Ast.SameValue]
      exact itemsEqual_lift_iff items items'
    | node | absent | scalar => simp [liftValue, valueEqual, Ast.SameValue]
  | .scalar s => cases value' <;> simp [liftValue, valueEqual, Ast.SameValue]

theorem itemsEqual_lift_iff (items items' : List Ast) :
    itemsEqual (items.map ofAst) (items'.map ofAst) = true ↔
      Ast.SameItems items items' := by
  match items, items' with
  | [], [] => simp [itemsEqual, Ast.SameItems]
  | [], _ :: _ | _ :: _, [] => simp [itemsEqual, Ast.SameItems]
  | t :: items, t' :: items' =>
    rw [Ast.SameItems, ← equal_ofAst_iff t t',
      ← itemsEqual_lift_iff items items']
    simp [itemsEqual]

end

end Cst

/-- Of any trees: they are equal exactly if they are the same, whatever pairs
wait beside them and in whatever order, and exactly if the lifted trees are;
and a copy is the tree itself, so that it equals the tree exactly if every
number in it is one. -/
theorem Ast.equal_lift_copy_faithful :
    (∀ a b : Ast, (a.equal b = true ↔ a.Same b) ∧
      (a.equal b = true ↔ (Cst.ofAst a).equal (Cst.ofAst b) = true)) ∧
      (∀ waiting : List (Ast × Ast), allEqual waiting = true ↔
        ∀ p ∈ waiting, p.1.Same p.2) ∧
      ∀ a : Ast, a.copy = a ∧ (a.copy.equal a = true ↔ a.NumbersOnly) := by
  refine ⟨fun a b => ⟨equal_iff_same a b, ?_⟩, fun waiting => ?_, fun a => ?_⟩
  · rw [equal_iff_same, Cst.equal_ofAst_iff]
  · simp only [allEqual_iff, equal_iff_same]
  · rw [copy_eq]
    exact ⟨rfl, equal_self_iff a⟩

end Lossless
