import Lossless.Ast.Basic
import Lossless.Extras.Basic

/-!
# Concrete syntax trees

A concrete tree is a syntax tree whose nodes keep records of extras. A field may
also hold a virtual node, which keeps a record of its own and wraps a value or
nothing. Like syntax trees, concrete trees need not fit anything: a virtual node
may wrap any value, another virtual node included. `ofAst` takes a syntax tree
as a concrete tree without extras.
-/

namespace Lossless

mutual

/-- A node of a concrete tree. -/
inductive Cst where
  | node (type : String) (fields : List (String × Cst.Value)) (extras : Extras)

/-- What a field holds. -/
inductive Cst.Value where
  | node (child : Cst)
  | absent
  | list (items : List Cst)
  | scalar (value : Scalar)
  | virtual (role : VirtualRole) (wrapped : Option Cst.Value) (extras : Extras)

end

namespace Cst

instance : Inhabited Cst := ⟨.node "" [] .empty⟩

instance : Inhabited Value := ⟨.absent⟩

def type : Cst → String
  | .node type _ _ => type

def fields : Cst → List (String × Value)
  | .node _ fields _ => fields

def extras : Cst → Extras
  | .node _ _ extras => extras

/-- The nodes that a field holds, looking through virtual nodes. -/
def Value.nodes : Value → List Cst
  | .node child => [child]
  | .list items => items
  | .virtual _ (some value) _ => value.nodes
  | .virtual _ none _ | .absent | .scalar _ => []

mutual

/-- The number of nodes of a tree, virtual ones aside. -/
def size : Cst → Nat
  | .node _ fields _ => 1 + fieldsSize fields

/-- The number of nodes below some fields. -/
def fieldsSize : List (String × Value) → Nat
  | [] => 0
  | (_, value) :: fields => valueSize value + fieldsSize fields

/-- The number of nodes below a field. -/
def valueSize : Value → Nat
  | .node child => size child
  | .list items => itemsSize items
  | .virtual _ (some value) _ => valueSize value
  | .virtual _ none _ | .absent | .scalar _ => 0

/-- The number of nodes of the trees of a list. -/
def itemsSize : List Cst → Nat
  | [] => 0
  | item :: items => size item + itemsSize items

end

theorem itemsSize_eq (items : List Cst) :
    itemsSize items = total size items := by
  induction items with
  | nil => rfl
  | cons item items ih => simp [itemsSize, ih]

theorem valueSize_eq (value : Value) :
    valueSize value = total size value.nodes := by
  fun_induction Value.nodes value <;> simp_all [valueSize, itemsSize_eq]

theorem fieldsSize_eq (fields : List (String × Value)) :
    fieldsSize fields =
      total size (fields.flatMap fun field => field.2.nodes) := by
  induction fields with
  | nil => rfl
  | cons field fields ih => simp [fieldsSize, ih, valueSize_eq]

instance : Branching Cst where
  held t := t.fields.map fun field => field.2.nodes
  size := size
  size_eq_held t := by
    cases t with
    | node type fields extras =>
      simp [size, Cst.fields, fieldsSize_eq, List.flatMap_def]

mutual

/-- The number of labels in the records of a tree. -/
def labelCount : Cst → Nat
  | .node _ fields extras => extras.size + fieldsLabelCount fields

/-- The number of labels below some fields. -/
def fieldsLabelCount : List (String × Value) → Nat
  | [] => 0
  | (_, value) :: fields => valueLabelCount value + fieldsLabelCount fields

/-- The number of labels below a field, those of virtual nodes included. -/
def valueLabelCount : Value → Nat
  | .node child => labelCount child
  | .list items => itemsLabelCount items
  | .virtual _ (some value) extras => extras.size + valueLabelCount value
  | .virtual _ none extras => extras.size
  | .absent | .scalar _ => 0

/-- The number of labels of the trees of a list. -/
def itemsLabelCount : List Cst → Nat
  | [] => 0
  | item :: items => labelCount item + itemsLabelCount items

end

mutual

/-- Equality of trees, up to equality of their scalars and the order of labels
in their records. -/
def equal : Cst → Cst → Bool
  | .node type fields extras, .node type' fields' extras' =>
    type == type' && fieldsEqual fields fields' && extras.same extras'

/-- Equality of runs of fields: the same names in the same order,
and equal values. -/
def fieldsEqual : List (String × Value) → List (String × Value) → Bool
  | [], [] => true
  | (name, value) :: fields, (name', value') :: fields' =>
    name == name' && valueEqual value value' && fieldsEqual fields fields'
  | _, _ => false

/-- Equality of values. -/
def valueEqual : Value → Value → Bool
  | .node child, .node child' => equal child child'
  | .absent, .absent => true
  | .list items, .list items' => itemsEqual items items'
  | .scalar s, .scalar s' => s.equal s'
  | .virtual role (some value) extras, .virtual role' (some value') extras' =>
    role == role' && valueEqual value value' && extras.same extras'
  | .virtual role none extras, .virtual role' none extras' =>
    role == role' && extras.same extras'
  | _, _ => false

/-- Equality of lists of trees. -/
def itemsEqual : List Cst → List Cst → Bool
  | [], [] => true
  | item :: items, item' :: items' =>
    equal item item' && itemsEqual items items'
  | _, _ => false

end

/-! ### Trees without extras -/

/-- The concrete value for a value of a syntax tree, with nodes taken
from the front of a supply, as many as the value holds, and what is
left of the supply. -/
def Value.ofAst (supply : List Cst) : Ast.Value → Value × List Cst
  | .node _ =>
    match supply with
    | child :: supply => (.node child, supply)
    | [] => (.absent, [])
  | .absent => (.absent, supply)
  | .list items => (.list (supply.take items.length), supply.drop items.length)
  | .scalar s => (.scalar s, supply)

/-- The concrete fields for the fields of a syntax tree, one after another. -/
def fieldsOfAst (supply : List Cst) :
    List (String × Ast.Value) → List (String × Value)
  | [] => []
  | (name, value) :: fields =>
    let r := Value.ofAst supply value
    (name, r.1) :: fieldsOfAst r.2 fields

/-- A syntax tree as a concrete tree without extras and virtual nodes. -/
def ofAst (t : Ast) : Cst :=
  Branching.foldPure
    (fun t parts => .node t.type (fieldsOfAst parts t.fields) .empty) t

end Cst

end Lossless
