import Lossless.Branching
import Lossless.Number.Binary64

/-!
# Syntax trees

A node has a type and named fields in order. A field holds a node, the absence
of an optional node, a list of nodes or a scalar. Nothing here knows which types
there are: a tree need not fit any grammar, and a field may stand twice, in
which case its first place counts.
-/

namespace Lossless

/-- A value that is no node. -/
inductive Scalar where
  | null
  | bool (value : Bool)
  | number (value : Binary64)
  | string (value : String)
  deriving DecidableEq, Inhabited

namespace Scalar

/-- Equality of values; it differs from being the same only on numbers. -/
def equal : Scalar → Scalar → Bool
  | .null, .null => true
  | .bool a, .bool b => a == b
  | .number x, .number y => x.equal y
  | .string s, .string t => s == t
  | _, _ => false

end Scalar

mutual

/-- A node of a syntax tree. -/
inductive Ast where
  | node (type : String) (fields : List (String × Ast.Value))

/-- What a field holds. -/
inductive Ast.Value where
  | node (child : Ast)
  | absent
  | list (items : List Ast)
  | scalar (value : Scalar)

end

namespace Ast

instance : Inhabited Ast := ⟨.node "" []⟩

instance : Inhabited Value := ⟨.absent⟩

def type : Ast → String
  | .node type _ => type

def fields : Ast → List (String × Value)
  | .node _ fields => fields

/-- The names of the fields in order. -/
def fieldNames (t : Ast) : List String := t.fields.map Prod.fst

/-- What the first field with a name holds. -/
def field? (t : Ast) (name : String) : Option Value := t.fields.lookup name

/-- The nodes that a field holds directly. -/
def Value.nodes : Value → List Ast
  | .node child => [child]
  | .list items => items
  | .absent | .scalar _ => []

/-- The children of a node in the order of its fields. -/
def children (t : Ast) : List Ast := t.fields.flatMap fun field => field.2.nodes

mutual

/-- The number of nodes of a tree. -/
def size : Ast → Nat
  | .node _ fields => 1 + fieldsSize fields

/-- The number of nodes below some fields. -/
def fieldsSize : List (String × Value) → Nat
  | [] => 0
  | (_, value) :: fields => valueSize value + fieldsSize fields

/-- The number of nodes below a field. -/
def valueSize : Value → Nat
  | .node child => size child
  | .absent => 0
  | .list items => itemsSize items
  | .scalar _ => 0

/-- The number of nodes of the trees of a list. -/
def itemsSize : List Ast → Nat
  | [] => 0
  | item :: items => size item + itemsSize items

end

theorem itemsSize_eq (items : List Ast) :
    itemsSize items = total size items := by
  induction items with
  | nil => rfl
  | cons item items ih => simp [itemsSize, ih]

theorem valueSize_eq (value : Value) :
    valueSize value = total size value.nodes := by
  cases value <;> simp [valueSize, Value.nodes, itemsSize_eq]

theorem fieldsSize_eq (fields : List (String × Value)) :
    fieldsSize fields =
      total size (fields.flatMap fun field => field.2.nodes) := by
  induction fields with
  | nil => rfl
  | cons field fields ih => simp [fieldsSize, ih, valueSize_eq]

instance : Branching Ast where
  held t := t.fields.map fun field => field.2.nodes
  size := size
  size_eq_held t := by
    cases t with
    | node type fields =>
      simp [size, Ast.fields, fieldsSize_eq, List.flatMap_def]

theorem branching_children (t : Ast) : Branching.children t = t.children := rfl

/-- What a node is called in a walk: the text in its field `name`,
or else its type. -/
def label (t : Ast) : String :=
  match t.field? "name" with
  | some (.scalar (.string s)) => s
  | _ => t.type

/-! ### Putting children back -/

/-- Fills the place of a value with nodes taken from the front of a supply, as
many as the value holds, and returns what is left of the supply. -/
def Value.refill (supply : List Ast) : Value → Value × List Ast
  | .node _ =>
    match supply with
    | child :: supply => (.node child, supply)
    | [] => (.absent, [])
  | .absent => (.absent, supply)
  | .list items => (.list (supply.take items.length), supply.drop items.length)
  | .scalar s => (.scalar s, supply)

/-- Fills the fields of a node one after another. -/
def refill (supply : List Ast) : List (String × Value) → List (String × Value)
  | [] => []
  | (name, value) :: fields =>
    let r := value.refill supply
    (name, r.1) :: refill r.2 fields

/-- A tree put together anew from its leaves up. -/
def copy (t : Ast) : Ast :=
  Branching.foldPure (fun t parts => .node t.type (refill parts t.fields)) t

end Ast

end Lossless
