import Lossless.Cst.Basic

/-!
# The records of a concrete tree

`records` lists the records of all nodes and virtual nodes of a tree, each with
its owner: a node's own record first, then those of its fields in order; a
virtual node's own, then those of what it wraps.
-/

namespace Lossless

namespace Cst

mutual

/-- The records of a tree. -/
def records : Cst → List (Owner × Extras)
  | .node type fields extras => (.node type, extras) :: fieldsRecords fields

/-- The records below some fields. -/
def fieldsRecords : List (String × Value) → List (Owner × Extras)
  | [] => []
  | (_, value) :: fields => valueRecords value ++ fieldsRecords fields

/-- The records below a field. -/
def valueRecords : Value → List (Owner × Extras)
  | .node child => records child
  | .list items => itemsRecords items
  | .virtual role (some value) extras =>
    (.virtual role, extras) :: valueRecords value
  | .virtual role none extras => [(.virtual role, extras)]
  | .absent | .scalar _ => []

/-- The records of the trees of a list. -/
def itemsRecords : List Cst → List (Owner × Extras)
  | [] => []
  | item :: items => records item ++ itemsRecords items

end

end Cst

end Lossless
