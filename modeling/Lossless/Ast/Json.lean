import Lossless.Ast.Basic
import Lossless.Json.Basic

/-!
# Syntax trees as JSON

A node is an object with its type as the member `type`, followed by its fields
in order. Integers up to 2^53 - 1 are written as such, also where the tree has a
number with a sign on its zero; the other numbers are real, and one that is not
finite becomes null.
-/

namespace Lossless

/-- A scalar as a JSON value. -/
def Scalar.toJson : Scalar → Json
  | .null => .null
  | .bool b => .bool b
  | .number x =>
    match x.integer? (1 <<< 53 - 1) with
    | some i => .number (.integer i)
    | none => if x.isFinite then .number (.real x) else .null
  | .string s => .string s

/-- The scalar that a JSON value is, if it is one. -/
def Scalar.ofJson? : Json → Option Scalar
  | .null => some .null
  | .bool b => some (.bool b)
  | .number n => some (.number n.toBinary64)
  | .string s => some (.string s)
  | .array _ | .object _ => none

namespace Ast

mutual

/-- A tree as a JSON object. -/
def toJson : Ast → Json
  | .node type fields => .object (("type", .string type) :: membersOf fields)

/-- Fields as members. -/
def membersOf : List (String × Value) → List (String × Json)
  | [] => []
  | (name, value) :: fields => (name, valueToJson value) :: membersOf fields

/-- The value of a field as JSON. -/
def valueToJson : Value → Json
  | .node child => toJson child
  | .absent => .null
  | .list items => .array (itemsToJson items)
  | .scalar s => s.toJson

/-- The trees of a list as JSON. -/
def itemsToJson : List Ast → List Json
  | [] => []
  | item :: items => toJson item :: itemsToJson items

end

end Ast

end Lossless
