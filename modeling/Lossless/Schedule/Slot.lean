import Lossless.Grammar.Basic

/-!
# Slot schedules

The schedule of a node type says in which order the pieces of its nodes stand in
the text: fixed tokens, fields, and the positions at which extras of the node
itself may be kept. A virtual node stands for a piece of syntax that has no node
of its own, such as a list in parentheses; it has a schedule too.
-/

namespace Lossless

/-- The name of a position that extras are kept at. -/
abbrev Label := String

/-- In front of a node. -/
def Label.before : Label := "before"

/-- Inside a node, where none of its children is near. -/
def Label.inside : Label := "inside"

/-- Behind a node. -/
def Label.after : Label := "after"

/-- What a virtual node stands for. -/
inductive VirtualRole where
  /-- The parameters of a function, in parentheses. -/
  | paramList
  /-- The arguments of a call, in parentheses. -/
  | argumentList
  deriving DecidableEq, Repr, Inhabited

namespace VirtualRole

def name : VirtualRole → String
  | paramList => "ParamList"
  | argumentList => "ArgumentList"

def all : List VirtualRole := [paramList, argumentList]

/-- The name between angle brackets. -/
def describe (role : VirtualRole) : String := "<" ++ role.name ++ ">"

/-- The shape of the field that a virtual node wraps. -/
def shape : VirtualRole → FieldShape
  | paramList | argumentList => .list

end VirtualRole

/-- What a schedule belongs to: the nodes of a type, or the virtual
nodes of a role. -/
inductive Owner where
  | node (type : String)
  | virtual (role : VirtualRole)
  deriving DecidableEq, Repr, Inhabited

namespace Owner

def describe : Owner → String
  | node type => type
  | virtual role => role.describe

/-- The owner that a description names. -/
def ofDescription (s : String) : Owner :=
  match VirtualRole.all.find? fun role => role.describe == s with
  | some role => .virtual role
  | none => .node s

end Owner

/-- A position in a schedule. -/
inductive Slot where
  /-- A place for extras of the owner itself. -/
  | extras (label : Label)
  /-- A fixed token. -/
  | token (text : String)
  /-- A scalar field spelled by one token. -/
  | scalar (field : String)
  /-- A scalar field without a token of its own. -/
  | implied (field : String)
  /-- A field with a node. -/
  | node (field : String)
  /-- A field with a node or none. -/
  | optional (field : String)
  /-- A field with a list of nodes, and the token between them
  if there is one. -/
  | list (field : String) (separator : Option String)
  /-- A virtual node that wraps a field. -/
  | virtual (role : VirtualRole)
  deriving DecidableEq, Repr, Inhabited

/-- The slots of an owner in the order of the text. -/
abbrev Schedule := List Slot

namespace Slot

/-- The field that a slot fills itself, with the shape that it needs. -/
def field? : Slot → Option FieldDef
  | scalar field | implied field => some ⟨field, .scalar⟩
  | node field => some ⟨field, .node⟩
  | optional field => some ⟨field, .optional⟩
  | list field _ => some ⟨field, .list⟩
  | extras _ | token _ | virtual _ => none

/-- The label of a place for extras. -/
def label? : Slot → Option Label
  | extras label => some label
  | _ => none

/-- The role of a virtual node. -/
def role? : Slot → Option VirtualRole
  | virtual role => some role
  | _ => none

def describe : Slot → String
  | extras label => "@" ++ label
  | token text => Text.backquote text
  | scalar field => field ++ "=text"
  | implied field => field ++ "=implied"
  | node field => field
  | optional field => field ++ "?"
  | list field (some separator) => field ++ "[" ++ separator ++ "]"
  | list field none => field ++ "[]"
  | virtual role => role.describe

end Slot

namespace Schedule

/-- The places for extras, in order. -/
def labels (s : Schedule) : List Label := s.filterMap Slot.label?

/-- The virtual nodes, in order. -/
def roles (s : Schedule) : List VirtualRole := s.filterMap Slot.role?

/-- The field that the virtual nodes of a schedule wrap: the
first one it fills. -/
def wrappedField? (s : Schedule) :
    Option String := (s.findSome? Slot.field?).map FieldDef.name

end Schedule

end Lossless
