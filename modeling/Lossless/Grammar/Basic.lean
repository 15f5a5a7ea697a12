import Lossless.Json.Basic
import Lossless.Json.Reader

/-!
# Grammar tables

A grammar names the root type and lists, for every node type, the fields of its
nodes in order with the shape of what they hold. The table is data: nothing that
works with trees knows the types by name. A table is read from JSON text and
checked once: the root is one of its types, no type declares a field twice, and
no field is called `type`, which a node's JSON object needs for itself.
-/

namespace Lossless

/-- What a field may hold. -/
inductive FieldShape where
  /-- Exactly one node. -/
  | node
  /-- One node or none. -/
  | optional
  /-- Any number of nodes in order. -/
  | list
  /-- A value that is no node. -/
  | scalar
  deriving DecidableEq, Repr, Inhabited

namespace FieldShape

def name : FieldShape → String
  | node => "node"
  | optional => "optional"
  | list => "list"
  | scalar => "scalar"

def all : List FieldShape := [node, optional, list, scalar]

/-- The shape with a name. -/
def ofName? (s : String) :
    Option FieldShape := all.find? fun shape => shape.name == s

end FieldShape

/-- A field of a node type. -/
structure FieldDef where
  name : String
  shape : FieldShape
  deriving DecidableEq, Repr

/-- The node types of a language, each with its fields. -/
structure Grammar where
  version : String
  root : String
  types : List (String × List FieldDef)
  deriving DecidableEq, Repr

/-- Why a text is no grammar table. -/
inductive GrammarError where
  | notATable
  | unknownRoot (root : String)
  | duplicateField (type field : String)
  | reservedField (type : String)
  deriving DecidableEq, Repr

def GrammarError.message : GrammarError → String
  | notATable => "malformed grammar table"
  | unknownRoot root =>
    "root type " ++ Text.backquote root ++ " is not defined by the grammar"
  | duplicateField type field =>
    Text.backquote type ++ " declares field " ++ Text.backquote field ++
      " more than once"
  | reservedField type =>
    Text.backquote type ++ " uses the reserved field name `type`"

namespace Grammar

/-- The fields of a node type, if the grammar defines it. -/
def fields? (g : Grammar) (type : String) : Option (List FieldDef) :=
  g.types.lookup type

/-! ### Checking a table -/

/-- The fault of a type's fields, if there is one; `earlier` are the names
already declared. -/
def fieldFault? (type : String) (earlier : List String) :
    List FieldDef → Option GrammarError
  | [] => none
  | f :: fs =>
    if f.name = "type" then some (.reservedField type)
    else if f.name ∈ earlier then some (.duplicateField type f.name)
    else fieldFault? type (earlier ++ [f.name]) fs

/-- The first fault of a table, if there is one: the root first, then the
types in order. -/
def fault? (g : Grammar) : Option GrammarError :=
  if (g.fields? g.root).isNone then some (.unknownRoot g.root)
  else g.types.findSome? fun (type, fields) => fieldFault? type [] fields

/-- The table itself, if it has no fault. -/
def validate (g : Grammar) : Except GrammarError Grammar :=
  match g.fault? with
  | some e => .error e
  | none => .ok g

/-! ### Reading a table -/

open Json (Reader)

/-- The value of a member that must stand exactly once. -/
def once {α β : Type} (pick : α → Option β)
    (members : List (String × α)) : Option β :=
  match members.filterMap (pick ·.2) with
  | [value] => some value
  | _ => none

/-- A shape: its name, or an object with that name as its one key and
null as its value. -/
def readShape : Reader FieldShape := do
  if (← Reader.peek?) == some '\x7b' then
    match ← Reader.object (κ := String) Reader.string fun _ =>
      Reader.word "null" with
    | [(name, _)] => FieldShape.ofName? name
    | _ => failure
  else FieldShape.ofName? (← Reader.string)

/-- What a member of a field's object holds. -/
inductive FieldMember where
  | name (value : String)
  | shape (value : FieldShape)
  | other

/-- A field: an object with a name and a shape, or an array of
just these two. -/
def readField : Reader FieldDef := do
  if (← Reader.peek?) == some '[' then
    Reader.mark '['
    let name ← Reader.string
    Reader.mark ','
    let shape ← readShape
    Reader.mark ']'
    return ⟨name, shape⟩
  else
    let members ← Reader.object Reader.string fun key =>
      if key == "name" then FieldMember.name <$> Reader.string
      else if key == "shape" then FieldMember.shape <$> readShape
      else do
        Reader.skip
        return .other
    let name ← once (fun | .name value => some value | _ => none) members
    let shape ← once (fun | .shape value => some value | _ => none) members
    return ⟨name, shape⟩

/-- Puts a type into a list of types. One that is there keeps its place and gets
the new fields. -/
def insertType (types : List (String × List FieldDef)) (type : String)
    (fields : List FieldDef) : List (String × List FieldDef) :=
  if types.any (·.1 == type) then
    types.map fun t => if t.1 == type then (type, fields) else t
  else types ++ [(type, fields)]

/-- The types of a table. -/
def readTypes : Reader (List (String × List FieldDef)) := do
  let members ← Reader.object Reader.string fun _ => Reader.array readField
  return members.foldl (fun types t => insertType types t.1 t.2) []

/-- What a member of a table's object holds. -/
inductive TableMember where
  | version (value : String)
  | root (value : String)
  | types (value : List (String × List FieldDef))
  | other

/-- A table: an object with version, root and types, or an array of
just these three. -/
def readTable : Reader Grammar := do
  if (← Reader.peek?) == some '[' then
    Reader.mark '['
    let version ← Reader.string
    Reader.mark ','
    let root ← Reader.string
    Reader.mark ','
    let types ← readTypes
    Reader.mark ']'
    return ⟨version, root, types⟩
  else
    let members ← Reader.object Reader.string fun key =>
      if key == "version" then TableMember.version <$> Reader.string
      else if key == "root" then TableMember.root <$> Reader.string
      else if key == "types" then TableMember.types <$> readTypes
      else do
        Reader.skip
        return .other
    let version ← once (fun | .version value => some value | _ => none) members
    let root ← once (fun | .root value => some value | _ => none) members
    let types ← once (fun | .types value => some value | _ => none) members
    return ⟨version, root, types⟩

/-- Reads and checks a table. -/
def ofText (text : String) : Except GrammarError Grammar :=
  match readTable.run? text with
  | some g => g.validate
  | none => .error .notATable

/-! ### Writing a table -/

def fieldToJson (f : FieldDef) : Json :=
  .object [("name", .string f.name), ("shape", .string f.shape.name)]

/-- A table as JSON. -/
def toJson (g : Grammar) : Json :=
  .object [("version", .string g.version), ("root", .string g.root),
    ("types", .object (g.types.map fun (type, fields) =>
      (type, .array (fields.map fieldToJson))))]

/-! ### The bundled table -/

/-- Function declarations with the statements and expressions they need. -/
def functions : Grammar where
  version := "es5-functions"
  root := "Program"
  types :=
    [("Program", [⟨"body", .list⟩]),
      ("FunctionDeclaration",
        [⟨"id", .node⟩, ⟨"params", .list⟩, ⟨"body", .node⟩]),
      ("BlockStatement", [⟨"body", .list⟩]),
      ("ReturnStatement", [⟨"argument", .optional⟩]),
      ("ExpressionStatement", [⟨"expression", .node⟩]),
      ("EmptyStatement", []),
      ("CallExpression", [⟨"callee", .node⟩, ⟨"arguments", .list⟩]),
      ("Identifier", [⟨"name", .scalar⟩]),
      ("Literal", [⟨"value", .scalar⟩, ⟨"raw", .scalar⟩])]

theorem validate_functions : functions.validate = .ok functions := by
  have h : functions.fault? = none := by decide
  rw [validate, h]

end Grammar

end Lossless
