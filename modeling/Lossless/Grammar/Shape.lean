import Lossless.Ast.Json
import Lossless.Grammar.Basic

/-!
# Trees of a grammar

A tree belongs to a grammar when its root has the root type and every node has a
declared type, exactly the declared fields in order, and values of the declared
shapes. `check` finds the first node in the order of a walk that does not fit.
`readNode` reads a tree from a JSON value and keeps the declared fields only; it
is written member by member, so that what a JSON value can be read as is settled
by its parts alone.
-/

namespace Lossless

/-- How a tree or a JSON value fails to be of a grammar. -/
inductive ShapeError where
  | unexpectedRoot (expected found : String)
  | unknownType (type : String)
  | notANode (place : String)
  | missingField (type field : String)
  | fieldSet (type : String) (expected found : List String)
  | fieldShape (type field : String) (expected : FieldShape)
  deriving DecidableEq, Repr

open Text (backquote quoteList)

def ShapeError.message : ShapeError → String
  | unexpectedRoot expected found =>
    "expected a " ++ backquote expected ++ " root, found " ++ backquote found
  | unknownType type => "unknown node type " ++ backquote type
  | notANode place => "expected a node object with a string `type` at " ++ place
  | missingField type field =>
    backquote type ++ " is missing field " ++ backquote field
  | fieldSet type expected found =>
    backquote type ++ " has fields " ++ quoteList found ++ ", expected " ++
      quoteList expected
  | fieldShape type field expected =>
    "field " ++ backquote field ++ " of " ++ backquote type ++
      " has the wrong shape, expected " ++ expected.name

/-- Whether a value has a shape. -/
def FieldShape.fits : FieldShape → Ast.Value → Bool
  | .node, .node _ | .optional, .node _ | .optional, .absent | .list, .list _
  | .scalar, .scalar _ => true
  | _, _ => false

namespace Grammar

/-! ### Checking a tree -/

/-- Checks a node by itself. -/
def checkNode (g : Grammar) (t : Ast) : Except ShapeError Unit :=
  match g.fields? t.type with
  | none => .error (.unknownType t.type)
  | some defs =>
    let expected := defs.map FieldDef.name
    if t.fieldNames ≠ expected then
      .error (.fieldSet t.type expected t.fieldNames)
    else
      match (defs.zip t.fields).find? fun (d, f) => !d.shape.fits f.2 with
      | some (d, _) => .error (.fieldShape t.type d.name d.shape)
      | none => .ok ()

/-- Checks some nodes in order. -/
def checkNodes (g : Grammar) : List Ast → Except ShapeError Unit
  | [] => .ok ()
  | t :: ts =>
    match g.checkNode t with
    | .error e => .error e
    | .ok () => checkNodes g ts

/-- Checks a tree: its root type, then every node in the order of a walk. -/
def check (g : Grammar) (t : Ast) : Except ShapeError Unit :=
  if t.type ≠ g.root then .error (.unexpectedRoot g.root t.type)
  else g.checkNodes (Branching.nodes t)

/-! ### Reading a tree -/

/-- The member with a key that counts: the last one. -/
def member? {α : Type} (members : List (String × α))
    (key : String) : Option α :=
  members.foldl (fun found m => if m.1 = key then some m.2 else found) none

/-- What a JSON value gives for a field of a shape, at a place that an
error names: the value, the error of a node below, or nothing where the
shape does not fit. -/
abbrev Reading := FieldShape → String → Except ShapeError (Option Ast.Value)

/-- The value of a field from the reading of its member, if there is one. -/
def readField? (type : String) (d : FieldDef) (reading : Option Reading) :
    Except ShapeError (String × Ast.Value) :=
  match d.shape, reading with
  | .optional, none => .ok (d.name, .absent)
  | _, none => .error (.missingField type d.name)
  | shape, some read => do
    let place := "field " ++ backquote d.name ++ " of " ++ backquote type
    match ← read shape place with
    | some value => .ok (d.name, value)
    | none => .error (.fieldShape type d.name shape)

/-- A node of a type from the readings of an object's members. -/
def assemble (g : Grammar) (type : String)
    (readings : List (String × Reading)) : Except ShapeError Ast :=
  match g.fields? type with
  | none => .error (.unknownType type)
  | some defs => do
    let fields ← defs.mapM fun d => readField? type d (member? readings d.name)
    .ok (.node type fields)

/-- The string that an object's member is, if it is one. -/
def typeOf? (members : List (String × Json)) : Option String :=
  match member? members "type" with
  | some (.string type) => some type
  | _ => none

/-- A node from the members of an object and their readings. -/
def readObject (g : Grammar) (members : List (String × Json))
    (readings : List (String × Reading)) (place : String) :
    Except ShapeError Ast :=
  match typeOf? members with
  | some type => g.assemble type readings
  | none => .error (.notANode place)

mutual

/-- Reads a node from a JSON value at a place that errors name. -/
def readNode (g : Grammar) (value : Json) (place : String) :
    Except ShapeError Ast :=
  match value with
  | .object members => g.readObject members (readings g members) place
  | _ => .error (.notANode place)

/-- The readings of an object's members. -/
def readings (g : Grammar) (members : List (String × Json)) :
    List (String × Reading) :=
  match members with
  | [] => []
  | (key, value) :: members =>
    (key, fun shape place => readValue g value shape place) ::
      readings g members

/-- Reads a JSON value as a value of a shape. -/
def readValue (g : Grammar) (value : Json) (shape : FieldShape)
    (place : String) : Except ShapeError (Option Ast.Value) :=
  match shape with
  | .node =>
    match value with
    | .object members =>
      (g.readObject members (readings g members) place).map (some ∘ .node)
    | _ => .ok none
  | .optional =>
    match value with
    | .null => .ok (some .absent)
    | .object members =>
      (g.readObject members (readings g members) place).map (some ∘ .node)
    | _ => .ok none
  | .list =>
    match value with
    | .array items => (readItems g items place).map (some ∘ .list)
    | _ => .ok none
  | .scalar => .ok ((Scalar.ofJson? value).map .scalar)

/-- Reads nodes in order. -/
def readItems (g : Grammar) (items : List Json) (place : String) :
    Except ShapeError (List Ast) :=
  match items with
  | [] => .ok []
  | item :: items => do
    let first ← readNode g item place
    let others ← readItems g items place
    .ok (first :: others)

end

/-- Reads a tree. Members that the grammar does not declare are passed over. -/
def read (g : Grammar) (value : Json) : Except ShapeError Ast :=
  g.readNode value "the root"

end Grammar

end Lossless
