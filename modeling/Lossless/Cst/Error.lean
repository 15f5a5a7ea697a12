import Lossless.Grammar.Shape
import Lossless.Schedule.Gap
import Lossless.Token.Basic

/-!
# Errors of concrete trees

What can go wrong while extras are attached to a tree, while a tree is written
out, or while a schema is put together.
-/

namespace Lossless

open Text (backquote quote)

/-- What a token stream should have gone on with. -/
inductive ExpectedToken where
  | text (text : String)
  | startingAt (offset : Nat)
  | endOfInput
  deriving DecidableEq, Repr

def ExpectedToken.describe : ExpectedToken → String
  | text t => backquote t
  | startingAt offset => "a token starting at offset " ++ toString offset
  | endOfInput => "the end of input"

/-- What a token stream goes on with. -/
inductive FoundToken where
  | token (text : String)
  | tokenAt (text : String) (span : Text.Span)
  | endOfInput
  deriving DecidableEq, Repr

def FoundToken.describe : FoundToken → String
  | token t => quote t
  | tokenAt t span => quote t ++ " at " ++ span.describe
  | endOfInput => "the end of input"

/-- What is wrong with a node of a concrete tree. -/
inductive Malformation where
  | scalarWithoutText (field : String)
  | badField (field : String)
  | noVirtual (role : VirtualRole)
  | unreachedExtras
  | childMissing
  | nestedVirtual (role : VirtualRole)
  | wrapsNoList (role : VirtualRole)
  deriving DecidableEq, Repr

def Malformation.describe : Malformation → String
  | scalarWithoutText field =>
    "scalar field " ++ backquote field ++ " must hold its source text"
  | badField field => "field " ++ backquote field ++ " is missing or malformed"
  | noVirtual role => "expected a " ++ role.describe ++ " virtual node"
  | unreachedExtras => "extras are attached where no gap reaches them"
  | childMissing => "a child node is missing"
  | nestedVirtual role => role.describe ++ " wraps another virtual node"
  | wrapsNoList role => role.describe ++ " must wrap a " ++ role.shape.name

/-- Why a schedule does not cover its owner. -/
inductive Incompleteness where
  | noSchedule
  | notCovered
  | nestedVirtual
  | wrapsNoField
  | wrapsShape (field : String) (expected : FieldShape)
  | wrapsNotOneField
  | notPlaced (field : String)
  | placedTwice (field : String)
  | placedAs (field : String) (placed declared : FieldShape)
  | undeclared
  | parentLabel (label : Label)
  | labelTwice (label : Label)
  | childOutOfPlace
  deriving DecidableEq, Repr

def Incompleteness.describe : Incompleteness → String
  | noSchedule => "no slot schedule is defined"
  | notCovered => "not covered by the schema"
  | nestedVirtual => "virtual nodes cannot nest"
  | wrapsNoField => "wraps no field"
  | wrapsShape field expected =>
    "wrapped field " ++ backquote field ++ " must be a " ++ expected.name
  | wrapsNotOneField => "must wrap exactly one field"
  | notPlaced field => "field " ++ backquote field ++ " is not placed"
  | placedTwice field => "field " ++ backquote field ++ " is placed twice"
  | placedAs field placed declared =>
    "field " ++ backquote field ++ " is placed as " ++ placed.name ++
      ", but declared as " ++ declared.name
  | undeclared => "places a field the grammar does not declare"
  | parentLabel label => "label " ++ backquote label ++ " belongs to the parent"
  | labelTwice label => "label " ++ backquote label ++ " is used twice"
  | childOutOfPlace => "child does not fit its slot"

/-- An error about a concrete tree or a schema. -/
inductive CstError where
  /-- A label that the records of an owner may not carry. -/
  | invalidLabel (owner : String) (label : Label)
  /-- A gap whose extras have no place; without a gap they stand in front of
  the first element. -/
  | unresolvableAnchor (owner : Owner) (schedule : Schedule) (gap : Option Gap)
  /-- Tokens that do not spell the tree. -/
  | tokenMismatch (expected : ExpectedToken) (found : FoundToken)
      (range : Text.Range)
  | malformed (owner : Owner) (fault : Malformation)
  | incomplete (owner : Owner) (fault : Incompleteness)
  | shape (error : ShapeError)
  deriving DecidableEq, Repr

namespace CstError

def message : CstError → String
  | invalidLabel owner label =>
    "label " ++ backquote label ++ " is not recognized for " ++ backquote owner
  | unresolvableAnchor owner schedule gap =>
    let place := match gap with
      | some gap => gap.describe schedule
      | none => "before the first element"
    "extras " ++ place ++ " in " ++ backquote owner.describe ++
      " have no anchor"
  | tokenMismatch expected found _ =>
    "token stream does not match the AST: expected " ++ expected.describe ++
      ", found " ++ found.describe
  | malformed owner fault =>
    "malformed CST at " ++ backquote owner.describe ++ ": " ++ fault.describe
  | incomplete owner fault =>
    "slot schedule of " ++ backquote owner.describe ++ " is incomplete: " ++
      fault.describe
  | shape error => error.message

/-- The place in the text that an error points at, if it points at one. -/
def range? : CstError → Option Text.Range
  | tokenMismatch _ _ range => some range
  | _ => none

end CstError

end Lossless
