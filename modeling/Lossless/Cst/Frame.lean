import Lossless.Cst.Basic
import Lossless.Schema.Basic

/-!
# Nodes under construction

A frame is a node or virtual node of which some slots have been gone through. A
run of extras in front of an element lies in the gap between this element and
the one before it, and is stored where the schema's strategy anchors the gap: a
run for the owner goes into its record, a run for the child on the left into the
record of that child, which has been built, and a run for the child on the right
is handed on to it.
-/

namespace Lossless

namespace Cst

namespace Build

/-! ### The tokens -/

/-- Checks that tokens stand one behind the other from an offset on, each as
long as its text. -/
def checkTiling (offset : Nat) : List SourceToken → Except CstError Unit
  | [] => .ok ()
  | t :: ts =>
    if t.range.start = offset ∧ t.text.utf8ByteSize = t.range.length then
      checkTiling t.range.stop ts
    else .error (.tokenMismatch (.startingAt offset)
      (.tokenAt t.text t.token.span) t.range)

/-- The offset of the end of a token stream. -/
def streamEnd (tokens : List SourceToken) : Nat :=
  match tokens.getLast? with
  | some t => t.range.stop
  | none => 0

/-- The error of finding the next token, or the end, where something
else was expected. -/
def mismatch (streamEnd : Nat) (expected : ExpectedToken) :
    List SourceToken → CstError
  | t :: _ => .tokenMismatch expected (.token t.text) t.range
  | [] => .tokenMismatch expected .endOfInput (.empty streamEnd)

/-! ### A node under construction -/

/-- What stays the same while a tree is built. -/
structure Context where
  schema : Schema
  streamEnd : Nat

/-- A run of extras that a parent hands to a child. -/
structure Handed where
  label : Label
  tokens : List Token

/-- A node or virtual node under construction. -/
structure Frame where
  owner : Owner
  schedule : Schedule
  extras : Extras
  /-- The fields filled so far, in the order of the schedule. -/
  fields : List (String × Value)
  /-- The last element. -/
  left : Option Element
  /-- The field that holds the last element, if it is a child: as its value or
  as its last item. -/
  child : Option String

namespace Frame

/-- Goes past an element that is no child. -/
def pass (f : Frame) (e : Element) : Frame :=
  { f with left := some e, child := none }

/-- Fills a field without going past an element. -/
def fill (f : Frame) (name : String) (value : Value) : Frame :=
  { f with fields := f.fields ++ [(name, value)] }

/-- Fills a field with a child and goes past it. -/
def addChild (f : Frame) (e : Element) (name : String)
    (value : Value) : Frame :=
  { f.fill name value with left := some e, child := some name }

/-- A field with one more item, if it holds a list. -/
def addItemTo (item : Cst) : Value → Value
  | .list items => .list (items ++ [item])
  | value => value

/-- Changes what a field holds. -/
def update (f : Frame) (name : String) (change : Value → Value) : Frame :=
  { f with fields := f.fields.map fun field =>
      if field.1 = name then (field.1, change field.2) else field }

/-- Adds an item to a list and goes past it. -/
def addItem (f : Frame) (e : Element) (name : String) (item : Cst) : Frame :=
  { f.update name (addItemTo item) with left := some e, child := some name }

end Frame

/-- The record of the child that a field holds last, and whose record it is. -/
def lastRecord? : Value → Option (Owner × Extras)
  | .node child => some (.node child.type, child.extras)
  | .list items => items.getLast?.map fun item => (.node item.type, item.extras)
  | .virtual role _ extras => some (.virtual role, extras)
  | .absent | .scalar _ => none

/-- A node with another record. -/
def withExtras (extras : Extras) : Cst → Cst
  | .node type fields _ => .node type fields extras

/-- A field with another record for the child that it holds last. -/
def withLastRecord (extras : Extras) : Value → Value
  | .node child => .node (withExtras extras child)
  | .list items => .list (items.modify (items.length - 1) (withExtras extras))
  | .virtual role wrapped _ => .virtual role wrapped extras
  | value => value

/-- A record with a run set under a label of its owner's vocabulary. -/
def setExtras (s : Schema) (owner : Owner) (extras : Extras) (label : Label)
    (tokens : List Token) : Except CstError Extras := do
  extras.set (← s.vocabulary owner) label tokens

/-- Stores a run with the child on the left. -/
def storeLeft (c : Context) (f : Frame) (gap : Gap) (label : Label)
    (tokens : List Token) : Except CstError Frame :=
  let unresolvable := CstError.unresolvableAnchor f.owner f.schedule (some gap)
  match f.child with
  | none => .error unresolvable
  | some name =>
    match (f.fields.lookup name).bind lastRecord? with
    | none => .error unresolvable
    | some (owner, record) => do
      let record ← setExtras c.schema owner record label tokens
      .ok (f.update name (withLastRecord record))

/-- Takes the extras in front of an element and stores them. Those for the
element itself are returned, to be handed to the child. -/
def gap (c : Context) (f : Frame) (right : Element)
    (tokens : List SourceToken) :
    Except CstError (Frame × Option Handed × List SourceToken) :=
  let run := (tokens.takeWhile SourceToken.isExtra).map SourceToken.token
  let rest := tokens.dropWhile SourceToken.isExtra
  if run.isEmpty then .ok (f, none, tokens)
  else
    match f.left with
    | none => .error (.unresolvableAnchor f.owner f.schedule none)
    | some left => do
      let gap : Gap := ⟨left, right⟩
      let anchor ← c.schema.resolve f.owner f.schedule gap
      match anchor.target with
      | .owner =>
        let extras ← setExtras c.schema f.owner f.extras anchor.label run
        .ok ({ f with extras := extras }, none, rest)
      | .right =>
        if right.isChild then .ok (f, some ⟨anchor.label, run⟩, rest)
        else .error (.unresolvableAnchor f.owner f.schedule (some gap))
      | .left =>
        if left.isChild then do
          .ok (← storeLeft c f gap anchor.label run, none, rest)
        else .error (.unresolvableAnchor f.owner f.schedule (some gap))

/-- Takes the extras in front of a token, and the token, which must have
the given text. -/
def token (c : Context) (f : Frame) (e : Element) (text : String)
    (tokens : List SourceToken) :
    Except CstError (Frame × List SourceToken) := do
  let (f, _, tokens) ← gap c f e tokens
  match tokens with
  | t :: rest =>
    if t.text = text then .ok (f.pass e, rest)
    else .error (mismatch c.streamEnd (.text text) tokens)
  | [] => .error (mismatch c.streamEnd (.text text) tokens)

end Build

end Cst

end Lossless
