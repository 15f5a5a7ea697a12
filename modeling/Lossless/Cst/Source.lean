import Lossless.Cst.Basic
import Lossless.Schema.Basic

/-!
# Writing a concrete tree out

The source of a concrete tree is written along the schedules: a node's elements
in order, and in each gap between two of them the extras that the gap's anchor
leads to. `pieces` lists what is written, leaf by leaf and run by run; `source`
joins the texts. A tree whose records hold labels that no gap leads to has no
source, because its extras would be lost.
-/

namespace Lossless

namespace Cst

/-- What is written at a time: a token that the tree itself spells, or
a run of extras. -/
inductive Piece where
  | leaf (text : String)
  | extras (tokens : List Token)
  deriving DecidableEq, Repr

namespace Piece

def isExtras : Piece → Bool
  | extras _ => true
  | leaf _ => false

/-- The text of a piece. -/
def text : Piece → String
  | leaf t => t
  | extras tokens => String.join (tokens.map Token.text)

end Piece

namespace Write

/-- A node or virtual node below another one: its record, and its pieces or
why it has none. -/
structure Inner where
  extras : Extras
  pieces : Except CstError (List Piece)

/-- What a field holds, as far as writing goes. -/
inductive Part where
  | node (inner : Inner)
  | absent
  | list (items : List Inner)
  | scalar (value : Scalar)
  | virtual (role : VirtualRole) (inner : Inner)

/-- What a schedule finds its fields in: the fields of a node, or what a
virtual node wraps. -/
inductive Origin where
  | fields (parts : List (String × Part))
  | wrapped (part : Option Part)

namespace Origin

/-- The part that a field of a schedule means. Every field of a virtual node
means what it wraps. -/
def part? : Origin → String → Option Part
  | fields parts, name => parts.lookup name
  | wrapped part, _ => part

/-- The items of a list field. A virtual node that wraps nothing stands
for an empty list. -/
def items? (o : Origin) (name : String) : Option (List Inner) :=
  match o, o.part? name with
  | _, some (.list items) => some items
  | wrapped _, none => some []
  | _, _ => none

/-- The first virtual node of a role in the fields of a node. -/
def virtual? : Origin → VirtualRole → Option Inner
  | fields parts, role => parts.findSome? fun
    | (_, .virtual role' inner) => if role' = role then some inner else none
    | _ => none
  | wrapped _, _ => none

end Origin

/-- What an element writes. -/
inductive Content where
  | text (text : String)
  | inner (inner : Inner)

/-- The record of the child that an element is. -/
def Content.extras? : Content → Option Extras
  | text _ => none
  | inner i => some i.extras

/-- The items of a list and the separators between them, from an item on. -/
def itemElements (slot : Nat) (separator : Option String) (index : Nat) :
    List Inner → List (Element × Content)
  | [] => []
  | item :: items =>
    (match separator, index with
      | some text, previous + 1 => [(.separator slot previous, .text text)]
      | _, _ => []) ++
    (.item slot index, .inner item) ::
      itemElements slot separator (index + 1) items

/-- The elements of one slot. -/
def slotElements (owner : Owner) (origin : Origin) (index : Nat) (slot : Slot) :
    Except CstError (List (Element × Content)) :=
  match slot with
  | .extras _ | .implied _ => .ok []
  | .token text => .ok [(.token index, .text text)]
  | .scalar field =>
    match origin.part? field with
    | some (.scalar (.string text)) => .ok [(.token index, .text text)]
    | _ => .error (.malformed owner (.badField field))
  | .node field =>
    match origin.part? field with
    | some (.node inner) => .ok [(.child index, .inner inner)]
    | _ => .error (.malformed owner (.badField field))
  | .optional field =>
    match origin.part? field with
    | some (.node inner) => .ok [(.child index, .inner inner)]
    | some .absent => .ok []
    | _ => .error (.malformed owner (.badField field))
  | .list field separator =>
    match origin.items? field with
    | some items => .ok (itemElements index separator 0 items)
    | none => .error (.malformed owner (.badField field))
  | .virtual role =>
    match origin.virtual? role with
    | some inner => .ok [(.child index, .inner inner)]
    | none => .error (.malformed owner (.noVirtual role))

/-- The elements of a schedule whose first slot has an index. -/
def elements (owner : Owner) (origin : Origin) (index : Nat) :
    Schedule → Except CstError (List (Element × Content))
  | [] => .ok []
  | slot :: slots => do
    let here ← slotElements owner origin index slot
    let further ← elements owner origin (index + 1) slots
    .ok (here ++ further)

/-- The element in front of a gap, with its record if it is a child. -/
structure Left where
  element : Element
  extras? : Option Extras

/-- The run of extras in a gap, read from the record that the gap's
anchor leads to. -/
def gap (s : Schema) (owner : Owner) (schedule : Schedule) (own : Extras)
    (left right : Left) : Except CstError (List Piece) := do
  let anchor ← s.resolve owner schedule ⟨left.element, right.element⟩
  let record? := match anchor.target with
    | .owner => some own
    | .left => left.extras?
    | .right => right.extras?
  let tokens := match record? with
    | some record => record.get anchor.label
    | none => []
  .ok (if tokens.isEmpty then [] else [.extras tokens])

/-- The pieces of some elements and of the gaps between them, with what
stands in front of them. Behind the last element of the root comes a gap to
the end of the text. -/
def along (s : Schema) (owner : Owner) (schedule : Schedule) (own : Extras)
    (root : Bool) (left : Option Left) :
    List (Element × Content) → Except CstError (List Piece)
  | [] =>
    match root, left with
    | true, some left => gap s owner schedule own left ⟨.stop, none⟩
    | _, _ => .ok []
  | (element, content) :: further => do
    let here : Left := ⟨element, content.extras?⟩
    let between ← match left with
      | some left => gap s owner schedule own left here
      | none => .ok []
    let inside ← match content with
      | .text text => .ok [.leaf text]
      | .inner inner => inner.pieces
    let rest ← along s owner schedule own root (some here) further
    .ok (between ++ (inside ++ rest))

/-- The pieces of a node or virtual node with a record of its own. -/
def frame (s : Schema) (owner : Owner) (own : Extras) (root : Bool)
    (origin : Origin) : Except CstError (List Piece) := do
  let schedule ← s.schedule owner
  let elements ← elements owner origin 0 schedule
  along s owner schedule own root
    (if root then some ⟨.start, none⟩ else none) elements

mutual

/-- The pieces of a tree, which may be the whole one. -/
def node (s : Schema) (root : Bool) : Cst → Except CstError (List Piece)
  | .node type fields extras =>
    frame s (.node type) extras root (.fields (parts s fields))

/-- The parts of the fields of a node. -/
def parts (s : Schema) : List (String × Value) → List (String × Part)
  | [] => []
  | (name, value) :: fields => (name, part s value) :: parts s fields

/-- The part of a field. -/
def part (s : Schema) : Value → Part
  | .node child => .node ⟨child.extras, node s false child⟩
  | .absent => .absent
  | .list items => .list (inners s items)
  | .scalar value => .scalar value
  | .virtual role (some value) extras =>
    .virtual role ⟨extras,
      frame s (.virtual role) extras false (.wrapped (some (part s value)))⟩
  | .virtual role none extras =>
    .virtual role ⟨extras, frame s (.virtual role) extras false (.wrapped none)⟩

/-- The items of a list. -/
def inners (s : Schema) : List Cst → List Inner
  | [] => []
  | item :: items => ⟨item.extras, node s false item⟩ :: inners s items

end

end Write

/-- What is written for a whole tree, piece by piece. -/
def pieces (s : Schema) (t : Cst) : Except CstError (List Piece) :=
  Write.node s true t

/-- The source text of a tree, if every label in it is written. -/
def source (s : Schema) (t : Cst) : Except CstError String := do
  let pieces ← t.pieces s
  if pieces.countP Piece.isExtras = t.labelCount then
    .ok (String.join (pieces.map Piece.text))
  else .error (.malformed (.node t.type) .unreachedExtras)

end Cst

end Lossless
