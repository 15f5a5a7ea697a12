import Lossless.Schedule.Slot

/-!
# Elements and gaps

The elements of a node are the pieces that take up text: its tokens, its
children, the items of its lists and the separators between them. The extras of
a text lie in the gaps between neighbouring elements. An `Anchor` says where the
extras of a gap are kept: with the owner, or with the child on one side.
-/

namespace Lossless

/-- A piece of a node that takes up text; slots are counted from zero. The two
ends of the text bound the root only. -/
inductive Element where
  | start
  /-- A fixed token, or the token that spells a scalar. -/
  | token (slot : Nat)
  /-- A node or a virtual node. -/
  | child (slot : Nat)
  | item (slot index : Nat)
  /-- The separator behind an item. -/
  | separator (slot index : Nat)
  | stop
  deriving DecidableEq, Repr, Inhabited

namespace Element

def isChild : Element → Bool
  | child _ | item .. => true
  | _ => false

def isItem : Element → Bool
  | item .. => true
  | _ => false

/-- The slot that an element belongs to. -/
def slot? : Element → Option Nat
  | token slot | child slot | item slot _ | separator slot _ => some slot
  | start | stop => none

/-- How messages name an element of a schedule. -/
def describe (e : Element) (schedule : Schedule) : String :=
  match e, e.slot?.bind (schedule[·]?) with
  | start, _ => "the start of input"
  | stop, _ => "the end of input"
  | item _ index, some slot =>
    "item " ++ toString index ++ " of " ++ slot.describe
  | separator _ index, some (.list _ (some mark)) =>
    Text.backquote mark ++ " after item " ++ toString index
  | _, some slot => slot.describe
  | _, none => "an unknown slot"

end Element

/-- The stretch of text between two neighbouring elements of one owner. -/
structure Gap where
  left : Element
  right : Element
  deriving DecidableEq, Repr, Inhabited

namespace Gap

/-- The first slot behind the left element. -/
def low (g : Gap) : Nat :=
  match g.left.slot? with
  | some slot => slot + 1
  | none => 0

/-- The slot of the right element, or the end of the schedule;
never below `low`. -/
def high (g : Gap) (schedule : Schedule) : Nat :=
  max g.low (g.right.slot?.getD schedule.length)

/-- The labels of the owner that lie in the gap, in the order
of the schedule. -/
def labels (g : Gap) (schedule : Schedule) : List Label :=
  Schedule.labels ((schedule.take (g.high schedule)).drop g.low)

def describe (g : Gap) (schedule : Schedule) : String :=
  "between " ++ g.left.describe schedule ++ " and " ++ g.right.describe schedule

end Gap

/-- Whose record keeps the extras of a gap. -/
inductive AnchorTarget where
  | owner
  /-- The child on the left of the gap. -/
  | left
  /-- The child on the right of the gap. -/
  | right
  deriving DecidableEq, Repr, Inhabited

/-- Where the extras of a gap are kept. -/
structure Anchor where
  target : AnchorTarget
  label : Label
  deriving DecidableEq, Repr, Inhabited

end Lossless
