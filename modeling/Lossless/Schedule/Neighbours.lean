import Lossless.Schedule.Gap

/-!
# Neighbouring elements

`Schedule.gaps` lists the pairs of elements that can be neighbours in a node of
a schedule. A list is looked at with no item, one item and two, which brings up
every kind of neighbours that a longer list has.
-/

namespace Lossless

namespace Schedule

/-- The first and the last element of a slot, and whether the slot may have no
element at all. -/
structure Extent where
  first : Element
  last : Element
  mayBeEmpty : Bool
  deriving DecidableEq, Repr

namespace Extent

/-- One element that is always there. -/
def one (e : Element) : Extent := ⟨e, e, false⟩

/-- One element that may be missing. -/
def oneOrNone (e : Element) : Extent := ⟨e, e, true⟩

/-- The extent of a slot; places for extras and scalars without token have none.
The items of a list all count as the first one. -/
def ofSlot? (index : Nat) : Slot → Option Extent
  | .extras _ | .implied _ => none
  | .token _ | .scalar _ => some (one (.token index))
  | .node _ | .virtual _ => some (one (.child index))
  | .optional _ => some (oneOrNone (.child index))
  | .list .. => some (oneOrNone (.item index 0))

/-- The extents of slots whose first one has an index. -/
def ofSlots (index : Nat) : Schedule → List Extent
  | [] => []
  | slot :: slots => (ofSlot? index slot).toList ++ ofSlots (index + 1) slots

/-- The gaps from an element to the extents that can come next. -/
def gapsFrom (left : Element) : List Extent → List Gap
  | [] => []
  | e :: es => ⟨left, e.first⟩ :: if e.mayBeEmpty then gapsFrom left es else []

/-- The gaps between the extents of a list. -/
def gapsBetween : List Extent → List Gap
  | [] => []
  | e :: es => gapsFrom e.last es ++ gapsBetween es

end Extent

/-- The gaps between the first two items of the list in a slot. -/
def gapsInSlot (index : Nat) : Slot → List Gap
  | .list _ (some _) =>
    [⟨.item index 0, .separator index 0⟩, ⟨.separator index 0, .item index 1⟩]
  | .list _ none => [⟨.item index 0, .item index 1⟩]
  | _ => []

/-- The gaps inside the lists of a schedule whose first slot has an index. -/
def gapsInLists (index : Nat) : Schedule → List Gap
  | [] => []
  | slot :: slots => gapsInSlot index slot ++ gapsInLists (index + 1) slots

/-- The gaps that can occur in a node of a schedule. The root has the two ends
of the text as elements. -/
def gaps (s : Schedule) (root : Bool) : List Gap :=
  let ends (e : Element) : List Extent := if root then [.one e] else []
  gapsInLists 0 s ++
    Extent.gapsBetween (ends .start ++ Extent.ofSlots 0 s ++ ends .stop)

end Schedule

end Lossless
