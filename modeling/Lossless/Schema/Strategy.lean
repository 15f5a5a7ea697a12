import Lossless.Extras.Basic

/-!
# Strategies

A strategy decides where extras are kept: it gives every owner a schedule and a
vocabulary, and every gap an anchor. Strategies are open: any functions will do,
and whether they fit a grammar is checked when a schema is made of them. Two
strategies are bundled. *Virtual nodes* has the same three labels everywhere and
adds virtual nodes for the lists in parentheses; *extended labels* has no
virtual nodes and names the positions inside each type of node.
-/

namespace Lossless

/-- A way to attach extras to trees. -/
structure Strategy where
  name : String
  /-- The schedule of an owner, if the strategy has one. -/
  schedule? : Owner → Option Schedule
  /-- The labels that the records of an owner with a schedule may carry. With an
  empty schedule these are the labels that all owners share. -/
  vocabulary : Owner → Schedule → Vocabulary
  /-- Where the extras of a gap of an owner are kept. -/
  anchor : Owner → Schedule → Gap → Except CstError Anchor

namespace Strategy

/-- The schedules of identifiers and literals, which the bundled
strategies share. -/
def leafSchedule? : String → Option Schedule
  | "Identifier" => some [.scalar "name"]
  | "Literal" => some [.scalar "raw", .implied "value"]
  | _ => none

/-- The owner's label that a choice picks among those in a gap, or the error
that there is none. -/
def ownLabel (pick : List Label → Option Label) (owner : Owner)
    (schedule : Schedule) (gap : Gap) : Except CstError Anchor :=
  match pick (gap.labels schedule) with
  | some label => .ok ⟨.owner, label⟩
  | none => .error (.unresolvableAnchor owner schedule (some gap))

namespace VirtualNodes

/-- A list between parentheses. -/
def parenthesized (field : String) : Schedule :=
  [.token "(", .extras .inside, .list field (some ","), .token ")"]

def schedule? : Owner → Option Schedule
  | .node type =>
    match type with
    | "Program" => some [.extras .inside, .list "body" none]
    | "FunctionDeclaration" =>
      some [.token "function", .node "id", .virtual .paramList, .node "body"]
    | "BlockStatement" =>
      some [.token "\x7b", .extras .inside, .list "body" none, .token "\x7d"]
    | "ReturnStatement" => some [.token "return", .optional "argument"]
    | "ExpressionStatement" => some [.node "expression"]
    | "EmptyStatement" => some [.token ";"]
    | "CallExpression" => some [.node "callee", .virtual .argumentList]
    | type => leafSchedule? type
  | .virtual .paramList => some (parenthesized "params")
  | .virtual .argumentList => some (parenthesized "arguments")

def vocabulary (owner : Owner) (_ : Schedule) : Vocabulary :=
  .ofList owner.describe [.before, .inside, .after]

/-- A gap belongs to the child behind it, or else to the child in front of it,
or else to the owner. -/
def anchor (owner : Owner) (schedule : Schedule) (gap : Gap) :
    Except CstError Anchor :=
  if gap.right.isChild then .ok ⟨.right, .before⟩
  else if gap.left.isChild then .ok ⟨.left, .after⟩
  else ownLabel List.head? owner schedule gap

end VirtualNodes

/-- The strategy with virtual nodes and the labels before, inside and after. -/
def virtualNodes : Strategy where
  name := "virtual-nodes"
  schedule? := VirtualNodes.schedule?
  vocabulary := VirtualNodes.vocabulary
  anchor := VirtualNodes.anchor

namespace ExtendedLabels

def schedule? : Owner → Option Schedule
  | .node type =>
    match type with
    | "Program" => some [.extras "insideBody", .list "body" none]
    | "FunctionDeclaration" =>
      some [.token "function", .extras "afterFunction", .node "id",
        .extras "afterName", .token "(", .extras "insideParams",
        .list "params" (some ","), .token ")", .extras "afterParams",
        .node "body"]
    | "BlockStatement" =>
      some [.token "\x7b", .extras "insideBody", .list "body" none,
        .token "\x7d"]
    | "ReturnStatement" =>
      some [.token "return", .extras "afterReturn", .optional "argument"]
    | "ExpressionStatement" => some [.node "expression"]
    | "EmptyStatement" => some [.token ";"]
    | "CallExpression" =>
      some [.node "callee", .extras "afterCallee", .token "(",
        .extras "insideArguments", .list "arguments" (some ","), .token ")"]
    | type => leafSchedule? type
  | .virtual _ => none

def vocabulary (owner : Owner) (schedule : Schedule) : Vocabulary :=
  .ofList owner.describe ([.before, .after] ++ schedule.labels)

/-- A gap belongs to the list item behind it, or else to the list item in front
of it, or else to the owner under the last label in the gap. -/
def anchor (owner : Owner) (schedule : Schedule) (gap : Gap) :
    Except CstError Anchor :=
  if gap.right.isItem then .ok ⟨.right, .before⟩
  else if gap.left.isItem then .ok ⟨.left, .after⟩
  else ownLabel List.getLast? owner schedule gap

end ExtendedLabels

/-- The strategy with labels for the positions in each type of node. -/
def extendedLabels : Strategy where
  name := "extended-labels"
  schedule? := ExtendedLabels.schedule?
  vocabulary := ExtendedLabels.vocabulary
  anchor := ExtendedLabels.anchor

/-- The bundled strategies. -/
def bundled : List Strategy := [virtualNodes, extendedLabels]

end Strategy

end Lossless
