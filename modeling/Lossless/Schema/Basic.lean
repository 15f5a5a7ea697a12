import Lossless.Schedule.Neighbours
import Lossless.Schema.Strategy

/-!
# Schemas

A schema is a grammar with a strategy that has been checked to cover it. Every
field of a type is placed once and with its shape, a virtual node wraps one
field and no further virtual node, every label of a schedule stands once and
belongs to the vocabulary, and every gap that can occur has an anchor: with
the owner under one of its labels, or with a child beside the gap under a
label that all owners share.
-/

namespace Lossless

/-- What a schema knows of an owner. -/
structure SchemaEntry where
  schedule : Schedule
  vocabulary : Vocabulary
  deriving DecidableEq, Repr, Inhabited

/-- A grammar and a strategy that covers it. -/
structure Schema where
  grammar : Grammar
  strategy : Strategy
  /-- The node types in the order of the grammar. -/
  nodes : List (String × SchemaEntry)
  /-- The virtual nodes in the order in which schedules first name them. -/
  roles : List (VirtualRole × SchemaEntry)

namespace Schema

/-! ### Checking a strategy -/

/-- Checks the labels of a schedule: none belongs to the parent, none stands
twice, and all are in the vocabulary. `earlier` are the labels already seen. -/
def checkLabels (owner : Owner) (vocabulary : Vocabulary)
    (earlier : List Label) : List Label → Except CstError Unit
  | [] => .ok ()
  | label :: labels =>
    if label = .before ∨ label = .after then
      .error (.incomplete owner (.parentLabel label))
    else if label ∈ earlier then .error (.incomplete owner (.labelTwice label))
    else if !vocabulary.contains label then
      .error (.invalidLabel owner.describe label)
    else checkLabels owner vocabulary (earlier ++ [label]) labels

/-- Checks the anchor of a gap: a child that keeps the extras stands beside
the gap, and the label belongs to the owner's vocabulary or, with a child, to
the shared one. -/
def checkAnchor (owner : Owner) (schedule : Schedule)
    (vocabulary shared : Vocabulary) (gap : Gap) (anchor : Anchor) :
    Except CstError Unit :=
  let (valid, labels) := match anchor.target with
    | .owner => (true, vocabulary)
    | .left => (gap.left.isChild, shared)
    | .right => (gap.right.isChild, shared)
  if !valid then .error (.unresolvableAnchor owner schedule (some gap))
  else if !labels.contains anchor.label then
    .error (.invalidLabel owner.describe anchor.label)
  else .ok ()

/-- Checks the anchors of some gaps. -/
def checkGaps (strategy : Strategy) (owner : Owner) (schedule : Schedule) :
    List Gap → Except CstError Unit
  | [] => .ok ()
  | gap :: gaps => do
    let anchor ← strategy.anchor owner schedule gap
    checkAnchor owner schedule (strategy.vocabulary owner schedule)
      (strategy.vocabulary owner []) gap anchor
    checkGaps strategy owner schedule gaps

/-- The entry of an owner with a schedule, which may be the root. -/
def entry (strategy : Strategy) (owner : Owner) (schedule : Schedule)
    (root : Bool) : Except CstError SchemaEntry := do
  let vocabulary := strategy.vocabulary owner schedule
  checkLabels owner vocabulary [] schedule.labels
  checkGaps strategy owner schedule (schedule.gaps root)
  .ok ⟨schedule, vocabulary⟩

/-- The schedule of an owner, which must have one. -/
def scheduleOf (strategy : Strategy) (owner : Owner) :
    Except CstError Schedule :=
  match strategy.schedule? owner with
  | some schedule => .ok schedule
  | none => .error (.incomplete owner .noSchedule)

/-- The entry of a role. Its schedule has no virtual node and fills one field,
of the role's shape. -/
def roleEntry (strategy : Strategy) (role : VirtualRole) :
    Except CstError SchemaEntry := do
  let owner := Owner.virtual role
  let schedule ← scheduleOf strategy owner
  if !schedule.roles.isEmpty then .error (.incomplete owner .nestedVirtual)
  else
    match schedule.filterMap Slot.field? with
    | [field] =>
      if field.shape = role.shape then entry strategy owner schedule false
      else .error (.incomplete owner (.wrapsShape field.name role.shape))
    | _ => .error (.incomplete owner .wrapsNotOneField)

/-- The entries of the roles that some schedules name, with the one of
a further role. -/
def addRole (strategy : Strategy) (roles : List (VirtualRole × SchemaEntry))
    (role : VirtualRole) : Except CstError (List (VirtualRole × SchemaEntry)) :=
  match roles.lookup role with
  | some _ => .ok roles
  | none => do .ok (roles ++ [(role, ← roleEntry strategy role)])

/-- The field that the virtual nodes of a role wrap. -/
def wrappedField (roles : List (VirtualRole × SchemaEntry))
    (role : VirtualRole) : Except CstError FieldDef :=
  match (roles.lookup role).bind fun entry => entry.schedule.wrappedField? with
  | some field => .ok ⟨field, role.shape⟩
  | none => .error (.incomplete (.virtual role) .wrapsNoField)

/-- The fields that a schedule places, in order, and the entries of the roles
named so far. A virtual node places the field that it wraps. -/
def place (strategy : Strategy) (roles : List (VirtualRole × SchemaEntry)) :
    Schedule →
      Except CstError (List FieldDef × List (VirtualRole × SchemaEntry))
  | [] => .ok ([], roles)
  | .virtual role :: slots => do
    let roles ← addRole strategy roles role
    let field ← wrappedField roles role
    let (fields, roles) ← place strategy roles slots
    .ok (field :: fields, roles)
  | slot :: slots => do
    let (fields, roles) ← place strategy roles slots
    .ok (slot.field?.toList ++ fields, roles)

/-- What is wrong with the place of a declared field, if anything is. -/
def placeFault? (placed : List FieldDef) (declared : FieldDef) :
    Option Incompleteness :=
  match placed.filter (·.name = declared.name) with
  | [] => some (.notPlaced declared.name)
  | [p] => if p.shape = declared.shape then none
    else some (.placedAs declared.name p.shape declared.shape)
  | _ => some (.placedTwice declared.name)

/-- What is wrong with the places of the declared fields, if anything is. -/
def placesFault? (placed declared : List FieldDef) : Option Incompleteness :=
  match declared.findSome? (placeFault? placed) with
  | some fault => some fault
  | none => if placed.length = declared.length then none else some .undeclared

/-- The entries of some types and of the roles that their schedules name. -/
def entries (grammar : Grammar) (strategy : Strategy)
    (roles : List (VirtualRole × SchemaEntry)) :
    List (String × List FieldDef) →
      Except CstError
        (List (String × SchemaEntry) × List (VirtualRole × SchemaEntry))
  | [] => .ok ([], roles)
  | (type, declared) :: types => do
    let owner := Owner.node type
    let schedule ← scheduleOf strategy owner
    let (placed, roles) ← place strategy roles schedule
    match placesFault? placed declared with
    | some fault => .error (.incomplete owner fault)
    | none =>
      let first ← entry strategy owner schedule (type = grammar.root)
      let (others, roles) ← entries grammar strategy roles types
      .ok ((type, first) :: others, roles)

/-- The schema of a grammar and a strategy, if the strategy
covers the grammar. -/
def make (grammar : Grammar) (strategy : Strategy) :
    Except CstError Schema := do
  let (nodes, roles) ← entries grammar strategy [] grammar.types
  .ok ⟨grammar, strategy, nodes, roles⟩

/-! ### Looking things up -/

/-- What a schema knows of an owner, if it covers it. -/
def entry? (s : Schema) : Owner → Option SchemaEntry
  | .node type => s.nodes.lookup type
  | .virtual role => s.roles.lookup role

/-- The entry of an owner, which must be covered. -/
def entryOf (s : Schema) (owner : Owner) : Except CstError SchemaEntry :=
  match s.entry? owner with
  | some entry => .ok entry
  | none => .error (.incomplete owner .notCovered)

/-- The schedule of an owner. -/
def schedule (s : Schema) (owner : Owner) : Except CstError Schedule :=
  (s.entryOf owner).map SchemaEntry.schedule

/-- The vocabulary of an owner. -/
def vocabulary (s : Schema) (owner : Owner) : Except CstError Vocabulary :=
  (s.entryOf owner).map SchemaEntry.vocabulary

/-- Where the extras of a gap are kept. -/
def resolve (s : Schema) (owner : Owner) (schedule : Schedule) (gap : Gap) :
    Except CstError Anchor :=
  s.strategy.anchor owner schedule gap

end Schema

end Lossless
