import Lossless.Schema.Basic

/-!
# Label tables

The label table of a schema publishes what a reader of concrete trees has
to know: for every owner the labels of its records and its schedule, for a
node type the virtual nodes in it, and for a role the field that its
virtual nodes wrap.
-/

namespace Lossless

/-- The line of an owner in a label table. -/
structure OwnerLabels where
  owner : String
  labels : List Label
  schedule : List String
  virtualNodes : List VirtualRole
  wraps : Option String
  deriving DecidableEq, Repr

/-- What a schema publishes. -/
structure LabelTable where
  grammar : String
  strategy : String
  nodeTypes : List OwnerLabels
  anchorRoles : List OwnerLabels
  deriving DecidableEq, Repr

/-- The label table of a schema. -/
def Schema.labelTable (s : Schema) : LabelTable where
  grammar := s.grammar.version
  strategy := s.strategy.name
  nodeTypes := s.nodes.map fun (type, entry) =>
    ⟨type, entry.vocabulary.labels, entry.schedule.map Slot.describe,
      entry.schedule.roles, none⟩
  anchorRoles := s.roles.map fun (role, entry) =>
    ⟨role.name, entry.vocabulary.labels, entry.schedule.map Slot.describe, [],
      entry.schedule.wrappedField?⟩

/-- A line as JSON; a list of virtual nodes that is empty and a field that is
missing are left out. -/
def OwnerLabels.toJson (o : OwnerLabels) : Json :=
  .object ([("owner", .string o.owner), ("labels", .strings o.labels),
      ("schedule", .strings o.schedule)] ++
    (if o.virtualNodes.isEmpty then []
      else [("virtualNodes",
        .strings (o.virtualNodes.map VirtualRole.name))]) ++
    (match o.wraps with
      | some field => [("wraps", .string field)]
      | none => []))

/-- A label table as JSON. -/
def LabelTable.toJson (t : LabelTable) : Json :=
  .object [("grammar", .string t.grammar), ("strategy", .string t.strategy),
    ("nodeTypes", .array (t.nodeTypes.map OwnerLabels.toJson)),
    ("anchorRoles", .array (t.anchorRoles.map OwnerLabels.toJson))]

end Lossless
