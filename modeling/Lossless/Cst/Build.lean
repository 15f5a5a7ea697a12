import Lossless.Cst.Frame

/-!
# Attaching extras to a syntax tree

`build` makes a concrete tree of a syntax tree and the tokens that it was read
from. Each node is gone through slot by slot along its schedule. The semantic
tokens must be those that the schedule and the scalars of the tree spell, and
the extras between them go where the schema's strategy says.
-/

namespace Lossless

namespace Cst

namespace Build

/-! ### Slots -/

/-- A child that is ready to be built: from the extras handed to it and the
tokens in front of it. -/
structure Child where
  build : Option Handed → List SourceToken →
    Except CstError (Cst × List SourceToken)

/-- What a field of the syntax tree holds, its nodes ready to be built. -/
inductive Part where
  | node (child : Child)
  | absent
  | list (children : List Child)
  | scalar (value : Scalar)

/-- The fields of a node of a type, ready to be built. -/
structure Parts where
  type : String
  fields : List (String × Part)

namespace Parts

/-- What a field holds; it must be there. -/
def get (p : Parts) (field : String) : Except CstError Part :=
  match p.fields.lookup field with
  | some part => .ok part
  | none => .error (.shape (.missingField p.type field))

/-- The error of a field that holds something else than a shape needs. -/
def wrongShape (p : Parts) (field : String)
    (expected : FieldShape) : CstError :=
  .shape (.fieldShape p.type field expected)

/-- The scalar that a field holds. -/
def scalar (p : Parts) (field : String) : Except CstError Scalar := do
  match ← p.get field with
  | .scalar value => .ok value
  | _ => .error (p.wrongShape field .scalar)

end Parts

/-- Builds the items of a list from an index on, with the
separators between them. -/
def fillItems (c : Context) (slot : Nat) (field : String)
    (separator : Option String) (index : Nat) (f : Frame)
    (tokens : List SourceToken) :
    List Child → Except CstError (Frame × List SourceToken)
  | [] => .ok (f, tokens)
  | child :: children => do
    let (f, tokens) ← match separator, index with
      | some text, previous + 1 =>
        token c f (.separator slot previous) text tokens
      | _, _ => .ok (f, tokens)
    let (f, handed, tokens) ← gap c f (.item slot index) tokens
    let (item, tokens) ← child.build handed tokens
    fillItems c slot field separator (index + 1)
      (f.addItem (.item slot index) field item) tokens children

/-- Builds the virtual nodes of a node: the field that is
filled, and its value. -/
abbrev VirtualBuilder :=
  VirtualRole → Option Handed → List SourceToken →
    Except CstError (String × Value × List SourceToken)

/-- Builds a child in front of the element that it becomes. -/
def fillChild (c : Context) (e : Element) (field : String) (f : Frame)
    (child : Child) (tokens : List SourceToken) :
    Except CstError (Frame × List SourceToken) := do
  let (f, handed, tokens) ← gap c f e tokens
  let (built, tokens) ← child.build handed tokens
  .ok (f.addChild e field (.node built), tokens)

/-- Goes through one slot. -/
def fillSlot (c : Context) (p : Parts) (virtual : VirtualBuilder) (index : Nat)
    (slot : Slot) (f : Frame) (tokens : List SourceToken) :
    Except CstError (Frame × List SourceToken) :=
  match slot with
  | .extras _ => .ok (f, tokens)
  | .token text => token c f (.token index) text tokens
  | .scalar field => do
    match ← p.scalar field with
    | .string text =>
      let (f, tokens) ← token c f (.token index) text tokens
      .ok (f.fill field (.scalar (.string text)), tokens)
    | _ => .error (.malformed f.owner (.scalarWithoutText field))
  | .implied field => do
    let value ← p.scalar field
    .ok (f.fill field (.scalar value), tokens)
  | .node field => do
    match ← p.get field with
    | .node child => fillChild c (.child index) field f child tokens
    | _ => .error (p.wrongShape field .node)
  | .optional field => do
    match ← p.get field with
    | .node child => fillChild c (.child index) field f child tokens
    | .absent => .ok (f.fill field .absent, tokens)
    | _ => .error (p.wrongShape field .node)
  | .list field separator => do
    match ← p.get field with
    | .list children =>
      fillItems c index field separator 0
        (f.fill field (.list [])) tokens children
    | _ => .error (p.wrongShape field .list)
  | .virtual role => do
    let (f, handed, tokens) ← gap c f (.child index) tokens
    let (field, value, tokens) ← virtual role handed tokens
    .ok (f.addChild (.child index) field value, tokens)

/-- Goes through the slots of a schedule, the first of which has an index. -/
def fillSlots (c : Context) (p : Parts) (virtual : VirtualBuilder) (index : Nat)
    (f : Frame) (tokens : List SourceToken) :
    Schedule → Except CstError (Frame × List SourceToken)
  | [] => .ok (f, tokens)
  | slot :: slots => do
    let (f, tokens) ← fillSlot c p virtual index slot f tokens
    fillSlots c p virtual (index + 1) f tokens slots

/-! ### Nodes -/

/-- A node or virtual node of which nothing has been built, with the
extras handed to it. -/
def openFrame (c : Context) (owner : Owner) (handed : Option Handed)
    (root : Bool) : Except CstError Frame := do
  let schedule ← c.schema.schedule owner
  let extras ← match handed with
    | some h => setExtras c.schema owner .empty h.label h.tokens
    | none => .ok .empty
  .ok ⟨owner, schedule, extras, [], if root then some .start else none, none⟩

/-- Builds a virtual node, which takes its fields from the node around it.
It wraps nothing in the place of an empty list. A virtual node in a virtual
node is refused. -/
def virtualNode (c : Context) (p : Parts) :
    VirtualBuilder := fun role handed tokens => do
  let owner := Owner.virtual role
  let f ← openFrame c owner handed false
  let refuse : VirtualBuilder :=
    fun _ _ _ => .error (.incomplete owner .nestedVirtual)
  let (f, tokens) ← fillSlots c p refuse 0 f tokens f.schedule
  match f.fields.getLast? with
  | some (field, .list []) => .ok (field, .virtual role none f.extras, tokens)
  | some (field, value) =>
    .ok (field, .virtual role (some value) f.extras, tokens)
  | none => .error (.incomplete owner .wrapsNoField)

/-- The fields of a node in the order in which its grammar declares them. -/
def orderFields (g : Grammar) (type : String) (fields : List (String × Value)) :
    Except CstError (List (String × Value)) :=
  match g.fields? type with
  | none => .error (.shape (.unknownType type))
  | some defs => defs.mapM fun d =>
    match fields.lookup d.name with
    | some value => .ok (d.name, value)
    | none => .error (.incomplete (.node type) (.notPlaced d.name))

/-- Builds a node, which may be the root: behind the root's last element come
the extras at the end. -/
def node (c : Context) (p : Parts) (root : Bool) (handed : Option Handed)
    (tokens : List SourceToken) : Except CstError (Cst × List SourceToken) := do
  let f ← openFrame c (.node p.type) handed root
  let (f, tokens) ← fillSlots c p (virtualNode c p) 0 f tokens f.schedule
  let (f, tokens) ← if root then do
      let (f, _, tokens) ← gap c f .stop tokens
      pure (f, tokens)
    else .ok (f, tokens)
  let fields ← orderFields c.schema.grammar p.type f.fields
  .ok (.node p.type fields f.extras, tokens)

mutual

/-- A tree, ready to be built below another node. -/
def child (c : Context) : Ast → Child
  | .node type fields =>
    ⟨fun handed tokens => node c ⟨type, parts c fields⟩ false handed tokens⟩

/-- The fields of a node, ready to be built. -/
def parts (c : Context) : List (String × Ast.Value) → List (String × Part)
  | [] => []
  | (name, value) :: fields => (name, part c value) :: parts c fields

/-- A field, ready to be built. -/
def part (c : Context) : Ast.Value → Part
  | .node t => .node (child c t)
  | .absent => .absent
  | .list items => .list (children c items)
  | .scalar value => .scalar value

/-- The trees of a list, ready to be built. -/
def children (c : Context) : List Ast → List Child
  | [] => []
  | item :: items => child c item :: children c items

end

end Build

/-- The concrete tree of a syntax tree and all tokens of the text that
it was read from. -/
def build (s : Schema) (t : Ast) (tokens : List SourceToken) :
    Except CstError Cst := do
  Build.checkTiling 0 tokens
  match s.grammar.check t with
  | .error e => .error (.shape e)
  | .ok () =>
    let c : Build.Context := ⟨s, Build.streamEnd tokens⟩
    let (tree, rest) ← Build.node c
      ⟨t.type, Build.parts c t.fields⟩ true none tokens
    if rest.isEmpty then .ok tree
    else .error (Build.mismatch c.streamEnd .endOfInput rest)

end Cst

end Lossless
