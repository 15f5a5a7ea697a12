import Lossless.Proofs.Laid
import Lossless.Proofs.Reading

/-!
# The leaves of what is written

Extras apart, what is written for a tree are the leaves of its syntax tree, in
the order in which the schema's layout spells them (`leaves_of_node`): slot by
slot a node writes what the slot is spelled with, and a virtual node what the
slots of its own schedule are.
-/

namespace Lossless

namespace Cst

open Write (Inner Origin Content)

/-- The leaves among some pieces. -/
def Piece.leaves (ps : List Piece) : List Leaf :=
  (Sign.words (row ps)).map .text

/-- The leaves that a member writes, if it can be written. -/
def Member.leaves (s : Schema) (m : Member) : List Leaf :=
  match (m.content s).pieces with
  | .ok ps => Piece.leaves ps
  | .error _ => []

/-- The leaves that members write, one after another. -/
def leavesOf (s : Schema) (ms : List (Element × Member)) : List Leaf :=
  ms.flatMap fun m => m.2.leaves s

section

variable {s : Schema} {layout : Layout} {owner : Owner} {type : String}
  {e : SchemaEntry} {fields : List (String × Value)} {own : Extras}
  {root : Bool} {ps : List Piece} {slot : Slot} {value : Value}
  {items : List Cst} {trees : List Ast} {spellings : List (String × Spelling)}

theorem Piece.leaves_append (ps ps' : List Piece) :
    leaves (ps ++ ps') = leaves ps ++ leaves ps' := by
  rw [leaves, row_append, Sign.words_append, List.map_append]
  rfl

theorem Piece.leaves_ofRun (run : List Token) : leaves (ofRun run) = [] := by
  rw [leaves, row_ofRun, Sign.words_map_sign, List.map_nil]

theorem Member.leaves_of_pieces {m : Member}
    (h : (m.content s).pieces = .ok ps) : m.leaves s = Piece.leaves ps := by
  rw [leaves, h]

theorem leaves_along {schedule : Schedule} {left : Option Write.Left}
    {ms : List (Element × Member)}
    (h : Write.along s owner schedule own root left (contents s ms) = .ok ps) :
    Piece.leaves ps = leavesOf s ms := by
  induction ms generalizing left ps with
  | nil => rw [along_nil_eq_ok h, Piece.leaves_ofRun, leavesOf,
    List.flatMap_nil]
  | cons m ms ih =>
    obtain ⟨inside, rest, hinside, hrest, rfl⟩ := along_cons_eq_ok h
    rw [Piece.leaves_append, Piece.leaves_ofRun, Piece.leaves_append, ih hrest,
      leavesOf, leavesOf, List.flatMap_cons, Member.leaves_of_pieces hinside,
      List.nil_append]

/-- A tree writes the leaves of the syntax tree inside. -/
def Spells (s : Schema) (layout : Layout) (t : Cst) : Prop :=
  ∀ a, t.plain = some a → (Member.child (.node t)).leaves s = a.leaves layout

theorem leavesOf_separatorMembers (slot : Nat) (separator : Option String)
    (index : Nat) :
    leavesOf s (separatorMembers slot separator index) =
      Leaf.ofSeparator separator index := by
  cases index <;> cases separator <;> rfl

theorem leavesOf_itemMembers (slot : Nat) (separator : Option String)
    (index : Nat) (hitems : ∀ t ∈ items, Spells s layout t)
    (hplain : plainItems items = some trees) :
    leavesOf s (itemMembers slot separator index items) =
      Leaf.ofItems separator index (Ast.itemLeaves layout trees) := by
  induction items generalizing index trees with
  | nil =>
    cases Option.some.inj hplain
    rfl
  | cons item items ih =>
    rw [plainItems] at hplain
    obtain ⟨tree, htree, hplain⟩ := Option.bind_eq_some_iff.1 hplain
    obtain ⟨others, hothers, hplain⟩ := Option.bind_eq_some_iff.1 hplain
    have hbehind :=
      ih (index + 1) (fun t ht => hitems t (List.mem_cons_of_mem _ ht)) hothers
    rw [← Option.some.inj hplain, itemMembers, Ast.itemLeaves, Leaf.ofItems,
      ← leavesOf_separatorMembers (s := s) slot, ← hbehind,
      ← hitems item List.mem_cons_self tree htree]
    simp only [leavesOf, List.flatMap_append, List.flatMap_cons]

/-- A slot writes what it is spelled with. -/
theorem leavesOf_slotMembers {value' : Ast.Value}
    {d : FieldDef} (htakes : Takes slot value) (hfield : slot.field? = some d)
    (hplain : plainValue value = some value')
    (hnodes : ∀ t ∈ value.nodes, Spells s layout t)
    (hstring : ∀ field w, slot = .scalar field →
      value = .scalar w → ∃ text, w = .string text)
    (hspelled : spellings.lookup d.name = some (Ast.spelling layout value'))
    (index : Nat) :
    leavesOf s (slotMembers index slot (some value)) =
      Leaf.ofSlot type spellings slot := by
  cases htakes with
  | @scalar field value =>
    obtain ⟨text, rfl⟩ := hstring field value rfl rfl
    cases Option.some.inj hfield
    cases Option.some.inj hplain
    rw [Leaf.ofSlot, hspelled]
    rfl
  | implied => rfl
  | node | some =>
    cases Option.some.inj hfield
    obtain ⟨a, ha, rfl⟩ := Option.map_eq_some_iff.1 hplain
    rw [Leaf.ofSlot, hspelled]
    exact (List.flatMap_singleton ..).trans
      (hnodes _ (List.mem_singleton_self _) a ha)
  | absent =>
    cases Option.some.inj hfield
    cases Option.some.inj hplain
    rw [Leaf.ofSlot, hspelled]
    rfl
  | list =>
    cases Option.some.inj hfield
    obtain ⟨trees, htrees, rfl⟩ := Option.map_eq_some_iff.1 hplain
    rw [Leaf.ofSlot, hspelled]
    exact leavesOf_itemMembers index _ 0 hnodes htrees
  | wrapped | nothing => cases hfield

theorem leavesOf_slotMembers_none (hfield : slot.field? = none)
    (hrole : slot.role? = none) (index : Nat) :
    leavesOf s (slotMembers index slot none) =
      Leaf.ofSlot type spellings slot := by
  cases slot with
  | extras label | token text => rfl
  | «virtual» role => exact nomatch hrole
  | scalar _ | implied _ | node _ | optional _ | list _ _ =>
    exact nomatch hfield

/-- If each slot writes what it is spelled with, then so do all in a row. -/
theorem leavesOf_members {roles : List (VirtualRole × SchemaEntry)}
    {look : String → Option Value} {slots : Schedule}
    {spelled : Slot → List Leaf}
    (h : ∀ slot ∈ slots, ∀ i,
      leavesOf s (slotMembers i slot (held roles look slot)) = spelled slot)
    (index : Nat) :
    leavesOf s (members roles look index slots) = slots.flatMap spelled := by
  induction slots generalizing index with
  | nil => rfl
  | cons slot slots ih =>
    rw [members, List.flatMap_cons, ← h slot List.mem_cons_self index, ← ih
      (fun slot' hslot' => h slot' (List.mem_cons_of_mem _ hslot')) (index + 1)]
    exact List.flatMap_append

/-- A virtual node writes what the slots of its schedule are spelled with. -/
theorem leaves_of_virtual (hs : s.Sound) {role : VirtualRole}
    {wrapped : Option Value} {d : FieldDef} (hwraps : Wraps wrapped items)
    (hitems : ∀ t ∈ items, Spells s layout t)
    (hplain : plainItems items = some trees)
    (hd : Schema.placed? s.roles (.virtual role) = some d)
    (hspelled : spellings.lookup d.name =
      some (.list (Ast.itemLeaves layout trees)))
    (h : Write.frame s (.virtual role) own false
      (.wrapped (wrapped.map (Write.part s))) = .ok ps) :
    Piece.leaves ps =
      Leaf.ofSlots type spellings (s.inline (.virtual role)) := by
  obtain ⟨e, he, hname⟩ := Option.bind_eq_some_iff.1 hd
  have hentry : s.entry? (.virtual role) = some e := he
  have hfits := hs.role role e hentry
  obtain ⟨name, hwrapped, hfield⟩ := hfits.wrappedField?
  rw [hwrapped] at hname
  cases Option.some.inj hname
  obtain ⟨-, halong⟩ := along_of_virtual hfits hentry hwraps h
  rw [leaves_along halong, Schema.inline, hentry]
  refine leavesOf_members (fun slot hslot i => ?_) 0
  have hrole := hfits.role_eq_none hslot
  have hplaced := Schema.placed_of_role s.roles hrole
  rw [held, hplaced]
  cases hslotField : slot.field? with
  | none => exact leavesOf_slotMembers_none hslotField hrole i
  | some d' =>
    obtain ⟨_, heq, htakes⟩ :=
      supplied_virtual hfits items slot hslot d' (hplaced.trans hslotField)
    cases Option.some.inj heq
    have hmem : d' ∈ e.schedule.filterMap Slot.field? :=
      List.mem_filterMap.2 ⟨slot, hslot, hslotField⟩
    rw [hfield] at hmem
    cases List.mem_singleton.1 hmem
    have hlist : plainValue (.list items) = some (.list trees) := by
      rw [plainValue, hplain]
      rfl
    exact leavesOf_slotMembers htakes hslotField hlist hitems
      (fun _ _ _ hvalue => by cases hvalue) hspelled i

/-- A scalar that is written is a text. -/
theorem string_of_slotElements {field : String} {w : Scalar} {i : Nat}
    {here : List (Element × Content)}
    (hlookup : fields.lookup field = some (.scalar w))
    (h : Write.slotElements owner (.fields (Write.parts s fields)) i
      (.scalar field) = .ok here) : ∃ text, w = .string text := by
  simp only [Write.slotElements, Origin.part?, Write.lookup_parts, hlookup,
    Option.map_some, Write.part] at h
  cases w with
  | string text => exact ⟨text, rfl⟩
  | _ => cases h

theorem plainValue_wraps {role : VirtualRole} {wrapped : Option Value}
    {extras : Extras} (hwraps : Wraps wrapped items) :
    plainValue (.virtual role wrapped extras) =
      (plainItems items).map .list := by
  rcases hwraps with rfl | ⟨rfl, rfl⟩ <;> rfl

section

variable {fields' : List (String × Ast.Value)}

theorem lookup_spelling {name : String} {value' : Ast.Value}
    (h : fields'.lookup name = some value') :
    (Ast.spellings layout fields').lookup name =
      some (Ast.spelling layout value') := by
  rw [Ast.lookup_spellings, h]
  rfl

/-- A slot without virtual node is written as it is spelled, if
the children are. -/
theorem LaidOut.leavesOf_own (here : LaidOut s type fields e)
    (hplain : plainFields fields = some fields')
    (hchildren : ∀ t ∈ fields.flatMap fun field => field.2.nodes,
      Spells s layout t)
    (h : Write.frame s (.node type) own root (.fields (Write.parts s fields)) =
      .ok ps) (hslot : slot ∈ e.schedule) (hrole : slot.role? = none)
    (index : Nat) :
    leavesOf s (slotMembers index slot (held s.roles (fields.lookup ·) slot)) =
      Leaf.ofSlot type (Ast.spellings layout fields') slot := by
  rw [held, Schema.placed_of_role s.roles hrole]
  cases hfield : slot.field? with
  | none => exact leavesOf_slotMembers_none hfield hrole index
  | some d =>
    have hplaced := (Schema.placed_of_role s.roles hrole).trans hfield
    obtain ⟨value, hvalue, htakes⟩ := here.exists_value hslot hplaced
    obtain ⟨value', hvalue', hplainValue⟩ := lookup_plainFields hplain hvalue
    have hnodes : ∀ t ∈ value.nodes, Spells s layout t := fun t ht =>
      hchildren t (List.mem_flatMap.2 ⟨_, Named.mem_of_lookup hvalue, ht⟩)
    rw [Option.bind_some, hvalue]
    refine leavesOf_slotMembers htakes hfield hplainValue hnodes
      (fun field w hscalar hw => ?_) (lookup_spelling hvalue') index
    subst hscalar hw
    cases Option.some.inj hfield
    obtain ⟨es, helements, -⟩ := frame_eq_ok here.entry h
    obtain ⟨i, here', hhere⟩ := exists_slotElements helements hslot
    exact string_of_slotElements hvalue hhere

/-- A virtual node is written as the slots of its role are spelled, if
the children are. -/
theorem LaidOut.leavesOf_virtual (hs : s.Sound) (here : LaidOut s type fields e)
    (hplain : plainFields fields = some fields')
    (hchildren : ∀ t ∈ fields.flatMap fun field => field.2.nodes,
      Spells s layout t)
    (h : Write.frame s (.node type) own root (.fields (Write.parts s fields)) =
      .ok ps) {role : VirtualRole} (hslot : .virtual role ∈ e.schedule)
    (index : Nat) :
    leavesOf s (slotMembers index (.virtual role) (held s.roles (fields.lookup
      ·) (.virtual role))) =
      Leaf.ofSlots type (Ast.spellings layout fields')
        (s.inline (.virtual role)) := by
  obtain ⟨declared, -, hfits⟩ := hs.node type e here.entry
  have hwrapped := hfits.hasRoles role (List.mem_filterMap.2 ⟨_, hslot, rfl⟩)
  obtain ⟨d, hd⟩ := Option.isSome_iff_exists.1 hwrapped
  have hplaced : Schema.placed? s.roles (.virtual role) = some d := hd
  obtain ⟨value, hvalue, htakes⟩ := here.exists_value hslot hplaced
  obtain ⟨value', hvalue', hplainValue⟩ := lookup_plainFields hplain hvalue
  have hnodes : ∀ t ∈ value.nodes, Spells s layout t := fun t ht =>
    hchildren t (List.mem_flatMap.2 ⟨_, Named.mem_of_lookup hvalue, ht⟩)
  have hheld : held s.roles (fields.lookup ·) (.virtual role) = some value := by
    rw [held, hplaced]
    exact hvalue
  rw [hheld]
  obtain ⟨wrapped, items, extras, rfl, hwraps, rfl⟩ := exists_wraps htakes
  rw [plainValue_wraps hwraps] at hplainValue
  obtain ⟨trees, htrees, rfl⟩ := Option.map_eq_some_iff.1 hplainValue
  obtain ⟨-, halong⟩ := along_of_node here h
  obtain ⟨inside, hinside⟩ :=
    exists_pieces_of_children halong
      (here.mem_children hslot hheld (List.mem_singleton_self _))
  have hframe :=
    (Member.pieces_virtual s role wrapped extras).symm.trans hinside
  rw [← leaves_of_virtual hs hwraps hnodes htrees hplaced
    (lookup_spelling hvalue') hframe, ← Member.leaves_of_pieces hinside]
  exact List.flatMap_singleton ..

/-- A slot of a node writes what it is spelled with, if the children do. -/
theorem LaidOut.leavesOf_slot (hs : s.Sound) (here : LaidOut s type fields e)
    (hplain : plainFields fields = some fields')
    (hchildren : ∀ t ∈ fields.flatMap fun field => field.2.nodes,
      Spells s layout t)
    (h : Write.frame s (.node type) own root (.fields (Write.parts s fields)) =
      .ok ps) (hslot : slot ∈ e.schedule) (index : Nat) :
    leavesOf s (slotMembers index slot (held s.roles (fields.lookup ·) slot)) =
      Leaf.ofSlots type (Ast.spellings layout fields') (s.inline slot) := by
  cases hrole : slot.role? with
  | none =>
    rw [Schema.ofSlots_inline s hrole]
    exact here.leavesOf_own hplain hchildren h hslot hrole index
  | some role =>
    cases slot with
    | «virtual» role =>
      exact here.leavesOf_virtual hs hplain hchildren h hslot index
    | _ => exact nomatch hrole

end

/-- What is written for a tree that is laid out are the leaves of
its syntax tree. -/
theorem leaves_of_node (hs : s.Sound) {t : Cst} {a : Ast} (hlaid : Laid s t)
    (hplain : t.plain = some a) (h : Write.node s root t = .ok ps) :
    Piece.leaves ps = a.leaves s.layout := by
  induction hlaid generalizing a root ps with
  | @node type fields extras e here inner below ih =>
    obtain ⟨fields', hfields, rfl⟩ := Option.map_eq_some_iff.1 hplain
    obtain ⟨-, halong⟩ := along_of_node here h
    have hchildren : ∀ t ∈ fields.flatMap fun field => field.2.nodes,
        Spells s s.layout t := by
      intro t ht a ha
      obtain ⟨inside, hinside⟩ := here.exists_pieces hs h ht
      rw [Member.leaves_of_pieces (m := .child (.node t)) hinside]
      exact ih t ht ha hinside
    have hslots : leavesOf s (members s.roles (fields.lookup ·) 0 e.schedule) =
        e.schedule.flatMap fun slot =>
          Leaf.ofSlots type (Ast.spellings s.layout fields') (s.inline slot) :=
      leavesOf_members (fun slot hslot i =>
        here.leavesOf_slot hs hfields hchildren h hslot i) 0
    rw [leaves_along halong, hslots, Ast.leaves, Schema.layout, here.entry]
    exact List.flatMap_assoc.symm

end

end Cst

end Lossless
