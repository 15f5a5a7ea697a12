import Lossless.Proofs.Pieces
import Lossless.Proofs.Plain

/-!
# The members of a node

The elements of a node are words, and children that its fields hold. `members`
lists them along a schedule from the fields themselves. Where every slot finds
in its field what it is written with (`LaidOut`), the members are what writing
goes through (`along_of_node`), and so are those of a virtual node
(`along_of_virtual`).
-/

namespace Lossless

namespace Cst

open Write (Inner Origin Content)

/-- What an element of a node is: a word, or a child in one of the fields. -/
inductive Member where
  | word (text : String)
  | child (value : Value)

/-- The record of a child. -/
def Value.record : Value → Extras
  | .node child => child.extras
  | .virtual _ _ extras => extras
  | _ => .empty

/-- A child as far as writing goes. -/
def Value.inner (s : Schema) (value : Value) : Inner :=
  match Write.part s value with
  | .node inner | .virtual _ inner => inner
  | _ => ⟨.empty, .ok []⟩

@[simp] theorem Value.inner_extras (s : Schema) (value : Value) :
    (value.inner s).extras = value.record := by
  match value with
  | .node child | .absent | .list items | .scalar value => rfl
  | .virtual role none extras | .virtual role (some wrapped) extras => rfl

namespace Member

/-- What a member writes. -/
def content (s : Schema) : Member → Content
  | word text => .text text
  | child value => .inner (value.inner s)

/-- What a virtual node writes. -/
theorem pieces_virtual (s : Schema) (role : VirtualRole)
    (wrapped : Option Value) (extras : Extras) :
    ((child (.virtual role wrapped extras)).content s).pieces =
      Write.frame s (.virtual role) extras false
        (.wrapped (wrapped.map (Write.part s))) := by
  cases wrapped <;> rfl

/-- A member without extras. -/
def blank : Member → Member
  | word text => word text
  | child value => child (blankValue value)

/-- The number of labels in a member. -/
def labelCount : Member → Nat
  | word _ => 0
  | child value => valueLabelCount value

end Member

/-- The separator in front of the item of a list with an index, but
not for the first. -/
def separatorMembers (slot : Nat) (separator : Option String) :
    Nat → List (Element × Member)
  | 0 => []
  | previous + 1 =>
    separator.toList.map fun text => (.separator slot previous, .word text)

/-- The items of a list from an index on, and the separators between them. -/
def itemMembers (slot : Nat) (separator : Option String) (index : Nat) :
    List Cst → List (Element × Member)
  | [] => []
  | item :: items =>
    separatorMembers slot separator index ++
      (.item slot index, .child (.node item)) ::
      itemMembers slot separator (index + 1) items

/-- The members of a slot, with what its field holds if it has one. -/
def slotMembers (index : Nat) : Slot → Option Value → List (Element × Member)
  | .token text, _ => [(.token index, .word text)]
  | .scalar _, some (.scalar (.string text)) => [(.token index, .word text)]
  | .node _, some (.node child) => [(.child index, .child (.node child))]
  | .optional _, some (.node child) => [(.child index, .child (.node child))]
  | .list _ separator, some (.list items) => itemMembers index separator 0 items
  | .virtual _, some (.virtual role wrapped extras) =>
    [(.child index, .child (.virtual role wrapped extras))]
  | _, _ => []

/-- What the field of a slot holds. -/
def held (roles : List (VirtualRole × SchemaEntry))
    (look : String → Option Value) (slot : Slot) : Option Value :=
  (Schema.placed? roles slot).bind fun d => look d.name

/-- The members along the slots of a schedule whose first one has an index. -/
def members (roles : List (VirtualRole × SchemaEntry))
    (look : String → Option Value) (index : Nat) :
    Schedule → List (Element × Member)
  | [] => []
  | slot :: slots =>
    slotMembers index slot (held roles look slot) ++
      members roles look (index + 1) slots

/-- The members along slots, from what is found for each of them. -/
def membersOf (find : Slot → Option Value) (index : Nat) :
    Schedule → List (Element × Member)
  | [] => []
  | slot :: slots =>
    slotMembers index slot (find slot) ++ membersOf find (index + 1) slots

theorem members_eq_membersOf (roles : List (VirtualRole × SchemaEntry))
    (look : String → Option Value) (index : Nat) (slots : Schedule) :
    members roles look index slots =
      membersOf (held roles look) index slots := by
  induction slots generalizing index with
  | nil => rfl
  | cons slot slots ih => rw [members, membersOf, ih]

/-- Members as the elements that are written. -/
def contents (s : Schema) (ms : List (Element × Member)) :
    List (Element × Content) :=
  ms.map fun m => (m.1, m.2.content s)

/-! ### Fields that slots can be written with -/

/-- A slot is written with what its field holds. -/
inductive Takes : Slot → Value → Prop
  | scalar {field : String} {value : Scalar} :
      Takes (.scalar field) (.scalar value)
  | implied {field : String} {value : Scalar} :
      Takes (.implied field) (.scalar value)
  | node {field : String} {child : Cst} : Takes (.node field) (.node child)
  | some {field : String} {child : Cst} : Takes (.optional field) (.node child)
  | absent {field : String} : Takes (.optional field) .absent
  | list {field : String} {separator : Option String} {items : List Cst} :
    Takes (.list field separator) (.list items)
  | wrapped {role : VirtualRole} {items : List Cst} {extras : Extras} :
    Takes (.virtual role) (.virtual role (.some (.list items)) extras)
  | nothing {role : VirtualRole} {extras : Extras} :
      Takes (.virtual role) (.virtual role none extras)

/-- A virtual node around a list; around an empty one it may wrap nothing. -/
def Wraps (wrapped : Option Value) (items : List Cst) : Prop :=
  wrapped = some (.list items) ∨ wrapped = none ∧ items = []

/-- Every slot that places a field finds it, and is written
with what it holds. -/
def Supplied (roles : List (VirtualRole × SchemaEntry))
    (look : String → Option Value) (slots : Schedule) : Prop :=
  ∀ slot ∈ slots, ∀ d, Schema.placed? roles slot = some d →
    ∃ value, look d.name = some value ∧ Takes slot value

/-- Each field of a node stands under its name once, for one slot that is
written with it. -/
structure LaidOut (s : Schema) (type : String) (fields : List (String × Value))
    (e : SchemaEntry) : Prop where
  entry : s.entry? (.node type) = some e
  nodup : (fields.map Prod.fst).Nodup
  names : (Schema.placedNames s.roles e.schedule).Perm (fields.map Prod.fst)
  takes : Supplied s.roles (fields.lookup ·) e.schedule

section

variable {s : Schema} {type name : String} {fields : List (String × Value)}
  {e : SchemaEntry} {owner : Owner} {own : Extras} {root : Bool}
  {ps : List Piece} {value : Value}

theorem LaidOut.exists_value (h : LaidOut s type fields e) {slot : Slot}
    (hslot : slot ∈ e.schedule) {d : FieldDef}
    (hd : Schema.placed? s.roles slot = some d) :
    ∃ value, fields.lookup d.name = some value ∧ Takes slot value :=
  h.takes slot hslot d hd

/-- Every field has its slot. -/
theorem LaidOut.exists_slot (h : LaidOut s type fields e)
    (hvalue : (name, value) ∈ fields) :
    ∃ slot ∈ e.schedule, ∃ d, Schema.placed? s.roles slot = some d ∧
      d.name = name ∧ Takes slot value := by
  have hlookup := Named.lookup_of_mem h.nodup hvalue
  have hname : name ∈ Schema.placedNames s.roles e.schedule :=
    h.names.mem_iff.2 (Named.mem_keys_of_lookup hlookup)
  obtain ⟨d, hd, rfl⟩ := List.mem_map.1 hname
  obtain ⟨slot, hslot, hplaced⟩ := List.mem_filterMap.1 hd
  obtain ⟨value', hvalue', htakes⟩ := h.exists_value hslot hplaced
  cases hlookup.symm.trans hvalue'
  exact ⟨slot, hslot, d, hplaced, rfl, htakes⟩

/-! ### What is written -/

theorem contents_itemMembers (s : Schema) (slot : Nat)
    (separator : Option String) (index : Nat) (items : List Cst) :
    contents s (itemMembers slot separator index items) =
      Write.itemElements slot separator index (Write.inners s items) := by
  induction items generalizing index with
  | nil => rfl
  | cons item items ih =>
    rw [Write.inners, itemMembers, Write.itemElements_cons, ← ih, contents,
      List.map_append]
    cases separator <;> cases index <;> rfl

/-- The elements of a schedule are its members if this holds slot by slot. -/
theorem elements_eq_membersOf {o : Origin} {find : Slot → Option Value}
    {index : Nat} {slots : Schedule} {es : List (Element × Content)}
    (hslots : ∀ slot ∈ slots, ∀ i here, Write.slotElements owner o i slot =
      .ok here → here = contents s (slotMembers i slot (find slot)))
    (h : Write.elements owner o index slots = .ok es) :
    es = contents s (membersOf find index slots) := by
  induction slots generalizing index es with
  | nil =>
    cases Except.ok.inj h
    rfl
  | cons slot slots ih =>
    rw [Write.elements] at h
    obtain ⟨here, hhere, h⟩ := Outcome.bind_eq_ok.1 h
    obtain ⟨further, hfurther, h⟩ := Outcome.bind_eq_ok.1 h
    rw [← Except.ok.inj h, hslots slot List.mem_cons_self index here hhere,
      ih (fun slot' hslot' => hslots slot' (List.mem_cons_of_mem _ hslot'))
        hfurther, membersOf, contents, contents, contents, List.map_append]

theorem elements_eq_contents {o : Origin} {look : String → Option Value}
    {index : Nat} {slots : Schedule} {es : List (Element × Content)}
    (hslots : ∀ slot ∈ slots, ∀ i here,
      Write.slotElements owner o i slot = .ok here →
      here = contents s (slotMembers i slot (held s.roles look slot)))
    (h : Write.elements owner o index slots = .ok es) :
    es = contents s (members s.roles look index slots) := by
  rw [members_eq_membersOf]
  exact elements_eq_membersOf hslots h

/-- A virtual node stands in the field that its role wraps. -/
theorem LaidOut.inPlace (h : LaidOut s type fields e) :
    Write.InPlace s.roles (Write.parts s fields) := by
  intro name role inner hmem
  rw [Write.parts_eq_map] at hmem
  obtain ⟨⟨name', value⟩, hvalue, heq⟩ := List.mem_map.1 hmem
  obtain ⟨rfl, hpart⟩ := Prod.mk.inj heq
  obtain ⟨slot, -, d, hplaced, hname, htakes⟩ := h.exists_slot hvalue
  cases htakes with
  | wrapped | nothing =>
    cases hpart
    exact ⟨d, hplaced, hname⟩
  | _ => exact nomatch hpart

/-- A laid out slot writes its members. -/
theorem LaidOut.slotElements_eq (h : LaidOut s type fields e) {slot : Slot}
    (hslot : slot ∈ e.schedule) {index : Nat} {here : List (Element × Content)}
    (helements : Write.slotElements owner
      (.fields (Write.parts s fields)) index slot = .ok here) :
    here = contents s
      (slotMembers index slot (held s.roles (fields.lookup ·) slot)) := by
  have hlook : ∀ name value, fields.lookup name = some value →
      (Origin.fields (Write.parts s fields)).part? name =
        some (Write.part s value) := by
    intro name value hvalue
    rw [Origin.part?, Write.lookup_parts, hvalue]
    rfl
  cases hplaced : Schema.placed? s.roles slot with
  | none =>
    cases slot with
    | extras label | token text => exact (Except.ok.inj helements).symm
    | virtual role =>
      -- without a field that is wrapped there is no virtual node in place
      rw [Write.slotElements] at helements
      split at helements
      · rename_i inner hvirtual
        rw [Origin.virtual?] at hvirtual
        obtain ⟨⟨name, part⟩, hmem, hpart⟩ :=
          List.exists_of_findSome?_eq_some hvirtual
        cases part with
        | virtual role' inner' =>
          simp only [Option.ite_none_right_eq_some] at hpart
          obtain ⟨d, hd, -⟩ := h.inPlace name role' inner' hmem
          rw [hpart.1] at hd
          exact absurd (hplaced.symm.trans hd) (by simp)
        | _ => cases hpart
      · cases helements
    | _ => cases hplaced
  | some d =>
    obtain ⟨value, hvalue, htakes⟩ := h.exists_value hslot hplaced
    rw [held, hplaced, Option.bind_some, hvalue]
    cases htakes with
    | @scalar field value =>
      cases Option.some.inj hplaced
      rw [Write.slotElements, hlook _ _ hvalue, Write.part] at helements
      cases value with
      | string text => exact (Except.ok.inj helements).symm
      | _ => cases helements
    | implied => exact (Except.ok.inj helements).symm
    | node | some | absent =>
      cases Option.some.inj hplaced
      rw [Write.slotElements, hlook _ _ hvalue, Write.part] at helements
      exact (Except.ok.inj helements).symm
    | list =>
      cases Option.some.inj hplaced
      simp only [Write.slotElements, Origin.items?, hlook _ _ hvalue,
        Write.part] at helements
      rw [slotMembers, contents_itemMembers]
      exact (Except.ok.inj helements).symm
    | wrapped | nothing =>
      have hvirtual := Write.virtual?_of_lookup h.inPlace hplaced
        (by rw [Write.lookup_parts, hvalue]; rfl)
      rw [Write.slotElements, hvirtual] at helements
      exact (Except.ok.inj helements).symm

/-- What stands in front of the first element: the start of the
text for the root. -/
def opening (root : Bool) :
    Option Write.Left := if root then some ⟨.start, none⟩ else none

/-- Only owners that the schema knows are written. -/
theorem exists_entry {o : Origin}
    (h : Write.frame s owner own root o = .ok ps) :
    ∃ e, s.entry? owner = some e := by
  cases he : s.entry? owner with
  | none =>
    rw [Write.frame, Schema.schedule, Schema.entryOf, he] at h
    cases h
  | some e => exact ⟨e, rfl⟩

theorem frame_eq_ok {o : Origin} (hentry : s.entry? owner = some e)
    (h : Write.frame s owner own root o = .ok ps) :
    ∃ es, Write.elements owner o 0 e.schedule = .ok es ∧
      Write.along s owner e.schedule own root (opening root) es = .ok ps := by
  rw [Write.frame, Schema.schedule, Schema.entryOf, hentry] at h
  exact Outcome.bind_eq_ok.1 h

/-- A node that is laid out is written member by member. -/
theorem along_of_node (hlaid : LaidOut s type fields e)
    (h : Write.frame s (.node type) own root (.fields (Write.parts s fields)) =
      .ok ps) :
    Write.elements (.node type) (.fields (Write.parts s fields)) 0 e.schedule =
        .ok (contents s (members s.roles (fields.lookup ·) 0 e.schedule)) ∧
      Write.along s (.node type) e.schedule own root (opening root)
          (contents s (members s.roles (fields.lookup ·) 0 e.schedule)) =
        .ok ps := by
  obtain ⟨es, helements, halong⟩ := frame_eq_ok hlaid.entry h
  obtain rfl := elements_eq_contents
    (fun slot hslot i here => hlaid.slotElements_eq hslot) helements
  exact ⟨helements, halong⟩

/-- A virtual node around a list is written member by member; every field
means the list. -/
theorem along_of_virtual {role : VirtualRole} {wrapped : Option Value}
    {items : List Cst} (hfits : Schema.RoleFits s.strategy role e)
    (hentry : s.entry? (.virtual role) = some e)
    (hwrapped : Wraps wrapped items)
    (h : Write.frame s (.virtual role) own false
      (.wrapped (wrapped.map (Write.part s))) = .ok ps) :
    Write.elements (.virtual role)
        (.wrapped (wrapped.map (Write.part s))) 0 e.schedule = .ok (contents s
          (members s.roles (fun _ => some (.list items)) 0 e.schedule)) ∧
      Write.along s (.virtual role) e.schedule own false none (contents s
        (members s.roles (fun _ => some (.list items)) 0 e.schedule)) =
        .ok ps := by
  obtain ⟨es, helements, halong⟩ := frame_eq_ok hentry h
  suffices hes : es =
      contents s (members s.roles (fun _ => some (.list items)) 0 e.schedule) by
    subst hes
    exact ⟨helements, halong⟩
  refine elements_eq_contents (s := s)
    (fun slot hslot i here hhere => ?_) helements
  have hitems :
      ∀ name, (Origin.wrapped (wrapped.map (Write.part s))).items? name =
        some (Write.inners s items) := by
    intro name
    rcases hwrapped with rfl | ⟨rfl, rfl⟩ <;> rfl
  have hpart : ∀ name part,
      (Origin.wrapped (wrapped.map (Write.part s))).part? name = some part →
      part = .list (Write.inners s items) := by
    intro name part hpart
    rcases hwrapped with rfl | ⟨rfl, rfl⟩
    · exact (Option.some.inj hpart).symm
    · exact nomatch hpart
  cases slot with
  | extras label | token text => exact (Except.ok.inj hhere).symm
  | implied field => exact (Except.ok.inj hhere).symm
  | scalar field | node field | optional field =>
    rw [Write.slotElements] at hhere
    split at hhere
    all_goals first
      | contradiction
      | rename_i hfield
        cases hpart _ _ hfield
  | list field separator =>
    rw [Write.slotElements, hitems] at hhere
    change here = contents s (itemMembers i separator 0 items)
    rw [contents_itemMembers]
    exact (Except.ok.inj hhere).symm
  | virtual role' => exact absurd hslot (hfits.notMem_virtual role')

end

end Cst

end Lossless
