import Lossless.Proofs.Members

/-!
# The children among the members

The limbs of a value are the nodes and virtual nodes that stand in the text for
it. Along a schedule that takes what its fields hold, the children among the
members are the limbs of these values, one after another (`children_members`),
and what can be written has children that can be written
(`LaidOut.exists_pieces`).
-/

namespace Lossless

namespace Cst

/-- The nodes and virtual nodes that stand in the text for a value. -/
def Value.limbs : Value → List Value
  | .node child => [.node child]
  | .list items => items.map .node
  | .virtual role wrapped extras => [.virtual role wrapped extras]
  | .absent | .scalar _ => []

/-- What a member is, if it is a child. -/
def Member.child? : Member → Option Value
  | .word _ => none
  | .child value => some value

/-- The children in a row of members. -/
def childrenOf (ms : List (Element × Member)) : List Value :=
  ms.filterMap fun m => m.2.child?

section

variable {s : Schema} {roles : List (VirtualRole × SchemaEntry)}
  {look : String → Option Value} {slot : Slot} {slots : Schedule}
  {value : Value} {ms : List (Element × Member)} {type : String}
  {fields : List (String × Value)} {e : SchemaEntry} {role : VirtualRole}
  {wrapped : Option Value} {items : List Cst} {owner : Owner} {own : Extras}
  {root : Bool} {ps : List Piece} {t : Cst}

@[simp] theorem childrenOf_append (ms ms' : List (Element × Member)) :
    childrenOf (ms ++ ms') = childrenOf ms ++ childrenOf ms' :=
  List.filterMap_append

@[simp] theorem childrenOf_child (e : Element) (value : Value)
    (ms : List (Element × Member)) :
    childrenOf ((e, .child value) :: ms) = value :: childrenOf ms := rfl

theorem mem_childrenOf {e : Element} (h : (e, .child value) ∈ ms) :
    value ∈ childrenOf ms :=
  List.mem_filterMap.2 ⟨_, h, rfl⟩

theorem childrenOf_separatorMembers (slot : Nat) (separator : Option String)
    (index : Nat) :
    childrenOf (separatorMembers slot separator index) = [] := by
  cases index <;> cases separator <;> rfl

theorem childrenOf_itemMembers (slot : Nat) (separator : Option String)
    (index : Nat) (items : List Cst) :
    childrenOf (itemMembers slot separator index items) = items.map .node := by
  induction items generalizing index with
  | nil => rfl
  | cons item items ih =>
    rw [itemMembers, childrenOf_append, childrenOf_separatorMembers,
      List.nil_append, childrenOf_child, ih, List.map_cons]

/-- The children among the members of a slot are the limbs of what
its field holds. -/
theorem childrenOf_slotMembers (htakes : Takes slot value) (index : Nat) :
    childrenOf (slotMembers index slot (some value)) = value.limbs := by
  cases htakes with
  | list => exact childrenOf_itemMembers index _ 0 _
  | @scalar field value => cases value <;> rfl
  | implied | node | some | absent | wrapped | nothing => rfl

theorem childrenOf_slotMembers_none (index : Nat) (slot : Slot) :
    childrenOf (slotMembers index slot none) = [] := by
  cases slot <;> rfl

/-- The children among the members of any slot are limbs of what
is found for it. -/
theorem childrenOf_slotMembers_sublist (index : Nat) (slot : Slot)
    (value? : Option Value) :
    (childrenOf (slotMembers index slot value?)).Sublist
      (value?.toList.flatMap Value.limbs) := by
  rw [slotMembers.eq_def]
  split
  case h_5 =>
    rw [childrenOf_itemMembers]
    simp [Value.limbs]
  case h_3 | h_4 | h_6 => exact List.Sublist.refl _
  all_goals exact List.nil_sublist _

theorem childrenOf_membersOf_sublist (find : Slot → Option Value) (index : Nat)
    (slots : Schedule) :
    (childrenOf (membersOf find index slots)).Sublist
      ((slots.filterMap find).flatMap Value.limbs) := by
  induction slots generalizing index with
  | nil => exact List.Sublist.refl _
  | cons slot slots ih =>
    rw [membersOf, childrenOf_append, List.filterMap_cons]
    have hslot := childrenOf_slotMembers_sublist index slot (find slot)
    cases hfind : find slot with
    | none =>
      rw [hfind] at hslot
      rw [List.sublist_nil.1 hslot]
      exact ih (index + 1)
    | some value =>
      rw [hfind] at hslot
      rw [List.flatMap_cons]
      exact List.Sublist.append (by simpa using hslot) (ih (index + 1))

/-- What the slots hold that place a field. -/
def heldValues (roles : List (VirtualRole × SchemaEntry))
    (look : String → Option Value) (slots : Schedule) : List Value :=
  slots.filterMap (held roles look)

theorem Supplied.tail (h : Supplied roles look (slot :: slots)) :
    Supplied roles look slots :=
  fun slot' hslot' => h slot' (List.mem_cons_of_mem _ hslot')

/-- A slot holds nothing or something that it is written with. -/
theorem Supplied.held (h : Supplied roles look slots) (hslot : slot ∈ slots) :
    Cst.held roles look slot = none ∨
      ∃ value, Cst.held roles look slot = some value ∧ Takes slot value := by
  rw [Cst.held]
  cases hd : Schema.placed? roles slot with
  | none => exact .inl rfl
  | some d =>
    obtain ⟨value, hvalue, htakes⟩ := h slot hslot d hd
    exact .inr ⟨value, hvalue, htakes⟩

theorem children_members (h : Supplied roles look slots) (index : Nat) :
    childrenOf (members roles look index slots) =
      (heldValues roles look slots).flatMap Value.limbs := by
  induction slots generalizing index with
  | nil => rfl
  | cons slot slots ih =>
    rw [members, childrenOf_append, ih h.tail, heldValues, heldValues,
      List.filterMap_cons]
    rcases h.held List.mem_cons_self with hnone | ⟨value, hvalue, htakes⟩
    · rw [hnone, childrenOf_slotMembers_none, List.nil_append]
    · rw [hvalue, childrenOf_slotMembers htakes, List.flatMap_cons]

theorem heldValues_eq (roles : List (VirtualRole × SchemaEntry))
    (look : String → Option Value) (slots : Schedule) :
    heldValues roles look slots =
      (slots.filterMap (Schema.placed? roles)).filterMap fun d => look d.name :=
  List.filterMap_filterMap.symm

/-! ### Nodes and virtual nodes -/

/-- A virtual node that a slot takes wraps the nodes of its value. -/
theorem exists_wraps (htakes : Takes (.virtual role) value) :
    ∃ wrapped items extras, value = .virtual role wrapped extras ∧
      Wraps wrapped items ∧ value.nodes = items := by
  cases htakes with
  | wrapped => exact ⟨_, _, _, rfl, .inl rfl, rfl⟩
  | nothing => exact ⟨_, [], _, rfl, .inr ⟨rfl, rfl⟩, rfl⟩

/-- The limbs of what a slot takes: nodes of the value, and a virtual node
around all of them. -/
theorem Takes.limbs (htakes : Takes slot value) {P : Value → Prop}
    (hnode : ∀ t ∈ value.nodes, P (.node t))
    (hvirtual : ∀ role wrapped items extras, Wraps wrapped items →
      (∀ t ∈ items, t ∈ value.nodes) → P (.virtual role wrapped extras)) :
    ∀ v ∈ value.limbs, P v := by
  cases htakes with
  | scalar | implied | absent => exact fun v hv => absurd hv List.not_mem_nil
  | node | some =>
    rintro v hv
    cases List.mem_singleton.1 hv
    exact hnode _ (List.mem_singleton_self _)
  | list =>
    rintro v hv
    obtain ⟨t, ht, rfl⟩ := List.mem_map.1 hv
    exact hnode t ht
  | wrapped =>
    rintro v hv
    cases List.mem_singleton.1 hv
    exact hvirtual _ _ _ _ (.inl rfl) fun t ht => ht
  | nothing =>
    rintro v hv
    cases List.mem_singleton.1 hv
    exact hvirtual _ _ _ _ (.inr ⟨rfl, rfl⟩) fun t ht =>
      absurd ht List.not_mem_nil

/-- A child among the members of a node stands for what some slot takes, or
for a node of it. -/
theorem LaidOut.exists_takes (h : LaidOut s type fields e) (extras : Extras)
    {v : Value}
    (hv : v ∈ childrenOf (members s.roles (fields.lookup ·) 0 e.schedule)) :
    ∃ slot ∈ e.schedule, ∃ value, Takes slot value ∧ v ∈ value.limbs ∧
      ∀ t ∈ value.nodes,
        t ∈ Branching.children (Cst.node type fields extras) := by
  rw [children_members h.takes] at hv
  obtain ⟨value, hvalue, hv⟩ := List.mem_flatMap.1 hv
  obtain ⟨slot, hslot, hheld⟩ := List.mem_filterMap.1 hvalue
  obtain ⟨d, hd, hlookup⟩ := Option.bind_eq_some_iff.1 hheld
  obtain ⟨value', hvalue', htakes⟩ := h.exists_value hslot hd
  cases hlookup.symm.trans hvalue'
  exact ⟨slot, hslot, value, htakes, hv,
    fun t ht => List.mem_flatMap.2 ⟨_, Named.mem_of_lookup hlookup, ht⟩⟩

theorem LaidOut.limbs (h : LaidOut s type fields e) {P : Value → Prop}
    (extras : Extras)
    (hnode : ∀ t ∈ Branching.children (Cst.node type fields extras),
      P (.node t))
    (hvirtual : ∀ role wrapped items extras', Wraps wrapped items →
      (∀ t ∈ items, t ∈ Branching.children (Cst.node type fields extras)) →
      P (.virtual role wrapped extras')) :
    ∀ v ∈ childrenOf (members s.roles (fields.lookup ·) 0 e.schedule), P v := by
  intro v hv
  obtain ⟨slot, -, value, htakes, hv, hchild⟩ := h.exists_takes extras hv
  exact htakes.limbs (fun t ht => hnode t (hchild t ht))
    (fun role wrapped items extras' hwraps hitems =>
      hvirtual role wrapped items extras' hwraps fun t ht =>
        hchild t (hitems t ht)) v hv

theorem LaidOut.mem_children (here : LaidOut s type fields e)
    (hslot : slot ∈ e.schedule)
    (hheld : held s.roles (fields.lookup ·) slot = some value) {v : Value}
    (hv : v ∈ value.limbs) :
    v ∈ childrenOf (members s.roles (fields.lookup ·) 0 e.schedule) := by
  rw [children_members here.takes]
  exact List.mem_flatMap.2 ⟨value, List.mem_filterMap.2 ⟨slot, hslot, hheld⟩,
    hv⟩

/-- The one field that a virtual node fills is a list. -/
theorem supplied_virtual (hfits : Schema.RoleFits s.strategy role e)
    (items : List Cst) :
    Supplied s.roles (fun _ => some (.list items)) e.schedule := by
  intro slot hslot d hd
  refine ⟨_, rfl, ?_⟩
  obtain ⟨name, hname⟩ := hfits.wraps
  have hmem : d ∈ e.schedule.filterMap (Schema.placed? s.roles) :=
    List.mem_filterMap.2 ⟨slot, hslot, hd⟩
  rw [hfits.placed, hname] at hmem
  cases List.mem_singleton.1 hmem
  rw [Schema.shape_eq_list] at hd
  cases slot with
  | list field separator => exact .list
  | «virtual» role' => exact absurd hslot (hfits.notMem_virtual role')
  | extras _ | token _ | scalar _ | implied _ | node _ | optional _ =>
    exact nomatch (congrArg (Option.map FieldDef.shape) hd : _ =
      some FieldShape.list)

theorem heldValues_virtual (hfits : Schema.RoleFits s.strategy role e)
    (items : List Cst) :
    heldValues s.roles (fun _ => some (.list items)) e.schedule =
      [.list items] := by
  obtain ⟨name, hname⟩ := hfits.wraps
  rw [heldValues_eq, hfits.placed, hname]
  rfl

/-- The children of a virtual node are its items. -/
theorem children_virtual (hfits : Schema.RoleFits s.strategy role e)
    (items : List Cst) :
    childrenOf (members s.roles (fun _ => some (.list items)) 0 e.schedule) =
      items.map .node := by
  rw [children_members (supplied_virtual hfits items), heldValues_virtual hfits]
  exact List.flatMap_singleton ..

/-- What holds of the items of a virtual node holds of its children. -/
theorem forall_children_virtual (hfits : Schema.RoleFits s.strategy role e)
    {P : Value → Prop} (h : ∀ t ∈ items, P (.node t)) :
    ∀ value ∈ childrenOf (members s.roles
      (fun _ => some (.list items)) 0 e.schedule), P value := by
  rw [children_virtual hfits]
  exact List.forall_mem_map.2 h

/-! ### Children that can be written -/

/-- What is written has been made of something that can be written. -/
theorem exists_pieces {schedule : Schedule} {left : Option Write.Left}
    {ms : List (Element × Member)}
    (h : Write.along s owner schedule own root left (contents s ms) = .ok ps)
    {m : Element × Member} (hm : m ∈ ms) :
    ∃ inside, (m.2.content s).pieces = .ok inside := by
  induction ms generalizing left ps with
  | nil => exact absurd hm List.not_mem_nil
  | cons m' ms ih =>
    rw [contents, List.map_cons, Write.along_cons] at h
    obtain ⟨between, -, h⟩ := Outcome.bind_eq_ok.1 h
    obtain ⟨inside, hinside, h⟩ := Outcome.bind_eq_ok.1 h
    obtain ⟨rest, hrest, -⟩ := Outcome.bind_eq_ok.1 h
    rcases List.mem_cons.1 hm with rfl | hm
    · exact ⟨inside, hinside⟩
    · exact ih hrest hm

/-- The children among members that are written can be written. -/
theorem exists_pieces_of_children {schedule : Schedule}
    {left : Option Write.Left} {ms : List (Element × Member)}
    (h : Write.along s owner schedule own root left (contents s ms) = .ok ps)
    (hvalue : value ∈ childrenOf ms) :
    ∃ inside, ((Member.child value).content s).pieces = .ok inside := by
  obtain ⟨⟨e, m⟩, hm, hchild⟩ := List.mem_filterMap.1 hvalue
  cases m with
  | word text => exact nomatch hchild
  | child value' =>
    cases Option.some.inj hchild
    exact exists_pieces h hm

/-- The items that a virtual node wraps can be written with it. -/
theorem exists_pieces_of_virtual (hs : s.Sound) (hwraps : Wraps wrapped items)
    (h : Write.frame s (.virtual role) own false
      (.wrapped (wrapped.map (Write.part s))) = .ok ps)
    (ht : t ∈ items) : ∃ inside, Write.node s false t = .ok inside := by
  obtain ⟨e, he⟩ := exists_entry h
  have hfits := hs.role role e he
  obtain ⟨-, halong⟩ := along_of_virtual hfits he hwraps h
  have hchild : Value.node t ∈ childrenOf
      (members s.roles (fun _ => some (.list items)) 0 e.schedule) := by
    rw [children_virtual hfits]
    exact List.mem_map_of_mem ht
  exact exists_pieces_of_children halong hchild

/-- The children of a node can be written with it. -/
theorem LaidOut.exists_pieces (hs : s.Sound) (hlaid : LaidOut s type fields e)
    (h : Write.frame s (.node type) own root (.fields (Write.parts s fields)) =
      .ok ps) (ht : t ∈ fields.flatMap fun field => field.2.nodes) :
    ∃ inside, Write.node s false t = .ok inside := by
  obtain ⟨⟨name, value⟩, hvalue, ht⟩ := List.mem_flatMap.1 ht
  obtain ⟨slot, hslot, d, hplaced, rfl, htakes⟩ := hlaid.exists_slot hvalue
  obtain ⟨-, halong⟩ := along_of_node hlaid h
  have hheld : held s.roles (fields.lookup ·) slot = some value := by
    rw [held, hplaced, Option.bind_some, Named.lookup_of_mem hlaid.nodup hvalue]
  have hlimb : ∀ v ∈ value.limbs, ∃ inside,
      ((Member.child v).content s).pieces = .ok inside :=
    fun v hv =>
      exists_pieces_of_children halong (hlaid.mem_children hslot hheld hv)
  cases htakes with
  | scalar | implied | absent | nothing => exact absurd ht List.not_mem_nil
  | node | some =>
    cases List.mem_singleton.1 ht
    exact hlimb _ (List.mem_singleton_self _)
  | list => exact hlimb _ (List.mem_map_of_mem ht)
  | wrapped =>
    obtain ⟨inside, hinside⟩ := hlimb _ (List.mem_singleton_self _)
    exact exists_pieces_of_virtual hs (.inl rfl) hinside ht

end

end Cst

end Lossless
