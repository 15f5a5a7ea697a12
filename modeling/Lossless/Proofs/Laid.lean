import Lossless.Proofs.Limbs
import Lossless.Proofs.Shell

/-!
# Trees that have a source

A tree may hold virtual nodes in odd places. One that can be written, and whose
syntax tree belongs to the grammar, does not: all its nodes are laid out
(`laid_of_pieces`), and if no virtual node wraps an empty list the tree has the
shape that building gives to its syntax tree (`blank_of_laid`). The only freedom
left is in what its records hold.
-/

namespace Lossless

/-- The schedules of a schema name at most one virtual node each. -/
def Schema.Lone (s : Schema) : Prop :=
  ∀ owner e, s.entry? owner = some e →
    ∀ role ∈ e.schedule.roles, ∀ role' ∈ e.schedule.roles, role = role'

namespace Cst

open Write (Inner Origin Content)

/-- A tree all of whose nodes are laid out, and none but the first of the
type of a root. -/
inductive Laid (s : Schema) : Cst → Prop
  | node {type : String} {fields : List (String × Value)}
      {extras : Extras} {e : SchemaEntry} (here : LaidOut s type fields e)
      (inner : ∀ t ∈ Branching.children (Cst.node type fields extras),
        t.type ≠ s.grammar.root)
      (below : ∀ t ∈ Branching.children (Cst.node type fields extras),
        Laid s t) : Laid s (.node type fields extras)

/-- A virtual node around an empty list, which building never makes. -/
def Value.wrapsEmpty : Value → Bool
  | .virtual _ (some (.list [])) _ => true
  | _ => false

/-- No virtual node in a tree wraps an empty list. -/
def WrapsSome (t : Cst) : Prop :=
  ∀ u ∈ Branching.nodes t, ∀ field ∈ u.fields, field.2.wrapsEmpty = false

instance (t : Cst) : Decidable t.WrapsSome :=
  inferInstanceAs (Decidable (∀ u ∈ Branching.nodes t, ∀ field ∈ u.fields,
    field.2.wrapsEmpty = false))

theorem WrapsSome.below {t u : Cst} (h : t.WrapsSome)
    (hu : u ∈ Branching.children t) : u.WrapsSome :=
  fun w hw => h w (Branching.mem_nodes_of_mem_children hu hw)

/-! ### Syntax trees of fields -/

section

variable {fields : List (String × Value)} {fields' : List (String × Ast.Value)}
  {name : String}

theorem names_of_plainFields (h : plainFields fields = some fields') :
    fields'.map Prod.fst = fields.map Prod.fst := by
  induction fields generalizing fields' with
  | nil =>
    cases Option.some.inj h
    rfl
  | cons field fields ih =>
    rw [plainFields] at h
    obtain ⟨value', hvalue, h⟩ := Option.bind_eq_some_iff.1 h
    obtain ⟨others, hothers, h⟩ := Option.bind_eq_some_iff.1 h
    rw [← Option.some.inj h, List.map_cons, List.map_cons, ih hothers]

theorem lookup_plainFields (h : plainFields fields = some fields')
    {value : Value} (hvalue : fields.lookup name = some value) :
    ∃ value', fields'.lookup name = some value' ∧
      plainValue value = some value' := by
  induction fields generalizing fields' with
  | nil => exact nomatch hvalue
  | cons field fields ih =>
    rw [plainFields] at h
    obtain ⟨value', hvalue', h⟩ := Option.bind_eq_some_iff.1 h
    obtain ⟨others, hothers, h⟩ := Option.bind_eq_some_iff.1 h
    rw [← Option.some.inj h, List.lookup_cons]
    rw [List.lookup_cons] at hvalue
    cases hname : name == field.1 with
    | true =>
      rw [hname] at hvalue
      cases Option.some.inj hvalue
      exact ⟨value', rfl, hvalue'⟩
    | false =>
      rw [hname] at hvalue
      exact ih hothers hvalue

/-- The field of a syntax tree comes from a field of the same name. -/
theorem exists_of_lookup_plainFields (h : plainFields fields = some fields')
    {value' : Ast.Value} (hvalue' : fields'.lookup name = some value') :
    ∃ value, fields.lookup name = some value ∧
      plainValue value = some value' := by
  have hname : name ∈ fields.map Prod.fst :=
    names_of_plainFields h ▸ Named.mem_keys_of_lookup hvalue'
  obtain ⟨value, hvalue⟩ := Named.exists_lookup hname
  obtain ⟨value'', hlookup, hplain⟩ := lookup_plainFields h hvalue
  cases hvalue'.symm.trans hlookup
  exact ⟨value, hvalue, hplain⟩

theorem plain_of_mem_plainItems {items : List Cst} {trees : List Ast}
    (h : plainItems items = some trees) {t : Cst} (ht : t ∈ items) :
    ∃ a ∈ trees, t.plain = some a := by
  induction items generalizing trees with
  | nil => exact absurd ht List.not_mem_nil
  | cons item items ih =>
    rw [plainItems] at h
    obtain ⟨tree, htree, h⟩ := Option.bind_eq_some_iff.1 h
    obtain ⟨others, hothers, h⟩ := Option.bind_eq_some_iff.1 h
    rw [← Option.some.inj h]
    rcases List.mem_cons.1 ht with rfl | ht
    · exact ⟨tree, List.mem_cons_self, htree⟩
    · obtain ⟨a, ha, hplain⟩ := ih hothers ht
      exact ⟨a, List.mem_cons_of_mem _ ha, hplain⟩

theorem plain_of_mem_nodes {value : Value} {value' : Ast.Value}
    (h : plainValue value = some value') {t : Cst} (ht : t ∈ value.nodes) :
    ∃ a ∈ value'.nodes, t.plain = some a := by
  match value with
  | .node child =>
    cases List.mem_singleton.1 ht
    obtain ⟨a, ha, rfl⟩ := Option.map_eq_some_iff.1 h
    exact ⟨a, List.mem_singleton_self a, ha⟩
  | .absent | .scalar _ | .virtual _ none _ => exact absurd ht List.not_mem_nil
  | .list items | .virtual _ (some (.list items)) _ =>
    obtain ⟨trees, htrees, rfl⟩ := Option.map_eq_some_iff.1 h
    exact plain_of_mem_plainItems htrees ht
  | .virtual _ (some (.node _)) _ | .virtual _ (some .absent) _
  | .virtual _ (some (.scalar _)) _ | .virtual _ (some (.virtual ..)) _ =>
    exact nomatch h

end

section

variable {s : Schema} {type name : String} {fields : List (String × Value)}
  {e : SchemaEntry} {owner : Owner} {own : Extras} {root : Bool}
  {ps : List Piece} {value : Value}

/-! ### What can be written is laid out -/

/-- The elements of a schedule are those of its slots. -/
theorem exists_slotElements {o : Origin} {index : Nat} {slots : Schedule}
    {es : List (Element × Content)}
    (h : Write.elements owner o index slots = .ok es) {slot : Slot}
    (hslot : slot ∈ slots) :
    ∃ i here, Write.slotElements owner o i slot = .ok here := by
  induction slots generalizing index es with
  | nil => exact absurd hslot List.not_mem_nil
  | cons first slots ih =>
    rw [Write.elements] at h
    obtain ⟨here, hhere, h⟩ := Outcome.bind_eq_ok.1 h
    obtain ⟨further, hfurther, -⟩ := Outcome.bind_eq_ok.1 h
    rcases List.mem_cons.1 hslot with rfl | hslot
    · exact ⟨index, here, hhere⟩
    · exact ih hfurther hslot

/-- A slot without virtual node is written with what its field holds, if that
has the shape it needs. -/
theorem takes_of_fits {slot : Slot} {d : FieldDef} {value' : Ast.Value}
    {i : Nat} {here : List (Element × Content)}
    (hfield : slot.field? = some d) (hvalue : fields.lookup d.name = some value)
    (hplain : plainValue value = some value')
    (hfits : d.shape.fits value' = true)
    (hwritten : Write.slotElements owner
      (.fields (Write.parts s fields)) i slot = .ok here) :
    Takes slot value := by
  have hno : ∀ role wrapped extras, value = .virtual role wrapped extras →
      ∃ trees, value' = .list trees := by
    rintro role wrapped extras rfl
    cases wrapped with
    | none => exact ⟨[], (Option.some.inj hplain).symm⟩
    | some inner =>
      cases inner with
      | list items =>
        obtain ⟨trees, -, rfl⟩ := Option.map_eq_some_iff.1 hplain
        exact ⟨trees, rfl⟩
      | _ => cases hplain
  cases slot with
  | extras label | token text | virtual role => cases hfield
  | list field separator =>
    cases Option.some.inj hfield
    -- a list that is written stands in its field, without virtual node
    simp only [Write.slotElements, Origin.items?, Origin.part?,
      Write.lookup_parts, hvalue] at hwritten
    cases value with
    | list items => exact .list
    | virtual role wrapped extras => cases wrapped <;> cases hwritten
    | _ => cases hwritten
  | scalar field | implied field | node field | optional field =>
    cases Option.some.inj hfield
    cases value with
    | virtual role wrapped extras =>
      obtain ⟨trees, rfl⟩ := hno role wrapped extras rfl
      cases hfits
    | list items =>
      obtain ⟨trees, -, rfl⟩ := Option.map_eq_some_iff.1 hplain
      cases hfits
    | node child =>
      obtain ⟨a, -, rfl⟩ := Option.map_eq_some_iff.1 hplain
      first
        | exact .node
        | exact .some
        | cases hfits
    | absent =>
      cases Option.some.inj hplain
      first
        | exact .absent
        | cases hfits
    | scalar value =>
      cases Option.some.inj hplain
      first
        | exact .scalar
        | exact .implied
        | cases hfits

/-- A virtual node that is written stands in some field. -/
theorem exists_virtual_of_slotElements {role : VirtualRole} {i : Nat}
    {here : List (Element × Content)}
    (h : Write.slotElements owner (.fields (Write.parts s fields)) i
      (.virtual role) = .ok here) :
    ∃ name wrapped extras,
      (name, Value.virtual role wrapped extras) ∈ fields := by
  rw [Write.slotElements] at h
  split at h
  · rename_i inner hinner
    rw [Origin.virtual?] at hinner
    obtain ⟨⟨name, part⟩, hmem, hpart⟩ :=
      List.exists_of_findSome?_eq_some hinner
    rw [Write.parts_eq_map] at hmem
    obtain ⟨⟨name', value⟩, hvalue, heq⟩ := List.mem_map.1 hmem
    obtain ⟨rfl, rfl⟩ := Prod.mk.inj heq
    cases value with
    | virtual role' wrapped extras =>
      refine ⟨name', wrapped, extras, ?_⟩
      cases wrapped with
      | none | some _ =>
        simp only [Write.part, Option.ite_none_right_eq_some] at hpart
        exact hpart.1 ▸ hvalue
    | _ => cases hpart
  · cases h

/-- A virtual node that is written stands in the field that its role wraps, if
every other slot finds in its field what it is written with. -/
theorem lookup_virtual (hlone : s.Lone)
    (hentry : s.entry? (.node type) = some e)
    (hnodup : (fields.map Prod.fst).Nodup)
    (hnames : (Schema.placedNames s.roles e.schedule).Perm
      (fields.map Prod.fst))
    (hown : ∀ slot ∈ e.schedule, ∀ d, slot.field? = some d →
      Schema.placed? s.roles slot = some d →
      ∃ value, fields.lookup d.name = some value ∧ Takes slot value)
    {role : VirtualRole} (hslot : .virtual role ∈ e.schedule) {d : FieldDef}
    (hplaced : Schema.placed? s.roles (.virtual role) = some d) {i : Nat}
    {here : List (Element × Content)}
    (h : Write.slotElements owner (.fields (Write.parts s fields)) i
      (.virtual role) = .ok here) :
    ∃ wrapped extras,
      fields.lookup d.name = some (.virtual role wrapped extras) := by
  obtain ⟨name, wrapped, extras, hvirtual⟩ := exists_virtual_of_slotElements h
  have hlookup := Named.lookup_of_mem hnodup hvirtual
  obtain ⟨d', hd', rfl⟩ :=
    List.mem_map.1 (hnames.mem_iff.2 (Named.mem_keys_of_lookup hlookup))
  obtain ⟨slot', hslot', hplaced'⟩ := List.mem_filterMap.1 hd'
  -- no other slot takes a virtual node, and no other virtual slot is there
  have hd : d' = d := by
    cases slot' with
    | extras label | token text => exact nomatch hplaced'
    | scalar field | implied field | node field | optional field
    | list field separator =>
      obtain ⟨value, hvalue, htakes⟩ := hown _ hslot' d' hplaced' hplaced'
      cases hlookup.symm.trans hvalue
      exact nomatch htakes
    | virtual role' =>
      have hrole : role' = role :=
        hlone _ e hentry role' (List.mem_filterMap.2 ⟨_, hslot', rfl⟩) role
          (List.mem_filterMap.2 ⟨_, hslot, rfl⟩)
      subst hrole
      exact Option.some.inj (hplaced'.symm.trans hplaced)
  exact ⟨wrapped, extras, hd ▸ hlookup⟩

theorem takes_virtual {role : VirtualRole} {wrapped : Option Value}
    {extras : Extras} {value' : Ast.Value}
    (h : plainValue (.virtual role wrapped extras) = some value') :
    Takes (.virtual role) (.virtual role wrapped extras) := by
  match wrapped with
  | none => exact .nothing
  | some (.list items) => exact .wrapped
  | some (.node _) | some .absent | some (.scalar _) | some (.virtual ..) =>
    exact nomatch h

/-- A node that can be written and fits the grammar is laid out. -/
theorem laidOut_of_elements (hs : s.Sound) (hlone : s.Lone)
    {fields' : List (String × Ast.Value)} {declared : List FieldDef}
    (hdistinct : (declared.map FieldDef.name).Nodup)
    (hdeclared : s.grammar.fields? type = some declared)
    (hentry : s.entry? (.node type) = some e)
    (hplain : plainFields fields = some fields')
    (hnames : fields'.map Prod.fst = declared.map FieldDef.name)
    (hshapes : ∀ x ∈ declared.zip fields', x.1.shape.fits x.2.2 = true)
    {es : List (Element × Content)}
    (helements : Write.elements (.node type)
      (.fields (Write.parts s fields)) 0 e.schedule = .ok es) :
    LaidOut s type fields e := by
  obtain ⟨declared', hdeclared', hfits⟩ := hs.node type e hentry
  cases hdeclared.symm.trans hdeclared'
  have hperm := hfits.perm_of_nodup hdistinct
  have hfieldNames : fields.map Prod.fst = declared.map FieldDef.name := by
    rw [← names_of_plainFields hplain, hnames]
  have hnodup : (fields.map Prod.fst).Nodup := hfieldNames ▸ hdistinct
  have hplacedNames :
      (Schema.placedNames s.roles e.schedule).Perm (fields.map Prod.fst) := by
    rw [hfieldNames]
    exact hperm.map FieldDef.name
  -- what a slot places stands in its field, with a shape that the slot
  -- can be written with
  have hheld : ∀ slot ∈ e.schedule, ∀ d, Schema.placed? s.roles slot = some d →
      ∃ value value', fields.lookup d.name = some value ∧
        plainValue value = some value' ∧ d.shape.fits value' = true := by
    intro slot hslot d hd
    have hmem : d ∈ declared :=
      hperm.mem_iff.1 (List.mem_filterMap.2 ⟨slot, hslot, hd⟩)
    obtain ⟨value', hvalue', hfit⟩ :=
      Grammar.exists_field hdistinct hnames hshapes hmem
    obtain ⟨value, hvalue, hplainValue⟩ :=
      exists_of_lookup_plainFields hplain hvalue'
    exact ⟨value, value', hvalue, hplainValue, hfit⟩
  have hown : ∀ slot ∈ e.schedule, ∀ d, slot.field? = some d →
      Schema.placed? s.roles slot = some d →
      ∃ value, fields.lookup d.name = some value ∧ Takes slot value := by
    intro slot hslot d hd hplaced
    obtain ⟨value, value', hvalue, hplainValue, hfit⟩ :=
      hheld slot hslot d hplaced
    obtain ⟨i, here, hhere⟩ := exists_slotElements helements hslot
    exact ⟨value, hvalue, takes_of_fits hd hvalue hplainValue hfit hhere⟩
  refine ⟨hentry, hnodup, hplacedNames, fun slot hslot d hplaced => ?_⟩
  cases slot with
  | extras label | token text => exact nomatch hplaced
  | scalar field | implied field | node field | optional field
  | list field separator =>
    exact hown _ hslot d hplaced hplaced
  | virtual role =>
    obtain ⟨i, here, hhere⟩ := exists_slotElements helements hslot
    obtain ⟨wrapped, extras, hlookup⟩ :=
      lookup_virtual hlone hentry hnodup hplacedNames hown hslot hplaced hhere
    obtain ⟨value, value', hvalue, hplainValue, -⟩ := hheld _ hslot d hplaced
    cases hlookup.symm.trans hvalue
    exact ⟨_, hlookup, takes_virtual hplainValue⟩

/-- A node that can be written and whose syntax tree belongs to the grammar is
laid out, and its children are such nodes too. -/
theorem laidOut_of_node (hs : s.Sound) (hlone : s.Lone)
    (hdistinct : s.grammar.Distinct) {extras : Extras} {a : Ast}
    (hplain : (Cst.node type fields extras).plain = some a)
    (ha : s.grammar.Conforms a)
    (h : Write.node s root (.node type fields extras) = .ok ps) :
    (∃ e, LaidOut s type fields e) ∧
      ∀ u ∈ Branching.children (Cst.node type fields extras),
        ∃ b inside, u.plain = some b ∧
          s.grammar.Conforms b ∧ Write.node s false u = .ok inside := by
  obtain ⟨fields', hfields, rfl⟩ := Option.map_eq_some_iff.1 hplain
  cases ha with
  | @node _ _ declared hdeclared hnames hshapes hbelow =>
    obtain ⟨e, hentry⟩ := hs.covers type declared hdeclared
    rw [Write.node] at h
    obtain ⟨es, helements, -⟩ := frame_eq_ok hentry h
    have hlaid := laidOut_of_elements hs hlone
      (hdistinct type declared hdeclared) hdeclared hentry
      hfields hnames hshapes helements
    refine ⟨⟨e, hlaid⟩, fun u hu => ?_⟩
    obtain ⟨inside, hinside⟩ := hlaid.exists_pieces hs h hu
    obtain ⟨⟨name, value⟩, hvalue, hnode⟩ := List.mem_flatMap.1 hu
    obtain ⟨value', hvalue', hplainValue⟩ :=
      lookup_plainFields hfields (Named.lookup_of_mem hlaid.nodup hvalue)
    obtain ⟨b, hb, hplainNode⟩ := plain_of_mem_nodes hplainValue hnode
    exact ⟨b, inside, hplainNode, hbelow b (Ast.mem_children hvalue' hb),
      hinside⟩

/-- All nodes of a tree that can be written are laid out, if its syntax tree
belongs to the grammar. -/
theorem laidOut_of_pieces (hs : s.Sound) (hlone : s.Lone)
    (hdistinct : s.grammar.Distinct) (t : Cst) {a : Ast}
    (hplain : t.plain = some a) (ha : s.grammar.Conforms a)
    (h : Write.node s root t = .ok ps) :
    ∀ u ∈ Branching.nodes t, ∃ e, LaidOut s u.type u.fields e := by
  induction t using Branching.induction generalizing a root ps with
  | step t ih =>
    obtain ⟨type, fields, extras⟩ := t
    obtain ⟨here, hchildren⟩ := laidOut_of_node hs hlone hdistinct hplain ha h
    intro u hu
    rw [Branching.nodes_eq] at hu
    rcases List.mem_cons.1 hu with rfl | hu
    · exact here
    · obtain ⟨w, hw, hu⟩ := List.mem_flatMap.1 hu
      obtain ⟨b, inside, hb, hconforms, hinside⟩ := hchildren w hw
      exact ih w hw hb hconforms hinside u hu

/-- A tree that can be written is laid out, if its syntax tree belongs to the
grammar and no node below it has the type of a root. -/
theorem laid_of_pieces (hs : s.Sound) (hlone : s.Lone)
    (hdistinct : s.grammar.Distinct) (t : Cst) {a : Ast}
    (hplain : t.plain = some a) (ha : s.grammar.Conforms a)
    (hinner : ∀ u ∈ (Branching.nodes t).tail, u.type ≠ s.grammar.root)
    (h : Write.node s root t = .ok ps) : Laid s t := by
  have hall := laidOut_of_pieces hs hlone hdistinct t hplain ha h
  clear hplain h
  induction t using Branching.induction with
  | step t ih =>
    obtain ⟨e, here⟩ := hall t (Branching.mem_nodes_self t)
    obtain ⟨type, fields, extras⟩ := t
    rw [Branching.nodes_eq, List.tail_cons] at hinner
    have hbelow : ∀ u ∈ Branching.children (Cst.node type fields extras),
        ∀ w ∈ Branching.nodes u, w.type ≠ s.grammar.root :=
      fun u hu w hw => hinner w (List.mem_flatMap.2 ⟨u, hu, hw⟩)
    exact .node here
      (fun u hu => hbelow u hu u (Branching.mem_nodes_self u)) fun u hu =>
      ih u hu (fun w hw => hbelow u hu w (List.mem_of_mem_tail hw))
        fun w hw => hall w (Branching.mem_nodes_of_mem_children hu hw)

/-! ### The shape of what is laid out -/

/-- The slot that places a field is written with it. -/
theorem LaidOut.slotOf?_takes (h : LaidOut s type fields e)
    (hvalue : (name, value) ∈ fields) :
    ∃ slot, s.slotOf? type name = some slot ∧ Takes slot value := by
  obtain ⟨slot, hslot, d, hplaced, rfl, -⟩ := h.exists_slot hvalue
  have hfind : (e.schedule.find? fun slot =>
      (Schema.placed? s.roles slot).any (·.name == d.name)).isSome := by
    rw [List.find?_isSome]
    exact ⟨slot, hslot, by simp [hplaced]⟩
  obtain ⟨slot', hslot'⟩ := Option.isSome_iff_exists.1 hfind
  have hany := List.find?_some hslot'
  obtain ⟨d', hplaced', hname⟩ := (Option.any_eq_true ..).1 hany
  obtain ⟨value', hvalue', htakes⟩ :=
    h.exists_value (List.mem_of_find?_eq_some hslot') hplaced'
  rw [eq_of_beq hname, Named.lookup_of_mem h.nodup hvalue] at hvalue'
  cases hvalue'
  refine ⟨slot', ?_, htakes⟩
  rw [Schema.slotOf?, h.entry]
  exact hslot'

theorem blankItems_of_plain {items : List Cst} {trees : List Ast}
    (h : plainItems items = some trees)
    (hitems : ∀ t ∈ items, ∀ a, t.plain = some a → t.blank = shell s a) :
    blankItems items = shellItems s trees := by
  induction items generalizing trees with
  | nil =>
    cases Option.some.inj h
    rfl
  | cons item items ih =>
    rw [plainItems] at h
    obtain ⟨tree, htree, h⟩ := Option.bind_eq_some_iff.1 h
    obtain ⟨others, hothers, h⟩ := Option.bind_eq_some_iff.1 h
    rw [← Option.some.inj h, blankItems, shellItems,
      hitems item List.mem_cons_self tree htree,
      ih hothers fun t ht => hitems t (List.mem_cons_of_mem _ ht)]

/-- What a slot is written with has the shape that building would
give to it there. -/
theorem blankValue_of_takes {slot : Slot} {value' : Ast.Value}
    (htakes : Takes slot value)
    (hsome : value.wrapsEmpty = false) (hplain : plainValue value = some value')
    (hnodes : ∀ t ∈ value.nodes, ∀ a, t.plain = some a → t.blank = shell s a) :
    blankValue value = wrap (some slot) (shellValue s value') := by
  cases htakes with
  | scalar | implied | absent | nothing =>
    cases Option.some.inj hplain
    rfl
  | node | some =>
    obtain ⟨a, ha, rfl⟩ := Option.map_eq_some_iff.1 hplain
    rw [blankValue, hnodes _ (List.mem_singleton_self _) a ha]
    rfl
  | list =>
    obtain ⟨trees, htrees, rfl⟩ := Option.map_eq_some_iff.1 hplain
    rw [blankValue, blankItems_of_plain htrees hnodes]
    rfl
  | @wrapped role items extras =>
    obtain ⟨trees, htrees, rfl⟩ := Option.map_eq_some_iff.1 hplain
    rw [blankValue, blankValue, blankItems_of_plain htrees hnodes]
    cases items with
    | nil => exact nomatch hsome
    | cons item items =>
      cases trees with
      | nil => exact absurd (length_of_plainItems htrees) (by simp)
      | cons tree trees => rfl

theorem blankFields_of_plain {fields' : List (String × Ast.Value)}
    (h : ∀ name value value', (name, value) ∈ fields →
      plainValue value = some value' →
      blankValue value = wrap (s.slotOf? type name) (shellValue s value'))
    (hplain : plainFields fields = some fields') :
    blankFields fields = shellFields s type fields' := by
  induction fields generalizing fields' with
  | nil =>
    cases Option.some.inj hplain
    rfl
  | cons field fields ih =>
    obtain ⟨name, value⟩ := field
    rw [plainFields] at hplain
    obtain ⟨value', hvalue', hplain⟩ := Option.bind_eq_some_iff.1 hplain
    obtain ⟨others, hothers, hplain⟩ := Option.bind_eq_some_iff.1 hplain
    rw [← Option.some.inj hplain, blankFields, shellFields,
      h name value value' List.mem_cons_self hvalue',
      ih (fun n v v' hv => h n v v' (List.mem_cons_of_mem _ hv)) hothers]

/-- A tree that is laid out has the shape that building gives to its syntax
tree, if its virtual nodes wrap no empty lists. -/
theorem blank_of_laid {t : Cst} (hlaid : Laid s t) (hsome : t.WrapsSome)
    {a : Ast} (hplain : t.plain = some a) : t.blank = shell s a := by
  induction hlaid generalizing a with
  | @node type fields extras e here inner below ih =>
    obtain ⟨fields', hfields, rfl⟩ := Option.map_eq_some_iff.1 hplain
    rw [blank, shell]
    congr 1
    refine blankFields_of_plain
      (fun name value value' hvalue hvalue' => ?_) hfields
    obtain ⟨slot, hslot, htakes⟩ := here.slotOf?_takes hvalue
    have hchild : ∀ u ∈ value.nodes,
        u ∈ Branching.children (Cst.node type fields extras) :=
      fun u hu => List.mem_flatMap.2 ⟨(name, value), hvalue, hu⟩
    rw [hslot]
    exact blankValue_of_takes htakes
      (hsome _ (Branching.mem_nodes_self _) _ hvalue) hvalue'
      fun u hu b hb => ih u (hchild u hu) (hsome.below (hchild u hu)) hb

/-! ### Trees of one shape -/

theorem takes_of_blank {slot : Slot} {value' : Value}
    (h : blankValue value' = blankValue value) (htakes : Takes slot value) :
    Takes slot value' := by
  cases htakes with
  | scalar | implied | absent | node | some | list =>
    match value' with
    | .node _ | .absent | .list _ | .scalar _ =>
      first
        | constructor
        | exact nomatch h
    | .virtual _ none _ | .virtual _ (some _) _ => exact nomatch h
  | wrapped =>
    match value' with
    | .virtual _ (some (.list items)) _ =>
      obtain ⟨rfl, -⟩ := Value.virtual.inj h
      constructor
    | .virtual _ none _ | .node _ | .absent | .list _ | .scalar _ =>
      exact nomatch h
    | .virtual _ (some (.node _)) _ | .virtual _ (some .absent) _
    | .virtual _ (some (.scalar _)) _ =>
      exact nomatch h
    | .virtual _ (some (.virtual _ none _)) _
    | .virtual _ (some (.virtual _ (some _) _)) _ =>
      exact nomatch h
  | nothing =>
    match value' with
    | .virtual _ none _ =>
      cases h
      constructor
    | .virtual _ (some _) _ | .node _ | .absent | .list _ | .scalar _ =>
      exact nomatch h

/-- Whether a node is laid out is a matter of its shape. -/
theorem LaidOut.of_blank {fields' : List (String × Value)}
    (here : LaidOut s type fields e)
    (hfields : blankFields fields' = blankFields fields) :
    LaidOut s type fields' e := by
  have hnames : fields'.map Prod.fst = fields.map Prod.fst := by
    have hfst := congrArg (List.map Prod.fst) hfields
    rw [blankFields_eq_map, blankFields_eq_map, List.map_map,
      List.map_map] at hfst
    exact hfst
  refine ⟨here.entry, hnames ▸ here.nodup, hnames ▸ here.names,
    fun slot hslot d hd => ?_⟩
  obtain ⟨value, hvalue, htakes⟩ := here.exists_value hslot hd
  have hlookup := congrArg (List.lookup d.name) hfields
  rw [blankFields_eq_map, blankFields_eq_map, Named.lookup_map,
    Named.lookup_map, hvalue, Option.map_some] at hlookup
  obtain ⟨value', hvalue', hblank⟩ := Option.map_eq_some_iff.1 hlookup
  exact ⟨value', hvalue', takes_of_blank hblank htakes⟩

end

end Cst

end Lossless
