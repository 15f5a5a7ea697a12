import Lossless.Ast.Estree
import Lossless.Proofs.Conformance
import Lossless.Proofs.Placing
import Lossless.Proofs.Plain

/-!
# The shape of a built tree

`shell` is the shape that a schema gives to a syntax tree: the tree itself,
with a virtual node around every list that a role wraps. Whatever the tokens
are, a tree that is built has this shape (`blank_of_node`), so only its
records depend on them; and a tree of this shape holds the syntax tree it was
made from (`plain_shell`).
-/

namespace Lossless

/-- The slot of a node type that places a field. -/
def Schema.slotOf? (s : Schema) (type name : String) : Option Slot :=
  (s.entry? (.node type)).bind fun e =>
    e.schedule.find? fun slot => (placed? s.roles slot).any (·.name == name)

namespace Cst

open Build

/-- A value as a slot leaves it: a virtual node wraps a list, or nothing in the
place of an empty one. -/
def wrap : Option Slot → Value → Value
  | some (.virtual role), .list items =>
    .virtual role (wrappedValue (.list items)) .empty
  | _, value => value

mutual

/-- The shape of a syntax tree under a schema. -/
def shell (s : Schema) : Ast → Cst
  | .node type fields => .node type (shellFields s type fields) .empty

/-- The shape of the fields of a node of a type. -/
def shellFields (s : Schema) (type : String) :
    List (String × Ast.Value) → List (String × Value)
  | [] => []
  | (name, value) :: fields =>
    (name, wrap (s.slotOf? type name) (shellValue s value)) ::
      shellFields s type fields

/-- The shape of a value, before it is wrapped. -/
def shellValue (s : Schema) : Ast.Value → Value
  | .node t => .node (shell s t)
  | .absent => .absent
  | .list items => .list (shellItems s items)
  | .scalar value => .scalar value

/-- The shapes of some trees. -/
def shellItems (s : Schema) : List Ast → List Cst
  | [] => []
  | t :: items => shell s t :: shellItems s items

end

/-! ### The nodes of a shape -/

theorem shellItems_eq_map (s : Schema) (items : List Ast) :
    shellItems s items = items.map (shell s) := by
  induction items with
  | nil => rfl
  | cons t items ih => rw [shellItems, ih, List.map_cons]

theorem shellFields_eq_map (s : Schema) (type : String)
    (fields : List (String × Ast.Value)) :
    shellFields s type fields = fields.map fun field =>
      (field.1, wrap (s.slotOf? type field.1) (shellValue s field.2)) := by
  induction fields with
  | nil => rfl
  | cons field fields ih => rw [shellFields, ih, List.map_cons]

theorem nodes_wrap (slot : Option Slot) (value : Value) :
    (wrap slot value).nodes = value.nodes := by
  match slot, value with
  | some (.virtual role), .list [] => rfl
  | some (.virtual role), .list (item :: items) => rfl
  | some (.virtual role), .node _ | some (.virtual role), .absent => rfl
  | some (.virtual role), .scalar _ | some (.virtual role), .virtual .. => rfl
  | none, _ | some (.extras _), _ | some (.token _), _
  | some (.scalar _), _ => rfl
  | some (.implied _), _ | some (.node _), _ | some (.optional _), _
  | some (.list ..), _ => rfl

theorem children_shell (s : Schema) (t : Ast) :
    Branching.children (shell s t) = (Branching.children t).map (shell s) := by
  obtain ⟨type, fields⟩ := t
  change (shellFields s type fields).flatMap (fun field => field.2.nodes) =
    (fields.flatMap fun field => field.2.nodes).map (shell s)
  rw [shellFields_eq_map, List.flatMap_map, List.map_flatMap]
  refine List.flatMap_congr fun field _ => ?_
  rw [nodes_wrap]
  cases field.2 with
  | list items => exact shellItems_eq_map s items
  | _ => rfl

/-- A field of a shape that holds a virtual node is one that a slot of the
node type wraps. -/
theorem slotOf?_of_shell {s : Schema} {type name : String}
    {fields : List (String × Ast.Value)} {role : VirtualRole}
    {wrapped : Option Value} {extras : Extras}
    (h : (name, .virtual role wrapped extras) ∈ shellFields s type fields) :
    s.slotOf? type name = some (.virtual role) := by
  rw [shellFields_eq_map] at h
  obtain ⟨⟨name', value⟩, -, he⟩ := List.mem_map.1 h
  obtain ⟨rfl, hvalue⟩ := Prod.mk.inj he
  simp only at hvalue
  generalize s.slotOf? type name' = slot at hvalue
  match slot, value with
  | some (.virtual role'), .list items =>
    rw [shellValue, wrap] at hvalue
    injection hvalue with hrole
    rw [hrole]
  | some (.virtual role'), .node _ | some (.virtual role'), .absent =>
    exact nomatch hvalue
  | some (.virtual role'), .scalar _ => exact nomatch hvalue
  | none, value | some (.extras _), value | some (.token _),
      value | some (.scalar _), value
  | some (.implied _), value | some (.node _), value | some (.optional _), value
  | some (.list ..), value => cases value <;> exact nomatch hvalue

/-! ### The tree inside -/

theorem plainValue_wrap (slot : Option Slot) (value : Value) :
    plainValue (wrap slot value) = plainValue value := by
  match slot, value with
  | some (.virtual role), .list [] => rfl
  | some (.virtual role), .list (item :: items) => rfl
  | some (.virtual role), .node _ | some (.virtual role), .absent => rfl
  | some (.virtual role), .scalar _ | some (.virtual role), .virtual .. => rfl
  | none, _ | some (.extras _), _ | some (.token _), _
  | some (.scalar _), _ => rfl
  | some (.implied _), _ | some (.node _), _ | some (.optional _), _
  | some (.list ..), _ => rfl

mutual

/-- The shape of a syntax tree holds the syntax tree. -/
theorem plain_shell (s : Schema) (t : Ast) : (shell s t).plain = some t := by
  cases t with
  | node type fields =>
    rw [shell, plain, plainFields_shellFields s type fields]
    rfl

theorem plainFields_shellFields (s : Schema) (type : String)
    (fields : List (String × Ast.Value)) :
    plainFields (shellFields s type fields) = some fields := by
  cases fields with
  | nil => rfl
  | cons field fields =>
    rcases field with ⟨name, value⟩
    rw [shellFields, plainFields, plainValue_wrap,
      plainValue_shellValue s value, plainFields_shellFields s type fields]
    rfl

theorem plainValue_shellValue (s : Schema) (value : Ast.Value) :
    plainValue (shellValue s value) = some value := by
  cases value with
  | node t =>
    rw [shellValue, plainValue, plain_shell s t]
    rfl
  | absent => rfl
  | list items =>
    rw [shellValue, plainValue, plainItems_shellItems s items]
    rfl
  | scalar value => rfl

theorem plainItems_shellItems (s : Schema) (items : List Ast) :
    plainItems (shellItems s items) = some items := by
  cases items with
  | nil => rfl
  | cons t items =>
    rw [shellItems, plainItems, plain_shell s t, plainItems_shellItems s items]
    rfl

end

theorem lookup_shellFields (s : Schema) (type name : String)
    (fields : List (String × Ast.Value)) :
    (shellFields s type fields).lookup name =
      (fields.lookup name).map fun value =>
        wrap (s.slotOf? type name) (shellValue s value) := by
  induction fields with
  | nil => rfl
  | cons field fields ih =>
    rcases field with ⟨name', value⟩
    rw [shellFields, List.lookup_cons, List.lookup_cons, ih]
    by_cases hname : name = name'
    · subst hname
      simp
    · have hbeq : (name == name') = false := by simpa using hname
      simp only [hbeq]

theorem names_shellFields (s : Schema) (type : String)
    (fields : List (String × Ast.Value)) :
    (shellFields s type fields).map Prod.fst = fields.map Prod.fst := by
  induction fields with
  | nil => rfl
  | cons field fields ih => rw [shellFields, List.map_cons, List.map_cons, ih]

namespace Build

/-! ### Storing extras -/

theorem map_modify_of_eq {α β : Type} {g : α → β} {change : α → α}
    (h : ∀ a, g (change a) = g a) (l : List α) (i : Nat) :
    (l.modify i change).map g = l.map g := by
  induction l generalizing i with
  | nil => cases i <;> rfl
  | cons a l ih =>
    cases i with
    | zero => simp [h]
    | succ i => simp [ih]

theorem blank_withExtras (extras : Extras) (t : Cst) :
    (withExtras extras t).blank = t.blank := by
  cases t
  rfl

theorem blankValue_withLastRecord (extras : Extras) (value : Value) :
    blankValue (withLastRecord extras value) = blankValue value := by
  match value with
  | .node child => rw [withLastRecord, blankValue, blankValue, blank_withExtras]
  | .list items =>
    rw [withLastRecord, blankValue, blankValue, blankItems_eq_map,
      blankItems_eq_map, map_modify_of_eq (blank_withExtras extras)]
  | .virtual role none _ | .virtual role (some _) _ => rfl
  | .absent | .scalar _ => rfl

variable {c : Context} {f f' : Frame} {tokens rest : List SourceToken}
  {s : Schema}

theorem Stored.blank_eq {right : Element} {run : List Token}
    {handed : Option Handed} (h : Stored c f right run f' handed) :
    blankFields f'.fields = blankFields f.fields := by
  cases h with
  | left =>
    rw [Frame.update, blankFields_eq_map, blankFields_eq_map, List.map_map]
    refine List.map_congr_left fun field _ => ?_
    rw [Function.comp_apply]
    split
    · rw [blankValue_withLastRecord]
    · rfl
  | _ => rfl

theorem token_blank {e : Element} {text : String}
    (h : token c f e text tokens = .ok (f', rest)) :
    blankFields f'.fields = blankFields f.fields := by
  rcases token_eq_ok h with ⟨f₁, handed, t, hgap, -, rfl⟩
  exact (gap_eq_ok hgap).2.blank_eq

/-! ### Slots -/

/-- A child comes out in one shape, whatever it is built from. -/
def Child.Makes (ch : Child) (shape : Cst) : Prop :=
  ∀ handed tokens tree rest, ch.build handed tokens = .ok (tree, rest) →
    tree.blank = shape

theorem blankFields_append (fields fields' : List (String × Value)) :
    blankFields (fields ++ fields') =
      blankFields fields ++ blankFields fields' := by
  simp only [blankFields_eq_map, List.map_append]

theorem blankFields_addItem (f : Frame) (e : Element) (name : String)
    (item : Cst) :
    blankFields (f.addItem e name item).fields =
      (blankFields f.fields).map fun field =>
      if field.1 = name then (field.1, Frame.addItemTo item.blank field.2)
      else field := by
  rw [Frame.addItem, Frame.update, blankFields_eq_map, blankFields_eq_map,
    List.map_map, List.map_map]
  refine List.map_congr_left fun field _ => ?_
  rw [Function.comp_apply, Function.comp_apply]
  obtain ⟨name', value⟩ := field
  simp only
  split
  · cases value with
    | list items => simp [Frame.addItemTo, blankValue, blankItems_eq_map]
    | virtual role wrapped extras => cases wrapped <;> rfl
    | _ => rfl
  · rfl

/-- The items of a list come out in their shapes, behind those
that are there. -/
theorem fillItems_blank {slot index : Nat} {field : String}
    {separator : Option String} {ts : List Ast} {old : List (String × Value)}
    {items : List Cst} (hmakes : ∀ t ∈ ts, (child c t).Makes (shell s t))
    (hfresh : field ∉ old.map Prod.fst)
    (hf : blankFields f.fields = old ++ [(field, .list items)])
    (h : fillItems c slot field separator index f tokens (ts.map (child c)) =
      .ok (f', rest)) :
    blankFields f'.fields =
      old ++ [(field, .list (items ++ shellItems s ts))] := by
  induction ts generalizing index f tokens items with
  | nil =>
    cases Except.ok.inj h
    rw [shellItems, List.append_nil]
    exact hf
  | cons t ts ih =>
    rcases fillItems_cons_eq_ok h with ⟨f₁, tokens₁, f₂, handed, tokens₂, item,
      tokens₃, hseparated, hgap, hbuild, hitems⟩
    have h₁ : blankFields f₁.fields = blankFields f.fields := by
      cases hseparated with
      | nothing => rfl
      | token _ _ pass => exact token_blank pass
    have h₂ : blankFields f₂.fields = old ++ [(field, .list items)] := by
      rw [(gap_eq_ok hgap).2.blank_eq, h₁, hf]
    have hitem := hmakes t List.mem_cons_self _ _ _ _ hbuild
    have h₃ : blankFields (f₂.addItem (.item slot index) field item).fields =
        old ++ [(field, .list (items ++ [shell s t]))] := by
      rw [blankFields_addItem, h₂, List.map_append, hitem]
      congr 1
      · refine (List.map_congr_left fun x hx => ?_).trans (List.map_id _)
        have hne : x.1 ≠ field :=
          fun he => hfresh (he ▸ List.mem_map.2 ⟨x, hx, rfl⟩)
        rw [if_neg hne, id]
      · simp [Frame.addItemTo]
    rw [ih (fun u hu => hmakes u (List.mem_cons_of_mem _ hu)) h₃ hitems,
      shellItems, List.append_assoc]
    rfl

/-- The field that a slot gives to a node with some fields. -/
def shellSlot (s : Schema) (fields : List (String × Ast.Value)) (slot : Slot) :
    Option (String × Value) :=
  (Schema.placed? s.roles slot).bind fun d =>
    (fields.lookup d.name).map fun value =>
      (d.name, wrap (some slot) (shellValue s value))

/-- A builder of virtual nodes gives each of them the shape of its list. -/
def Shapes (s : Schema) (fields : List (String × Ast.Value))
    (virtual : VirtualBuilder) : Prop :=
  ∀ role handed tokens name value rest,
    virtual role handed tokens = .ok (name, value, rest) →
    shellSlot s fields (.virtual role) = some (name, blankValue value)

section Node

variable {type : String} {fields : List (String × Ast.Value)}
  {virtual : VirtualBuilder}

theorem Fills.blank {index : Nat} {slot : Slot}
    (hvirtual : Shapes s fields virtual)
    (hmakes : ∀ t ∈ Branching.children (Ast.node type fields),
      (Build.child c t).Makes (shell s t))
    (hfresh : ∀ d, Schema.placed? s.roles slot = some d →
      d.name ∉ f.fields.map Prod.fst)
    (h : Fills c ⟨type, parts c fields⟩ virtual index f tokens slot f' rest) :
    blankFields f'.fields =
      blankFields f.fields ++ (shellSlot s fields slot).toList := by
  cases h with
  | extras label => simp [shellSlot, Schema.placed?, Slot.field?]
  | token pass =>
    rw [token_blank pass]
    simp [shellSlot, Schema.placed?, Slot.field?]
  | scalar part pass =>
    rw [Frame.fill, blankFields_append, token_blank pass]
    simp [shellSlot, Schema.placed?, Slot.field?, field_of_part part,
      blankFields, blankValue, shellValue, wrap]
  | implied part =>
    rw [Frame.fill, blankFields_append]
    simp [shellSlot, Schema.placed?, Slot.field?, field_of_part part,
      blankFields, blankValue, shellValue, wrap]
  | child hslot part before build =>
    rcases field_of_part part with ⟨t, hvalue, rfl⟩
    have ht := hmakes t
      (Ast.mem_children hvalue (List.mem_singleton_self t)) _ _ _ _ build
    rw [Frame.addChild, Frame.fill, blankFields_append,
      (gap_eq_ok before).2.blank_eq, blankFields, blankValue, ht]
    rcases hslot with rfl | rfl <;>
      simp [shellSlot, Schema.placed?, Slot.field?, hvalue, blankFields,
        shellValue, wrap]
  | absent part =>
    rw [Frame.fill, blankFields_append]
    simp [shellSlot, Schema.placed?, Slot.field?, field_of_part part,
      blankFields, blankValue, shellValue, wrap]
  | @list field separator _ _ _ part items =>
    rcases field_of_part part with ⟨ts, hvalue, rfl⟩
    have hold : field ∉ (blankFields f.fields).map Prod.fst := by
      have := hfresh ⟨field, .list⟩ rfl
      rw [blankFields_eq_map, List.map_map]
      exact this
    have hstart : blankFields (f.fill field (.list [])).fields =
        blankFields f.fields ++ [(field, .list [])] := by
      rw [Frame.fill, blankFields_append]
      rfl
    have hitems : ∀ t ∈ ts, (Build.child c t).Makes (shell s t) :=
      fun t ht => hmakes t (Ast.mem_children hvalue ht)
    rw [fillItems_blank hitems hold hstart items]
    simp [shellSlot, Schema.placed?, Slot.field?, hvalue, shellValue, wrap]
  | virtual before build =>
    rw [Frame.addChild, Frame.fill, blankFields_append,
      (gap_eq_ok before).2.blank_eq, hvirtual _ _ _ _ _ _ build]
    rfl

theorem fillSlots_blank {index : Nat} {slots : Schedule}
    (hvirtual : Shapes s fields virtual)
    (hplaced : Placed s.roles ⟨type, parts c fields⟩ virtual)
    (hmakes : ∀ t ∈ Branching.children (Ast.node type fields),
      (child c t).Makes (shell s t))
    (hnodup : (f.fields.map Prod.fst ++ Schema.placedNames s.roles slots).Nodup)
    (h : fillSlots c ⟨type, parts c fields⟩ virtual index f tokens slots =
      .ok (f', rest)) :
    blankFields f'.fields =
      blankFields f.fields ++ slots.filterMap (shellSlot s fields) := by
  induction slots generalizing index f tokens with
  | nil =>
    cases Except.ok.inj h
    exact (List.append_nil _).symm
  | cons slot slots ih =>
    rcases fillSlots_cons_eq_ok h with ⟨f₁, tokens₁, hslot, hslots⟩
    rw [Schema.placedNames_cons, ← List.append_assoc,
      ← hslot.names hplaced] at hnodup
    have hfresh : ∀ d, Schema.placed? s.roles slot = some d →
        d.name ∉ f.fields.map Prod.fst := by
      intro d hd hmem
      have hfirst := (List.nodup_append.1 hnodup).1
      rw [hslot.names hplaced, hd] at hfirst
      exact (List.nodup_append.1 hfirst).2.2 _ hmem
        _ (List.mem_singleton_self _) rfl
    rw [ih hnodup hslots, hslot.blank hvirtual hmakes hfresh, List.append_assoc,
      List.filterMap_cons]
    cases shellSlot s fields slot <;> rfl

theorem shapes_refuse (s : Schema) (fields : List (String × Ast.Value))
    (role : VirtualRole) : Shapes s fields (refuse role) :=
  fun _ _ _ _ _ _ h => nomatch h

/-- A virtual node has the shape of the list that it wraps. -/
theorem shapes_virtualNode (hsound : c.schema.Sound)
    (hmakes : ∀ t ∈ Branching.children (Ast.node type fields),
      (child c t).Makes (shell c.schema t)) :
    Shapes c.schema fields (virtualNode c ⟨type, parts c fields⟩) := by
  intro role handed tokens name value rest h
  have hwrapped :=
    (placed_virtualNode hsound _ role handed tokens name value rest h).1
  rcases virtualNode_placed hsound h with ⟨entry, f, f', inner, children,
    hentry, hfits, hfield, hopen, -, hfill, hfields, rfl, hq⟩
  rcases field_of_part hq with ⟨ts, hvalue, rfl⟩
  have hnodup : (f.fields.map Prod.fst ++
      Schema.placedNames c.schema.roles entry.schedule).Nodup := by
    rw [hopen.fields, hfits.placedNames hfield]
    exact List.nodup_singleton _
  have hblank := fillSlots_blank (shapes_refuse c.schema fields role)
    (placed_refuse c.schema.roles _ role) hmakes hnodup hfill
  -- without virtual slots, the slots wrap nothing
  have hslots : entry.schedule.filterMap (shellSlot c.schema fields) =
      (entry.schedule.filterMap Slot.field?).filterMap fun d =>
        (fields.lookup d.name).map fun value =>
          (d.name, shellValue c.schema value) := by
    rw [← hfits.placed c.schema.roles, List.filterMap_filterMap]
    refine List.filterMap_congr fun slot hslot => ?_
    cases slot with
    | virtual role' => exact absurd hslot (hfits.notMem_virtual role')
    | _ => rfl
  rw [hfields, hopen.fields, hslots, hfield] at hblank
  simp only [blankFields, List.nil_append, List.filterMap_cons,
    List.filterMap_nil, hvalue, Option.map_some, List.cons.injEq, Prod.mk.injEq,
    true_and, and_true] at hblank
  rw [shellSlot, Schema.placed?, hwrapped, Option.bind_some, hvalue,
    Option.map_some, ← hblank]
  cases inner with
  | list items =>
    cases items with
    | nil => rfl
    | cons item items =>
      rw [blankValue, blankItems]
      simp [wrap, wrappedValue, blankValue, blankItems]
  | virtual role' wrapped extras => cases wrapped <;> cases hblank
  | _ => cases hblank

/-- What the slots of a schedule give to a field is what the first one that
places it gives. -/
theorem lookup_shellSlots {name : String} {value : Ast.Value}
    (hvalue : fields.lookup name = some value) (slots : Schedule) :
    (slots.filterMap (shellSlot s fields)).lookup name =
      (slots.find? fun slot =>
        (Schema.placed? s.roles slot).any (·.name == name)).map fun slot =>
        wrap (some slot) (shellValue s value) := by
  induction slots with
  | nil => rfl
  | cons slot slots ih =>
    rw [List.filterMap_cons, List.find?_cons, shellSlot]
    cases hd : Schema.placed? s.roles slot with
    | none => exact ih
    | some d =>
      rw [Option.bind_some, Option.any_some]
      by_cases hname : d.name = name
      · subst hname
        simp [hvalue]
      · have hbeq : (d.name == name) = false := by simpa using hname
        have hbeq' : (name == d.name) = false := by
          simpa using fun he => hname he.symm
        simp only [hbeq]
        rw [← ih]
        cases fields.lookup d.name with
        | none => rfl
        | some value' => simp [List.lookup_cons, hbeq']

/-- A node that is built has the shape of its tree. -/
theorem blank_of_node {root : Bool} {handed : Option Handed} {tree : Cst}
    {declared : List FieldDef} (hsound : c.schema.Sound)
    (hmakes : ∀ t ∈ Branching.children (Ast.node type fields),
      (child c t).Makes (shell c.schema t))
    (hdeclared : c.schema.grammar.fields? type = some declared)
    (hnames : fields.map Prod.fst = declared.map FieldDef.name)
    (h : node c ⟨type, parts c fields⟩ root handed tokens = .ok (tree, rest)) :
    tree.blank = shell c.schema (.node type fields) := by
  rcases node_eq_ok h with
    ⟨f, f₁, f', tokens₁, ordered, hopen, hfill, hroot, hordered, rfl⟩
  rcases hopen.entry with ⟨entry, hentry, hschedule⟩
  rw [hschedule] at hfill
  have hparts : (parts c fields).map Prod.fst = declared.map FieldDef.name := by
    rw [names_parts, hnames]
  rcases nodup_placedNames hsound hentry hdeclared hparts hfill with
    ⟨hperm, hnodup⟩
  have hstart : (f.fields.map Prod.fst ++
      Schema.placedNames c.schema.roles entry.schedule).Nodup := by
    rw [hopen.fields]
    exact hnodup
  have hblank := fillSlots_blank (shapes_virtualNode hsound hmakes)
    (placed_virtualNode hsound _) hmakes hstart hfill
  have hfinal : blankFields f'.fields =
      entry.schedule.filterMap (shellSlot c.schema fields) := by
    rw [hopen.fields] at hblank
    cases root with
    | true =>
      rcases hroot with ⟨handed', hgap⟩
      rw [(gap_eq_ok hgap).2.blank_eq, hblank]
      rfl
    | false =>
      rw [hroot.1, hblank]
      rfl
  rcases orderFields_eq_ok hdeclared hordered with ⟨hnames', hlookup⟩
  have hdistinct : (declared.map FieldDef.name).Nodup :=
    (hperm.map FieldDef.name).nodup_iff.1 hnodup
  rw [blank, shell]
  congr 1
  -- both lists of fields have the declared names, and under each of
  -- them the same value
  refine Named.ext ?_ ?_ fun name hname => ?_
  · rw [blankFields_eq_map, List.map_map, names_shellFields, hnames, ← hnames']
    rfl
  · rw [blankFields_eq_map, List.map_map]
    exact hnames' ▸ hdistinct
  · have hmem : name ∈ ordered.map Prod.fst := by
      rw [blankFields_eq_map, List.map_map] at hname
      exact hname
    rcases Named.exists_lookup hmem with ⟨value, hvalue⟩
    have hf :
        (blankFields f'.fields).lookup name = some (blankValue value) := by
      rw [blankFields_eq_map, Named.lookup_map,
        hlookup name value (Named.mem_of_lookup hvalue)]
      rfl
    have hfield : name ∈ fields.map Prod.fst := by
      rw [hnames, ← hnames']; exact hmem
    rcases Named.exists_lookup hfield with ⟨value', hvalue'⟩
    rw [blankFields_eq_map, Named.lookup_map, hvalue, lookup_shellFields,
      hvalue', Option.map_some, Option.map_some, ← hf, hfinal,
      lookup_shellSlots hvalue', Schema.slotOf?, hentry, Option.bind_some]
    cases hfind : entry.schedule.find? fun slot =>
        (Schema.placed? c.schema.roles slot).any (·.name == name) with
    | none =>
      rw [hfinal, lookup_shellSlots hvalue', hfind] at hf
      exact nomatch hf
    | some slot => rfl

end Node

/-- Whatever a tree is built from, its shape is that of the syntax tree. -/
theorem makes_shell (hsound : c.schema.Sound) (t : Ast)
    (ht : c.schema.grammar.Conforms t) :
    (child c t).Makes (shell c.schema t) := by
  induction t using Branching.induction with
  | step t ih =>
    cases ht with
    | node hdeclared hnames hshapes hbelow =>
      intro handed tokens tree rest h
      rw [child_build] at h
      exact blank_of_node hsound
        (fun u hu => ih u hu (hbelow u hu)) hdeclared hnames h

end Build

/-- The shape of a tree that `build` returns. -/
theorem blank_of_build {s : Schema} {t : Ast} {tokens : List SourceToken}
    {tree : Cst} (hsound : s.Sound) (h : build s t tokens = .ok tree) :
    tree.blank = shell s t := by
  rcases build_eq_ok h with ⟨hcheck, hnode⟩
  cases Grammar.conforms_of_check hcheck with
  | node hdeclared hnames hshapes hbelow =>
    exact Build.blank_of_node hsound (fun u hu =>
      Build.makes_shell hsound u (hbelow u hu))
      hdeclared hnames hnode

theorem plain_of_build {s : Schema} {t : Ast} {tokens : List SourceToken}
    {tree : Cst} (hsound : s.Sound) (h : build s t tokens = .ok tree) :
    tree.plain = some t := by
  rw [← plain_blank, blank_of_build hsound h, plain_shell]

/-- A tree that was built strips to the syntax tree that it was built from,
whatever grammar and strategy the schema is made of. -/
theorem strip_of_build {g : Grammar} {strategy : Strategy} {s : Schema}
    {t : Ast} {tokens : List SourceToken} {tree : Cst}
    (hs : Schema.make g strategy = .ok s) (h : build s t tokens = .ok tree) :
    tree.strip = .ok t :=
  strip_of_plain (plain_of_build (Schema.make_eq_ok hs).2.2 h)

/-- The tree of `f(true)`. -/
def sampleTree : Ast :=
  .program [.expressionStatement
    (.callExpression (.identifier "f") [.literal (.bool true) "true"])]

/-- The tokens of `f( true )`. -/
def sampleTokens : List SourceToken :=
  [⟨.semantic, ⟨.identifier, "f", ⟨⟨0, 1⟩, ⟨0, 0⟩, ⟨0, 1⟩⟩⟩⟩,
    ⟨.semantic, ⟨.leftParen, "(", ⟨⟨1, 2⟩, ⟨0, 1⟩, ⟨0, 2⟩⟩⟩⟩,
    ⟨.extra, ⟨.blank, " ", ⟨⟨2, 3⟩, ⟨0, 2⟩, ⟨0, 3⟩⟩⟩⟩,
    ⟨.semantic, ⟨.trueWord, "true", ⟨⟨3, 7⟩, ⟨0, 3⟩, ⟨0, 7⟩⟩⟩⟩,
    ⟨.extra, ⟨.blank, " ", ⟨⟨7, 8⟩, ⟨0, 7⟩, ⟨0, 8⟩⟩⟩⟩,
    ⟨.semantic, ⟨.rightParen, ")", ⟨⟨8, 9⟩, ⟨0, 8⟩, ⟨0, 9⟩⟩⟩⟩]

theorem strip_of_build_sample :
    ∃ s tree, Schema.make .functions .virtualNodes = .ok s ∧
      build s sampleTree sampleTokens = .ok tree ∧
      tree.strip = .ok sampleTree := by
  have h : (Schema.make .functions .virtualNodes >>= fun s =>
      build s sampleTree sampleTokens).isOk = true := by decide +kernel
  rcases Outcome.exists_of_isOk h with ⟨tree, h⟩
  rcases Outcome.bind_eq_ok.1 h with ⟨s, hs, htree⟩
  exact ⟨s, tree, hs, htree, strip_of_build hs htree⟩

end Cst

end Lossless
