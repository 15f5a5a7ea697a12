import Lossless.Proofs.Bundled

/-!
# Schemas that build without complaint

Making a schema looks at each schedule once, with lists of at most two
items. This is enough: whatever the tree and the tokens are, building never
blames the schema. `Spares` says it of one step, together with what its
result has; the steps are put together as they are in the builder. Trees
that do not fit the grammar's fields are refused for their shape, so nothing
is asked of the grammar either.
-/

namespace Lossless

/-- An error that blames the schema: for a label, an anchor or a schedule. -/
def CstError.BlamesSchema : CstError → Prop
  | .invalidLabel _ _ | .unresolvableAnchor _ _ _ | .incomplete _ _ => True
  | .tokenMismatch _ _ _ | .malformed _ _ | .shape _ => False

namespace Cst

namespace Build

/-- A step that does not blame the schema if it fails, and whose result is as it
should be otherwise. -/
def Spares {α : Type} (x : Except CstError α) (result : α → Prop) : Prop :=
  match x with
  | .ok a => result a
  | .error e => ¬e.BlamesSchema

section Spares

variable {α β : Type} {x : Except CstError α} {result result' : α → Prop}

theorem Spares.ok {a : α} (h : result a) : Spares (.ok a) result := h

theorem Spares.bind {k : α → Except CstError β} {after : β → Prop}
    (h : Spares x result)
    (hk : ∀ a, x = .ok a → result a → Spares (k a) after) :
    Spares (x >>= k) after := by
  cases x with
  | error e => exact h
  | ok a => exact hk a rfl h

theorem Spares.imp (h : Spares x result) (himp : ∀ a, result a → result' a) :
    Spares x result' := by
  cases x with
  | error e => exact h
  | ok a => exact himp a h

end Spares

variable {c : Context} {p : Parts} {owner : Owner} {entry : SchemaEntry}
  {flag : Bool} {f : Frame} {tokens : List SourceToken}
  {virtual : VirtualBuilder}

/-- A child that is built without blaming the schema, from any run that may
be handed to it. -/
def Child.Spares (c : Context) (ch : Child) : Prop :=
  ∀ handed tokens, (∀ h, handed = some h → Handable c h) →
    leadingRun tokens = [] → Build.Spares (ch.build handed tokens) fun built =>
      ∃ e, c.schema.entry? (.node built.1.type) = some e

/-- A builder of virtual nodes does not blame the schema for a role that
the schema covers. -/
def RoleSpares (c : Context) (virtual : VirtualBuilder)
    (role : VirtualRole) : Prop :=
  ∀ handed tokens, (∀ h, handed = some h → Handable c h) →
    leadingRun tokens = [] → Spares (virtual role handed tokens) fun built =>
      ∃ wrapped extras e, built.2.1 = .virtual role wrapped extras ∧
        c.schema.entry? (.virtual role) = some e

/-- None of the names of a node is placed twice by the slots gone through and
those still to come. -/
def PlacesOnce (roles : List (VirtualRole × SchemaEntry)) (p : Parts)
    (f : Frame) (slots : Schedule) : Prop :=
  ∀ name ∈ p.fields.map Prod.fst,
    (f.fields.map Prod.fst ++ Schema.placedNames roles slots).count name ≤ 1

/-- A slot that finds its field in the tree does not find it among those that
have been filled. -/
theorem PlacesOnce.fresh {roles : List (VirtualRole × SchemaEntry)}
    {slot : Slot} {slots : Schedule} {d : FieldDef}
    (h : PlacesOnce roles p f (slot :: slots))
    (hd : Schema.placed? roles slot = some d)
    (hmem : d.name ∈ p.fields.map Prod.fst) :
    d.name ∉ f.fields.map Prod.fst := by
  intro hfilled
  have hcount := h d.name hmem
  rw [Schema.placedNames_cons, hd] at hcount
  have hpositive := List.count_pos_iff.2 hfilled
  simp only [Option.toList_some, List.map_cons, List.map_nil,
    List.singleton_append, List.count_append, List.count_cons_self] at hcount
  omega

section Steps

variable (hs : c.schema.Resolves) (hentry : c.schema.entry? owner = some entry)
  (hfits : Schema.EntryFits c.schema.strategy owner flag entry)

include hs hentry hfits

/-! ### Tokens and lists -/

theorem token_spares {e : Element} {text : String} (he : e.isChild = false)
    (hready : Ready c owner entry f tokens) (hfacing : Facing entry flag f e) :
    Spares (token c f e text tokens) fun r =>
      Ready c owner entry r.1 r.2 ∧ r.1.left = some e := by
  obtain ⟨f₁, handed, hgap, -⟩ := exists_gap hs hentry hfits hready hfacing
  have hready₁ := hready.of_gap hgap
  rw [token, hgap, Outcome.ok_bind]
  cases behindRun tokens with
  | nil => exact not_false
  | cons t ts =>
    simp only
    split
    · exact Spares.ok ⟨hready₁.pass he, rfl⟩
    · exact not_false

theorem separate_spares {slot index : Nat} {field : String}
    {separator : Option String}
    (hslot : entry.schedule[slot]? = some (.list field separator))
    (hready : Ready c owner entry f tokens)
    (hfirst : index = 0 → Near entry flag slot f)
    (hnext : ∀ i, index = i + 1 → f.left = some (.item slot i)) :
    Spares (separate c slot separator index f tokens) fun r =>
      Ready c owner entry r.1 r.2 ∧
        Facing entry flag r.1 (.item slot index) := by
  cases index with
  | zero =>
    have hsame : separate c slot separator 0 f tokens = .ok (f, tokens) := by
      cases separator <;> rfl
    rw [hsame]
    exact Spares.ok ⟨hready, (hfirst rfl).facing hslot rfl rfl⟩
  | succ i =>
    have hleft := hnext i rfl
    cases separator with
    | none =>
      exact Spares.ok ⟨hready,
        facing_of_left hleft (Schedule.occurs_item_item hslot i (i + 1))⟩
    | some text =>
      have hfacing : Facing entry flag f (.separator slot i) :=
        facing_of_left hleft (Schedule.occurs_item_separator hslot i i)
      exact (token_spares hs hentry hfits rfl hready hfacing).imp fun r hr =>
        ⟨hr.1,
          facing_of_left hr.2 (Schedule.occurs_separator_item hslot i (i + 1))⟩

/-- The items of a list are built one after another, however many there are. -/
theorem fillItems_spares {slot index : Nat} {field : String}
    {separator : Option String} {children : List Child}
    (hslot : entry.schedule[slot]? = some (.list field separator))
    (hchildren : ∀ ch ∈ children, ch.Spares c)
    (hready : Ready c owner entry f tokens) (hlist : HoldsList f field index)
    (hfirst : index = 0 → Near entry flag slot f)
    (hnext : ∀ i, index = i + 1 → f.left = some (.item slot i)) :
    Spares (fillItems c slot field separator index f tokens children) fun r =>
      Ready c owner entry r.1 r.2 ∧ Near entry flag (slot + 1) r.1 := by
  induction children generalizing index f tokens with
  | nil => exact Spares.ok ⟨hready, near_of_items hslot hfirst hnext⟩
  | cons ch children ih =>
    rw [fillItems_cons]
    apply (separate_spares hs hentry hfits hslot hready hfirst hnext).bind
    rintro ⟨f₁, tokens₁⟩ hseparate ⟨hready₁, hfacing⟩
    have hlist₁ := hlist.of_separated (separate_eq_ok hseparate)
    obtain ⟨f₂, handed, hgap, hhanded⟩ :=
      exists_gap hs hentry hfits hready₁ hfacing
    simp only [hgap, Outcome.ok_bind]
    apply (hchildren ch List.mem_cons_self handed _ hhanded
      (leadingRun_behindRun tokens₁)).bind
    rintro ⟨item, tokens₃⟩ - ⟨e, he⟩
    have hlist₂ := hlist₁.of_gap hgap
    -- the item that has just been added is the one that the next item faces
    apply ih (fun ch' hch' => hchildren ch' (List.mem_cons_of_mem _ hch'))
      ((hready₁.of_gap hgap).addItem hlist₂ he)
      (hlist₂.addItem item) (nomatch ·)
    intro i hi
    cases hi
    rfl

/-! ### Slots -/

theorem fillChild_spares {e : Element} {field : String} {ch : Child}
    (hch : ch.Spares c) (hfresh : field ∉ f.fields.map Prod.fst)
    (hready : Ready c owner entry f tokens) (hfacing : Facing entry flag f e) :
    Spares (fillChild c e field f ch tokens) fun r =>
      Ready c owner entry r.1 r.2 ∧ r.1.left = some e := by
  obtain ⟨f₁, handed, hgap, hhanded⟩ :=
    exists_gap hs hentry hfits hready hfacing
  rw [fillChild, hgap, Outcome.ok_bind]
  apply (hch handed _ hhanded (leadingRun_behindRun tokens)).bind
  rintro ⟨built, rest⟩ - ⟨e', he'⟩
  refine Spares.ok ⟨(hready.of_gap hgap).addChild ?_ rfl he', rfl⟩
  rwa [(gap_eq_ok hgap).2.names_eq]

theorem virtual_spares {index : Nat} {role : VirtualRole} {slots : Schedule}
    (hslot : entry.schedule[index]? = some (.virtual role))
    (hrole : RoleSpares c virtual role)
    (hplaced : Placed c.schema.roles p virtual)
    (honce : PlacesOnce c.schema.roles p f (.virtual role :: slots))
    (hready : Ready c owner entry f tokens) (hnear : Near entry flag index f) :
    Spares (fillSlot c p virtual index (.virtual role) f tokens) fun r =>
      Ready c owner entry r.1 r.2 ∧ Near entry flag (index + 1) r.1 := by
  obtain ⟨f₁, handed, hgap, hhanded⟩ :=
    exists_gap hs hentry hfits hready
      (hnear.facing (e := .child index) hslot rfl rfl)
  rw [fillSlot, hgap, Outcome.ok_bind]
  apply (hrole handed _ hhanded (leadingRun_behindRun tokens)).bind
  rintro ⟨field, value, rest⟩ hb ⟨wrapped, extras, e, hvalue, he⟩
  simp only at hvalue
  subst hvalue
  obtain ⟨hwrapped, hmem⟩ := hplaced role handed _ field _ rest hb
  refine Spares.ok ⟨(hready.of_gap hgap).addChild ?_ rfl he,
    near_of_left hslot rfl rfl rfl⟩
  rw [(gap_eq_ok hgap).2.names_eq]
  exact honce.fresh hwrapped hmem

theorem fillSlot_spares {index : Nat} {slot : Slot} {slots : Schedule}
    (hslot : entry.schedule[index]? = some slot) (hparts : p.All (·.Spares c))
    (hvirtual : ∀ role, slot = .virtual role → RoleSpares c virtual role)
    (hplaced : Placed c.schema.roles p virtual)
    (honce : PlacesOnce c.schema.roles p f (slot :: slots))
    (hready : Ready c owner entry f tokens) (hnear : Near entry flag index f) :
    Spares (fillSlot c p virtual index slot f tokens) fun r =>
      Ready c owner entry r.1 r.2 ∧ Near entry flag (index + 1) r.1 := by
  have hfresh :
      ∀ d, slot.field? = some d → Schema.placed? c.schema.roles slot = some d →
        d.name ∈ p.fields.map Prod.fst → d.name ∉ f.fields.map Prod.fst :=
    fun d _ hd hmem => honce.fresh hd hmem
  -- the fields of a tree that does not fit its shape are missing
  -- or of the wrong kind
  have hget :
      ∀ name, Spares (p.get name) fun q => p.fields.lookup name = some q := by
    intro name
    rw [Parts.get]
    cases p.fields.lookup name with
    | none => exact not_false
    | some q => exact Spares.ok rfl
  have hscalar : ∀ name, Spares (p.scalar name) fun _ => True := by
    intro name
    rw [Parts.scalar]
    apply (hget name).bind
    rintro (_ | _ | _ | value) - -
    · exact not_false
    · exact not_false
    · exact not_false
    · exact Spares.ok trivial
  have hchild :
      ∀ {field : String} {ch : Child} {x : Schedule.Extent},
        Schedule.Extent.ofSlot? index slot = some x →
        x.first = (Element.child index).ground →
        x.last = (Element.child index).ground →
        p.fields.lookup field = some (.node ch) →
        field ∉ f.fields.map Prod.fst →
        Spares (fillChild c (.child index) field f ch tokens) fun r =>
        Ready c owner entry r.1 r.2 ∧ Near entry flag (index + 1) r.1 := by
    intro field ch x hx hfirst hlast hpart hfield
    refine (fillChild_spares hs hentry hfits (hparts field _ hpart) hfield
      hready (hnear.facing hslot hx hfirst)).imp ?_
    exact fun r hr => ⟨hr.1, near_of_left hslot hx hlast hr.2⟩
  cases slot with
  | extras label =>
    exact Spares.ok ⟨hready, hnear.skip hslot (fun x hx => by cases hx) rfl⟩
  | token text =>
    refine (token_spares hs hentry hfits rfl hready
      (hnear.facing hslot rfl rfl)).imp ?_
    exact fun r hr => ⟨hr.1, near_of_left hslot rfl rfl hr.2⟩
  | scalar field =>
    rw [fillSlot]
    apply (hscalar field).bind
    rintro value - -
    cases value with
    | string text =>
      apply (token_spares hs hentry hfits rfl hready
        (hnear.facing hslot rfl rfl)).bind
      rintro ⟨f₁, tokens₁⟩ - ⟨hready₁, hleft₁⟩
      exact Spares.ok ⟨hready₁.fill, near_of_left hslot rfl rfl hleft₁⟩
    | _ => exact not_false
  | implied field =>
    rw [fillSlot]
    apply (hscalar field).bind
    rintro value - -
    exact Spares.ok ⟨hready.fill,
      hnear.skip hslot (fun x hx => by cases hx) rfl⟩
  | node field =>
    rw [fillSlot]
    apply (hget field).bind
    rintro q - hq
    cases q with
    | node ch => exact hchild rfl rfl rfl hq (hfresh _ rfl rfl
      (Named.mem_keys_of_lookup hq))
    | _ => exact not_false
  | optional field =>
    rw [fillSlot]
    apply (hget field).bind
    rintro q - hq
    cases q with
    | node ch => exact hchild rfl rfl rfl hq (hfresh _ rfl rfl
      (Named.mem_keys_of_lookup hq))
    | absent =>
      refine Spares.ok ⟨hready.fill, hnear.skip hslot (fun x hx => ?_) rfl⟩
      cases Option.some.inj hx
      rfl
    | _ => exact not_false
  | list field separator =>
    rw [fillSlot]
    apply (hget field).bind
    rintro q - hq
    cases q with
    | list children =>
      exact fillItems_spares hs hentry hfits hslot
        (hparts field _ hq) hready.fill
        ⟨[], lookup_fill (hfresh _ rfl rfl (Named.mem_keys_of_lookup hq)), rfl⟩
        (fun _ => hnear) (fun i hi => by cases hi)
    | _ => exact not_false
  | virtual role =>
    exact virtual_spares hs hentry hfits hslot
      (hvirtual role rfl) hplaced honce hready hnear

theorem fillSlots_spares {index : Nat} {slots : Schedule}
    (hslots : entry.schedule.drop index = slots) (hparts : p.All (·.Spares c))
    (hvirtual : ∀ role, .virtual role ∈ slots → RoleSpares c virtual role)
    (hplaced : Placed c.schema.roles p virtual)
    (honce : PlacesOnce c.schema.roles p f slots)
    (hready : Ready c owner entry f tokens) (hnear : Near entry flag index f) :
    Spares (fillSlots c p virtual index f tokens slots) fun r =>
      Ready c owner entry r.1 r.2 ∧
        Near entry flag entry.schedule.length r.1 := by
  induction slots generalizing index f tokens with
  | nil =>
    refine Spares.ok ⟨hready, fun l hl => ?_⟩
    have hlength : entry.schedule.length ≤ index :=
      List.drop_eq_nil_iff.1 hslots
    have hlast := hnear l hl
    rw [Schedule.Last, Schedule.front, List.take_of_length_le hlength] at hlast
    rwa [Schedule.Last, Schedule.front, List.take_length]
  | cons slot slots ih =>
    obtain ⟨hslot, hfurther⟩ := Schedule.getElem?_of_drop hslots
    rw [fillSlots]
    apply (fillSlot_spares hs hentry hfits hslot hparts
      (fun role hrole => hvirtual role (hrole ▸ List.mem_cons_self)) hplaced
      honce hready hnear).bind
    rintro ⟨f₁, tokens₁⟩ hb ⟨hready₁, hnear₁⟩
    have hnames := (fillSlot_eq_ok hb).names hplaced
    apply ih hfurther (fun role hrole =>
      hvirtual role (List.mem_cons_of_mem _ hrole)) ?_ hready₁ hnear₁
    rwa [PlacesOnce, hnames, List.append_assoc, ← Schema.placedNames_cons]

end Steps

/-! ### Nodes -/

/-- A virtual node is built, and has a field to give its value to. -/
theorem virtualNode_spares (hs : c.schema.Resolves)
    (hparts : p.All (·.Spares c)) {role : VirtualRole}
    (hentry : c.schema.entry? (.virtual role) = some entry) :
    RoleSpares c (virtualNode c p) role := by
  intro handed tokens hhanded hrun
  have hrole := hs.sound.role role entry hentry
  obtain ⟨name, -, hfield⟩ := hrole.wrappedField?
  have hnames := hrole.placedNames hfield c.schema.roles
  obtain ⟨f, hopen⟩ := exists_openFrame hs hentry false hhanded
  have hopened := openFrame_eq_ok hopen
  have hready : Ready c (.virtual role) entry f tokens :=
    hopened.ready hentry fun _ => hrun
  have hnear : Near entry false 0 f := hopened.near fun h => h
  have honce : PlacesOnce c.schema.roles p f entry.schedule := by
    intro name' _
    rw [hopened.fields, hnames]
    exact List.nodup_iff_count_le_one.1 (List.nodup_singleton name) name'
  rw [virtualNode, hopen, Outcome.ok_bind, hready.schedule_eq]
  apply (fillSlots_spares hs hentry hrole.toEntryFits
    (List.drop_zero (l := entry.schedule)) hparts
    (fun role' hmem => absurd hmem (hrole.notMem_virtual role'))
    (placed_refuse c.schema.roles p role) honce hready hnear).bind
  rintro ⟨f', rest⟩ hb -
  have hfields := fillSlots_names (placed_refuse c.schema.roles p role) hb
  rw [hopened.fields, hnames] at hfields
  obtain ⟨value, hlast⟩ := Named.exists_getLast? hfields
  simp only [hlast]
  cases value with
  | list items => cases items <;> exact Spares.ok ⟨_, _, entry, rfl, hentry⟩
  | _ => exact Spares.ok ⟨_, _, entry, rfl, hentry⟩

/-- A node whose fields have the declared names is built, as the root or
below another node. -/
theorem node_spares (hs : c.schema.Resolves) (root : Bool)
    (handed : Option Handed) {declared : List FieldDef}
    (hparts : p.All (·.Spares c))
    (hdeclared : c.schema.grammar.fields? p.type = some declared)
    (hnames : p.fields.map Prod.fst = declared.map FieldDef.name)
    (hroot : root = true → p.type = c.schema.grammar.root)
    (hhanded : ∀ h, handed = some h → Handable c h)
    (hrun : root = false → leadingRun tokens = []) :
    Spares (node c p root handed tokens) fun built =>
      ∃ e, c.schema.entry? (.node built.1.type) = some e := by
  obtain ⟨entry, hentry⟩ := hs.sound.covers p.type declared hdeclared
  obtain ⟨declared', hdeclared', hnode⟩ := hs.sound.node p.type entry hentry
  rw [hdeclared] at hdeclared'
  cases hdeclared'
  obtain ⟨f, hopen⟩ := exists_openFrame hs hentry root hhanded
  have hopened := openFrame_eq_ok hopen
  have hready : Ready c (.node p.type) entry f tokens :=
    hopened.ready hentry hrun
  have hnear : Near entry (p.type = c.schema.grammar.root) 0 f :=
    hopened.near fun h => decide_eq_true (hroot h)
  have hplacedNames : ∀ d ∈ declared,
      (Schema.placedNames c.schema.roles entry.schedule).count d.name = 1 := by
    intro d hd
    rw [Schema.placedNames, List.count_eq_countP, List.countP_map,
      List.countP_eq_length_filter]
    exact congrArg List.length (hnode.once d hd)
  have honce : PlacesOnce c.schema.roles p f entry.schedule := by
    intro name hname
    rw [hnames] at hname
    obtain ⟨d, hd, rfl⟩ := List.mem_map.1 hname
    simp [hopened.fields, hplacedNames d hd]
  have hvirtual : ∀ role, .virtual role ∈ entry.schedule →
      RoleSpares c (virtualNode c p) role := by
    intro role hmem
    have hsome := hnode.hasRoles role (List.mem_filterMap.2 ⟨_, hmem, rfl⟩)
    cases he : c.schema.roles.lookup role with
    | none => simp [Schema.wrapped?, he] at hsome
    | some e => exact virtualNode_spares hs hparts he
  have hplaced := placed_virtualNode hs.sound p
  -- every declared field is placed, so none is missing when
  -- they are put in order
  have hordered :
      ∀ {f' : Frame} {rest : List SourceToken} {f₁ : Frame},
        fillSlots c p (virtualNode c p) 0 f tokens entry.schedule =
          .ok (f₁, rest) →
        f'.fields.map Prod.fst = f₁.fields.map Prod.fst →
        ∃ ordered, orderFields c.schema.grammar p.type f'.fields =
          .ok ordered := by
    intro f' rest f₁ hb hsame
    apply exists_orderFields hdeclared
    intro d hd
    rw [hsame, fillSlots_names hplaced hb, hopened.fields, List.map_nil,
      List.nil_append, ← List.count_pos_iff, hplacedNames d hd]
    exact Nat.one_pos
  rw [node, hopen, Outcome.ok_bind, hready.schedule_eq]
  apply (fillSlots_spares hs hentry hnode.toEntryFits
    (List.drop_zero (l := entry.schedule)) hparts
    hvirtual hplaced honce hready hnear).bind
  rintro ⟨f₁, tokens₁⟩ hb ⟨hready₁, hnear₁⟩
  cases root with
  | false =>
    obtain ⟨ordered, hok⟩ := hordered hb rfl
    simp only [Bool.false_eq_true, if_false, Outcome.ok_bind, hok]
    exact Spares.ok ⟨entry, hentry⟩
  | true =>
    have hfacing :
        Facing entry (decide (p.type = c.schema.grammar.root)) f₁ .stop := by
      rw [decide_eq_true (hroot rfl)] at hnear₁ ⊢
      exact hnear₁.facing_stop
    obtain ⟨f₂, handed', hgap, -⟩ :=
      exists_gap hs hentry hnode.toEntryFits hready₁ hfacing
    obtain ⟨ordered, hok⟩ := hordered hb (gap_eq_ok hgap).2.names_eq
    simp only [if_true, hgap, Outcome.ok_bind, pure, Except.pure, hok]
    exact Spares.ok ⟨entry, hentry⟩

theorem child_spares (hs : c.schema.Resolves) (t : Ast)
    (ht : c.schema.grammar.Conforms t) : (child c t).Spares c := by
  induction t using Branching.induction with
  | step t ih =>
    cases ht with
    | node hdeclared hnames hshapes hbelow =>
      intro handed tokens hhanded hrun
      rw [child_build]
      exact node_spares hs false handed
        (parts_all fun u hu => ih u hu (hbelow u hu)) hdeclared
        ((names_parts c _).trans hnames) (nomatch ·) hhanded fun _ => hrun

theorem checkTiling_spares (offset : Nat) (tokens : List SourceToken) :
    Spares (checkTiling offset tokens) fun _ => True := by
  induction tokens generalizing offset with
  | nil => exact Spares.ok trivial
  | cons t ts ih =>
    rw [checkTiling]
    split
    · exact ih _
    · exact not_false

theorem build_spares {s : Schema} (hs : s.Resolves) (t : Ast)
    (tokens : List SourceToken) :
    Spares (Cst.build s t tokens) fun _ => True := by
  rw [Cst.build]
  apply (checkTiling_spares 0 tokens).bind
  rintro ⟨⟩ - -
  cases hcheck : s.grammar.check t with
  | error e => exact not_false
  | ok u =>
    have htype := Grammar.type_of_check hcheck
    cases Grammar.conforms_of_check hcheck with
    | node hdeclared hnames hshapes hbelow =>
      refine (node_spares (c := ⟨s, streamEnd tokens⟩) hs true none
        (parts_all fun u hu => child_spares hs u (hbelow u hu)) hdeclared
        ((names_parts _ _).trans hnames) (fun _ => htype)
        (fun _ h => by cases h) (fun h => by cases h)).bind ?_
      rintro ⟨tree, rest⟩ - -
      cases rest with
      | nil => exact Spares.ok trivial
      | cons t ts => exact not_false

end Build

open Build

/-- A schema never fails for its own sake. If a strategy does not look at the
indices of items and separators, and if the labels that any owner shares belong
to the vocabularies of all owners, then whatever tree is built from whatever
tokens, no error blames a label, an anchor or a schedule. -/
theorem spares_schema_of_build {g : Grammar} {strategy : Strategy} {s : Schema}
    (hs : Schema.make g strategy = .ok s)
    (hindexFree : ∀ owner schedule gap gap' a, Gap.ground gap = gap'.ground →
      strategy.anchor owner schedule gap = .ok a →
      strategy.anchor owner schedule gap' = .ok a)
    (hshares : ∀ owner owner' e e', s.entry? owner = some e →
      s.entry? owner' = some e' →
      ∀ label, (strategy.vocabulary owner []).contains label = true →
        (strategy.vocabulary owner' e'.schedule).contains label = true)
    (t : Ast) (tokens : List SourceToken) {error : CstError}
    (h : build s t tokens = .error error) : ¬error.BlamesSchema := by
  obtain ⟨-, rfl, hsound⟩ := Schema.make_eq_ok hs
  have hresolves : s.Resolves := by
    refine ⟨hsound, hindexFree, fun owner owner' e e' he he' label hlabel => ?_⟩
    rw [hsound.vocabulary_eq he']
    exact hshares owner owner' e e' he he' label hlabel
  have hspares := build_spares hresolves t tokens
  rw [h] at hspares
  exact hspares

/-- Without the closing parenthesis a call is not built, for which the schema
is not to blame. -/
theorem spares_schema_of_build_sample :
    ∃ s error, Schema.make .functions sampleStrategy = .ok s ∧
      build s sampleTree (sampleTokens.take 5) = .error error ∧
      ¬error.BlamesSchema := by
  have hmake : (Schema.make .functions sampleStrategy).isOk = true := by
    decide +kernel
  obtain ⟨s, hs⟩ := Outcome.exists_of_isOk hmake
  have hfails : (Schema.make .functions sampleStrategy >>= fun s =>
      build s sampleTree (sampleTokens.take 5)).isOk = false := by
        decide +kernel
  rw [hs, Outcome.ok_bind] at hfails
  cases hbuild : build s sampleTree (sampleTokens.take 5) with
  | ok tree =>
    rw [hbuild] at hfails
    exact nomatch hfails
  | error error =>
    have hmodel : Strategy.virtualNodes ∈ Strategy.bundled := List.mem_cons_self
    refine ⟨s, error, hs, hbuild, spares_schema_of_build hs ?_ ?_ _ _ hbuild⟩
    · intro owner schedule gap gap' a hground ha
      exact Strategy.anchor_ground hmodel hground ha
    · intro owner owner' e e' _ _ label hlabel
      have hcontains :
          (Strategy.virtualNodes.vocabulary owner' e'.schedule).contains label =
            true :=
        Strategy.contains_of_shared hmodel hlabel
      exact hcontains

end Cst

end Lossless
