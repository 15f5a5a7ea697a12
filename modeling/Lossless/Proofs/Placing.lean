import Lossless.Proofs.Coverage
import Lossless.Proofs.Filling

/-!
# Where the fields of a node go

A frame collects its fields in the order of its schedule: behind a run over some
slots stand exactly the names that these slots place (`fillSlots_names`). A
virtual node has one field, the one that its role wraps (`virtualNode_placed`).
Since the slots find what they place in the syntax tree, no name is placed twice
(`nodup_placedNames`).
-/

namespace Lossless

namespace Cst

namespace Build

variable {c : Context} {p : Parts} {f f' : Frame}
  {tokens rest : List SourceToken} {virtual : VirtualBuilder}

theorem token_names {e : Element} {text : String}
    (h : token c f e text tokens = .ok (f', rest)) :
    f'.fields.map Prod.fst = f.fields.map Prod.fst := by
  rcases token_eq_ok h with ⟨f₁, handed, t, hgap, -, rfl⟩
  exact (gap_eq_ok hgap).2.names_eq

theorem fillItems_names {slot index : Nat} {field : String}
    {separator : Option String} {children : List Child}
    (h : fillItems c slot field separator index f tokens children =
      .ok (f', rest)) : f'.fields.map Prod.fst = f.fields.map Prod.fst := by
  induction children generalizing index f tokens with
  | nil =>
    cases Except.ok.inj h
    rfl
  | cons child children ih =>
    rcases fillItems_cons_eq_ok h with ⟨f₁, tokens₁, f₂, handed, tokens₂, item,
      tokens₃, hseparated, hgap, -, hitems⟩
    have h₁ : f₁.fields.map Prod.fst = f.fields.map Prod.fst := by
      cases hseparated with
      | nothing => rfl
      | token _ _ pass => exact token_names pass
    rw [ih hitems, ← h₁, ← (gap_eq_ok hgap).2.names_eq]
    exact f₂.names_update field (Frame.addItemTo item)

/-- A builder of virtual nodes gives each of them the field that its role wraps,
which the tree has. -/
def Placed (roles : List (VirtualRole × SchemaEntry)) (p : Parts)
    (virtual : VirtualBuilder) : Prop :=
  ∀ role handed tokens name value rest,
    virtual role handed tokens = .ok (name, value, rest) →
    Schema.wrapped? roles role = some ⟨name, role.shape⟩ ∧
      name ∈ p.fields.map Prod.fst

theorem placed_refuse (roles : List (VirtualRole × SchemaEntry)) (p : Parts)
    (role : VirtualRole) : Placed roles p (refuse role) :=
  fun _ _ _ _ _ _ h => nomatch h

theorem Fills.names {roles : List (VirtualRole × SchemaEntry)} {index : Nat}
    {slot : Slot} (hvirtual : Placed roles p virtual)
    (h : Fills c p virtual index f tokens slot f' rest) :
    f'.fields.map Prod.fst = f.fields.map Prod.fst ++
      (Schema.placed? roles slot).toList.map FieldDef.name := by
  cases h with
  | extras label => simp [Schema.placed?, Slot.field?]
  | token pass => simpa [Schema.placed?, Slot.field?] using token_names pass
  | scalar part pass =>
    rw [Frame.fill, List.map_append, token_names pass]
    rfl
  | implied part =>
    rw [Frame.fill, List.map_append]
    rfl
  | child hslot part before build =>
    rw [Frame.addChild, Frame.fill, List.map_append,
      (gap_eq_ok before).2.names_eq]
    rcases hslot with rfl | rfl <;> rfl
  | absent part =>
    rw [Frame.fill, List.map_append]
    rfl
  | list part items =>
    rw [fillItems_names items, Frame.fill, List.map_append]
    rfl
  | virtual before build =>
    rw [Frame.addChild, Frame.fill, List.map_append,
      (gap_eq_ok before).2.names_eq, Schema.placed?,
      (hvirtual _ _ _ _ _ _ build).1]
    rfl

theorem fillSlots_names {roles : List (VirtualRole × SchemaEntry)} {index : Nat}
    {slots : Schedule} (hvirtual : Placed roles p virtual)
    (h : fillSlots c p virtual index f tokens slots = .ok (f', rest)) :
    f'.fields.map Prod.fst =
      f.fields.map Prod.fst ++ Schema.placedNames roles slots := by
  induction slots generalizing index f tokens with
  | nil =>
    cases Except.ok.inj h
    exact (List.append_nil _).symm
  | cons slot slots ih =>
    rcases fillSlots_cons_eq_ok h with ⟨f₁, tokens₁, hslot, hslots⟩
    rw [ih hslots, hslot.names hvirtual, Schema.placedNames_cons,
      List.append_assoc]

/-! ### What slots find in the tree -/

/-- Every slot that has been gone through was filled from some frame. -/
theorem exists_fills {index : Nat} {slots : Schedule} {slot : Slot}
    (h : fillSlots c p virtual index f tokens slots = .ok (f', rest))
    (hslot : slot ∈ slots) :
    ∃ i f₁ tokens₁ f₂ tokens₂,
      Fills c p virtual i f₁ tokens₁ slot f₂ tokens₂ := by
  induction slots generalizing index f tokens with
  | nil => exact absurd hslot List.not_mem_nil
  | cons first slots ih =>
    rcases fillSlots_cons_eq_ok h with ⟨f₁, tokens₁, hfirst, hslots⟩
    rcases List.mem_cons.1 hslot with rfl | hslot
    · exact ⟨index, f, tokens, f₁, tokens₁, hfirst⟩
    · exact ih hslots hslot

/-- A slot that fills a field itself finds the field's part, and a list
where it needs one. -/
theorem Fills.part {index : Nat} {slot : Slot} {d : FieldDef}
    (h : Fills c p virtual index f tokens slot f' rest)
    (hd : slot.field? = some d) :
    ∃ q, p.fields.lookup d.name = some q ∧
      (d.shape = .list → ∃ children, q = .list children) := by
  cases h with
  | extras label => exact nomatch hd
  | token pass => exact nomatch hd
  | scalar part pass =>
    cases Option.some.inj hd
    exact ⟨_, part, (nomatch ·)⟩
  | implied part =>
    cases Option.some.inj hd
    exact ⟨_, part, (nomatch ·)⟩
  | child hslot part before build =>
    rcases hslot with rfl | rfl
    · cases Option.some.inj hd
      exact ⟨_, part, (nomatch ·)⟩
    · cases Option.some.inj hd
      exact ⟨_, part, (nomatch ·)⟩
  | absent part =>
    cases Option.some.inj hd
    exact ⟨_, part, (nomatch ·)⟩
  | list part items =>
    cases Option.some.inj hd
    exact ⟨_, part, fun _ => ⟨_, rfl⟩⟩
  | virtual before build => exact nomatch hd

theorem Fills.placed_mem {roles : List (VirtualRole × SchemaEntry)}
    {index : Nat} {slot : Slot} {d : FieldDef}
    (hvirtual : Placed roles p virtual)
    (h : Fills c p virtual index f tokens slot f' rest)
    (hd : Schema.placed? roles slot = some d) :
    d.name ∈ p.fields.map Prod.fst := by
  by_cases hfield : slot.field? = some d
  · rcases h.part hfield with ⟨q, hq, -⟩
    exact Named.mem_keys_of_lookup hq
  · cases h with
    | virtual before build =>
      rcases hvirtual _ _ _ _ _ _ build with ⟨hwrapped, hmem⟩
      rw [Schema.placed?, hwrapped] at hd
      rw [← Option.some.inj hd]
      exact hmem
    | child hslot => rcases hslot with rfl | rfl <;> exact absurd hd hfield
    | _ => exact absurd hd hfield

theorem mem_of_placedNames {roles : List (VirtualRole × SchemaEntry)}
    {index : Nat} {slots : Schedule} {name : String}
    (hvirtual : Placed roles p virtual)
    (h : fillSlots c p virtual index f tokens slots = .ok (f', rest))
    (hname : name ∈ Schema.placedNames roles slots) :
    name ∈ p.fields.map Prod.fst := by
  rcases List.mem_map.1 hname with ⟨d, hd, rfl⟩
  rcases List.mem_filterMap.1 hd with ⟨slot, hslot, hplaced⟩
  rcases exists_fills h hslot with ⟨i, f₁, tokens₁, f₂, tokens₂, hfills⟩
  exact hfills.placed_mem hvirtual hplaced

/-! ### Virtual nodes -/

/-- The one field of a virtual node: the frame in which it is built, the field's
name and value, and the part that it is made of. -/
theorem virtualNode_placed {role : VirtualRole} {handed : Option Handed}
    {name : String} {value : Value} (hsound : c.schema.Sound)
    (h : virtualNode c p role handed tokens = .ok (name, value, rest)) :
    ∃ entry f f' inner children, c.schema.entry? (.virtual role) = some entry ∧
      Schema.RoleFits c.schema.strategy role entry ∧
      entry.schedule.filterMap Slot.field? = [⟨name, role.shape⟩] ∧
      Opened c (.virtual role) handed false f ∧ f.schedule = entry.schedule ∧
      fillSlots c p (refuse role) 0 f tokens entry.schedule = .ok (f', rest) ∧
      f'.fields = [(name, inner)] ∧
      value = .virtual role (wrappedValue inner) f'.extras ∧
      p.fields.lookup name = some (.list children) := by
  rcases virtualNode_eq_ok h with ⟨f, f', inner, hopen, hfill, hlast, hvalue⟩
  rcases hopen.entry with ⟨entry, hentry, hschedule⟩
  have hfits := hsound.role role entry hentry
  rcases hfits.wrappedField? with ⟨field, -, hfield⟩
  rw [hschedule] at hfill
  have hnames := fillSlots_names (placed_refuse c.schema.roles p role) hfill
  rw [hopen.fields, hfits.placedNames hfield] at hnames
  -- the one field is the last one, which gives the virtual node its name
  cases hfields : f'.fields with
  | nil => simp [hfields] at hnames
  | cons first others =>
    rw [hfields] at hnames hlast
    simp only [List.map_cons, List.map_nil, List.nil_append, List.cons.injEq,
      List.map_eq_nil_iff] at hnames
    rcases hnames with ⟨hname, rfl⟩
    simp only [List.getLast?_singleton, Option.some.injEq] at hlast
    subst hlast
    simp only at hname
    subst hname
    have hslot : (⟨name, role.shape⟩ : FieldDef) ∈
        entry.schedule.filterMap Slot.field? := by
      rw [hfield]
      exact List.mem_singleton_self _
    rcases List.mem_filterMap.1 hslot with ⟨slot, hmem, hd⟩
    rcases exists_fills hfill hmem with ⟨i, f₁, tokens₁, f₂, tokens₂, hfills⟩
    rcases hfills.part hd with ⟨q, hq, hlist⟩
    rcases hlist (Schema.shape_eq_list role) with ⟨children, rfl⟩
    exact ⟨entry, f, f', inner, children, hentry, hfits, hfield, hopen,
      hschedule, hfill, hfields, hvalue, hq⟩

theorem placed_virtualNode (hsound : c.schema.Sound) (p : Parts) :
    Placed c.schema.roles p (virtualNode c p) := by
  intro role handed tokens name value rest h
  rcases virtualNode_placed hsound h with
    ⟨entry, f, f', inner, children, hentry, hfits, hfield, -, -, -, -, -, hq⟩
  refine ⟨?_, Named.mem_keys_of_lookup hq⟩
  rcases hfits.wrappedField? with ⟨name', hname', hfield'⟩
  rw [hfield] at hfield'
  cases hfield'
  have hlookup : c.schema.roles.lookup role = some entry := hentry
  rw [Schema.wrapped?, hlookup, Option.bind_some, hname']
  rfl

/-! ### Nodes -/

/-- What the grammar and the schema say of a node that has been built, whose
fields have the declared names. -/
theorem nodup_placedNames {entry : SchemaEntry} {declared : List FieldDef}
    {index : Nat} (hsound : c.schema.Sound)
    (hentry : c.schema.entry? (.node p.type) = some entry)
    (hdeclared : c.schema.grammar.fields? p.type = some declared)
    (hnames : p.fields.map Prod.fst = declared.map FieldDef.name)
    (h : fillSlots c p (virtualNode c p) index f tokens entry.schedule =
      .ok (f', rest)) :
    (entry.schedule.filterMap (Schema.placed? c.schema.roles)).Perm declared ∧
      (Schema.placedNames c.schema.roles entry.schedule).Nodup := by
  rcases hsound.node p.type entry hentry with ⟨declared', hdeclared', hfits⟩
  rw [hdeclared] at hdeclared'
  cases Option.some.inj hdeclared'
  refine hfits.perm fun name hname => ?_
  rw [← hnames]
  exact mem_of_placedNames (placed_virtualNode hsound p) h hname

end Build

end Cst

end Lossless
