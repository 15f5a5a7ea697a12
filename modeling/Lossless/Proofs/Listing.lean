import Lossless.Proofs.Filing
import Lossless.Proofs.Shell
import Lossless.Schema.LabelTable

/-!
# What the label table promises

A label table has a line for every owner that a schema covers (`line?_node`,
`line?_virtual`). Whatever is done to a record while a tree is built goes
through the vocabulary of its owner, so step by step all records have only
labels that are listed for their owners (`Admitted`), and none of them keeps an
empty run. Where the virtual nodes stand is settled by the shape of the tree.
Both hold under any schema at all (`labelTable_sound`).
-/

namespace Lossless

/-! ### The lines of a table -/

/-- The line of an owner in a label table. -/
def LabelTable.line? (table : LabelTable) : Owner → Option OwnerLabels
  | .node type => table.nodeTypes.find? (·.owner == type)
  | .virtual role => table.anchorRoles.find? (·.owner == role.name)

theorem VirtualRole.name_injective : Function.Injective VirtualRole.name := by
  intro role role' h
  cases role <;> cases role' <;> first | rfl | exact absurd h (by decide)

/-- The first line under a name is the line of the entry that a key
with this name has. -/
theorem Named.find?_map {κ α : Type} [BEq κ] [LawfulBEq κ] {name : κ → String}
    (hname : Function.Injective name) {line : κ × α → OwnerLabels}
    (hline : ∀ x, (line x).owner = name x.1) (entries : List (κ × α))
    (key : κ) :
    (entries.map line).find? (·.owner == name key) =
      (entries.lookup key).map fun value => line (key, value) := by
  induction entries with
  | nil => rfl
  | cons entry entries ih =>
    obtain ⟨key', value⟩ := entry
    rw [List.map_cons, List.find?_cons, hline, List.lookup_cons]
    by_cases hkey : key = key'
    · subst hkey
      simp
    · have hbeq : (key == key') = false := by simpa using hkey
      have hbeq' : (name key' == name key) = false := by
        simpa using fun h => hkey (hname h).symm
      simp only [hbeq, hbeq', ih]

namespace Schema

theorem line?_node (s : Schema) (type : String) :
    s.labelTable.line? (.node type) = (s.nodes.lookup type).map fun entry =>
      ⟨type, entry.vocabulary.labels, entry.schedule.map Slot.describe,
        entry.schedule.roles, none⟩ :=
  Named.find?_map Function.injective_id (fun _ => rfl) s.nodes type

theorem line?_virtual (s : Schema) (role : VirtualRole) :
    s.labelTable.line? (.virtual role) = (s.roles.lookup role).map fun entry =>
      ⟨role.name, entry.vocabulary.labels, entry.schedule.map Slot.describe, [],
        entry.schedule.wrappedField?⟩ :=
  Named.find?_map VirtualRole.name_injective (fun _ => rfl) s.roles role

/-- An owner that is covered has a line with the labels of its vocabulary. -/
theorem exists_line {s : Schema} {owner : Owner} {entry : SchemaEntry}
    (h : s.entry? owner = some entry) :
    ∃ line, s.labelTable.line? owner = some line ∧
      line.labels = entry.vocabulary.labels := by
  cases owner with
  | node type =>
    have h' : s.nodes.lookup type = some entry := h
    rw [line?_node, h']
    exact ⟨_, rfl, rfl⟩
  | virtual role =>
    have h' : s.roles.lookup role = some entry := h
    rw [line?_virtual, h']
    exact ⟨_, rfl, rfl⟩

/-- A slot that wraps a field is named in the line of its node type, and the
field in that of its role. -/
theorem lines_of_slotOf? {s : Schema} {type name : String} {role : VirtualRole}
    (h : s.slotOf? type name = some (.virtual role)) :
    (∃ line, s.labelTable.line? (.node type) = some line ∧
      role ∈ line.virtualNodes) ∧
      ∃ line, s.labelTable.line? (.virtual role) = some line ∧
        line.wraps = some name := by
  obtain ⟨entry, hentry, hfind⟩ := Option.bind_eq_some_iff.1 h
  have hnode : s.nodes.lookup type = some entry := hentry
  constructor
  · rw [line?_node, hnode]
    exact ⟨_, rfl,
      List.mem_filterMap.2 ⟨_, List.mem_of_find?_eq_some hfind, rfl⟩⟩
  · -- what a virtual slot places is the field that its role wraps
    have hplaced := List.find?_some hfind
    rw [placed?, wrapped?] at hplaced
    cases hrole : s.roles.lookup role with
    | none => simp [hrole] at hplaced
    | some entry' =>
      rw [line?_virtual, hrole]
      refine ⟨_, rfl, ?_⟩
      cases hwrapped : entry'.schedule.wrappedField? with
      | none => simp [hrole, hwrapped] at hplaced
      | some field =>
        simp only [hrole, hwrapped, Option.bind_some, Option.map_some,
          Option.any_some, beq_iff_eq] at hplaced
        rw [← hplaced]
        exact hwrapped

/-! ### Records that a schema admits -/

/-- A record has runs, none of them empty, under labels that
belong to its owner. -/
def Admits (s : Schema) (r : Owner × Extras) : Prop :=
  ∃ entry, s.entry? r.1 = some entry ∧
    ∀ x ∈ r.2.entries, entry.vocabulary.contains x.1 = true ∧ x.2 ≠ []

/-- A schema admits all records of a list. -/
def AdmitsAll (s : Schema) (records : List (Owner × Extras)) : Prop :=
  ∀ r ∈ records, s.Admits r

theorem AdmitsAll.append {s : Schema} {records records' : List (Owner × Extras)}
    (h : s.AdmitsAll records) (h' : s.AdmitsAll records') :
    s.AdmitsAll (records ++ records') :=
  fun r hr => (List.mem_append.1 hr).elim (h r) (h' r)

theorem AdmitsAll.perm {s : Schema} {records records' : List (Owner × Extras)}
    (h : s.AdmitsAll records) (hperm : records'.Perm records) :
    s.AdmitsAll records' :=
  fun r hr => h r (hperm.mem_iff.1 hr)

theorem admits_empty {s : Schema} {owner : Owner} {entry : SchemaEntry}
    (h : s.entry? owner = some entry) : s.Admits (owner, .empty) :=
  ⟨entry, h, fun _ hx => nomatch hx⟩

end Schema

namespace Extras

theorem mem_insert {x : Extras} {label : Label} {run : List Token}
    {entry : Label × List Token} (h : entry ∈ (x.insert label run).entries) :
    entry = (label, run) ∨ entry ∈ x.entries := by
  rw [insert] at h
  split at h
  · obtain ⟨old, hold, rfl⟩ := List.mem_map.1 h
    by_cases hlabel : old.1 = label
    · simp [hlabel]
    · simp [hlabel, hold]
  · simpa [or_comm] using h

theorem mem_erase {x : Extras} {label : Label} {entry : Label × List Token}
    (h : entry ∈ (x.erase label).entries) : entry ∈ x.entries :=
  List.mem_of_mem_filter h

end Extras

namespace Cst

namespace Build

variable {c : Context} {f f' : Frame} {e right : Element}
  {tokens rest : List SourceToken} {handed : Option Handed} {run : List Token}

/-- Setting a label goes through the vocabulary, and without tokens the
label is taken out. -/
theorem admits_setExtras {s : Schema} {owner : Owner} {extras extras' : Extras}
    {label : Label} (h : s.Admits (owner, extras))
    (hset : setExtras s owner extras label run = .ok extras') :
    s.Admits (owner, extras') := by
  obtain ⟨entry, hentry, hall⟩ := h
  refine ⟨entry, hentry, fun x hx => ?_⟩
  by_cases hrun : run = []
  · rw [setExtras] at hset
    obtain ⟨v, -, hset⟩ := Outcome.bind_eq_ok.1 hset
    rw [Extras.set, hrun] at hset
    split at hset
    · rw [← Except.ok.inj hset] at hx
      exact hall x (Extras.mem_erase hx)
    · cases hset
  · obtain ⟨entry', hentry', hlabel, rfl⟩ := setExtras_eq_ok hrun hset
    rw [hentry] at hentry'
    cases hentry'
    rcases Extras.mem_insert hx with rfl | hx
    · exact ⟨hlabel, hrun⟩
    · exact hall x hx

/-! ### Frames -/

/-- The records of a frame and of the fields filled so far are admitted. -/
structure Frame.Admitted (s : Schema) (owner : Owner) (f : Frame) : Prop where
  owner_eq : f.owner = owner
  own : s.Admits (owner, f.extras)
  fields : s.AdmitsAll (fieldsRecords f.fields)

namespace Frame.Admitted

variable {s : Schema} {owner : Owner} {name : String} {value : Value}

/-- Filling a field adds the records of its value. -/
theorem fill (h : f.Admitted s owner)
    (hvalue : s.AdmitsAll (valueRecords value)) :
    (f.fill name value).Admitted s owner := by
  refine ⟨h.owner_eq, h.own, ?_⟩
  rw [Frame.fill, fieldsRecords_append, fieldsRecords, fieldsRecords,
    List.append_nil]
  exact h.fields.append hvalue

/-- Changing a field leaves the records of the others as they are. -/
theorem update {change : Value → Value} (h : f.Admitted s owner)
    (hnodup : (f.fields.map Prod.fst).Nodup)
    (hvalue : f.fields.lookup name = some value)
    (hchange : s.AdmitsAll (valueRecords value) →
      s.AdmitsAll (valueRecords (change value))) :
    (f.update name change).Admitted s owner := by
  obtain ⟨others, hold, hnew⟩ := fieldsRecords_update change hnodup hvalue
  have hall := h.fields.perm hold.symm
  refine ⟨h.owner_eq, h.own, Schema.AdmitsAll.perm ?_ hnew⟩
  apply Schema.AdmitsAll.append
  · exact hchange fun r hr => hall r (List.mem_append_left _ hr)
  · exact fun r hr => hall r (List.mem_append_right _ hr)

/-- Wherever a run in front of an element is stored, the label belongs to the
owner of the record. -/
theorem store (hf : f.Admitted c.schema owner)
    (hnodup : (f.fields.map Prod.fst).Nodup)
    (h : Stored c f right run f' handed) : f'.Admitted c.schema owner := by
  cases h with
  | nothing | right => exact hf
  | owner _ _ _ set =>
    rw [hf.owner_eq] at set
    exact ⟨hf.owner_eq, admits_setExtras hf.own set, hf.fields⟩
  | left _ _ _ _ _ field last set =>
    refine hf.update hnodup field fun hvalue => ?_
    obtain ⟨others, hold, hnew⟩ := valueRecords_withLastRecord _ last
    have hall := hvalue.perm hold.symm
    refine Schema.AdmitsAll.perm ?_ hnew
    intro r hr
    rcases List.mem_cons.1 hr with rfl | hr
    · exact admits_setExtras (hall _ List.mem_cons_self) set
    · exact hall r (List.mem_cons_of_mem _ hr)

theorem token {text : String} (hf : f.Admitted c.schema owner)
    (hnodup : (f.fields.map Prod.fst).Nodup)
    (h : token c f e text tokens = .ok (f', rest)) :
    f'.Admitted c.schema owner := by
  obtain ⟨f₁, handed, t, hgap, -, rfl⟩ := token_eq_ok h
  have hstore := hf.store hnodup (gap_eq_ok hgap).2
  exact ⟨hstore.owner_eq, hstore.own, hstore.fields⟩

end Frame.Admitted

/-! ### Slots -/

/-- A child comes out with admitted records. -/
def Child.Admitted (s : Schema) (ch : Child) : Prop :=
  ∀ handed tokens tree rest, ch.build handed tokens = .ok (tree, rest) →
    s.AdmitsAll tree.records

/-- Virtual nodes come out with admitted records. -/
def RolesAdmitted (s : Schema) (virtual : VirtualBuilder) : Prop :=
  ∀ role handed tokens name value rest,
    virtual role handed tokens = .ok (name, value, rest) →
    s.AdmitsAll (valueRecords value)

namespace Frame.Admitted

variable {owner : Owner}

theorem addChild {name : String}
    {value : Value} (hf : f.Admitted c.schema owner)
    (hvalue : c.schema.AdmitsAll (valueRecords value)) :
    (f.addChild e name value).Admitted c.schema owner := by
  have hfill : (f.fill name value).Admitted c.schema owner := hf.fill hvalue
  exact ⟨hfill.owner_eq, hfill.own, hfill.fields⟩

theorem addItem {name : String} {items : List Cst} {item : Cst}
    (hf : f.Admitted c.schema owner) (hnodup : (f.fields.map Prod.fst).Nodup)
    (hitems : f.fields.lookup name = some (.list items))
    (hitem : c.schema.AdmitsAll item.records) :
    (f.addItem e name item).Admitted c.schema owner := by
  have hupdate :
      (f.update name (Frame.addItemTo item)).Admitted c.schema owner := by
    refine hf.update hnodup hitems fun hold => ?_
    simp only [Frame.addItemTo, valueRecords, itemsRecords_append, itemsRecords,
      List.append_nil]
    exact hold.append hitem
  exact ⟨hupdate.owner_eq, hupdate.own, hupdate.fields⟩

/-- What going through the items of a list keeps. -/
theorem items {slot index : Nat} {field : String} {separator : Option String}
    {children : List Child} (hf : f.Admitted c.schema owner)
    (hchildren : ∀ ch ∈ children, ch.Admitted c.schema)
    (hnodup : (f.fields.map Prod.fst).Nodup) (hlist : HoldsList f field index)
    (h : fillItems c slot field separator index f tokens children =
      .ok (f', rest)) : f'.Admitted c.schema owner := by
  induction children generalizing index f tokens with
  | nil =>
    cases Except.ok.inj h
    exact hf
  | cons child children ih =>
    obtain ⟨f₁, tokens₁, f₂, handed, tokens₂, item, tokens₃, hseparated, hgap,
      hbuild, hitems⟩ :=
      fillItems_cons_eq_ok h
    have h₁ : f₁.Admitted c.schema owner ∧
        f₁.fields.map Prod.fst = f.fields.map Prod.fst := by
      cases hseparated with
      | nothing => exact ⟨hf, rfl⟩
      | token _ _ pass => exact ⟨hf.token hnodup pass, token_names pass⟩
    have hstored := (gap_eq_ok hgap).2
    have hnames₂ : f₂.fields.map Prod.fst = f.fields.map Prod.fst :=
      hstored.names_eq.trans h₁.2
    have h₂ : f₂.Admitted c.schema owner := h₁.1.store (h₁.2 ▸ hnodup) hstored
    have hlist₂ := (hlist.of_separated hseparated).of_gap hgap
    have hnames₃ :
        (f₂.addItem (.item slot index) field item).fields.map Prod.fst =
          f.fields.map Prod.fst := (f₂.names_update ..).trans hnames₂
    have hitem := hchildren child List.mem_cons_self _ _ _ _ hbuild
    refine ih ?_ (fun ch hch => hchildren ch (List.mem_cons_of_mem _ hch))
      (hnames₃ ▸ hnodup) (hlist₂.addItem item) hitems
    obtain ⟨items, hvalue, -⟩ := hlist₂
    exact h₂.addItem (hnames₂ ▸ hnodup) hvalue hitem

variable {p : Parts} {virtual : VirtualBuilder}

/-- What going through one slot keeps. -/
theorem step {index : Nat} {slot : Slot} (hf : f.Admitted c.schema owner)
    (hparts : p.All (·.Admitted c.schema))
    (hroles : RolesAdmitted c.schema virtual)
    (hnodup : (f.fields.map Prod.fst ++
      (Schema.placed? c.schema.roles slot).toList.map FieldDef.name).Nodup)
    (h : Fills c p virtual index f tokens slot f' rest) :
    f'.Admitted c.schema owner := by
  have hnames : (f.fields.map Prod.fst).Nodup := (List.nodup_append.1 hnodup).1
  have hnothing : c.schema.AdmitsAll [] := fun _ hr => nomatch hr
  cases h with
  | extras label => exact hf
  | token pass => exact hf.token hnames pass
  | scalar part pass => exact (hf.token hnames pass).fill hnothing
  | implied part | absent part => exact hf.fill hnothing
  | child hslot part before build =>
    exact (hf.store hnames (gap_eq_ok before).2).addChild
      (hparts _ _ part _ _ _ _ build)
  | @list field _ _ _ _ part items =>
    have hfresh : field ∉ f.fields.map Prod.fst := fun hmem =>
      (List.nodup_append.1 hnodup).2.2 _ hmem _ (List.mem_singleton_self _) rfl
    have hnodup' : ((f.fill field (.list [])).fields.map Prod.fst).Nodup := by
      rw [Frame.fill, List.map_append]
      exact hnodup
    have hstart : (f.fill field (.list [])).Admitted c.schema owner :=
      hf.fill hnothing
    exact hstart.items (hparts _ _ part) hnodup'
      ⟨[], lookup_fill hfresh, rfl⟩ items
  | virtual before build =>
    exact (hf.store hnames (gap_eq_ok before).2).addChild
      (hroles _ _ _ _ _ _ build)

/-- What going through a schedule keeps. -/
theorem steps {index : Nat} {slots : Schedule} (hf : f.Admitted c.schema owner)
    (hparts : p.All (·.Admitted c.schema))
    (hroles : RolesAdmitted c.schema virtual)
    (hplaced : Placed c.schema.roles p virtual)
    (hnodup : (f.fields.map Prod.fst ++
      Schema.placedNames c.schema.roles slots).Nodup)
    (h : fillSlots c p virtual index f tokens slots = .ok (f', rest)) :
    f'.Admitted c.schema owner := by
  induction slots generalizing index f tokens with
  | nil =>
    cases Except.ok.inj h
    exact hf
  | cons slot slots ih =>
    obtain ⟨f₁, tokens₁, hfirst, hothers⟩ := fillSlots_cons_eq_ok h
    rw [Schema.placedNames_cons, ← List.append_assoc] at hnodup
    refine ih (hf.step hparts hroles (List.nodup_append.1 hnodup).1 hfirst) ?_
      hothers
    rw [hfirst.names hplaced]
    exact hnodup

end Frame.Admitted

/-- A frame of which nothing has been built has at most what
was handed to it. -/
theorem Opened.admitted {owner : Owner} {root : Bool}
    (h : Opened c owner handed root f) : f.Admitted c.schema owner := by
  obtain ⟨entry, hentry, -⟩ := h.entry
  have hempty := Schema.admits_empty hentry
  have hextras := h.extras
  refine ⟨h.owner_eq, ?_, ?_⟩
  · cases handed with
    | none =>
      rw [show f.extras = .empty from hextras]
      exact hempty
    | some x => exact admits_setExtras hempty hextras
  · rw [h.fields]
    exact fun _ hr => nomatch hr

/-! ### Nodes -/

section Nodes

variable {p : Parts} (hs : c.schema.Sound)
  (hparts : p.All (·.Admitted c.schema))

include hs hparts

/-- A virtual node has admitted records. -/
theorem virtualNode_admitted : RolesAdmitted c.schema (virtualNode c p) := by
  intro role handed tokens name value rest h
  obtain ⟨entry, f, f', inner, children, -, hfits, hfield, hopen, -, hfill,
    hfields, rfl, -⟩ :=
    virtualNode_placed hs h
  have hnodup : (f.fields.map Prod.fst ++
      Schema.placedNames c.schema.roles entry.schedule).Nodup := by
    rw [hopen.fields, hfits.placedNames hfield]
    exact List.nodup_singleton name
  have hroles : RolesAdmitted c.schema (refuse role) :=
    fun _ _ _ _ _ _ h => nomatch h
  have hf' := hopen.admitted.steps hparts hroles
    (placed_refuse c.schema.roles p role) hnodup hfill
  have hinner := hf'.fields
  rw [hfields, fieldsRecords, fieldsRecords, List.append_nil] at hinner
  rw [valueRecords_wrapped]
  intro r hr
  rcases List.mem_cons.1 hr with rfl | hr
  · exact hf'.own
  · exact hinner r hr

/-- A node, which may be the root, has admitted records. -/
theorem node_admitted {root : Bool} {tree : Cst} {declared : List FieldDef}
    (hdeclared : c.schema.grammar.fields? p.type = some declared)
    (hnames : p.fields.map Prod.fst = declared.map FieldDef.name)
    (h : node c p root handed tokens = .ok (tree, rest)) :
    c.schema.AdmitsAll tree.records := by
  obtain ⟨entry, f, f₁, f', tokens₁, ordered, hentry, hopen, hfill, hend, hf₁,
    harranged, rfl⟩ :=
    exists_arranged hs hdeclared hnames h
  have hnodup : (Schema.placedNames c.schema.roles entry.schedule).Nodup :=
    harranged.names ▸ harranged.nodup
  have hstart : (f.fields.map Prod.fst ++
      Schema.placedNames c.schema.roles entry.schedule).Nodup := by
    rw [hopen.fields]
    exact hnodup
  have hadmitted := hopen.admitted.steps hparts (virtualNode_admitted hs hparts)
    (placed_virtualNode hs p) hstart hfill
  have hf' : f'.Admitted c.schema (.node p.type) := by
    cases root with
    | false =>
      rw [hend.1]
      exact hadmitted
    | true =>
      -- behind the root's last element stand the extras at the end of the text
      obtain ⟨handed', hgap⟩ := hend
      exact hadmitted.store (hf₁ ▸ hnodup) (gap_eq_ok hgap).2
  have hfields :=
    Named.perm harranged.nodup harranged.namesPerm harranged.lookup
  intro r hr
  rcases List.mem_cons.1 hr with rfl | hr
  · exact hf'.own
  · exact hf'.fields.perm (fieldsRecords_perm hfields).symm r hr

end Nodes

/-- Every tree of the grammar comes out with admitted records. -/
theorem child_admitted (hs : c.schema.Sound) (t : Ast)
    (ht : c.schema.grammar.Conforms t) : (child c t).Admitted c.schema := by
  induction t using Branching.induction with
  | step t ih =>
    cases ht with
    | node hdeclared hnames hshapes hbelow =>
      intro handed tokens tree rest h
      rw [child_build] at h
      exact node_admitted hs (parts_all fun u hu => ih u hu (hbelow u hu))
        hdeclared ((names_parts c _).trans hnames) h

end Build

/-- Under any schema a tree that is built has admitted records only. -/
theorem admitsAll_of_build {s : Schema} {t : Ast} {tokens : List SourceToken}
    {tree : Cst} (hs : s.Sound) (h : build s t tokens = .ok tree) :
    s.AdmitsAll tree.records := by
  obtain ⟨hcheck, hnode⟩ := build_eq_ok h
  cases Grammar.conforms_of_check hcheck with
  | node hdeclared hnames hshapes hbelow =>
    exact Build.node_admitted (c := ⟨s, Build.streamEnd tokens⟩) hs
      (Build.parts_all fun u hu => Build.child_admitted hs u (hbelow u hu))
      hdeclared ((Build.names_parts _ _).trans hnames) hnode

/-- The label table is sound, whatever grammar and strategy a schema is made of.
Every record of a tree that is built has only labels that the line of its owner
lists, and no empty run; and a field with a virtual node is the one that the
line of the role names, in a node whose type lists the role. -/
theorem labelTable_sound {g : Grammar} {strategy : Strategy}
    {s : Schema} {t : Ast} {tokens : List SourceToken} {tree : Cst}
    (hs : Schema.make g strategy = .ok s) (h : build s t tokens = .ok tree) :
    (∀ r ∈ tree.records, ∃ line, s.labelTable.line? r.1 = some line ∧
      ∀ x ∈ r.2.entries, x.1 ∈ line.labels ∧ x.2 ≠ []) ∧
      ∀ u ∈ Branching.nodes tree, ∀ name role wrapped extras,
        (name, Value.virtual role wrapped extras) ∈ u.fields →
        (∃ line, s.labelTable.line? (.node u.type) = some line ∧
          role ∈ line.virtualNodes) ∧
          ∃ line, s.labelTable.line? (.virtual role) = some line ∧
            line.wraps = some name := by
  obtain ⟨-, -, hsound⟩ := Schema.make_eq_ok hs
  constructor
  · intro r hr
    obtain ⟨entry, hentry, hall⟩ := admitsAll_of_build hsound h r hr
    obtain ⟨line, hline, hlabels⟩ := Schema.exists_line hentry
    refine ⟨line, hline, fun x hx => ?_⟩
    obtain ⟨hlabel, hrun⟩ := hall x hx
    rw [Vocabulary.contains, List.contains_iff_mem] at hlabel
    exact ⟨hlabels ▸ hlabel, hrun⟩
  · intro u hu name role wrapped extras hfield
    apply Schema.lines_of_slotOf?
    -- without its records the node is one of the shape, which is made
    -- from the schema alone
    have hnode : u.blank ∈ (Branching.nodes t).map (shell s) := by
      rw [← Branching.nodes_map (children_shell s), ← blank_of_build hsound h,
        Branching.nodes_map children_blank]
      exact List.mem_map_of_mem hu
    obtain ⟨⟨type, fields⟩, -, hshell⟩ := List.mem_map.1 hnode
    obtain ⟨type', fields', extras'⟩ := u
    rw [shell, blank] at hshell
    injection hshell with htype hfields
    have hblank : (name, blankValue (.virtual role wrapped extras)) ∈
        shellFields s type fields := by
      rw [hfields, blankFields_eq_map]
      exact List.mem_map.2 ⟨_, hfield, rfl⟩
    rw [← htype]
    cases wrapped with
    | none => exact slotOf?_of_shell hblank
    | some value => exact slotOf?_of_shell hblank

/-- The fields with virtual nodes in a tree, each with the type of its node and
the role. -/
def virtualFields (t : Cst) : List (String × String × VirtualRole) :=
  (Branching.nodes t).flatMap fun u => u.fields.filterMap fun
    | (name, .virtual role _ _) => some (u.type, name, role)
    | _ => none

theorem exists_field_of_mem_virtualFields {t : Cst} {type name : String}
    {role : VirtualRole} (h : (type, name, role) ∈ t.virtualFields) :
    ∃ u ∈ Branching.nodes t, u.type = type ∧
      ∃ wrapped extras, (name, Value.virtual role wrapped extras) ∈
        u.fields := by
  obtain ⟨u, hu, h⟩ := List.mem_flatMap.1 h
  obtain ⟨⟨name', value⟩, hfield, h⟩ := List.mem_filterMap.1 h
  cases value with
  | «virtual» role' wrapped extras =>
    cases h
    exact ⟨u, hu, rfl, wrapped, extras, hfield⟩
  | scalar | absent | node | list => exact nomatch h

/-- The record of the literal in `f( true )`. -/
def literalExtras : Extras :=
  ⟨[(.before, [⟨.blank, " ", ⟨⟨2, 3⟩, ⟨0, 2⟩, ⟨0, 3⟩⟩⟩]),
    (.after, [⟨.blank, " ", ⟨⟨7, 8⟩, ⟨0, 7⟩, ⟨0, 8⟩⟩⟩])]⟩

/-- In the tree of `f( true )` the literal keeps the two spaces, and the
arguments stand in a virtual node. -/
theorem labelTable_sound_sample :
    ∃ s tree line line' line'', Schema.make .functions .virtualNodes = .ok s ∧
      build s sampleTree sampleTokens = .ok tree ∧
      s.labelTable.line? (.node "Literal") = some line ∧
      Label.before ∈ line.labels ∧ Label.after ∈ line.labels ∧
      s.labelTable.line? (.node "CallExpression") = some line' ∧
      .argumentList ∈ line'.virtualNodes ∧
      s.labelTable.line? (.virtual .argumentList) = some line'' ∧
      line''.wraps = some "arguments" := by
  have h : ((Schema.make .functions .virtualNodes >>= fun s =>
      build s sampleTree sampleTokens).map fun tree =>
        decide ((.node "Literal", literalExtras) ∈ tree.records ∧
          ("CallExpression", "arguments", .argumentList) ∈
            tree.virtualFields)) =
        .ok true := by
    decide +kernel
  obtain ⟨tree, h, hmem⟩ := Outcome.map_eq_ok.1 h
  obtain ⟨s, hs, htree⟩ := Outcome.bind_eq_ok.1 h
  obtain ⟨hliteral, hcall⟩ := of_decide_eq_true hmem
  obtain ⟨hrecords, hfields⟩ := labelTable_sound hs htree
  obtain ⟨line, hline, hlabels⟩ := hrecords _ hliteral
  obtain ⟨u, hu, htype, wrapped, extras, hfield⟩ :=
    exists_field_of_mem_virtualFields hcall
  obtain ⟨⟨line', hline', hrole⟩, line'', hline'', hwraps⟩ :=
    hfields u hu _ _ wrapped extras hfield
  exact ⟨s, tree, line, line', line'', hs, htree, hline,
    (hlabels _ List.mem_cons_self).1,
    (hlabels _ (List.mem_cons_of_mem _ List.mem_cons_self)).1,
    htype ▸ hline', hrole, hline'', hwraps⟩

end Cst

end Lossless
