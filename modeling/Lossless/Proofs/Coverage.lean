import Lossless.Outcome
import Lossless.Proofs.Named
import Lossless.Schema.Basic
import Mathlib.Data.List.Basic
import Mathlib.Data.List.Nodup
import Mathlib.Data.List.Perm.Subperm

/-!
# What a schema guarantees

`Schema.make` accepts a strategy after a chain of checks. `Schema.Sound` says
what they establish: for a node type, that the schedule places every declared
field once and with its shape; for a role, that the schedule wraps one field of
the role's shape; for both, that the labels of the schedule are the owner's own
and that every listed gap has a fitting anchor.
-/

namespace Lossless

/-- The anchor of a gap is one that a record can be found for: the
owner's under a label of its vocabulary, or that of a child beside the
gap under a shared label. -/
def Anchor.Fits (a : Anchor) (g : Gap) (own shared : Vocabulary) : Prop :=
  match a.target with
  | .owner => own.contains a.label = true
  | .left => g.left.isChild = true ∧ shared.contains a.label = true
  | .right => g.right.isChild = true ∧ shared.contains a.label = true

namespace Schema

variable {grammar : Grammar} {strategy : Strategy}
  {owner : Owner} {schedule : Schedule} {vocabulary : Vocabulary}
  {roles roles' : List (VirtualRole × SchemaEntry)}

/-! ### Labels and gaps -/

theorem checkLabels_eq_ok {labels earlier : List Label}
    (h : checkLabels owner vocabulary earlier labels = .ok ()) :
    labels.Nodup ∧
      ∀ label ∈ labels, label ∉ earlier ∧ label ≠ .before ∧ label ≠ .after ∧
        vocabulary.contains label = true := by
  induction labels generalizing earlier with
  | nil => exact ⟨List.nodup_nil, fun _ hl => absurd hl List.not_mem_nil⟩
  | cons label labels ih =>
    rw [checkLabels] at h
    by_cases hparent : label = .before ∨ label = .after
    · simp [hparent] at h
    by_cases hearlier : label ∈ earlier
    · simp [hparent, hearlier] at h
    cases hcontains : vocabulary.contains label with
    | false => simp [hparent, hearlier, hcontains] at h
    | true =>
      simp only [hparent, hearlier, hcontains, if_false, Bool.not_true,
        Bool.false_eq_true] at h
      rcases ih h with ⟨hnodup, hall⟩
      constructor
      · refine List.nodup_cons.2 ⟨fun hmem => ?_, hnodup⟩
        exact (hall label hmem).1
          (List.mem_append_right _ (List.mem_singleton_self _))
      · intro l hl
        rcases List.mem_cons.1 hl with rfl | hl
        · exact ⟨hearlier, fun he => hparent (.inl he),
            fun he => hparent (.inr he), hcontains⟩
        · rcases hall l hl with ⟨hnot, hrest⟩
          exact ⟨fun hmem => hnot (List.mem_append_left _ hmem), hrest⟩

theorem checkAnchor_eq_ok {shared : Vocabulary} {g : Gap} {a : Anchor}
    (h : checkAnchor owner schedule vocabulary shared g a = .ok ()) :
    a.Fits g vocabulary shared := by
  rw [checkAnchor] at h
  rw [Anchor.Fits]
  cases htarget : a.target with
  | owner =>
    cases hlabel : vocabulary.contains a.label with
    | false => simp [htarget, hlabel] at h
    | true => rfl
  | left =>
    cases hchild : g.left.isChild with
    | false => simp [htarget, hchild] at h
    | true =>
      cases hlabel : shared.contains a.label with
      | false => simp [htarget, hchild, hlabel] at h
      | true => exact ⟨rfl, rfl⟩
  | right =>
    cases hchild : g.right.isChild with
    | false => simp [htarget, hchild] at h
    | true =>
      cases hlabel : shared.contains a.label with
      | false => simp [htarget, hchild, hlabel] at h
      | true => exact ⟨rfl, rfl⟩

theorem checkGaps_eq_ok {gaps : List Gap}
    (h : checkGaps strategy owner schedule gaps = .ok ()) :
    ∀ g ∈ gaps, ∃ a, strategy.anchor owner schedule g = .ok a ∧
      a.Fits g (strategy.vocabulary owner schedule)
        (strategy.vocabulary owner []) := by
  induction gaps with
  | nil => exact fun _ hg => absurd hg List.not_mem_nil
  | cons g gaps ih =>
    rw [checkGaps] at h
    rcases Outcome.bind_eq_ok.1 h with ⟨a, ha, h⟩
    rcases Outcome.bind_eq_ok.1 h with ⟨⟨⟩, hfits, h⟩
    intro g' hg'
    rcases List.mem_cons.1 hg' with rfl | hg'
    · exact ⟨a, ha, checkAnchor_eq_ok hfits⟩
    · exact ih h g' hg'

/-! ### Entries -/

/-- What holds of the entry of an owner, which may be the root. -/
structure EntryFits (strategy : Strategy) (owner : Owner) (root : Bool)
    (e : SchemaEntry) : Prop where
  schedule : strategy.schedule? owner = some e.schedule
  vocabulary : e.vocabulary = strategy.vocabulary owner e.schedule
  nodup : e.schedule.labels.Nodup
  own : ∀ label ∈ e.schedule.labels,
    label ≠ .before ∧ label ≠ .after ∧ e.vocabulary.contains label = true
  anchors : ∀ g ∈ e.schedule.gaps root, ∃ a,
    strategy.anchor owner e.schedule g = .ok a ∧
    a.Fits g e.vocabulary (strategy.vocabulary owner [])

theorem scheduleOf_eq_ok (h : scheduleOf strategy owner = .ok schedule) :
    strategy.schedule? owner = some schedule := by
  rw [scheduleOf] at h
  cases hs : strategy.schedule? owner with
  | none => simp [hs] at h
  | some s =>
    rw [hs] at h
    rw [Except.ok.inj h]

theorem entry_eq_ok {root : Bool} {e : SchemaEntry}
    (hs : strategy.schedule? owner = some schedule)
    (h : entry strategy owner schedule root = .ok e) :
    e.schedule = schedule ∧ EntryFits strategy owner root e := by
  rw [entry] at h
  rcases Outcome.bind_eq_ok.1 h with ⟨⟨⟩, hlabels, h⟩
  rcases Outcome.bind_eq_ok.1 h with ⟨⟨⟩, hgaps, h⟩
  have he := Except.ok.inj h
  subst he
  rcases checkLabels_eq_ok hlabels with ⟨hnodup, hown⟩
  exact ⟨rfl, hs, rfl, hnodup, fun l hl => (hown l hl).2, checkGaps_eq_ok hgaps⟩

/-- What holds of the entry of a role. -/
structure RoleFits (strategy : Strategy) (role : VirtualRole)
    (e : SchemaEntry) :
    Prop extends EntryFits strategy (.virtual role) false e where
  noRoles : e.schedule.roles = []
  wraps : ∃ name, e.schedule.filterMap Slot.field? = [⟨name, role.shape⟩]

theorem roleEntry_eq_ok {role : VirtualRole} {e : SchemaEntry}
    (h : roleEntry strategy role = .ok e) : RoleFits strategy role e := by
  rw [roleEntry] at h
  rcases Outcome.bind_eq_ok.1 h with ⟨schedule, hschedule, h⟩
  have hs := scheduleOf_eq_ok hschedule
  cases hroles : schedule.roles with
  | cons role' more => simp [hroles] at h
  | nil =>
    simp only [hroles, List.isEmpty_nil, Bool.not_true, Bool.false_eq_true,
      if_false] at h
    split at h
    · rename_i field hfields
      by_cases hshape : field.shape = role.shape
      · rw [if_pos hshape] at h
        rcases entry_eq_ok hs h with ⟨he, hfits⟩
        refine ⟨hfits, ?_, field.name, ?_⟩
        · rw [he, hroles]
        · rw [he, hfields, ← hshape]
      · rw [if_neg hshape] at h
        exact nomatch h
    · exact nomatch h

theorem shape_eq_list (role : VirtualRole) : role.shape = .list := by
  cases role <;> rfl

theorem RoleFits.wrappedField? {role : VirtualRole} {e : SchemaEntry}
    (h : RoleFits strategy role e) :
    ∃ name, e.schedule.wrappedField? = some name ∧
      e.schedule.filterMap Slot.field? = [⟨name, role.shape⟩] := by
  rcases h.wraps with ⟨name, hname⟩
  refine ⟨name, ?_, hname⟩
  rw [Schedule.wrappedField?, ← List.head?_filterMap, hname]
  rfl

/-! ### Places of fields -/

/-- The field that a virtual node of a role wraps, if the role has an entry. -/
def wrapped? (roles : List (VirtualRole × SchemaEntry)) (role : VirtualRole) :
    Option FieldDef :=
  (roles.lookup role).bind fun e => e.schedule.wrappedField?.map fun name =>
    ⟨name, role.shape⟩

/-- The field that a slot places: its own, or the one that its
virtual node wraps. -/
def placed? (roles : List (VirtualRole × SchemaEntry)) : Slot → Option FieldDef
  | .virtual role => wrapped? roles role
  | slot => slot.field?

theorem wrappedField_eq_ok {role : VirtualRole} {d : FieldDef}
    (h : wrappedField roles role = .ok d) : wrapped? roles role = some d := by
  rw [wrappedField] at h
  rw [wrapped?]
  cases he : roles.lookup role with
  | none => simp [he] at h
  | some e =>
    cases hw : e.schedule.wrappedField? with
    | none => simp [he, hw] at h
    | some name =>
      simp only [he, hw, Option.bind_some] at h
      rw [← Except.ok.inj h]
      simp [hw]

/-- The entries of roles are only ever added to. -/
def Grows (roles roles' : List (VirtualRole × SchemaEntry)) : Prop :=
  ∃ more, roles' = roles ++ more

theorem Grows.trans {r₁ r₂ r₃ : List (VirtualRole × SchemaEntry)}
    (h : Grows r₁ r₂) (h' : Grows r₂ r₃) : Grows r₁ r₃ := by
  rcases h with ⟨m, rfl⟩
  rcases h' with ⟨m', rfl⟩
  exact ⟨m ++ m', by rw [List.append_assoc]⟩

theorem Grows.lookup {role : VirtualRole} {e : SchemaEntry}
    (h : Grows roles roles') (he : roles.lookup role = some e) :
    roles'.lookup role = some e := by
  rcases h with ⟨more, rfl⟩
  rw [List.lookup_append, he]
  rfl

theorem Grows.wrapped?_eq {role : VirtualRole} {d : FieldDef}
    (h : Grows roles roles') (hd : wrapped? roles role = some d) :
    wrapped? roles' role = some d := by
  rw [wrapped?] at hd ⊢
  cases he : roles.lookup role with
  | none => simp [he] at hd
  | some e =>
    rw [he] at hd
    rw [h.lookup he]
    exact hd

/-- Every entry of a list of roles is as it should be. -/
def RolesFit (strategy : Strategy)
    (roles : List (VirtualRole × SchemaEntry)) : Prop :=
  ∀ role e, roles.lookup role = some e → RoleFits strategy role e

theorem addRole_eq_ok {role : VirtualRole} (hroles : RolesFit strategy roles)
    (h : addRole strategy roles role = .ok roles') :
    Grows roles roles' ∧ RolesFit strategy roles' := by
  rw [addRole] at h
  cases he : roles.lookup role with
  | some e =>
    simp only [he] at h
    rw [← Except.ok.inj h]
    exact ⟨⟨[], (List.append_nil _).symm⟩, hroles⟩
  | none =>
    simp only [he] at h
    rcases Outcome.bind_eq_ok.1 h with ⟨e, hentry, h⟩
    rw [← Except.ok.inj h]
    refine ⟨⟨[(role, e)], rfl⟩, fun role' e' he' => ?_⟩
    rw [List.lookup_append] at he'
    cases hr : roles.lookup role' with
    | some e₁ =>
      simp only [hr, Option.some_or, Option.some.injEq] at he'
      exact he' ▸ hroles role' e₁ hr
    | none =>
      rw [hr, Option.none_or] at he'
      have hmem := Named.mem_of_lookup he'
      rw [List.mem_singleton, Prod.mk.injEq] at hmem
      rw [hmem.1, hmem.2]
      exact roleEntry_eq_ok hentry

/-- The fields of a schedule are placed as its slots say, and each of its
roles has an entry. -/
theorem place_eq_ok {placed : List FieldDef} (hroles : RolesFit strategy roles)
    (h : place strategy roles schedule = .ok (placed, roles')) :
    Grows roles roles' ∧ RolesFit strategy roles' ∧
      placed = schedule.filterMap (placed? roles') ∧
      ∀ role ∈ schedule.roles, (wrapped? roles' role).isSome := by
  fun_induction place strategy roles schedule generalizing placed roles' with
  | case1 roles =>
    cases Except.ok.inj h
    exact ⟨⟨[], (List.append_nil _).symm⟩, hroles, rfl,
      fun _ hr => absurd hr List.not_mem_nil⟩
  | case2 roles role slots ih =>
    rcases Outcome.bind_eq_ok.1 h with ⟨roles₁, hadd, h⟩
    rcases Outcome.bind_eq_ok.1 h with ⟨d, hd, h⟩
    rcases Outcome.bind_eq_ok.1 h with ⟨⟨fields, roles₂⟩, hplace, h⟩
    cases Except.ok.inj h
    rcases addRole_eq_ok hroles hadd with ⟨hgrows, hfit⟩
    rcases ih roles₁ hfit hplace with ⟨hgrows', hfit', hfields, hall⟩
    -- entries are only added behind it, so the role keeps its own
    have hw : wrapped? roles' role = some d :=
      hgrows'.wrapped?_eq (wrappedField_eq_ok hd)
    refine ⟨hgrows.trans hgrows', hfit', ?_, fun role' hr => ?_⟩
    · rw [List.filterMap_cons, placed?, hw, hfields]
    · rw [Schedule.roles, List.filterMap_cons, Slot.role?] at hr
      rcases List.mem_cons.1 hr with rfl | hr
      · rw [hw]
        rfl
      · exact hall role' hr
  | case3 roles slot slots hslot ih =>
    rcases Outcome.bind_eq_ok.1 h with ⟨⟨fields, roles₁⟩, hplace, h⟩
    cases Except.ok.inj h
    rcases ih hroles hplace with ⟨hgrows, hfit, hfields, hall⟩
    refine ⟨hgrows, hfit, ?_, fun role' hr => hall role' ?_⟩
    · rw [hfields]
      cases slot <;> first | rfl | exact absurd rfl (hslot _)
    · cases slot <;> first | exact hr | exact absurd rfl (hslot _)

theorem placeFault?_eq_none {placed : List FieldDef} {d : FieldDef}
    (h : placeFault? placed d = none) :
    placed.filter (·.name = d.name) = [d] := by
  rw [placeFault?] at h
  split at h
  · exact nomatch h
  · rename_i p hp
    have hname : p.name = d.name := by
      have hmem : p ∈ placed.filter (·.name = d.name) := by simp [hp]
      simpa using (List.mem_filter.1 hmem).2
    split at h
    · rename_i hshape
      rw [hp]
      cases p
      cases d
      simp_all
    · exact nomatch h
  · exact nomatch h

theorem placesFault?_eq_none {placed declared : List FieldDef}
    (h : placesFault? placed declared = none) :
    (∀ d ∈ declared, placed.filter (·.name = d.name) = [d]) ∧
      placed.length = declared.length := by
  rw [placesFault?] at h
  split at h
  · exact nomatch h
  · rename_i hnone
    refine ⟨fun d hd =>
      placeFault?_eq_none (List.findSome?_eq_none_iff.1 hnone d hd), ?_⟩
    split at h
    · assumption
    · exact nomatch h

/-- What holds of the entry of a node type with its declared fields. -/
structure NodeFits (grammar : Grammar) (strategy : Strategy)
    (roles : List (VirtualRole × SchemaEntry)) (type : String)
    (declared : List FieldDef) (e : SchemaEntry) :
    Prop extends EntryFits strategy (.node type) (type = grammar.root) e where
  hasRoles : ∀ role ∈ e.schedule.roles, (wrapped? roles role).isSome
  once : ∀ d ∈ declared,
    (e.schedule.filterMap (placed? roles)).filter (·.name = d.name) = [d]
  length : (e.schedule.filterMap (placed? roles)).length = declared.length

theorem Grows.placed?_eq {slot : Slot} (h : Grows roles roles')
    (hslot : ∀ role, slot = .virtual role → (wrapped? roles role).isSome) :
    placed? roles' slot = placed? roles slot := by
  cases slot with
  | virtual role =>
    rcases Option.isSome_iff_exists.1 (hslot role rfl) with ⟨d, hd⟩
    exact (h.wrapped?_eq hd).trans hd.symm
  | _ => rfl

theorem NodeFits.grow {type : String} {declared : List FieldDef}
    {e : SchemaEntry} (h : Grows roles roles')
    (hfits : NodeFits grammar strategy roles type declared e) :
    NodeFits grammar strategy roles' type declared e := by
  have hplaced : e.schedule.filterMap (placed? roles') =
      e.schedule.filterMap (placed? roles) := by
    refine List.filterMap_congr fun slot hslot =>
      h.placed?_eq fun role hrole => ?_
    exact hfits.hasRoles role
      (List.mem_filterMap.2 ⟨slot, hslot, by rw [hrole]; rfl⟩)
  refine ⟨hfits.toEntryFits, fun role hrole => ?_, ?_, ?_⟩
  · rcases Option.isSome_iff_exists.1 (hfits.hasRoles role hrole) with ⟨d, hd⟩
    rw [h.wrapped?_eq hd]
    rfl
  · rw [hplaced]
    exact hfits.once
  · rw [hplaced]
    exact hfits.length

theorem entries_eq_ok {types : List (String × List FieldDef)}
    {nodes : List (String × SchemaEntry)} (hroles : RolesFit strategy roles)
    (h : entries grammar strategy roles types = .ok (nodes, roles')) :
    Grows roles roles' ∧ RolesFit strategy roles' ∧
      nodes.map Prod.fst = types.map Prod.fst ∧
      ∀ type e, nodes.lookup type = some e →
        ∃ declared, types.lookup type = some declared ∧
          NodeFits grammar strategy roles' type declared e := by
  induction types generalizing roles nodes with
  | nil =>
    cases Except.ok.inj h
    exact ⟨⟨[], (List.append_nil _).symm⟩, hroles, rfl,
      fun _ _ he => nomatch he⟩
  | cons t types ih =>
    rcases t with ⟨type, declared⟩
    rw [entries] at h
    rcases Outcome.bind_eq_ok.1 h with ⟨schedule, hschedule, h⟩
    rcases Outcome.bind_eq_ok.1 h with ⟨⟨placed, roles₁⟩, hplace, h⟩
    simp only at h
    split at h
    · exact nomatch h
    · rename_i hfault
      rcases Outcome.bind_eq_ok.1 h with ⟨first, hfirst, h⟩
      rcases Outcome.bind_eq_ok.1 h with ⟨⟨others, roles₂⟩, hothers, h⟩
      cases Except.ok.inj h
      rcases place_eq_ok hroles hplace with ⟨hgrows, hfit, hplaced, hhas⟩
      rcases ih hfit hothers with ⟨hgrows', hfit', hnames, hall⟩
      rcases entry_eq_ok (scheduleOf_eq_ok hschedule) hfirst with ⟨he, hentry⟩
      rcases placesFault?_eq_none hfault with ⟨honce, hlength⟩
      refine ⟨hgrows.trans hgrows', hfit', by simp [hnames],
        fun type' e' he' => ?_⟩
      rw [List.lookup_cons] at he'
      by_cases htype : type' = type
      · subst htype
        simp only [beq_self_eq_true, Option.some.injEq] at he'
        subst he'
        -- later types may add roles, which leaves the places of
        -- this one as they are
        refine ⟨declared, by simp, NodeFits.grow hgrows' ⟨hentry, ?_, ?_, ?_⟩⟩
        · rw [he]
          exact hhas
        · rw [he, ← hplaced]
          exact honce
        · rw [he, ← hplaced]
          exact hlength
      · have hbeq : (type' == type) = false := by simpa using htype
        simp only [hbeq] at he'
        rcases hall type' e' he' with ⟨declared', hd, hfits⟩
        exact ⟨declared', by rw [List.lookup_cons, hbeq]; exact hd, hfits⟩

/-! ### Names of places -/

/-- The names of the fields that a schedule places, in order. -/
def placedNames (roles : List (VirtualRole × SchemaEntry))
    (schedule : Schedule) : List String :=
  (schedule.filterMap (placed? roles)).map FieldDef.name

theorem placedNames_cons (slot : Slot) :
    placedNames roles (slot :: schedule) =
      (placed? roles slot).toList.map FieldDef.name ++
        placedNames roles schedule := by
  rw [placedNames, placedNames, List.filterMap_cons]
  cases placed? roles slot <;> rfl

theorem nodup_names {placed : List FieldDef}
    (h : ∀ p ∈ placed, placed.filter (·.name = p.name) = [p]) :
    (placed.map FieldDef.name).Nodup := by
  rw [List.nodup_iff_count_le_one]
  intro name
  by_cases hname : name ∈ placed.map FieldDef.name
  · rcases List.mem_map.1 hname with ⟨p, hp, rfl⟩
    have hcount : (placed.map FieldDef.name).count p.name =
        (placed.filter (·.name = p.name)).length := by
      rw [List.count_eq_countP, List.countP_map, List.countP_eq_length_filter]
      congr 1
    rw [hcount, h p hp]
    exact Nat.le_refl _
  · rw [List.count_eq_zero_of_not_mem hname]
    exact Nat.zero_le _

/-- Where only declared names are placed, the places are the declared
fields in some order. -/
theorem NodeFits.perm {type : String} {declared : List FieldDef}
    {e : SchemaEntry} (h : NodeFits grammar strategy roles type declared e)
    (hnames : ∀ name ∈ placedNames roles e.schedule,
      name ∈ declared.map FieldDef.name) :
    (e.schedule.filterMap (placed? roles)).Perm declared ∧
      (placedNames roles e.schedule).Nodup := by
  have hself : ∀ p ∈ e.schedule.filterMap (placed? roles), p ∈ declared ∧
      (e.schedule.filterMap (placed? roles)).filter (·.name = p.name) =
        [p] := by
    intro p hp
    rcases List.mem_map.1 (hnames p.name (List.mem_map.2 ⟨p, hp, rfl⟩)) with
      ⟨d, hd, hname⟩
    have hfilter := h.once d hd
    rw [hname] at hfilter
    have hmem :
        p ∈ (e.schedule.filterMap (placed? roles)).filter (·.name = p.name) :=
      List.mem_filter.2 ⟨hp, by simp⟩
    rw [hfilter, List.mem_singleton] at hmem
    subst hmem
    exact ⟨hd, hfilter⟩
  have hnodup := nodup_names fun p hp => (hself p hp).2
  refine ⟨?_, hnodup⟩
  have hsub := List.Nodup.subperm (List.Nodup.of_map _ hnodup) fun p hp =>
    (hself p hp).1
  exact hsub.perm_of_length_le (Nat.le_of_eq h.length.symm)

/-- Where no field is declared twice, the places are the declared
fields in some order. -/
theorem NodeFits.perm_of_nodup {type : String} {declared : List FieldDef}
    {e : SchemaEntry} (h : NodeFits grammar strategy roles type declared e)
    (hdistinct : (declared.map FieldDef.name).Nodup) :
    (e.schedule.filterMap (placed? roles)).Perm declared := by
  have hsub : declared ⊆ e.schedule.filterMap (placed? roles) := by
    intro d hd
    have hmem : d ∈
        (e.schedule.filterMap (placed? roles)).filter (·.name = d.name) := by
      rw [h.once d hd]
      exact List.mem_singleton_self d
    exact List.mem_of_mem_filter hmem
  have hsubperm := List.Nodup.subperm (List.Nodup.of_map _ hdistinct) hsub
  exact (hsubperm.perm_of_length_le (Nat.le_of_eq h.length)).symm

theorem RoleFits.notMem_virtual {role : VirtualRole} {e : SchemaEntry}
    (h : RoleFits strategy role e) (role' : VirtualRole) :
    .virtual role' ∉ e.schedule := by
  intro hslot
  have hmem : role' ∈ e.schedule.roles := List.mem_filterMap.2 ⟨_, hslot, rfl⟩
  rw [h.noRoles] at hmem
  exact List.not_mem_nil hmem

theorem RoleFits.role_eq_none {role : VirtualRole} {e : SchemaEntry}
    (h : RoleFits strategy role e) {slot : Slot} (hslot : slot ∈ e.schedule) :
    slot.role? = none := by
  cases slot with
  | virtual role' => exact absurd hslot (h.notMem_virtual role')
  | _ => rfl

/-- A slot without virtual node places its own field. -/
theorem placed_of_role (roles : List (VirtualRole × SchemaEntry)) {slot : Slot}
    (h : slot.role? = none) : placed? roles slot = slot.field? := by
  cases slot with
  | virtual role => exact nomatch h
  | _ => rfl

theorem RoleFits.placed {role : VirtualRole} {e : SchemaEntry}
    (h : RoleFits strategy role e) (roles : List (VirtualRole × SchemaEntry)) :
    e.schedule.filterMap (placed? roles) = e.schedule.filterMap Slot.field? :=
  List.filterMap_congr fun _ hslot =>
    placed_of_role roles (h.role_eq_none hslot)

/-- The only field that a virtual node has is the one that it wraps. -/
theorem RoleFits.placedNames {role : VirtualRole} {e : SchemaEntry}
    {name : String} (h : RoleFits strategy role e)
    (hfield : e.schedule.filterMap Slot.field? = [⟨name, role.shape⟩])
    (roles : List (VirtualRole × SchemaEntry)) :
    placedNames roles e.schedule = [name] := by
  rw [Schema.placedNames, h.placed, hfield]
  rfl

/-! ### Schemas -/

/-- What holds of a schema that the checks have accepted. -/
structure Sound (s : Schema) : Prop where
  role : ∀ role e, s.entry? (.virtual role) = some e →
    RoleFits s.strategy role e
  node : ∀ type e, s.entry? (.node type) = some e →
    ∃ declared, s.grammar.fields? type = some declared ∧
      NodeFits s.grammar s.strategy s.roles type declared e
  covers : ∀ type declared, s.grammar.fields? type = some declared →
    ∃ e, s.entry? (.node type) = some e

theorem Sound.entryFits {s : Schema} (hs : s.Sound) {e : SchemaEntry}
    (he : s.entry? owner = some e) :
    ∃ root, EntryFits s.strategy owner root e := by
  cases owner with
  | node type =>
    rcases hs.node type e he with ⟨declared, -, hfits⟩
    exact ⟨_, hfits.toEntryFits⟩
  | virtual role => exact ⟨false, (hs.role role e he).toEntryFits⟩

theorem Sound.vocabulary_eq {s : Schema} (hs : s.Sound) {e : SchemaEntry}
    (he : s.entry? owner = some e) :
    e.vocabulary = s.strategy.vocabulary owner e.schedule := by
  rcases hs.entryFits he with ⟨root, hfits⟩
  exact hfits.vocabulary

theorem make_eq_ok {s : Schema} (h : make grammar strategy = .ok s) :
    s.grammar = grammar ∧ s.strategy = strategy ∧ s.Sound := by
  rw [make] at h
  rcases Outcome.bind_eq_ok.1 h with ⟨⟨nodes, roles⟩, hentries, h⟩
  have hs := Except.ok.inj h
  subst hs
  rcases entries_eq_ok (fun _ _ he => absurd he (by simp)) hentries with
    ⟨-, hroles, hnames, hnodes⟩
  refine ⟨rfl, rfl, hroles, hnodes, fun type declared hd => ?_⟩
  refine Named.exists_lookup ?_
  rw [hnames]
  exact Named.mem_keys_of_lookup hd

end Schema

end Lossless
