import Lossless.Proofs.Rebuilding
import Lossless.Proofs.Renaming

/-!
# No run is written twice

A tree need not fit anything: fields may stand twice or under names that no slot
has, and virtual nodes may wrap each other. Still each slot finds a value of its
own, so what is written along a schedule comes from different records, and no
more runs are written than there are in them (`countP_pieces_le`). Counting the
occurrences of one run in this way shows that a tree which has a source writes
each run that it keeps, and as often as it keeps it (`extras_written_once`). All
of this needs a grammar that declares no field of a type twice, which reading a
grammar ensures and making a schema relies on (`exists_extras_repeated`).
-/

namespace Lossless

theorem total_sublist {α : Type} (weight : α → Nat) {l l' : List α}
    (h : l.Sublist l') : total weight l ≤ total weight l' := by
  induction h with
  | slnil => exact Nat.le_refl _
  | cons a _ ih => exact Nat.le_trans ih (Nat.le_add_left ..)
  | cons_cons a _ ih => exact Nat.add_le_add_left ih _

theorem total_subperm {α : Type} (weight : α → Nat) {l l' : List α}
    (h : l.Subperm l') : total weight l ≤ total weight l' := by
  obtain ⟨middle, hperm, hsub⟩ := h
  rw [← Cst.total_perm weight hperm]
  exact total_sublist weight hsub

theorem total_flatMap {α β : Type} (weight : β → Nat) (f : α → List β)
    (l : List α) :
    total weight (l.flatMap f) = total (fun a => total weight (f a)) l := by
  induction l with
  | nil => rfl
  | cons a l ih => rw [List.flatMap_cons, total_append, ih, total_cons]

namespace Cst

open Write (Inner Origin Content Part)

/-! ### Runs in records -/

/-- The number of runs in some records, empty ones aside. -/
def runsIn (rs : List (Owner × Extras)) : Nat :=
  total (fun r => r.2.runCount) rs

/-- The number of runs in the records of a value. -/
def Value.runs (value : Value) : Nat := runsIn (valueRecords value)

theorem total_runs_limbs (value : Value) :
    total Value.runs value.limbs = value.runs := by
  rw [Value.runs, ← records_limbs value, runsIn, total_flatMap]
  rfl

theorem total_runs (values : List Value) :
    total Value.runs values = runsIn (values.flatMap valueRecords) := by
  rw [runsIn, total_flatMap]
  rfl

theorem fieldsRecords_eq (fields : List (String × Value)) :
    fieldsRecords fields = (fields.map Prod.snd).flatMap valueRecords := by
  induction fields with
  | nil => rfl
  | cons field fields ih =>
    rw [fieldsRecords, ih, List.map_cons, List.flatMap_cons]

/-- Members have no more runs than what is found for their slots. -/
theorem total_membersOf_le (find : Slot → Option Value) (index : Nat)
    (slots : Schedule) :
    total (fun m => runsIn m.2.records) (membersOf find index slots) ≤
      total Value.runs (slots.filterMap find) := by
  calc total (fun m => runsIn m.2.records) (membersOf find index slots)
      = total Value.runs (childrenOf (membersOf find index slots)) := by
        rw [total_runs, ← records_childrenOf, runsIn, total_flatMap]
        rfl
    _ ≤ total Value.runs ((slots.filterMap find).flatMap Value.limbs) :=
        total_sublist _ (childrenOf_membersOf_sublist find index slots)
    _ = total Value.runs (slots.filterMap find) := by
        rw [total_flatMap]
        exact congrArg (total · _) (funext total_runs_limbs)

/-! ### What a slot finds -/

/-- What a slot looks for: a field by its name, or a virtual
node by its role. -/
inductive Key where
  | field (name : String)
  | role (role : VirtualRole)
  deriving DecidableEq

/-- What a slot looks for, if anything. -/
def keyOf : Slot → Option Key
  | .virtual role => some (.role role)
  | slot => slot.field?.map fun d => .field d.name

/-- The name of the field that is placed for what a slot looks for. -/
def Key.name? (roles : List (VirtualRole × SchemaEntry)) : Key → Option String
  | field name => some name
  | role kind => (Schema.wrapped? roles kind).map FieldDef.name

/-- Fields under what a slot looks for to find them: a virtual node
under its role. -/
def keyed (fields : List (String × Value)) : List (Key × Value) :=
  fields.map fun
    | (_, .virtual role wrapped extras) =>
      (.role role, .virtual role wrapped extras)
    | (name, value) => (.field name, value)

/-- What a slot finds in some fields. -/
def found (fields : List (String × Value)) (slot : Slot) : Option Value :=
  (keyOf slot).bind fun key => (keyed fields).lookup key

/-- What a slot finds in a virtual node. -/
def foundWithin (wrapped : Option Value) (slot : Slot) : Option Value :=
  slot.field?.bind fun _ => wrapped

section

variable {s : Schema} {owner : Owner} {own : Extras} {root flag : Bool}
  {type : String} {fields : List (String × Value)} {e : SchemaEntry}
  {wrapped : Option Value} {role : VirtualRole} {ps : List Piece}

/-- Slots that place different fields look for different things. -/
theorem nodup_keys {roles : List (VirtualRole × SchemaEntry)} {slots : Schedule}
    (hroles : ∀ role ∈ slots.roles, (Schema.wrapped? roles role).isSome)
    (hnames : (Schema.placedNames roles slots).Nodup) :
    (slots.filterMap keyOf).Nodup := by
  suffices hkeys : (slots.filterMap keyOf).map (Key.name? roles) =
      (Schema.placedNames roles slots).map some by
    refine List.Nodup.of_map (Key.name? roles) ?_
    rw [hkeys]
    exact hnames.map fun _ _ => Option.some.inj
  clear hnames
  induction slots with
  | nil => rfl
  | cons slot slots ih =>
    have hrest := ih fun role hrole => hroles role ?_
    · rw [Schema.placedNames_cons, List.map_append, ← hrest,
        List.filterMap_cons]
      cases slot with
      | «virtual» role =>
        obtain ⟨d, hd⟩ :=
          Option.isSome_iff_exists.1 (hroles role List.mem_cons_self)
        simp [keyOf, Key.name?, Schema.placed?, hd]
      | _ => rfl
    · rw [Schedule.roles, List.filterMap_cons]
      cases slot.role? with
      | none => exact hrole
      | some role' => exact List.mem_cons_of_mem _ hrole

theorem lookup_keyed_field {name : String}
    {value : Value} (h : fields.lookup name = some value)
    (hvalue : ∀ role wrapped extras, value ≠ .virtual role wrapped extras) :
    (keyed fields).lookup (.field name) = some value := by
  induction fields with
  | nil => exact nomatch h
  | cons field fields ih =>
    obtain ⟨name', value'⟩ := field
    rw [List.lookup_cons] at h
    cases hname : name == name' with
    | true =>
      rw [hname] at h
      cases Option.some.inj h
      cases eq_of_beq hname
      cases value with
      | «virtual» role wrapped extras =>
        exact absurd rfl (hvalue role wrapped extras)
      | _ => exact List.lookup_cons_self
    | false =>
      rw [hname] at h
      have hne :
          ∀ key value', (key = Key.field name' ∨ ∃ role, key = .role role) →
            ((key, value') :: keyed fields).lookup (.field name) =
              some value := by
        rintro key value' (rfl | ⟨role, rfl⟩)
        · have hbeq : (Key.field name == Key.field name') = false := by
            simpa using hname
          rw [List.lookup_cons, hbeq]
          exact ih h
        · exact ih h
      cases value' with
      | «virtual» role wrapped extras => exact hne _ _ (.inr ⟨role, rfl⟩)
      | _ => exact hne _ _ (.inl rfl)

/-- A node has the first virtual node of a role, in whatever field. -/
theorem virtual?_parts (s : Schema) (fields : List (String × Value))
    (role : VirtualRole) :
    (Origin.fields (Write.parts s fields)).virtual? role =
      ((keyed fields).lookup (.role role)).map (Value.inner s) := by
  rw [Origin.virtual?]
  induction fields with
  | nil => rfl
  | cons field fields ih =>
    obtain ⟨name, value⟩ := field
    rw [Write.parts, List.findSome?_cons, ih]
    cases value with
    | «virtual» role' wrapped extras =>
      by_cases hrole : role' = role
      · subst hrole
        cases wrapped <;> simp [keyed, Write.part, Value.inner]
      · have hbeq : (Key.role role == Key.role role') = false := by
          simpa using Ne.symm hrole
        cases wrapped <;> simp [keyed, Write.part, hrole,
          List.lookup_cons, hbeq]
    | _ => rfl

theorem exists_virtual_of_keyed {value : Value}
    (h : (keyed fields).lookup (.role role) = some value) :
    ∃ wrapped extras, value = .virtual role wrapped extras := by
  obtain ⟨⟨name, value'⟩, -, hkey⟩ := List.mem_map.1 (Named.mem_of_lookup h)
  cases value' with
  | «virtual» role' wrapped extras =>
    cases hkey
    exact ⟨wrapped, extras, rfl⟩
  | _ => exact nomatch hkey

/-- A slot of a node writes what it finds. -/
theorem slotElements_eq_found {index : Nat} {slot : Slot}
    {here : List (Element × Write.Content)}
    (h : Write.slotElements owner (.fields (Write.parts s fields)) index slot =
      .ok here) :
    here = contents s (slotMembers index slot (found fields slot)) := by
  have hlook : ∀ name value, fields.lookup name = some value →
      (∀ role wrapped extras, value ≠ .virtual role wrapped extras) →
      (keyed fields).lookup (.field name) = some value :=
    fun _ _ => lookup_keyed_field
  cases slot with
  | extras label | token text => exact (Except.ok.inj h).symm
  | implied field =>
    rw [← Except.ok.inj h]
    cases found fields (.implied field) <;> rfl
  | «virtual» role =>
    rw [Write.slotElements, virtual?_parts] at h
    rw [found, keyOf, Option.bind_some]
    cases hkey : (keyed fields).lookup (.role role) with
    | none =>
      rw [hkey] at h
      cases h
    | some value =>
      obtain ⟨wrapped, extras, rfl⟩ := exists_virtual_of_keyed hkey
      rw [hkey] at h
      exact (Except.ok.inj h).symm
  | scalar field | node field | optional field | list field separator =>
    simp only [Write.slotElements, Origin.items?, Origin.part?,
      Write.lookup_parts] at h
    simp only [found, keyOf, Slot.field?, Option.map_some, Option.bind_some]
    cases hvalue : fields.lookup field with
    | none =>
      rw [hvalue] at h
      cases h
    | some value =>
      rw [hvalue] at h
      cases value with
      | «virtual» role wrapped extras => cases wrapped <;> cases h
      | node child | absent =>
        rw [hlook _ _ hvalue (fun _ _ _ he => by cases he)]
        first
          | exact (Except.ok.inj h).symm
          | cases h
      | scalar value =>
        rw [hlook _ _ hvalue (fun _ _ _ he => by cases he)]
        cases value <;>
          first
            | exact (Except.ok.inj h).symm
            | cases h
      | list items =>
        rw [hlook _ _ hvalue (fun _ _ _ he => by cases he)]
        first
          | exact (Except.ok.inj h).symm.trans
              (contents_itemMembers s index separator 0 items).symm
          | cases h

/-- A slot of a virtual node writes what the virtual node wraps. -/
theorem slotElements_eq_foundWithin {index : Nat} {slot : Slot}
    {here : List (Element × Write.Content)} (hslot : slot.role? = none)
    (hshape : ∀ d, slot.field? = some d → d.shape = .list)
    (h : Write.slotElements owner
      (.wrapped (wrapped.map (Write.part s))) index slot = .ok here) :
    here = contents s (slotMembers index slot (foundWithin wrapped slot)) := by
  cases slot with
  | extras label | token text => exact (Except.ok.inj h).symm
  | «virtual» role => exact nomatch hslot
  | scalar field | implied field | node field | optional field =>
    exact nomatch hshape _ rfl
  | list field separator =>
    match wrapped with
    | none => exact (Except.ok.inj h).symm
    | some (.list items) =>
      exact (Except.ok.inj h).symm.trans
        (contents_itemMembers s index separator 0 items).symm
    | some (.node _) | some .absent | some (.scalar _) => exact nomatch h
    | some (.virtual _ none _) | some (.virtual _ (some _) _) => exact nomatch h

/-! ### What is written at most -/

/-- A child writes no more runs than its records have, apart from those that
its parent reads. -/
def Value.Within (s : Schema) (value : Value) : Prop :=
  ∀ ps, ((Member.child value).content s).pieces = .ok ps →
    ps.countP Piece.isExtras + filled value.record.get [.before] +
        filled value.record.get [.after] ≤
      value.runs

/-- What is written along members that are found for the slots of an owner. -/
theorem countP_frame_le_runs (hlocal : s.strategy.Local)
    (hfits : Schema.EntryFits s.strategy owner flag e)
    (find : Slot → Option Value)
    (hwithin : ∀ value ∈ e.schedule.filterMap find,
      ∀ limb ∈ value.limbs, limb.Within s)
    (h : Write.along s owner e.schedule own root (opening root)
      (contents s (membersOf find 0 e.schedule)) = .ok ps) :
    ps.countP Piece.isExtras + filled own.get [.before] +
        filled own.get [.after] ≤
      own.runCount + total Value.runs (e.schedule.filterMap find) := by
  have hmember :
      ∀ m ∈ membersOf find 0 e.schedule, ∀ ps, (m.2.content s).pieces = .ok ps →
        ps.countP Piece.isExtras + filled (under m.2.record?) [.before] +
          filled (under m.2.record?) [.after] ≤ runsIn m.2.records := by
    rintro ⟨element, m⟩ hm ps hps
    cases m with
    | word text =>
      cases Except.ok.inj hps
      simp [Member.record?, Piece.isExtras]
    | child value =>
      have hsub := (childrenOf_membersOf_sublist find 0 e.schedule).subset
        (mem_childrenOf hm)
      obtain ⟨value', hvalue', hlimb⟩ := List.mem_flatMap.1 hsub
      exact hwithin value' hvalue' value hlimb ps hps
  have hlow : lowOf ((opening root).map Write.Left.element) = 0 := by
    cases root <;> rfl
  have hnone : (opening root).bind Write.Left.extras? = none := by
    cases root <;> rfl
  have hcount := countP_along_le_total (fun m => runsIn m.records) hlocal
    (by rw [hlow]; exact rising_membersOf find e.schedule (Nat.zero_le _))
    hmember h
  rw [hlow, hnone, List.drop_zero, filled_under_none] at hcount
  have hown := filled_le_runCount own (nodup_labels hfits)
  rw [filled_cons, filled_cons own.get .after] at hown
  have hfound := total_membersOf_le find 0 e.schedule
  omega

theorem map_snd_keyed (fields : List (String × Value)) :
    (keyed fields).map Prod.snd = fields.map Prod.snd := by
  rw [keyed, List.map_map]
  refine List.map_congr_left ?_
  rintro ⟨name, value⟩ -
  cases value <;> rfl

/-- The slots of a node find values in different fields. -/
theorem found_subperm (hs : s.Sound) (hdistinct : s.grammar.Distinct)
    (he : s.entry? (.node type) = some e) (fields : List (String × Value)) :
    (e.schedule.filterMap (found fields)).Subperm (fields.map Prod.snd) := by
  obtain ⟨declared, hdeclared, hfits⟩ := hs.node type e he
  have hnames : (Schema.placedNames s.roles e.schedule).Nodup :=
    ((hfits.perm_of_nodup (hdistinct type declared hdeclared)).map
      FieldDef.name).nodup_iff.2
      (hdistinct type declared hdeclared)
  have hkeys :=
    Named.lookups_subperm (keyed fields) (nodup_keys hfits.hasRoles hnames)
  rw [map_snd_keyed, List.filterMap_filterMap] at hkeys
  exact hkeys

/-- A node writes no more runs than there are in its records, its
parent's share aside. -/
theorem countP_node_le (hs : s.Sound) (hdistinct : s.grammar.Distinct)
    (hlocal : s.strategy.Local)
    (hwithin : ∀ value ∈ fields.map Prod.snd,
      ∀ limb ∈ value.limbs, limb.Within s)
    (h : Write.frame s (.node type) own root (.fields (Write.parts s fields)) =
      .ok ps) :
    ps.countP Piece.isExtras + filled own.get [.before] +
        filled own.get [.after] ≤
      own.runCount + runsIn (fieldsRecords fields) := by
  obtain ⟨e, he⟩ := exists_entry h
  obtain ⟨es, helements, halong⟩ := frame_eq_ok he h
  obtain ⟨flag, hfits⟩ := hs.entryFits he
  have hsub := found_subperm hs hdistinct he fields
  have hes : es = contents s (membersOf (found fields) 0 e.schedule) :=
    elements_eq_membersOf
      (fun _ _ _ _ hhere => slotElements_eq_found hhere) helements
  have hcount := countP_frame_le_runs hlocal hfits (found fields)
    (fun value hvalue => hwithin value (hsub.subset hvalue)) (hes ▸ halong)
  have htotal := total_subperm Value.runs hsub
  rw [total_runs (fields.map Prod.snd), ← fieldsRecords_eq] at htotal
  omega

/-- A virtual node finds what it wraps, once. -/
theorem filterMap_foundWithin (hfits : Schema.RoleFits s.strategy role e)
    (wrapped : Option Value) :
    e.schedule.filterMap (foundWithin wrapped) = wrapped.toList := by
  obtain ⟨name, hname⟩ := hfits.wraps
  have hfield := List.filterMap_filterMap (l := e.schedule) (f := Slot.field?)
    (g := fun _ => wrapped)
  rw [hname] at hfield
  refine hfield.symm.trans ?_
  cases wrapped <;> rfl

theorem countP_virtual_le (hs : s.Sound) (hlocal : s.strategy.Local)
    (hwithin : ∀ value ∈ wrapped, ∀ limb ∈ value.limbs, limb.Within s)
    (h : Write.frame s (.virtual role) own false
      (.wrapped (wrapped.map (Write.part s))) = .ok ps) :
    ps.countP Piece.isExtras + filled own.get [.before] +
        filled own.get [.after] ≤
      own.runCount + total Value.runs wrapped.toList := by
  obtain ⟨e, he⟩ := exists_entry h
  obtain ⟨es, helements, halong⟩ := frame_eq_ok he h
  have hfits := hs.role role e he
  have hshape :
      ∀ slot ∈ e.schedule, ∀ d, slot.field? = some d → d.shape = .list := by
    intro slot hslot d hd
    obtain ⟨name, hname⟩ := hfits.wraps
    have hmem : d ∈ e.schedule.filterMap Slot.field? :=
      List.mem_filterMap.2 ⟨slot, hslot, hd⟩
    rw [hname] at hmem
    cases List.mem_singleton.1 hmem
    exact Schema.shape_eq_list role
  have hes : es = contents s (membersOf (foundWithin wrapped) 0 e.schedule) :=
    elements_eq_membersOf (fun slot hslot _ _ hhere =>
      slotElements_eq_foundWithin (hfits.role_eq_none hslot)
        (hshape slot hslot) hhere) helements
  have hfound := filterMap_foundWithin hfits wrapped
  have hcount :=
    countP_frame_le_runs hlocal hfits.toEntryFits (foundWithin wrapped)
      (fun value hvalue => hwithin value (by simpa [hfound] using hvalue))
      (hes ▸ halong)
  rwa [hfound] at hcount

mutual

theorem within_tree (hs : s.Sound) (hdistinct : s.grammar.Distinct)
    (hlocal : s.strategy.Local) (t : Cst) : (Value.node t).Within s := by
  cases t with
  | node type fields extras =>
    intro ps h
    exact countP_node_le hs hdistinct hlocal
      (within_fields hs hdistinct hlocal fields) h

theorem within_fields (hs : s.Sound) (hdistinct : s.grammar.Distinct)
    (hlocal : s.strategy.Local) (fields : List (String × Value)) :
    ∀ value ∈ fields.map Prod.snd, ∀ limb ∈ value.limbs, limb.Within s := by
  cases fields with
  | nil => exact fun _ hvalue => absurd hvalue List.not_mem_nil
  | cons field fields =>
    obtain ⟨name, first⟩ := field
    intro value hvalue
    rcases List.mem_cons.1 hvalue with hfirst | hvalue
    · rw [hfirst]
      exact within_value hs hdistinct hlocal first
    · exact within_fields hs hdistinct hlocal fields value hvalue

theorem within_value (hs : s.Sound) (hdistinct : s.grammar.Distinct)
    (hlocal : s.strategy.Local) (value : Value) :
    ∀ limb ∈ value.limbs, limb.Within s := by
  match value with
  | .absent | .scalar _ => exact fun _ hlimb => absurd hlimb List.not_mem_nil
  | .node child =>
    intro limb hlimb
    rw [List.mem_singleton.1 hlimb]
    exact within_tree hs hdistinct hlocal child
  | .list items =>
    intro limb hlimb
    obtain ⟨item, hitem, rfl⟩ := List.mem_map.1 hlimb
    exact within_items hs hdistinct hlocal items item hitem
  | .virtual role none extras =>
    intro limb hlimb ps h
    rw [List.mem_singleton.1 hlimb] at h ⊢
    have hwithin :
        ∀ value ∈ (none : Option Value), ∀ limb ∈ value.limbs, limb.Within s :=
      fun _ hvalue => nomatch hvalue
    exact countP_virtual_le hs hlocal hwithin h
  | .virtual role (some wrapped) extras =>
    intro limb hlimb ps h
    rw [List.mem_singleton.1 hlimb] at h ⊢
    have hwithin :
        ∀ value ∈ some wrapped, ∀ limb ∈ value.limbs, limb.Within s := by
      intro value hvalue
      rw [← Option.some.inj hvalue]
      exact within_value hs hdistinct hlocal wrapped
    exact countP_virtual_le hs hlocal hwithin h

theorem within_items (hs : s.Sound) (hdistinct : s.grammar.Distinct)
    (hlocal : s.strategy.Local) (items : List Cst) :
    ∀ item ∈ items, (Value.node item).Within s := by
  cases items with
  | nil => exact fun _ hitem => absurd hitem List.not_mem_nil
  | cons first items =>
    intro item hitem
    rcases List.mem_cons.1 hitem with hfirst | hitem
    · rw [hfirst]
      exact within_tree hs hdistinct hlocal first
    · exact within_items hs hdistinct hlocal items item hitem

end

/-- No more runs are written for a tree than there are in its records. -/
theorem countP_pieces_le (hs : s.Sound) (hdistinct : s.grammar.Distinct)
    (hlocal : s.strategy.Local) {t : Cst} (h : t.pieces s = .ok ps) :
    ps.countP Piece.isExtras ≤ runsIn t.records := by
  cases t with
  | node type fields extras =>
    have hcount := countP_node_le hs hdistinct hlocal
      (within_fields hs hdistinct hlocal fields) h
    have hrecords : runsIn (records (.node type fields extras)) =
        extras.runCount + runsIn (fieldsRecords fields) := rfl
    omega

end

/-! ### Every run once -/

/-- The runs in the records of a tree, record by record. -/
def storedRuns (t : Cst) :
    List (List Token) := t.records.flatMap fun r => r.2.entries.map Prod.snd

namespace Piece

/-- The run that a piece is, if it is one. -/
def run? : Piece → Option (List Token)
  | extras run => some run
  | leaf _ => none

/-- The runs among some pieces, in order. -/
def runs (ps : List Piece) : List (List Token) := ps.filterMap run?

/-- A piece with another run. -/
def mapRun (f : List Token → List Token) : Piece → Piece
  | leaf text => leaf text
  | extras run => extras (f run)

@[simp] theorem runs_cons_leaf (text : String) (ps : List Piece) :
    runs (leaf text :: ps) = runs ps :=
  rfl

@[simp] theorem runs_cons_extras (run : List Token) (ps : List Piece) :
    runs (extras run :: ps) = run :: runs ps := rfl

theorem countP_isExtras (ps : List Piece) :
    ps.countP isExtras = (runs ps).length := by
  induction ps with
  | nil => rfl
  | cons p ps ih => cases p <;> simp [isExtras, ih, List.countP_cons]

/-- Runs that come out empty are not written. -/
theorem countP_mapRuns (f : List Token → List Token) (ps : List Piece) :
    (Piece.mapRuns f ps).countP isExtras =
      (runs ps).countP fun run => !(f run).isEmpty := by
  induction ps with
  | nil => rfl
  | cons p ps ih =>
    rw [Piece.mapRuns, List.flatMap_cons, List.countP_append,
      ← Piece.mapRuns, ih]
    cases p with
    | leaf text => simp [isExtras]
    | extras run =>
      rw [runs_cons_extras, List.countP_cons, Nat.add_comm]
      by_cases hrun : f run = []
      · simp [ofRun, hrun]
      · simp [countP_ofRun hrun, hrun]

/-- Pieces with other runs are pieces with one more run each, if no run
comes out empty. -/
theorem mapRuns_eq_map {f : List Token → List Token} {ps : List Piece}
    (h : ∀ run ∈ runs ps, f run ≠ []) :
    Piece.mapRuns f ps = ps.map (mapRun f) := by
  induction ps with
  | nil => rfl
  | cons p ps ih =>
    rw [Piece.mapRuns, List.flatMap_cons, ← Piece.mapRuns, List.map_cons]
    cases p with
    | leaf text => exact congrArg (leaf text :: ·) (ih h)
    | extras run =>
      have hrun : (f run).isEmpty = false :=
        List.isEmpty_eq_false_iff.2 (h run List.mem_cons_self)
      rw [ih fun run' hrun' => h run' (List.mem_cons_of_mem _ hrun')]
      simp [ofRun, hrun, mapRun]

end Piece

section

variable {s : Schema} {t : Cst} {ps : List Piece} {text : String}

mutual

theorem labelCount_eq (t : Cst) :
    t.labelCount = total (fun r => r.2.size) t.records := by
  cases t with
  | node type fields extras =>
    rw [labelCount, records, total_cons, fieldsLabelCount_eq]

theorem fieldsLabelCount_eq (fields : List (String × Value)) :
    fieldsLabelCount fields =
      total (fun r => r.2.size) (fieldsRecords fields) := by
  cases fields with
  | nil => rfl
  | cons field fields =>
    rw [fieldsLabelCount, fieldsRecords, total_append, valueLabelCount_eq,
      fieldsLabelCount_eq]

theorem valueLabelCount_eq (value : Value) :
    valueLabelCount value = total (fun r => r.2.size) (valueRecords value) := by
  match value with
  | .node child => rw [valueLabelCount, valueRecords, labelCount_eq]
  | .list items => rw [valueLabelCount, valueRecords, itemsLabelCount_eq]
  | .virtual role (some wrapped) extras =>
    rw [valueLabelCount, valueRecords, total_cons, valueLabelCount_eq]
  | .virtual role none extras | .absent | .scalar _ => rfl

theorem itemsLabelCount_eq (items : List Cst) :
    itemsLabelCount items = total (fun r => r.2.size) (itemsRecords items) := by
  cases items with
  | nil => rfl
  | cons item items =>
    rw [itemsLabelCount, itemsRecords, total_append, labelCount_eq,
      itemsLabelCount_eq]

end

theorem length_storedRuns (t : Cst) : t.storedRuns.length = t.labelCount := by
  rw [labelCount_eq, storedRuns]
  induction t.records with
  | nil => rfl
  | cons r rs ih => simpa [Extras.size] using ih

/-- With other runs in its records, a tree has as many as do not
come out empty. -/
theorem runsIn_mapRuns (f : List Token → List Token) (t : Cst) :
    runsIn (t.mapRuns f).records =
      t.storedRuns.countP fun run => !(f run).isEmpty := by
  rw [records_mapRuns, storedRuns]
  induction t.records with
  | nil => rfl
  | cons r rs ih =>
    rw [List.flatMap_cons, List.countP_append, ← ih, List.countP_map]
    simp only [mapRecordsRuns, List.map_cons, runsIn, total_cons,
      Extras.runCount, Extras.mapRuns, List.countP_map]
    rfl

/-- However runs are told apart, no kind of run is written more often
than it is kept. -/
theorem countP_runs_le (hs : s.Sound) (hdistinct : s.grammar.Distinct)
    (hlocal : s.strategy.Local) {f : List Token → List Token} (hf : f [] = [])
    (h : t.pieces s = .ok ps) :
    (Piece.runs ps).countP (fun run => !(f run).isEmpty) ≤
      t.storedRuns.countP fun run => !(f run).isEmpty := by
  have hother : (t.mapRuns f).pieces s = .ok (Piece.mapRuns f ps) := by
    rw [pieces_mapRuns hf, h]
    rfl
  rw [← Piece.countP_mapRuns, ← runsIn_mapRuns]
  exact countP_pieces_le hs hdistinct hlocal hother

/-- No empty run is written. -/
theorem ne_nil_of_mem_runs (h : t.pieces s = .ok ps) :
    ∀ run ∈ Piece.runs ps, run ≠ [] := by
  have hsame := pieces_mapRuns (f := id) rfl s t
  rw [mapRuns_id, h] at hsame
  have hps : ps = Piece.mapRuns id ps := Except.ok.inj hsame
  intro run hrun
  rw [hps] at hrun
  obtain ⟨p, hp, hpiece⟩ := List.mem_filterMap.1 hrun
  obtain ⟨p', -, hp⟩ := List.mem_flatMap.1 hp
  rintro rfl
  cases p' with
  | leaf text =>
    cases List.mem_singleton.1 hp
    exact nomatch hpiece
  | extras run' =>
    cases run' with
    | nil => exact absurd hp List.not_mem_nil
    | cons first rest =>
      cases List.mem_singleton.1 hp
      exact nomatch hpiece

/-- A tree that has a source writes the runs that it keeps. -/
theorem runs_perm (hs : s.Sound) (hdistinct : s.grammar.Distinct)
    (hlocal : s.strategy.Local) (h : t.pieces s = .ok ps)
    (hcount : ps.countP Piece.isExtras = t.labelCount) :
    (Piece.runs ps).Perm t.storedRuns := by
  refine List.Subperm.perm_of_length_le
    (List.subperm_ext_iff.2 fun run hrun => ?_) ?_
  · -- in front of all other runs the empty one, each run is told apart
    have hne := ne_nil_of_mem_runs h run hrun
    have hone : ∀ rs : List (List Token), rs.count run =
        rs.countP fun run' => !(if run' = run then run else []).isEmpty := by
      intro rs
      refine List.countP_congr fun run' _ => ?_
      by_cases hrun' : run' = run <;> simp [hrun', hne]
    rw [hone, hone]
    refine countP_runs_le
      (f := fun run' => if run' = run then run else []) hs hdistinct hlocal ?_ h
    exact if_neg fun he => hne he.symm
  · rw [length_storedRuns, ← Piece.countP_isExtras]
    exact Nat.le_of_eq hcount.symm

/-- If no type declares a field twice and a tree has a source, every run in its
records is written once: also those in fields that no slot finds, and in virtual
nodes inside others. The place of a run does not depend on what it is: in a tree
`m` that differs from `t` in its runs alone, whatever tells them apart, each run
is written where `t` has its counterpart. -/
theorem extras_written_once {g : Grammar} {strategy model : Strategy}
    (hdistinct : g.Distinct) (hmodel : model ∈ Strategy.bundled)
    (hlike : strategy.AnchorsLike model) (hs : Schema.make g strategy = .ok s)
    (h : t.source s = .ok text) :
    ∃ ps, t.pieces s = .ok ps ∧ text = String.join (ps.map Piece.text) ∧
      (Piece.runs ps).Perm t.storedRuns ∧
      ∀ f (m : Cst), (∀ run, f run = [] ↔ run = []) → m.mapRuns f = t →
        ∃ ps', m.pieces s = .ok ps' ∧ ps'.map (Piece.mapRun f) = ps ∧
          (Piece.runs ps').Perm m.storedRuns := by
  obtain ⟨rfl, rfl, hsound⟩ := Schema.make_eq_ok hs
  have hlocal := hlike.local_bundled hmodel
  obtain ⟨ps, hps, hcount, htext⟩ := source_eq_ok h
  refine ⟨ps, hps, htext, runs_perm hsound hdistinct hlocal hps hcount,
    fun f m hf hm => ?_⟩
  have hother := pieces_mapRuns ((hf []).2 rfl) s m
  rw [hm, hps] at hother
  obtain ⟨ps', hps', hmap⟩ := Outcome.map_eq_ok.1 hother.symm
  have hmapRun : ps'.map (Piece.mapRun f) = ps := by
    rw [← hmap, Piece.mapRuns_eq_map]
    exact fun run hrun hnil =>
      ne_nil_of_mem_runs hps' run hrun ((hf run).1 hnil)
  refine ⟨ps', hps', hmapRun, runs_perm hsound hdistinct hlocal hps' ?_⟩
  have hlabels : m.labelCount = t.labelCount := by
    rw [labelCount_eq, labelCount_eq, ← hm, records_mapRuns,
      mapRecordsRuns, total_map]
    simp [Extras.size, Extras.mapRuns]
  rw [hlabels, ← hcount, ← hmapRun, List.countP_map]
  refine List.countP_congr fun p _ => ?_
  cases p <;> rfl

end

/-- A program with runs in front of its two statements. Its statements stand in
the first of two fields of one name, and one field has no slot. -/
def strayTree (first second : List Token) : Cst :=
  .node "Program"
    [("body", .list [.node "EmptyStatement" [] ⟨[(.before, first)]⟩,
        .node "EmptyStatement" [] ⟨[(.before, second)]⟩]),
      ("body", .absent),
      ("note", .virtual .paramList
        (some (.virtual .argumentList none .empty)) .empty)]
    .empty

/-- A space that stands somewhere in a line. -/
def blankAt (column : Nat) : List Token :=
  [⟨.blank, " ", ⟨⟨column, column + 1⟩, ⟨0, column⟩, ⟨0, column + 1⟩⟩⟩]

theorem extras_written_once_sample :
    ∃ s ps ps', Schema.make .functions .virtualNodes = .ok s ∧
      (strayTree (blankAt 0) (blankAt 0)).pieces s = .ok ps ∧
      (Piece.runs ps).Perm [blankAt 0, blankAt 0] ∧
      (strayTree (blankAt 0) (blankAt 2)).pieces s = .ok ps' ∧
      (Piece.runs ps').Perm [blankAt 0, blankAt 2] := by
  have h : (Schema.make .functions .virtualNodes >>=
      (strayTree (blankAt 0) (blankAt 0)).source) = .ok " ; ;" := by
    decide +kernel
  obtain ⟨s, hs, h⟩ := Outcome.bind_eq_ok.1 h
  obtain ⟨ps, hps, -, hruns, hother⟩ :=
    extras_written_once
      (Grammar.distinct_of_validate Grammar.validate_functions)
      List.mem_cons_self ⟨rfl, rfl⟩ hs h
  -- the two runs of the tree are equal; those of the other one tell
  -- their places apart
  obtain ⟨ps', hps', -, hruns'⟩ :=
    hother (fun run => if run = [] then [] else blankAt 0)
      (strayTree (blankAt 0) (blankAt 2))
      (fun run => by by_cases hrun : run = [] <;> simp [hrun, blankAt]) rfl
  exact ⟨s, ps, ps', hs, hps, hruns, hps', hruns'⟩

/-! ### Fields that are declared twice -/

/-- A grammar that declares the one field of its programs three times. It does
not pass its own check. -/
def threefoldGrammar : Grammar where
  version := "threefold"
  root := "Program"
  types := [("Program", List.replicate 3 ⟨"body", .list⟩),
    ("EmptyStatement", [])]

/-- The strategy with virtual nodes, except that a program shows its field once
and then twice a field that no type declares. -/
def echoStrategy : Strategy :=
  { Strategy.virtualNodes with
    schedule? := fun owner =>
      if owner = .node "Program" then
        some [.extras .inside, .list "body" none, .list "echo" none,
          .list "echo" none]
      else Strategy.virtualNodes.schedule? owner }

/-- A program with two statements in fields that the grammar does not declare. A
program shows one of these fields twice and the other one not at all. -/
def echoTree : Cst :=
  .node "Program"
    [("body", .list []),
      ("echo", .list [.node "EmptyStatement" [] ⟨[(.before, blankAt 0)]⟩]),
      ("lost", .list [.node "EmptyStatement" [] ⟨[(.before, blankAt 2)]⟩])]
    .empty

/-- If a type declares a field more than once, making a schema counts the fields
and does not notice that the schedule shows an undeclared one twice. Of a tree
that has a source, one run is then written twice and another one is lost. -/
theorem exists_extras_repeated :
    ∃ s ps, ¬ threefoldGrammar.Distinct ∧
      echoStrategy.AnchorsLike .virtualNodes ∧
      Schema.make threefoldGrammar echoStrategy = .ok s ∧
      echoTree.source s = .ok " ; ;" ∧
      echoTree.pieces s = .ok ps ∧ Piece.runs ps = [blankAt 0, blankAt 0] ∧
      echoTree.storedRuns = [blankAt 0, blankAt 2] ∧
      ¬ (Piece.runs ps).Perm echoTree.storedRuns := by
  have h : (Schema.make threefoldGrammar echoStrategy >>= echoTree.source) =
      .ok " ; ;" := by
    decide +kernel
  obtain ⟨s, hs, htext⟩ := Outcome.bind_eq_ok.1 h
  obtain ⟨ps, hps, -, -⟩ := source_eq_ok htext
  have hruns : (Schema.make threefoldGrammar echoStrategy >>=
      echoTree.pieces).map Piece.runs = .ok [blankAt 0, blankAt 0] := by
    decide +kernel
  rw [hs, Outcome.ok_bind, hps] at hruns
  have hrepeated : Piece.runs ps = [blankAt 0, blankAt 0] := Except.ok.inj hruns
  have hstored : echoTree.storedRuns = [blankAt 0, blankAt 2] := by
    decide +kernel
  refine ⟨s, ps, fun hdistinct => ?_, ⟨rfl, rfl⟩, hs, htext, hps,
    hrepeated, hstored, ?_⟩
  · exact absurd (hdistinct "Program" _ rfl) (by decide)
  · rw [hrepeated, hstored]
    decide +kernel

end Cst

end Lossless
