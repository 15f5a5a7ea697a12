import Lossless.Proofs.Rebuilding

/-!
# Writing a tree under another schema

A tree may be written under another schema than the one that it was built under.
Between two elements each of the two reads at most one place, and the number of
labels bounds the runs that are written. Where both schemas write a run for
every label, no place can be read by one of them only: what they write is the
same (`exists_meet`). So a tree that both bundled strategies can write has one
source (`source_unique`), and it holds no function and no call, whose list one
of them keeps in a virtual node and the other does not.
-/

namespace Lossless

namespace Cst

/-! ### Pieces that meet -/

namespace Piece

/-- Two rows of pieces have at most so many runs each, and are the same if both
have that many. -/
structure Meet (ps ps' : List Piece) (bound : Nat) : Prop where
  left : ps.countP isExtras ≤ bound
  right : ps'.countP isExtras ≤ bound
  same : ps.countP isExtras = bound → ps'.countP isExtras = bound → ps = ps'

variable {ps ps' qs qs' : List Piece} {m n : Nat}

theorem meet_self (h : ps.countP isExtras ≤ n) : Meet ps ps n :=
  ⟨h, h, fun _ _ => rfl⟩

theorem Meet.mono (h : Meet ps ps' m) (hle : m ≤ n) : Meet ps ps' n := by
  obtain ⟨hleft, hright, hsame⟩ := h
  refine ⟨hleft.trans hle, hright.trans hle, fun hl hr => hsame ?_ ?_⟩ <;> omega

theorem Meet.append (h : Meet ps ps' m) (h' : Meet qs qs' n) :
    Meet (ps ++ qs) (ps' ++ qs') (m + n) := by
  obtain ⟨hleft, hright, hsame⟩ := h
  obtain ⟨hleft', hright', hsame'⟩ := h'
  constructor
  · rw [List.countP_append]
    omega
  · rw [List.countP_append]
    omega
  · intro hl hr
    rw [List.countP_append] at hl hr
    rw [hsame (by omega) (by omega), hsame' (by omega) (by omega)]

/-- Whichever of some places two gaps read, the runs that they find meet
in the number of places that hold one. Gaps that read different places
leave a run out each. -/
theorem meet_of_places (run : Anchor → List Token) {places : List Anchor}
    {read read' : Option Anchor} (hread : ∀ a ∈ read, a ∈ places)
    (hread' : ∀ a ∈ read', a ∈ places) :
    Meet (ofRun ((read.map run).getD [])) (ofRun ((read'.map run).getD []))
      (filled run places) := by
  have hle := filled_toList_le run hread
  have hle' := filled_toList_le run hread'
  refine ⟨by rwa [countP_ofRun_view], by rwa [countP_ofRun_view],
    fun hl hr => ?_⟩
  rw [countP_ofRun_view] at hl hr
  by_cases hsame : read = read'
  · rw [hsame]
  · have hnil :
        ∀ r r' : Option Anchor, (∀ a ∈ r, a ∈ places) → (∀ a ∈ r', a ∈ places) →
          r ≠ r' → filled run places = filled run r'.toList →
          (r.map run).getD [] = [] := by
      intro r r' hr hr' hne hfull
      cases r with
      | none => rfl
      | some a => exact eq_nil_of_unread hr' hfull (hr a rfl) hne.symm
    rw [hnil read read' hread hread' hsame hr.symm,
      hnil read' read hread' hread (Ne.symm hsame) hl.symm]

end Piece

/-! ### Rows of the same members -/

section

variable {s s' : Schema} {owner : Owner} {schedule schedule' : Schedule}
  {own : Extras} {root : Bool} {left left' : Option Write.Left}
  {ms ms' : List (Element × Member)} {ps ps' : List Piece}

/-- What two schemas write for a member meets in the number of its labels, apart
from those that its parent reads. -/
def Member.Meets (s s' : Schema) (m : Member) : Prop :=
  ∀ ps ps', (m.content s).pieces = .ok ps → (m.content s').pieces = .ok ps' →
    ∃ n, Piece.Meet ps ps' n ∧
      n + filled (under m.record?) [.before] +
        filled (under m.record?) [.after] ≤ m.labelCount

theorem meets_word (s s' : Schema) (text : String) :
    (Member.word text).Meets s s' := by
  rintro ps ps' h h'
  cases Except.ok.inj h
  cases Except.ok.inj h'
  exact ⟨0, Piece.meet_self (Nat.le_refl 0), Nat.le_refl 0⟩

theorem mem_readable_append_left {a : Anchor} {labels : List Label}
    (labels' : List Label) (h : a ∈ readable labels) :
    a ∈ readable (labels ++ labels') := by
  simp only [readable, List.map_append, List.mem_append] at h ⊢
  exact h.imp_left .inl

theorem mem_readable_append_right {a : Anchor} (labels : List Label)
    {labels' : List Label} (h : a ∈ readable labels') :
    a ∈ readable (labels ++ labels') := by
  simp only [readable, List.map_append, List.mem_append] at h ⊢
  exact h.imp_left .inr

/-- What two schemas read in the gap in front of a member meets in the number of
runs that both together may read there. -/
theorem meet_gap (hlocal : s.strategy.Local) (hlocal' : s'.strategy.Local)
    (owner : Owner) (schedule schedule' : Schedule) (own : Extras)
    (front behind : Option Extras) {l l' : Option Element} {e e' : Element}
    {slot slot' : Nat} (hslot : e.slot? = some slot) (hle : lowOf l ≤ slot + 1)
    (hslot' : e'.slot? = some slot') (hle' : lowOf l' ≤ slot' + 1) :
    Piece.Meet (Piece.ofRun
      (((placeOf s owner schedule l e).map (view own front behind)).getD []))
      (Piece.ofRun (((placeOf s' owner schedule' l' e').map
        (view own front behind)).getD []))
      (filled own.get (Schedule.labels
        ((schedule.take (slot + 1)).drop (lowOf l))) + filled own.get
          (Schedule.labels ((schedule'.take (slot' + 1)).drop (lowOf l'))) +
        filled (under front) [.after] + filled (under behind) [.before]) := by
  have hread : ∀ a ∈ placeOf s owner schedule l e, a ∈
      readable (Schedule.labels ((schedule.take (slot + 1)).drop (lowOf l))) :=
    fun a => mem_readable hlocal hle (by rw [hslot]; exact Nat.le_succ slot)
  have hread' : ∀ a ∈ placeOf s' owner schedule' l' e', a ∈ readable
      (Schedule.labels ((schedule'.take (slot' + 1)).drop (lowOf l'))) :=
    fun a => mem_readable hlocal' hle' (by rw [hslot']; exact Nat.le_succ slot')
  rw [← filled_append, ← filled_readable]
  exact Piece.meet_of_places _ (fun a ha =>
    mem_readable_append_left _ (hread a ha))
    fun a ha => mem_readable_append_right _ (hread' a ha)

/-- Behind the last member of the root, too. -/
theorem meet_closing (hlocal : s.strategy.Local) (hlocal' : s'.strategy.Local)
    (owner : Owner) (schedule schedule' : Schedule) (own : Extras) (root : Bool)
    (front : Option Extras) (l l' : Option Element) :
    Piece.Meet (Piece.ofRun (((closing s owner schedule root l).map
      (view own front none)).getD [])) (Piece.ofRun
        (((closing s' owner schedule' root l').map (view own front none)).getD
          [])) (filled own.get (Schedule.labels (schedule.drop (lowOf l))) +
            filled own.get (Schedule.labels (schedule'.drop (lowOf l'))) +
            filled (under front) [.after]) := by
  have hmeet := Piece.meet_of_places (view own front none) (fun a ha =>
    mem_readable_append_left (Schedule.labels (schedule'.drop (lowOf l')))
    (mem_readable_of_closing hlocal owner schedule root l a ha))
    (fun a ha =>
      mem_readable_append_right (Schedule.labels (schedule.drop (lowOf l)))
      (mem_readable_of_closing hlocal' owner schedule' root l' a ha))
  rwa [filled_readable, filled_append, filled_under_none] at hmeet

/-- What two schemas write along the same members meets in the number of
labels that both together may read. The schedules and the places of the
members in them may differ. -/
theorem meet_along (hlocal : s.strategy.Local)
    (hlocal' : s'.strategy.Local) (hsame : ms'.map Prod.snd = ms.map Prod.snd)
    (hrising : Rising (lowOf (left.map Write.Left.element)) (ms.map Prod.fst))
    (hrising' : Rising (lowOf (left'.map Write.Left.element))
      (ms'.map Prod.fst))
    (hleft : left'.bind Write.Left.extras? = left.bind Write.Left.extras?)
    (hmeets : ∀ m ∈ ms, m.2.Meets s s')
    (h : Write.along s owner schedule own root left (contents s ms) = .ok ps)
    (h' : Write.along s' owner schedule' own root left' (contents s' ms') =
      .ok ps') :
    Piece.Meet ps ps' (allowance schedule own left ms + filled own.get
      (Schedule.labels
        (schedule'.drop (lowOf (left'.map Write.Left.element))))) := by
  induction ms generalizing ms' left left' ps ps' with
  | nil =>
    cases List.map_eq_nil_iff.1 hsame
    rw [along_nil_eq_ok h, along_nil_eq_ok h', hleft]
    refine (meet_closing hlocal hlocal' ..).mono ?_
    rw [allowance, total_nil]
    omega
  | cons m ms ih =>
    cases ms' with
    | nil => cases hsame
    | cons m' ms' =>
      obtain ⟨hmember, hsame⟩ := List.cons.inj hsame
      obtain ⟨slot, hslot, hle, hbehind⟩ := hrising
      obtain ⟨slot', hslot', hle', hbehind'⟩ := hrising'
      obtain ⟨inside, rest, hinside, hrest, rfl⟩ := along_cons_eq_ok h
      obtain ⟨inside', rest', hinside', hrest', rfl⟩ := along_cons_eq_ok h'
      rw [hmember] at hinside' ⊢
      rw [hleft]
      have hgap := meet_gap hlocal hlocal' owner schedule schedule' own
        (left.bind Write.Left.extras?) m.2.record? hslot hle hslot' hle'
      obtain ⟨n, hmeet, hcount⟩ :=
        hmeets m List.mem_cons_self inside inside' hinside hinside'
      have hlater :=
        ih hsame (by rwa [Option.map_some, leftOf, lowOf_some hslot])
          (by rwa [Option.map_some, leftOf, lowOf_some hslot'])
          (by rw [Option.bind_some, Option.bind_some, leftOf, leftOf, hmember])
          (fun m' hm' => hmeets m' (List.mem_cons_of_mem _ hm')) hrest hrest'
      have hlow : lowOf ((some (leftOf m')).map Write.Left.element) =
          slot' + 1 := lowOf_some hslot'
      rw [hlow] at hlater
      refine (hgap.append (hmeet.append hlater)).mono ?_
      have hall := allowance_cons schedule own ms hslot hle
      have hlabels := @filled_drop schedule' own _ _ hle'
      omega

end

/-! ### Schedules that spell alike -/

section

variable {s s' : Schema} {type : String} {fields : List (String × Value)}
  {e e' : SchemaEntry} {roles roles' : List (VirtualRole × SchemaEntry)}
  {slots : Schedule} {slot : Slot}

theorem map_snd_itemMembers (slot slot' : Nat) (separator : Option String)
    (index : Nat) (items : List Cst) :
    (itemMembers slot separator index items).map Prod.snd =
      (itemMembers slot' separator index items).map Prod.snd := by
  induction items generalizing index with
  | nil => rfl
  | cons item items ih =>
    rw [itemMembers, itemMembers, List.map_append, List.map_append,
      List.map_cons, List.map_cons, ih (index + 1)]
    congr 1
    cases index <;> cases separator <;> rfl

/-- What a slot is written with does not depend on where it stands
in its schedule. -/
theorem map_snd_slotMembers (index index' : Nat) (slot : Slot)
    (value? : Option Value) :
    (slotMembers index slot value?).map Prod.snd =
      (slotMembers index' slot value?).map Prod.snd := by
  match value? with
  | none | some (.node _) | some .absent | some (.virtual ..) =>
    cases slot <;> rfl
  | some (.scalar value) => cases slot <;> cases value <;> rfl
  | some (.list items) =>
    cases slot with
    | list field separator =>
      exact map_snd_itemMembers index index' separator 0 items
    | _ => rfl

theorem slotMembers_of_not_spells (index : Nat) (h : slot.spells = false)
    (value? : Option Value) : slotMembers index slot value? = [] := by
  cases slot with
  | extras label | implied field => rfl
  | _ => exact nomatch h

theorem held_of_role? (roles roles' : List (VirtualRole × SchemaEntry))
    (look : String → Option Value) (h : slot.role? = none) :
    held roles look slot = held roles' look slot := by
  cases slot with
  | «virtual» role => exact nomatch h
  | _ => rfl

/-- Without virtual nodes the members depend on the slots only that
spell something. -/
theorem map_snd_members (roles : List (VirtualRole × SchemaEntry))
    (look : String → Option Value) (index : Nat)
    (h : ∀ slot ∈ slots, slot.role? = none) :
    (members roles look index slots).map Prod.snd =
      (slots.filter Slot.spells).flatMap fun slot =>
        (slotMembers 0 slot (held [] look slot)).map Prod.snd := by
  induction slots generalizing index with
  | nil => rfl
  | cons slot slots ih =>
    rw [members, List.map_append,
      ih (index + 1) fun u hu => h u (List.mem_cons_of_mem _ hu),
      held_of_role? roles [] look (h slot List.mem_cons_self)]
    cases hspells : slot.spells with
    | true =>
      rw [List.filter_cons_of_pos hspells, List.flatMap_cons,
        map_snd_slotMembers index 0]
    | false =>
      rw [List.filter_cons_of_neg (by simp [hspells]),
        slotMembers_of_not_spells index hspells]
      rfl

/-- The children of a node without virtual nodes are nodes. -/
theorem LaidOut.exists_node (h : LaidOut s type fields e)
    (hroles : ∀ slot ∈ e.schedule, slot.role? = none) (extras : Extras)
    {v : Value}
    (hv : v ∈ childrenOf (members s.roles (fields.lookup ·) 0 e.schedule)) :
    ∃ t ∈ Branching.children (Cst.node type fields extras), v = .node t := by
  obtain ⟨slot, hslot, value, htakes, hv, hchild⟩ := h.exists_takes extras hv
  cases htakes with
  | scalar | implied | absent => exact absurd hv List.not_mem_nil
  | node | some =>
    cases List.mem_singleton.1 hv
    exact ⟨_, hchild _ (List.mem_singleton_self _), rfl⟩
  | list =>
    obtain ⟨t, ht, rfl⟩ := List.mem_map.1 hv
    exact ⟨t, hchild t ht, rfl⟩
  | wrapped | nothing => exact nomatch hroles _ hslot

/-! ### Trees that two schemas write -/

/-- Two schedules without virtual nodes spell the same and share no label. -/
structure Matches (slots slots' : Schedule) : Prop where
  roles : ∀ slot ∈ slots, slot.role? = none
  roles' : ∀ slot ∈ slots', slot.role? = none
  spells : slots'.filter Slot.spells = slots.filter Slot.spells
  disjoint : ∀ label ∈ slots.labels, label ∉ slots'.labels

instance (slots slots' : Schedule) : Decidable (Matches slots slots') :=
  decidable_of_iff ((∀ slot ∈ slots, slot.role? = none) ∧
    (∀ slot ∈ slots', slot.role? = none) ∧
    slots'.filter Slot.spells = slots.filter Slot.spells ∧
    ∀ label ∈ slots.labels, label ∉ slots'.labels)
    ⟨fun h => ⟨h.1, h.2.1, h.2.2.1, h.2.2.2⟩,
      fun h => ⟨h.roles, h.roles', h.spells, h.disjoint⟩⟩

/-- Two schemas keep their lists alike in each type, or one of them in a virtual
node and the other not. -/
structure Crosses (s s' : Schema) : Prop where
  sound : s.Sound
  sound' : s'.Sound
  near : s.strategy.Local
  near' : s'.strategy.Local
  schedules : ∀ type e e', s.entry? (.node type) = some e →
    s'.entry? (.node type) = some e' →
    Matches e.schedule e'.schedule ∨
      (∃ role, .virtual role ∈ e.schedule) ∧
        ∀ slot ∈ e'.schedule, slot.role? = none

/-- A field that holds a virtual node is written by a slot for one. -/
theorem LaidOut.exists_role (h : LaidOut s type fields e) {name : String}
    {role : VirtualRole} {wrapped : Option Value} {extras : Extras}
    (hvalue : (name, .virtual role wrapped extras) ∈ fields) :
    .virtual role ∈ e.schedule := by
  obtain ⟨slot, hslot, d, -, -, htakes⟩ := h.exists_slot hvalue
  cases htakes with
  | wrapped | nothing => exact hslot

/-- A node that both schemas lay out has its lists in the same place. -/
theorem Crosses.matches (hc : Crosses s s') (here : LaidOut s type fields e)
    (here' : LaidOut s' type fields e') : Matches e.schedule e'.schedule := by
  rcases hc.schedules type e e' here.entry here'.entry with hmatch |
    ⟨⟨role, hslot⟩, hroles⟩
  · exact hmatch
  · obtain ⟨_, -, hfits⟩ := hc.sound.node type e here.entry
    have hsome := hfits.hasRoles role (List.mem_filterMap.2 ⟨_, hslot, rfl⟩)
    obtain ⟨d, hd⟩ := Option.isSome_iff_exists.1 hsome
    obtain ⟨value, hvalue, htakes⟩ := here.exists_value hslot hd
    obtain ⟨wrapped, items, extras, rfl, -, -⟩ := exists_wraps htakes
    exact nomatch hroles _ (here'.exists_role (Named.mem_of_lookup hvalue))

/-- The labels of two schedules that match, and those that a parent reads. -/
theorem Crosses.nodup_labels (hc : Crosses s s')
    (hentry : s.entry? (.node type) = some e)
    (hentry' : s'.entry? (.node type) = some e')
    (hmatch : Matches e.schedule e'.schedule) :
    (.before :: .after :: (e.schedule.labels ++ e'.schedule.labels)).Nodup := by
  obtain ⟨_, -, hfits⟩ := hc.sound.node type e hentry
  obtain ⟨_, -, hfits'⟩ := hc.sound'.node type e' hentry'
  refine List.nodup_append.2 ⟨Cst.nodup_labels hfits.toEntryFits,
    hfits'.nodup, ?_⟩
  rintro label hlabel _ hlabel' rfl
  obtain ⟨hbefore, hafter, -⟩ := hfits'.own label hlabel'
  rcases List.mem_cons.1 hlabel with rfl | hlabel
  · exact hbefore rfl
  · rcases List.mem_cons.1 hlabel with rfl | hlabel
    · exact hafter rfl
    · exact hmatch.disjoint label hlabel hlabel'

/-- What two schemas write for a tree that both lay out meets in the number of
its labels, apart from those that its parent reads. -/
theorem exists_meet (hc : Crosses s s') {t : Cst} {root : Bool}
    {ps ps' : List Piece}
    (here : ∀ u ∈ Branching.nodes t, ∃ e, LaidOut s u.type u.fields e)
    (here' : ∀ u ∈ Branching.nodes t, ∃ e, LaidOut s' u.type u.fields e)
    (h : Write.node s root t = .ok ps) (h' : Write.node s' root t = .ok ps') :
    ∃ n, Piece.Meet ps ps' n ∧
      n + filled t.extras.get [.before] + filled t.extras.get [.after] ≤
        t.labelCount := by
  induction t using Branching.induction generalizing root ps ps' with
  | step t ih =>
    obtain ⟨type, fields, extras⟩ := t
    obtain ⟨e, hlaid⟩ : ∃ e, LaidOut s type fields e :=
      here _ (Branching.mem_nodes_self _)
    obtain ⟨e', hlaid'⟩ : ∃ e', LaidOut s' type fields e' :=
      here' _ (Branching.mem_nodes_self _)
    have hmatch := hc.matches hlaid hlaid'
    obtain ⟨-, halong⟩ := along_of_node hlaid h
    obtain ⟨-, halong'⟩ := along_of_node hlaid' h'
    have hsame :
        (members s'.roles (fields.lookup ·) 0 e'.schedule).map Prod.snd =
          (members s.roles (fields.lookup ·) 0 e.schedule).map Prod.snd := by
      rw [map_snd_members _ _ _ hmatch.roles,
        map_snd_members _ _ _ hmatch.roles', hmatch.spells]
    have hmeets : ∀ m ∈ members s.roles (fields.lookup ·) 0 e.schedule,
        m.2.Meets s s' := by
      rintro ⟨el, m⟩ hm
      cases m with
      | word text => exact meets_word s s' text
      | child value =>
        obtain ⟨u, hu, rfl⟩ :=
          hlaid.exists_node hmatch.roles extras (mem_childrenOf hm)
        intro qs qs' hqs hqs'
        exact ih u hu (fun w hw =>
          here w (Branching.mem_nodes_of_mem_children hu hw))
          (fun w hw => here' w (Branching.mem_nodes_of_mem_children hu hw)) hqs
          hqs'
    have hlow : lowOf ((opening root).map Write.Left.element) = 0 := by
      cases root <;> rfl
    have hrising :
        ∀ (roles : List (VirtualRole × SchemaEntry)) (slots : Schedule),
          Rising (lowOf ((opening root).map Write.Left.element))
          ((members roles (fields.lookup ·) 0 slots).map Prod.fst) := by
      rw [hlow]
      exact fun roles slots => rising_members roles _ slots (Nat.zero_le _)
    have hmeet := meet_along hc.near hc.near' hsame (hrising _ _)
      (hrising _ _) rfl hmeets halong halong'
    refine ⟨_, hmeet, ?_⟩
    rw [allowance_opening, hlaid.total_members, hlow, List.drop_zero,
      labelCount, Cst.extras]
    have hsize :=
      filled_le_size extras (hc.nodup_labels hlaid.entry hlaid'.entry hmatch)
    rw [filled_cons, filled_cons extras.get .after, filled_append] at hsize
    omega

/-- A tree that both schemas can write has one source. -/
theorem source_unique (hc : Crosses s s') {t : Cst} {text text' : String}
    (here : ∀ u ∈ Branching.nodes t, ∃ e, LaidOut s u.type u.fields e)
    (here' : ∀ u ∈ Branching.nodes t, ∃ e, LaidOut s' u.type u.fields e)
    (h : t.source s = .ok text) (h' : t.source s' = .ok text') :
    text = text' := by
  obtain ⟨ps, hps, hcount, -⟩ := source_eq_ok h
  obtain ⟨ps', hps', hcount', -⟩ := source_eq_ok h'
  obtain ⟨n, hmeet, hn⟩ := exists_meet hc here here' hps hps'
  have hsame := (hmeet.mono (by omega : n ≤ t.labelCount)).same hcount hcount'
  rw [source, hps, Outcome.ok_bind, if_pos hcount] at h
  rw [source, hps', Outcome.ok_bind, if_pos hcount', ← hsame] at h'
  exact Except.ok.inj (h.symm.trans h')

end

/-! ### The bundled strategies -/

section

variable {s s' : Schema}

/-- In each type the bundled strategies have schedules that match, or one of
them keeps the list of the type in a virtual node. -/
theorem crosses_bundled (hs : s.Sound) (hstrategy : s.strategy = .virtualNodes)
    (hgrammar : s.grammar = .functions) (hs' : s'.Sound)
    (hstrategy' : s'.strategy = .extendedLabels) : Crosses s s' := by
  have hall : ∀ t ∈ Grammar.functions.types,
      let slots := (Strategy.virtualNodes.schedule? (.node t.1)).getD []
      let slots' := (Strategy.extendedLabels.schedule? (.node t.1)).getD []
      Matches slots slots' ∨
        (∃ role ∈ VirtualRole.all, .virtual role ∈ slots) ∧
          ∀ slot ∈ slots', slot.role? = none := by
    decide
  have hnear : Strategy.virtualNodes.Local :=
    Strategy.local_bundled List.mem_cons_self
  have hnear' : Strategy.extendedLabels.Local :=
    Strategy.local_bundled (.tail _ (.head _))
  refine ⟨hs, hs', hstrategy ▸ hnear, hstrategy' ▸ hnear',
    fun type e e' he he' => ?_⟩
  obtain ⟨declared, hdeclared, hfits⟩ := hs.node type e he
  obtain ⟨_, -, hfits'⟩ := hs'.node type e' he'
  have hschedule := hfits.schedule
  have hschedule' := hfits'.schedule
  rw [hstrategy] at hschedule
  rw [hstrategy'] at hschedule'
  rw [hgrammar] at hdeclared
  have hcase := hall (type, declared) (Named.mem_of_lookup hdeclared)
  simp only [hschedule, hschedule', Option.getD_some] at hcase
  exact hcase.imp id fun h => ⟨h.1.imp fun _ hrole => hrole.2, h.2⟩

/-- Functions and calls have their lists in virtual nodes under one
bundled strategy only. -/
theorem type_ne_of_matches {type : String} {e e' : SchemaEntry} (hs : s.Sound)
    (hstrategy : s.strategy = .virtualNodes)
    (he : s.entry? (.node type) = some e)
    (hmatch : Matches e.schedule e'.schedule) :
    type ≠ "FunctionDeclaration" ∧ type ≠ "CallExpression" := by
  obtain ⟨_, -, hfits⟩ := hs.node type e he
  have hschedule := hfits.schedule
  have hroles := hmatch.roles
  rw [hstrategy] at hschedule
  constructor <;> rintro rfl <;> rw [← Option.some.inj hschedule] at hroles
  · exact absurd (hroles (.virtual .paramList) (by decide)) (by decide)
  · exact absurd (hroles (.virtual .argumentList) (by decide)) (by decide)

/-- A tree of a program that both bundled strategies can write has one source,
and holds no function and no call. -/
theorem source_unique_bundled (hs : s.Sound)
    (hstrategy : s.strategy = .virtualNodes) (hgrammar : s.grammar = .functions)
    (hs' : s'.Sound) (hstrategy' : s'.strategy = .extendedLabels)
    (hgrammar' : s'.grammar = .functions) {t : Cst} {a : Ast}
    {text text' : String} (hplain : t.plain = some a)
    (ha : Grammar.functions.Conforms a) (h : t.source s = .ok text)
    (h' : t.source s' = .ok text') :
    text = text' ∧
      ∀ b ∈ Branching.nodes a, b.type ≠ "FunctionDeclaration" ∧
        b.type ≠ "CallExpression" := by
  have hdistinct : Grammar.functions.Distinct :=
    Grammar.distinct_of_validate Grammar.validate_functions
  have hc := crosses_bundled hs hstrategy hgrammar hs' hstrategy'
  obtain ⟨ps, hps, -⟩ := source_eq_ok h
  obtain ⟨ps', hps', -⟩ := source_eq_ok h'
  have hlone := lone_of_bundled hs (hstrategy ▸ List.mem_cons_self) hgrammar
  have hlone' := lone_of_bundled hs' (hstrategy' ▸ .tail _ (.head _)) hgrammar'
  have here := laidOut_of_pieces hs hlone (hgrammar ▸ hdistinct) t hplain
    (hgrammar ▸ ha) hps
  have here' := laidOut_of_pieces hs' hlone' (hgrammar' ▸ hdistinct) t hplain
    (hgrammar' ▸ ha) hps'
  refine ⟨source_unique hc here here' h h', fun b hb => ?_⟩
  have htype := List.mem_map_of_mem (f := Ast.type) hb
  rw [← types_of_plain hplain] at htype
  obtain ⟨u, hu, hub⟩ := List.mem_map.1 htype
  obtain ⟨e, hlaid⟩ := here u hu
  obtain ⟨e', hlaid'⟩ := here' u hu
  rw [← hub]
  exact type_ne_of_matches hs hstrategy hlaid.entry (hc.matches hlaid hlaid')

end

/-- A tree that was built under one bundled strategy and is written under the
other has the text of all its tokens as its source, if it has one at all. If the
syntax tree holds a function or a call it has none. -/
theorem source_across {strategy strategy' : Strategy}
    (h : strategy ∈ Strategy.bundled) (h' : strategy' ∈ Strategy.bundled)
    (hne : strategy ≠ strategy') {s s' : Schema}
    (hs : Schema.make .functions strategy = .ok s)
    (hs' : Schema.make .functions strategy' = .ok s') {t : Ast}
    {tokens : List SourceToken} {tree : Cst}
    (hbuild : build s t tokens = .ok tree) :
    (∀ text, tree.source s' = .ok text →
      text = String.join (tokens.map SourceToken.text)) ∧
      ((∃ u ∈ Branching.nodes t, u.type = "FunctionDeclaration" ∨
        u.type = "CallExpression") →
        ∃ e, tree.source s' = .error e) := by
  obtain ⟨hgrammar, hmade, hsound⟩ := Schema.make_eq_ok hs
  obtain ⟨hgrammar', hmade', hsound'⟩ := Schema.make_eq_ok hs'
  have hsource := source_eq_join (hsound.resolves (hmade ▸ h) ⟨rfl, rfl⟩)
    (Strategy.local_bundled (hmade ▸ h)) hbuild
  have hplain := plain_of_build hsound hbuild
  have hconforms : Grammar.functions.Conforms t :=
    hgrammar ▸ Grammar.conforms_of_check (build_eq_ok hbuild).1
  -- whichever of the two the tree was built under, both can write it
  have hboth :
      ∀ text, tree.source s' = .ok text →
        text = String.join (tokens.map SourceToken.text) ∧
          ∀ b ∈ Branching.nodes t,
            b.type ≠ "FunctionDeclaration" ∧ b.type ≠ "CallExpression" := by
    intro text htext
    simp only [Strategy.bundled, List.mem_cons, List.not_mem_nil,
      or_false] at h h'
    rcases h with rfl | rfl <;> rcases h' with rfl | rfl
    · exact absurd rfl hne
    · exact (source_unique_bundled hsound hmade hgrammar hsound' hmade'
        hgrammar' hplain hconforms hsource htext).imp Eq.symm id
    · exact source_unique_bundled hsound' hmade' hgrammar' hsound hmade hgrammar
        hplain hconforms htext hsource
    · exact absurd rfl hne
  refine ⟨fun text htext => (hboth text htext).1, fun ⟨u, hu, htype⟩ => ?_⟩
  cases htext : tree.source s' with
  | error e => exact ⟨e, rfl⟩
  | ok text =>
    obtain ⟨hfunction, hcall⟩ := (hboth text htext).2 u hu
    exact htype.elim (absurd · hfunction) (absurd · hcall)

/-- Under the other strategy an empty statement between two spaces is written as
it was read; a call is not written. -/
theorem source_across_sample :
    ∃ s s' tree text tree' e, Schema.make .functions .extendedLabels = .ok s ∧
      Schema.make .functions .virtualNodes = .ok s' ∧
      build s (.program [.emptyStatement]) spacedTokens = .ok tree ∧
      tree.source s' = .ok text ∧
      text = String.join (spacedTokens.map SourceToken.text) ∧
      build s sampleTree sampleTokens = .ok tree' ∧
      tree'.source s' = .error e := by
  have hvirtual : Strategy.virtualNodes ∈ Strategy.bundled := List.mem_cons_self
  have hextended : Strategy.extendedLabels ∈ Strategy.bundled :=
    .tail _ (.head _)
  have hne : Strategy.extendedLabels ≠ Strategy.virtualNodes :=
    fun he => absurd (congrArg Strategy.name he) (by decide)
  obtain ⟨s, hs⟩ := exists_make_functions hextended
  obtain ⟨s', hs'⟩ := exists_make_functions hvirtual
  have htext : (Schema.make .functions .extendedLabels >>= fun s =>
      Schema.make .functions .virtualNodes >>= fun s' =>
      build s (.program [.emptyStatement]) spacedTokens >>=
        fun tree => tree.source s').isOk = true := by
    decide +kernel
  have hcall : (Schema.make .functions .extendedLabels >>= fun s =>
      build s sampleTree sampleTokens).isOk = true := by decide +kernel
  rw [hs, Outcome.ok_bind, hs', Outcome.ok_bind] at htext
  rw [hs, Outcome.ok_bind] at hcall
  obtain ⟨text, htext⟩ := Outcome.exists_of_isOk htext
  obtain ⟨tree, htree, htext⟩ := Outcome.bind_eq_ok.1 htext
  obtain ⟨tree', htree'⟩ := Outcome.exists_of_isOk hcall
  obtain ⟨hjoin, -⟩ := source_across hextended hvirtual hne hs hs' htree
  obtain ⟨-, hfails⟩ := source_across hextended hvirtual hne hs hs' htree'
  obtain ⟨e, he⟩ := hfails (by decide +kernel)
  exact ⟨s, s', tree, text, tree', e, hs, hs', htree, htext,
    hjoin text htext, htree', he⟩

end Cst

end Lossless
