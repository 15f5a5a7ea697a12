import Lossless.Proofs.Laid
import Lossless.Proofs.Rows

/-!
# Trees of one shape that tell the same signs

A node that is not the root begins and ends with a leaf, and no more runs are
written for it than it has labels. Two nodes of one shape have the same leaves;
if they tell the same signs and write a run for each label, their records keep
the same runs (`stable_of_laid`). So what is written for a whole tree settles
the records of the tree, up to the places of tokens and the order of labels
(`sameRecords_of_row`).
-/

namespace Lossless

/-- A slot that always has an element. -/
def Slot.firm : Slot → Bool
  | .token _ | .scalar _ | .node _ | .virtual _ => true
  | .extras _ | .implied _ | .optional _ | .list .. => false

/-- Nodes other than the root always have an element. -/
def Schema.Solid (s : Schema) : Prop :=
  ∀ owner e, s.entry? owner = some e → owner ≠ .node s.grammar.root →
    ∃ slot ∈ e.schedule, slot.firm = true

namespace Cst

open Write (Inner Origin Content)

section

variable {s : Schema} {owner : Owner} {e : SchemaEntry} {own own' : Extras}
  {root flag : Bool} {ms ms' : List (Element × Member)} {ps ps' : List Piece}

/-! ### Members in a row -/

/-- A schedule with a firm slot is written with an element. -/
theorem ne_nil_of_elements {o : Origin} {index : Nat} {slots : Schedule}
    {es : List (Element × Content)} {slot : Slot} (hslot : slot ∈ slots)
    (hfirm : slot.firm = true)
    (h : Write.elements owner o index slots = .ok es) : es ≠ [] := by
  induction slots generalizing index es with
  | nil => exact absurd hslot List.not_mem_nil
  | cons first slots ih =>
    rw [Write.elements] at h
    obtain ⟨here, hhere, h⟩ := Outcome.bind_eq_ok.1 h
    obtain ⟨further, hfurther, h⟩ := Outcome.bind_eq_ok.1 h
    rw [← Except.ok.inj h]
    rcases List.mem_cons.1 hslot with rfl | hslot
    · refine List.append_ne_nil_of_left_ne_nil ?_ _
      rintro rfl
      cases slot with
      | extras _ | implied _ | optional _ | list _ _ => cases hfirm
      | token text => cases hhere
      | scalar field | node field | «virtual» role =>
        rw [Write.slotElements] at hhere
        split at hhere <;> cases hhere
    · exact List.append_ne_nil_of_right_ne_nil _ (ih hslot hfurther)

/-- The labels of an owner, and those that its parent reads. -/
theorem nodup_labels (hfits : Schema.EntryFits s.strategy owner flag e) :
    (.before :: .after :: e.schedule.labels).Nodup := by
  refine List.nodup_cons.2 ⟨?_,
    List.nodup_cons.2 ⟨fun h => (hfits.own _ h).2.1 rfl, hfits.nodup⟩⟩
  intro h
  rcases List.mem_cons.1 h with h | h
  · exact absurd h (by decide)
  · exact (hfits.own _ h).1 rfl

/-- All members together may have the runs of the node and those
of its children. -/
theorem allowance_opening (schedule : Schedule) (own : Extras) (root : Bool)
    (ms : List (Element × Member)) :
    allowance schedule own (opening root) ms =
      filled own.get schedule.labels + total (fun m => m.2.labelCount) ms := by
  cases root <;> exact congrArg (· + _) (congrArg (_ + ·) (filled_under_none _))

/-- A record has a label for each run that its owner or the
owner's parent reads. -/
theorem filled_own_le (hfits : Schema.EntryFits s.strategy owner flag e)
    (own : Extras) :
    filled own.get [.before] + filled own.get [.after] +
      filled own.get e.schedule.labels ≤ own.size := by
  have hsize := filled_le_size own (nodup_labels hfits)
  rwa [filled_cons, filled_cons own.get .after, ← Nat.add_assoc] at hsize

theorem countP_frame_le_allowance (hlocal : s.strategy.Local)
    (hrising : Rising 0 (ms.map Prod.fst)) (hfair : ∀ m ∈ ms, m.2.Fair s)
    (h : Write.along s owner e.schedule own root (opening root)
      (contents s ms) = .ok ps) : ps.countP Piece.isExtras ≤
    filled own.get e.schedule.labels + total (fun m => m.2.labelCount) ms := by
  rw [← allowance_opening _ _ root]
  exact countP_along_le hlocal (by cases root <;> exact hrising) hfair h

/-- What is written for a node has no more runs than the node has labels, apart
from those that its parent reads. -/
theorem countP_frame_le (hlocal : s.strategy.Local)
    (hfits : Schema.EntryFits s.strategy owner flag e)
    (hrising : Rising 0 (ms.map Prod.fst)) (hfair : ∀ m ∈ ms, m.2.Fair s)
    (h : Write.along s owner e.schedule own root (opening root)
      (contents s ms) = .ok ps) :
    ps.countP Piece.isExtras + filled own.get [.before] +
        filled own.get [.after] ≤
      own.size + total (fun m => m.2.labelCount) ms := by
  have hcount := countP_frame_le_allowance hlocal hrising hfair h
  have hsize := filled_own_le hfits own
  omega

/-- If there are as many, then each label of the node is read, and each
of its members. -/
theorem full_of_frame (hlocal : s.strategy.Local)
    (hfits : Schema.EntryFits s.strategy owner flag e)
    (hrising : Rising 0 (ms.map Prod.fst)) (hfair : ∀ m ∈ ms, m.2.Fair s)
    (h : Write.along s owner e.schedule own root
      (opening root) (contents s ms) = .ok ps)
    (hfull : ps.countP Piece.isExtras + filled own.get [.before] +
      filled own.get [.after] = own.size + total (fun m => m.2.labelCount) ms) :
    ps.countP Piece.isExtras = allowance e.schedule own (opening root) ms ∧
      filled own.get (.before :: .after :: e.schedule.labels) = own.size := by
  have hcount := countP_frame_le_allowance hlocal hrising hfair h
  have hsize := filled_own_le hfits own
  rw [allowance_opening, filled_cons, filled_cons own.get .after]
  omega

/-- Two nodes of one shape that tell the same signs, with a run for each
label, agree on their own runs if they do on those that their parents read,
and so do their members. -/
theorem frame_rigid (hlocal : s.strategy.Local)
    (hfits : Schema.EntryFits s.strategy owner flag e)
    (helements : ms'.map Prod.fst = ms.map Prod.fst)
    (hrising : Rising 0 (ms.map Prod.fst)) (hfair : ∀ m ∈ ms, m.2.Fair s)
    (hfair' : ∀ m ∈ ms', m.2.Fair s)
    (hrigid : ∀ p ∈ ms.zip ms', p.1.2.Rigid s p.2.2)
    (h : Write.along s owner e.schedule own root
      (opening root) (contents s ms) = .ok ps)
    (h' : Write.along s owner e.schedule own' root (opening root)
      (contents s ms') = .ok ps') (hsigns : Piece.row ps = Piece.row ps')
    (hfull : ps.countP Piece.isExtras + filled own.get [.before] +
      filled own.get [.after] = own.size + total (fun m => m.2.labelCount) ms)
    (hfull' : ps'.countP Piece.isExtras + filled own'.get [.before] + filled
      own'.get [.after] = own'.size + total (fun m => m.2.labelCount) ms')
    (hbefore : Agree own.get own'.get .before)
    (hafter : Agree own.get own'.get .after) :
    (∀ label, Agree own.get own'.get label) ∧
      ∀ p ∈ ms.zip ms', SameRecords p.1.2.records p.2.2.records := by
  obtain ⟨hcount, hsize⟩ := full_of_frame hlocal hfits hrising hfair h hfull
  obtain ⟨hcount', hsize'⟩ :=
    full_of_frame hlocal hfits (helements ▸ hrising) hfair' h' hfull'
  obtain ⟨hown, -, hzip⟩ := along_rigid hlocal helements rfl
    (by cases root <;> exact hrising) hfair hfair'
    hrigid h h' hsigns hcount hcount'
  have hlow : lowOf ((opening root).map Write.Left.element) = 0 := by
    cases root <;> rfl
  rw [hlow, List.drop_zero] at hown
  refine ⟨agree_of_size (nodup_labels hfits) hsize hsize'
    fun label hlabel => ?_, hzip⟩
  rcases List.mem_cons.1 hlabel with rfl | hlabel
  · exact hbefore
  · rcases List.mem_cons.1 hlabel with rfl | hlabel
    · exact hafter
    · exact hown label hlabel

/-- Below the root, what is written begins with the first member and ends
with the last one. -/
theorem closes_along {left : Option Write.Left} (hms : ms ≠ [])
    (hfair : ∀ m ∈ ms, m.2.Fair s)
    (h : Write.along s owner e.schedule own false left (contents s ms) =
      .ok ps) : ∃ text, (Piece.row ps).getLast? = some (.leaf text) := by
  induction ms generalizing left ps with
  | nil => exact absurd rfl hms
  | cons m ms ih =>
    obtain ⟨inside, rest, hinside, hrest, rfl⟩ := along_cons_eq_ok h
    simp only [Piece.row_append, List.getLast?_append]
    by_cases hms : ms = []
    · subst hms
      obtain ⟨text, htext⟩ :=
        (hfair m List.mem_cons_self inside hinside).1.closes
      rw [along_nil_eq_ok hrest]
      exact ⟨text, by simp [closing, Piece.ofRun, htext]⟩
    · obtain ⟨text, htext⟩ :=
        ih hms (fun m' hm' => hfair m' (List.mem_cons_of_mem _ hm')) hrest
      exact ⟨text, by simp [htext]⟩

theorem enclosed_along (hms : ms ≠ []) (hfair : ∀ m ∈ ms, m.2.Fair s)
    (h : Write.along s owner e.schedule own false none (contents s ms) =
      .ok ps) : Enclosed (Piece.row ps) := by
  refine ⟨?_, closes_along hms hfair h⟩
  cases ms with
  | nil => exact absurd rfl hms
  | cons m ms =>
    obtain ⟨inside, rest, hinside, hrest, rfl⟩ := along_cons_eq_ok h
    obtain ⟨text, htext⟩ := (hfair m List.mem_cons_self inside hinside).1.opens
    exact ⟨text, by simp [placeOf, Piece.ofRun, htext]⟩

/-- Members with the same leaves, one by one, have the same leaves in a row. -/
theorem words_along {left left' : Option Write.Left}
    (helements : ms'.map Prod.fst = ms.map Prod.fst)
    (hrigid : ∀ p ∈ ms.zip ms', p.1.2.Rigid s p.2.2)
    (h : Write.along s owner e.schedule own root left (contents s ms) = .ok ps)
    (h' : Write.along s owner e.schedule own' root left' (contents s ms') =
      .ok ps') : Sign.words (Piece.row ps) = Sign.words (Piece.row ps') := by
  induction ms generalizing ms' left left' ps ps' with
  | nil =>
    cases List.map_eq_nil_iff.1 helements
    rw [along_nil_eq_ok h, along_nil_eq_ok h', Piece.row_ofRun, Piece.row_ofRun,
      Sign.words_map_sign, Sign.words_map_sign]
  | cons m ms ih =>
    cases ms' with
    | nil => exact nomatch helements
    | cons m' ms' =>
      obtain ⟨inside, rest, hinside, hrest, rfl⟩ := along_cons_eq_ok h
      obtain ⟨inside', rest', hinside', hrest', rfl⟩ := along_cons_eq_ok h'
      have hwords :=
        (hrigid (m, m') List.mem_cons_self inside inside' hinside hinside').1
      have hbehind := ih (List.cons.inj helements).2
        (fun p hp => hrigid p (List.mem_cons_of_mem _ hp)) hrest hrest'
      simp only [Piece.row_append, Piece.row_ofRun, Sign.words_append,
        Sign.words_map_sign, hwords, hbehind]

/-! ### Values of one shape -/

/-- Whatever its records hold, a value is written fairly, and what is written
settles its records. -/
def Value.Stable (s : Schema) (value : Value) : Prop :=
  ∀ value', blankValue value' = blankValue value →
    (Member.child value').Fair s ∧ (Member.child value).Rigid s (.child value')

theorem fair_word (s : Schema) (text : String) : (Member.word text).Fair s := by
  rintro ps h
  cases Except.ok.inj h
  exact ⟨⟨⟨text, rfl⟩, ⟨text, rfl⟩⟩, Nat.le_refl 0⟩

theorem rigid_word (s : Schema) (text : String) :
    (Member.word text).Rigid s (.word text) := by
  rintro ps ps' h h'
  cases Except.ok.inj (h.symm.trans h')
  exact ⟨rfl, fun _ _ _ _ _ => .nil⟩

/-- Members whose children are stable write fairly, and so do others
of their shape. -/
theorem fair_members (hblank : blankMembers ms' = blankMembers ms)
    (h : ∀ value ∈ childrenOf ms, value.Stable s) : ∀ m ∈ ms', m.2.Fair s := by
  rintro ⟨e, m'⟩ hm'
  cases m' with
  | word text => exact fair_word s text
  | child value' =>
    have hmem : (e, (Member.child value').blank) ∈ blankMembers ms :=
      hblank ▸ List.mem_map.2 ⟨_, hm', rfl⟩
    obtain ⟨⟨e', m⟩, hm, heq⟩ := List.mem_map.1 hmem
    cases m with
    | word text => exact nomatch heq
    | child value =>
      obtain ⟨-, hvalue⟩ := Prod.mk.inj heq
      exact (h value (mem_childrenOf hm) value'
        (Member.child.inj hvalue).symm).1

theorem rigid_members (hblank : blankMembers ms' = blankMembers ms)
    (h : ∀ value ∈ childrenOf ms, value.Stable s) :
    ∀ p ∈ ms.zip ms', p.1.2.Rigid s p.2.2 := by
  rintro ⟨⟨e, m⟩, ⟨e', m'⟩⟩ hp
  have hshape := blank_zip_members hblank _ hp
  cases m with
  | word text =>
    cases m' with
    | word text' =>
      cases hshape
      exact rigid_word s text
    | child value' => exact nomatch hshape
  | child value =>
    cases m' with
    | word text' => exact nomatch hshape
    | child value' =>
      exact (h value (mem_childrenOf (List.of_mem_zip hp).1) value'
        (Member.child.inj hshape)).2

/-- A value that is written along members, under a record of its own. -/
structure Row (s : Schema) (value : Value) (owner : Owner) (e : SchemaEntry)
    (ms : List (Element × Member)) : Prop where
  fits : ∃ flag, Schema.EntryFits s.strategy owner flag e
  rising : Rising 0 (ms.map Prod.fst)
  along : ∀ ps, ((Member.child value).content s).pieces = .ok ps →
    ms ≠ [] ∧
      Write.along s owner e.schedule value.record false (opening false)
        (contents s ms) = .ok ps
  count : valueLabelCount value =
    value.record.size + total (fun m => m.2.labelCount) ms

variable {value value' : Value}

theorem Row.fair (hlocal : s.strategy.Local) (hrow : Row s value owner e ms)
    (hfair : ∀ m ∈ ms, m.2.Fair s) : (Member.child value).Fair s := by
  intro ps h
  obtain ⟨hms, halong⟩ := hrow.along ps h
  obtain ⟨flag, hfits⟩ := hrow.fits
  refine ⟨enclosed_along hms hfair halong, ?_⟩
  rw [Member.labelCount, hrow.count]
  exact countP_frame_le hlocal hfits hrow.rising hfair halong

theorem Row.rigid (hlocal : s.strategy.Local) (hrow : Row s value owner e ms)
    (hrow' : Row s value' owner e ms')
    (hblank : blankMembers ms' = blankMembers ms)
    (hstable : ∀ value ∈ childrenOf ms, value.Stable s)
    (hrecords : (∀ label, Agree value.record.get value'.record.get label) →
      (∀ p ∈ ms.zip ms', SameRecords p.1.2.records p.2.2.records) →
      SameRecords (valueRecords value) (valueRecords value')) :
    (Member.child value).Rigid s (.child value') := by
  intro ps ps' h h'
  obtain ⟨-, halong⟩ := hrow.along ps h
  obtain ⟨-, halong'⟩ := hrow'.along ps' h'
  obtain ⟨flag, hfits⟩ := hrow.fits
  have helements := elements_of_blank hblank
  have hrigid := rigid_members hblank hstable
  refine ⟨words_along helements hrigid halong halong',
    fun hsigns hfull hfull' hbefore hafter => ?_⟩
  rw [Member.Full, Member.labelCount, hrow.count] at hfull
  rw [Member.Full, Member.labelCount, hrow'.count] at hfull'
  obtain ⟨hown, hzip⟩ := frame_rigid hlocal hfits helements hrow.rising
    (fair_members rfl hstable) (fair_members hblank hstable) hrigid halong
    halong' hsigns hfull hfull' hbefore hafter
  exact hrecords hown hzip

/-! ### Virtual nodes -/

theorem row_virtual (hs : s.Sound) (hsolid : s.Solid) {role : VirtualRole}
    {wrapped : Option Value} {items : List Cst} (extras : Extras)
    (hwraps : Wraps wrapped items) (he : s.entry? (.virtual role) = some e) :
    Row s (.virtual role wrapped extras) (.virtual role) e
      (members s.roles (fun _ => some (.list items)) 0 e.schedule) where
  fits := ⟨false, (hs.role role e he).toEntryFits⟩
  rising := rising_members _ _ _ (Nat.zero_le _)
  along ps h := by
    rw [Member.pieces_virtual] at h
    obtain ⟨helements, halong⟩ :=
      along_of_virtual (hs.role role e he) he hwraps h
    obtain ⟨slot, hslot, hfirm⟩ := hsolid _ e he (by simp)
    refine ⟨fun hms => ne_nil_of_elements hslot hfirm helements ?_, halong⟩
    rw [hms]
    rfl
  count := by
    rw [labelCount_wraps hwraps,
      total_members (supplied_virtual (hs.role role e he) items),
      heldValues_virtual (hs.role role e he)]
    rfl

theorem nodes_blank_wraps {role : VirtualRole} {wrapped : Option Value}
    {items : List Cst} {extras : Extras} (hwraps : Wraps wrapped items) :
    (blankValue (.virtual role wrapped extras)).nodes = blankItems items := by
  rcases hwraps with rfl | ⟨rfl, rfl⟩ <;> rfl

theorem wraps_of_blank {role : VirtualRole} {wrapped : Option Value}
    {items : List Cst} {extras : Extras} (hwraps : Wraps wrapped items)
    (h : blankValue value' = blankValue (.virtual role wrapped extras)) :
    ∃ wrapped' items' extras', value' = .virtual role wrapped' extras' ∧
      Wraps wrapped' items' ∧ blankItems items' = blankItems items := by
  have htakes : Takes (.virtual role) (.virtual role wrapped extras) := by
    rcases hwraps with rfl | ⟨rfl, rfl⟩
    · exact .wrapped
    · exact .nothing
  obtain ⟨wrapped', items', extras', rfl, hwraps', -⟩ :=
    exists_wraps (takes_of_blank h htakes)
  have hnodes := congrArg Value.nodes h
  rw [nodes_blank_wraps hwraps', nodes_blank_wraps hwraps] at hnodes
  exact ⟨wrapped', items', extras', rfl, hwraps', hnodes⟩

theorem lookAlike_list {items items' : List Cst}
    (h : blankItems items' = blankItems items) :
    LookAlike (fun _ => some (.list items)) fun _ => some (.list items') :=
  fun _ => congrArg (fun items => some (Value.list items)) h

/-- The items of a virtual node keep the same runs if its members do. -/
theorem sameRecords_items {role : VirtualRole} {items items' : List Cst}
    (hfits : Schema.RoleFits s.strategy role e)
    (h : blankItems items' = blankItems items)
    (hzip : ∀ p ∈ (members s.roles (fun _ => some (.list items)) 0
      e.schedule).zip (members s.roles (fun _ => some (.list items')) 0
        e.schedule), SameRecords p.1.2.records p.2.2.records) :
    SameRecords (itemsRecords items) (itemsRecords items') := by
  have hmem : Value.list items ∈
      heldValues s.roles (fun _ => some (.list items)) e.schedule := by
    rw [heldValues_virtual hfits]
    exact List.mem_singleton_self _
  obtain ⟨slot, hslot, hheld⟩ := List.mem_filterMap.1 hmem
  obtain ⟨d, hd, -⟩ := Option.bind_eq_some_iff.1 hheld
  obtain ⟨_, heq, htakes⟩ := supplied_virtual hfits items slot hslot d hd
  obtain ⟨_, heq', htakes'⟩ := supplied_virtual hfits items' slot hslot d hd
  cases Option.some.inj heq
  cases Option.some.inj heq'
  exact sameRecords_held (lookAlike_list h) hslot hheld
    (by rw [held, hd]; rfl) htakes htakes' hzip

/-- A virtual node around stable items is stable. -/
theorem stable_virtual (hs : s.Sound) (hlocal : s.strategy.Local)
    (hsolid : s.Solid) {role : VirtualRole} {wrapped : Option Value}
    {items : List Cst} (extras : Extras) (hwraps : Wraps wrapped items)
    (hitems : ∀ t ∈ items, (Value.node t).Stable s) :
    (Value.virtual role wrapped extras).Stable s := by
  intro value' h
  obtain ⟨wrapped', items', extras', rfl, hwraps', hblank⟩ :=
    wraps_of_blank hwraps h
  cases he : s.entry? (.virtual role) with
  | none =>
    -- a role without a schedule is not written at all
    have hnot : ∀ wrapped extras ps,
        ((Member.child (.virtual role wrapped extras)).content s).pieces ≠
        .ok ps := by
      intro wrapped extras ps h
      obtain ⟨e, he'⟩ := exists_entry (Member.pieces_virtual .. ▸ h)
      exact nomatch he.symm.trans he'
    exact ⟨fun ps h => absurd h (hnot _ _ _),
      fun ps ps' h => absurd h (hnot _ _ _)⟩
  | some e =>
    have hfits := hs.role role e he
    have hrow := row_virtual hs hsolid extras hwraps he
    have hrow' := row_virtual hs hsolid extras' hwraps' he
    have hstable : ∀ value ∈ childrenOf
        (members s.roles (fun _ => some (.list items)) 0 e.schedule),
        value.Stable s := forall_children_virtual hfits hitems
    have hmembers := (lookAlike_list hblank).blank s.roles 0 e.schedule
    refine ⟨hrow'.fair hlocal (fair_members hmembers hstable),
      hrow.rigid hlocal hrow' hmembers hstable fun hown hzip => ?_⟩
    rw [records_wraps hwraps, records_wraps hwraps']
    exact .cons ⟨rfl, hown⟩ (sameRecords_items hfits hblank hzip)

/-! ### Nodes -/

variable {type : String} {fields fields' : List (String × Value)}
  {extras : Extras}

theorem lookAlike_of_blank (h : blankFields fields' = blankFields fields) :
    LookAlike (fields.lookup ·) (fields'.lookup ·) := by
  intro name
  have hlookup := congrArg (List.lookup name) h
  rwa [blankFields_eq_map, blankFields_eq_map, Named.lookup_map,
    Named.lookup_map] at hlookup

theorem sameRecords_of_fields
    (hblank : blankFields fields' = blankFields fields)
    (h : ∀ name value value', (name, value) ∈ fields →
      (name, value') ∈ fields' →
      SameRecords (valueRecords value) (valueRecords value')) :
    SameRecords (fieldsRecords fields) (fieldsRecords fields') := by
  induction fields generalizing fields' with
  | nil =>
    cases fields' with
    | nil => exact .nil
    | cons field' fields' => exact nomatch hblank
  | cons field fields ih =>
    cases fields' with
    | nil => exact nomatch hblank
    | cons field' fields' =>
      obtain ⟨hfield, hfields⟩ := List.cons.inj hblank
      obtain ⟨name, value⟩ := field
      obtain ⟨name', value'⟩ := field'
      obtain ⟨rfl, -⟩ := Prod.mk.inj hfield
      exact (h name' value value' List.mem_cons_self List.mem_cons_self).append
        (ih hfields fun n v v' hv hv' =>
          h n v v' (List.mem_cons_of_mem _ hv) (List.mem_cons_of_mem _ hv'))

/-- The fields of a node keep the same runs if its members do. -/
theorem LaidOut.sameRecords (here : LaidOut s type fields e)
    (hblank : blankFields fields' = blankFields fields)
    (hzip : ∀ p ∈ (members s.roles (fields.lookup ·) 0 e.schedule).zip
      (members s.roles (fields'.lookup ·) 0 e.schedule),
      SameRecords p.1.2.records p.2.2.records) :
    SameRecords (fieldsRecords fields) (fieldsRecords fields') := by
  have here' := here.of_blank hblank
  refine sameRecords_of_fields hblank fun name value value' hvalue hvalue' => ?_
  obtain ⟨slot, hslot, d, hd, rfl, htakes⟩ := here.exists_slot hvalue
  have hlookup' := Named.lookup_of_mem here'.nodup hvalue'
  obtain ⟨value'', hlookup'', htakes'⟩ := here'.exists_value hslot hd
  cases hlookup'.symm.trans hlookup''
  refine sameRecords_held
    (lookAlike_of_blank hblank) hslot ?_ ?_ htakes htakes' hzip
  · rw [held, hd]
    exact Named.lookup_of_mem here.nodup hvalue
  · rw [held, hd]
    exact hlookup'

theorem row_node (hs : s.Sound) (hsolid : s.Solid)
    (here : LaidOut s type fields e) (htype : type ≠ s.grammar.root)
    (extras : Extras) :
    Row s (.node (.node type fields extras)) (.node type) e
      (members s.roles (fields.lookup ·) 0 e.schedule) where
  fits := hs.entryFits here.entry
  rising := rising_members _ _ _ (Nat.zero_le _)
  along ps h := by
    obtain ⟨helements, halong⟩ := along_of_node here h
    obtain ⟨slot, hslot, hfirm⟩ :=
      hsolid _ e here.entry fun he => htype (Owner.node.inj he)
    refine ⟨fun hms => ne_nil_of_elements hslot hfirm helements ?_, halong⟩
    rw [hms]
    rfl
  count := by
    rw [here.total_members]
    rfl

theorem LaidOut.stable_limbs (hs : s.Sound) (hlocal : s.strategy.Local)
    (hsolid : s.Solid) (here : LaidOut s type fields e) (extras : Extras)
    (h : ∀ t ∈ Branching.children (Cst.node type fields extras),
      (Value.node t).Stable s) :
    ∀ value ∈ childrenOf (members s.roles (fields.lookup ·) 0 e.schedule),
      value.Stable s :=
  here.limbs extras h fun _ _ _ extras' hwraps hitems =>
    stable_virtual hs hlocal hsolid extras' hwraps fun t ht => h t (hitems t ht)

/-- A node that is laid out and not of the type of a root is stable. -/
theorem stable_of_laid (hs : s.Sound) (hlocal : s.strategy.Local)
    (hsolid : s.Solid) {t : Cst} (hlaid : Laid s t)
    (htype : t.type ≠ s.grammar.root) : (Value.node t).Stable s := by
  induction hlaid with
  | @node type fields extras e here inner below ih =>
    intro value' h
    cases takes_of_blank h (.node : Takes (.node "") _) with
    | @node _ t' =>
      obtain ⟨type', fields', extras'⟩ := t'
      obtain ⟨rfl, hblank, -⟩ := Cst.node.inj (Value.node.inj h)
      have hrow := row_node hs hsolid here htype extras
      have hrow' := row_node hs hsolid (here.of_blank hblank) htype extras'
      have hstable := here.stable_limbs hs hlocal hsolid extras fun t ht =>
        ih t ht (inner t ht)
      have hmembers := (lookAlike_of_blank hblank).blank s.roles 0 e.schedule
      refine ⟨hrow'.fair hlocal (fair_members hmembers hstable),
        hrow.rigid hlocal hrow' hmembers hstable fun hown hzip => ?_⟩
      exact .cons ⟨rfl, hown⟩ (here.sameRecords hblank hzip)

/-- Two whole trees of one shape that tell the same signs, with a run for each
label, keep the same runs in each of their records. -/
theorem sameRecords_of_row (hs : s.Sound) (hlocal : s.strategy.Local)
    (hsolid : s.Solid) {t t' : Cst} (hlaid : Laid s t)
    (hblank : t'.blank = t.blank) (h : t.pieces s = .ok ps)
    (h' : t'.pieces s = .ok ps') (hsigns : Piece.row ps = Piece.row ps')
    (hcount : ps.countP Piece.isExtras = t.labelCount)
    (hcount' : ps'.countP Piece.isExtras = t'.labelCount) :
    SameRecords t.records t'.records := by
  cases hlaid with
  | @node type fields extras e here inner below =>
    obtain ⟨type', fields', extras'⟩ := t'
    obtain ⟨rfl, hblank, -⟩ := Cst.node.inj hblank
    have here' := here.of_blank hblank
    obtain ⟨-, halong⟩ := along_of_node here h
    obtain ⟨-, halong'⟩ := along_of_node here' h'
    obtain ⟨flag, hfits⟩ := hs.entryFits here.entry
    have hstable := here.stable_limbs hs hlocal hsolid extras fun t ht =>
      stable_of_laid hs hlocal hsolid (below t ht) (inner t ht)
    have hmembers := (lookAlike_of_blank hblank).blank s.roles 0 e.schedule
    have hrising : ∀ fields : List (String × Value), Rising 0
        ((members s.roles (fields.lookup ·) 0 e.schedule).map Prod.fst) :=
      fun fields => rising_members _ _ _ (Nat.zero_le _)
    have hle := countP_frame_le hlocal hfits (hrising fields)
      (fair_members rfl hstable) halong
    have hle' := countP_frame_le hlocal hfits (hrising fields')
      (fair_members hmembers hstable) halong'
    rw [labelCount, ← here.total_members] at hcount
    rw [labelCount, ← here'.total_members] at hcount'
    -- nothing is read from the outer labels of a root, and all labels are read
    have hempty : ∀ label, filled extras.get [label] = 0 →
        filled extras'.get [label] = 0 →
        Agree extras.get extras'.get label := fun label hx hx' =>
      agree_of_nil (eq_nil_of_filled hx (List.mem_singleton_self _))
        (eq_nil_of_filled hx' (List.mem_singleton_self _))
    obtain ⟨hown, hzip⟩ :=
      frame_rigid hlocal hfits (elements_of_blank hmembers) (hrising fields)
        (fair_members rfl hstable) (fair_members hmembers hstable)
        (rigid_members hmembers hstable) halong halong' hsigns
        (by omega) (by omega) (hempty _ (by omega) (by omega))
        (hempty _ (by omega) (by omega))
    exact .cons ⟨rfl, hown⟩ (here.sameRecords hblank hzip)

end

end Cst

end Lossless
