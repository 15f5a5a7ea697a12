import Lossless.Proofs.Limbs
import Lossless.Proofs.Reading

/-!
# Members in a row

The members of a node have the labels of its fields (`LaidOut.total_members`)
and stand in the order of its slots (`rising_members`). Members of trees of one
shape stand side by side (`blank_zip_members`), and where their records agree
member by member, they agree field by field (`sameRecords_held`).
-/

namespace Lossless

namespace Cst

section

variable {s : Schema} {roles : List (VirtualRole × SchemaEntry)}
  {look look' : String → Option Value} {slot : Slot} {slots : Schedule}
  {index low : Nat} {value : Value} {ms ms' : List (Element × Member)}
  {type : String} {fields : List (String × Value)} {e : SchemaEntry}
  {wrapped : Option Value} {items : List Cst}

/-! ### Labels and records -/

theorem total_limbs (value : Value) :
    total valueLabelCount value.limbs = valueLabelCount value := by
  cases value with
  | list items =>
    rw [Value.limbs, total_map, valueLabelCount]
    induction items with
    | nil => rfl
    | cons item items ih =>
      rw [total_cons, ih, itemsLabelCount, valueLabelCount]
  | node child | absent | scalar value => rfl
  | «virtual» role wrapped extras => exact Nat.add_zero _

theorem records_limbs (value : Value) :
    value.limbs.flatMap valueRecords = valueRecords value := by
  cases value with
  | list items =>
    rw [Value.limbs, List.flatMap_map, valueRecords]
    induction items with
    | nil => rfl
    | cons item items ih =>
      rw [List.flatMap_cons, ih, itemsRecords, valueRecords]
  | absent | scalar value => rfl
  | node child | «virtual» role wrapped extras =>
    exact List.flatMap_singleton ..

theorem total_childrenOf (ms : List (Element × Member)) :
    total (fun m => m.2.labelCount) ms =
      total valueLabelCount (childrenOf ms) := by
  induction ms with
  | nil => rfl
  | cons m ms ih =>
    obtain ⟨e, m⟩ := m
    cases m with
    | word text => exact (Nat.zero_add _).trans ih
    | child value =>
      rw [total_cons, ih, childrenOf_child, total_cons, Member.labelCount]

theorem records_childrenOf (ms : List (Element × Member)) :
    (ms.flatMap fun m => m.2.records) =
      (childrenOf ms).flatMap valueRecords := by
  induction ms with
  | nil => rfl
  | cons m ms ih =>
    obtain ⟨e, m⟩ := m
    cases m with
    | word text => exact ih
    | child value => rw [List.flatMap_cons, ih, childrenOf_child,
      List.flatMap_cons, Member.records]

/-- Members have the labels of the values that they come from. -/
theorem total_members (h : Supplied roles look slots) (index : Nat) :
    total (fun m => m.2.labelCount) (members roles look index slots) =
      total valueLabelCount (heldValues roles look slots) := by
  rw [total_childrenOf, children_members h]
  induction heldValues roles look slots with
  | nil => rfl
  | cons value values ih =>
    rw [List.flatMap_cons, total_append, total_limbs, ih, total_cons]

theorem total_perm {α : Type} (weight : α → Nat) {l l' : List α}
    (h : l.Perm l') : total weight l = total weight l' := by
  induction h with
  | nil => rfl
  | cons a _ ih => rw [total_cons, total_cons, ih]
  | swap a b l =>
    simp only [total_cons]
    omega
  | trans _ _ ih ih' => exact ih.trans ih'

/-- The slots of a node hold what its fields do. -/
theorem LaidOut.heldValues_perm (h : LaidOut s type fields e) :
    (heldValues s.roles (fields.lookup ·) e.schedule).Perm
      (fields.map Prod.snd) := by
  have hnames := h.names.filterMap (fields.lookup ·)
  have hself : (fields.map Prod.fst).filterMap (fields.lookup ·) =
      fields.map Prod.snd := by
    rw [List.filterMap_map, ← List.filterMap_eq_map]
    exact List.filterMap_congr fun field hfield =>
      Named.lookup_of_mem h.nodup hfield
  rw [hself, Schema.placedNames, List.filterMap_map] at hnames
  rw [heldValues_eq]
  exact hnames

/-- The members of a node have the labels of its fields. -/
theorem LaidOut.total_members (h : LaidOut s type fields e) :
    total (fun m => m.2.labelCount)
        (members s.roles (fields.lookup ·) 0 e.schedule) =
      fieldsLabelCount fields := by
  rw [Cst.total_members h.takes, total_perm _ h.heldValues_perm]
  clear h
  induction fields with
  | nil => rfl
  | cons field fields ih => rw [List.map_cons, total_cons, ih, fieldsLabelCount]

theorem labelCount_wraps (hwraps : Wraps wrapped items) (role : VirtualRole)
    (extras : Extras) :
    valueLabelCount (.virtual role wrapped extras) =
      extras.size + itemsLabelCount items := by
  rcases hwraps with rfl | ⟨rfl, rfl⟩ <;> rfl

theorem records_wraps (hwraps : Wraps wrapped items) (role : VirtualRole)
    (extras : Extras) :
    valueRecords (.virtual role wrapped extras) =
      (.virtual role, extras) :: itemsRecords items := by
  rcases hwraps with rfl | ⟨rfl, rfl⟩ <;> rfl

/-! ### Elements in order -/

/-- The members of a list are separators and items. -/
theorem separator_or_item {separator : Option String} {items : List Cst}
    {m : Element × Member} (hm : m ∈ itemMembers index separator low items) :
    (∃ i text, m = (.separator index i, .word text)) ∨
      ∃ i item, m = (.item index i, .child (.node item)) := by
  induction items generalizing low with
  | nil => exact absurd hm List.not_mem_nil
  | cons item items ih =>
    rw [itemMembers] at hm
    rcases List.mem_append.1 hm with hm | hm
    · cases low with
      | zero => exact absurd hm List.not_mem_nil
      | succ previous =>
        obtain ⟨text, -, rfl⟩ := List.mem_map.1 hm
        exact .inl ⟨previous, text, rfl⟩
    · rcases List.mem_cons.1 hm with rfl | hm
      · exact .inr ⟨low, item, rfl⟩
      · exact ih hm

theorem slot?_slotMembers {value? : Option Value} {m : Element × Member}
    (hm : m ∈ slotMembers index slot value?) : m.1.slot? = some index := by
  rw [slotMembers.eq_def] at hm
  split at hm
  case h_5 => obtain ⟨_, _, rfl⟩ | ⟨_, _, rfl⟩ := separator_or_item hm <;> rfl
  case h_7 => exact absurd hm List.not_mem_nil
  all_goals
    cases List.mem_singleton.1 hm
    rfl

theorem Rising.mono {low' : Nat} {es : List Element} (hlow : low ≤ low')
    (h : Rising low' es) : Rising low es := by
  cases es with
  | nil => trivial
  | cons e es =>
    obtain ⟨slot, hslot, hle, hbehind⟩ := h
    exact ⟨slot, hslot, Nat.le_trans hlow hle, hbehind⟩

theorem Rising.append {es es' : List Element}
    (hes : ∀ e ∈ es, e.slot? = some index) (hlow : low ≤ index + 1)
    (h : Rising (index + 1) es') : Rising low (es ++ es') := by
  induction es generalizing low with
  | nil => exact h.mono hlow
  | cons e es ih =>
    exact ⟨index, hes e List.mem_cons_self, hlow,
      ih (fun e' he' => hes e' (List.mem_cons_of_mem _ he')) (Nat.le_refl _)⟩

theorem rising_membersOf (find : Slot → Option Value) (slots : Schedule)
    (hlow : low ≤ index + 1) :
    Rising low ((membersOf find index slots).map Prod.fst) := by
  induction slots generalizing index low with
  | nil => trivial
  | cons slot slots ih =>
    rw [membersOf, List.map_append]
    refine Rising.append (fun e he => ?_) hlow (ih (Nat.le_succ _))
    obtain ⟨m, hm, rfl⟩ := List.mem_map.1 he
    exact slot?_slotMembers hm

theorem rising_members (roles : List (VirtualRole × SchemaEntry))
    (look : String → Option Value) (slots : Schedule) (hlow : low ≤ index + 1) :
    Rising low ((members roles look index slots).map Prod.fst) := by
  rw [members_eq_membersOf]
  exact rising_membersOf _ slots hlow

/-! ### Members of one shape -/

/-- Members without extras. -/
def blankMembers (ms : List (Element × Member)) : List (Element × Member) :=
  ms.map fun m => (m.1, m.2.blank)

theorem blank_itemMembers (slot : Nat) (separator : Option String) (index : Nat)
    (items : List Cst) :
    blankMembers (itemMembers slot separator index items) =
      itemMembers slot separator index (blankItems items) := by
  induction items generalizing index with
  | nil => rfl
  | cons item items ih =>
    rw [blankItems, itemMembers, itemMembers, ← ih, blankMembers,
      List.map_append]
    congr 1
    cases index <;> cases separator <;> rfl

theorem blank_slotMembers (index : Nat) (slot : Slot) (value? : Option Value) :
    blankMembers (slotMembers index slot value?) =
      slotMembers index slot (value?.map blankValue) := by
  match value? with
  | none => cases slot <;> rfl
  | some (.node _) | some .absent => cases slot <;> rfl
  | some (.scalar value) => cases slot <;> cases value <;> rfl
  | some (.virtual _ none _) | some (.virtual _ (some _) _) =>
    cases slot <;> rfl
  | some (.list items) =>
    cases slot with
    | list field separator => exact blank_itemMembers index separator 0 items
    | _ => rfl

theorem blank_members (index : Nat) (slots : Schedule) :
    blankMembers (members roles look index slots) =
      members roles (fun name => (look name).map blankValue) index slots := by
  induction slots generalizing index with
  | nil => rfl
  | cons slot slots ih =>
    rw [members, members, ← ih, blankMembers, List.map_append]
    congr 1
    refine (blank_slotMembers ..).trans ?_
    rw [held, held, Option.map_bind]
    rfl

/-- Two lookups find values of the same shape. -/
def LookAlike (look look' : String → Option Value) : Prop :=
  ∀ name, (look' name).map blankValue = (look name).map blankValue

theorem LookAlike.blank (h : LookAlike look look')
    (roles : List (VirtualRole × SchemaEntry)) (index : Nat)
    (slots : Schedule) :
    blankMembers (members roles look' index slots) =
      blankMembers (members roles look index slots) := by
  rw [blank_members, blank_members]
  congr 1
  exact funext h

theorem elements_of_blank (h : blankMembers ms' = blankMembers ms) :
    ms'.map Prod.fst = ms.map Prod.fst := by
  have hfst := congrArg (List.map Prod.fst) h
  rw [blankMembers, blankMembers, List.map_map, List.map_map] at hfst
  exact hfst

/-- Members of one shape stand side by side. -/
theorem blank_zip_members (h : blankMembers ms' = blankMembers ms) :
    ∀ p ∈ ms.zip ms', p.2.2.blank = p.1.2.blank := by
  induction ms generalizing ms' with
  | nil => exact fun p hp => absurd hp (by simp)
  | cons m ms ih =>
    cases ms' with
    | nil => exact nomatch h
    | cons m' ms' =>
      obtain ⟨hm, hms⟩ := List.cons.inj h
      intro p hp
      rcases List.mem_cons.1 hp with rfl | hp
      · exact (Prod.mk.inj hm).2
      · exact ih hms p hp

/-- The members of a slot are neighbours among all members. -/
theorem zip_members (h : LookAlike look look')
    (roles : List (VirtualRole × SchemaEntry)) (hslot : slot ∈ slots)
    (index : Nat) :
    ∃ i, ∀ p ∈ (slotMembers i slot (held roles look slot)).zip
      (slotMembers i slot (held roles look' slot)),
      p ∈ (members roles look index slots).zip
        (members roles look' index slots) := by
  induction slots generalizing index with
  | nil => exact absurd hslot List.not_mem_nil
  | cons first slots ih =>
    have hlength : (slotMembers index first (held roles look first)).length =
        (slotMembers index first (held roles look' first)).length := by
      have hblank := congrArg List.length (h.blank roles index [first])
      simpa [blankMembers, members] using hblank.symm
    rw [members, members, List.zip_append hlength]
    rcases List.mem_cons.1 hslot with rfl | hslot
    · exact ⟨index, fun p hp => List.mem_append_left _ hp⟩
    · obtain ⟨i, hi⟩ := ih hslot (index + 1)
      exact ⟨i, fun p hp => List.mem_append_right _ (hi p hp)⟩

theorem SameRecords.append {rs rs' ts ts' : List (Owner × Extras)}
    (h : SameRecords rs rs') (h' : SameRecords ts ts') :
    SameRecords (rs ++ ts) (rs' ++ ts') := List.rel_append h h'

theorem sameRecords_flatMap (helements : ms'.map Prod.fst = ms.map Prod.fst)
    (h : ∀ p ∈ ms.zip ms', SameRecords p.1.2.records p.2.2.records) :
    SameRecords (ms.flatMap fun m => m.2.records) (ms'.flatMap fun m =>
      m.2.records) := by
  induction ms generalizing ms' with
  | nil =>
    cases List.map_eq_nil_iff.1 helements
    exact .nil
  | cons m ms ih =>
    cases ms' with
    | nil => exact nomatch helements
    | cons m' ms' =>
      rw [List.flatMap_cons, List.flatMap_cons]
      exact (h (m, m') List.mem_cons_self).append
        (ih (List.cons.inj helements).2 fun p hp =>
          h p (List.mem_cons_of_mem _ hp))

/-- Where the members agree on their records, what a slot holds does. -/
theorem sameRecords_held (h : LookAlike look look') (hslot : slot ∈ slots)
    {value value' : Value} (hheld : held roles look slot = some value)
    (hheld' : held roles look' slot = some value') (htakes : Takes slot value)
    (htakes' : Takes slot value') {index : Nat}
    (hsame : ∀ p ∈ (members roles look index slots).zip (members roles look'
      index slots), SameRecords p.1.2.records p.2.2.records) :
    SameRecords (valueRecords value) (valueRecords value') := by
  obtain ⟨i, hi⟩ := zip_members h roles hslot index
  rw [hheld, hheld'] at hi
  have helements := elements_of_blank (h.blank roles i [slot])
  simp only [members, List.append_nil, hheld, hheld'] at helements
  have hslots := sameRecords_flatMap helements fun p hp => hsame p (hi p hp)
  rwa [records_childrenOf, records_childrenOf, childrenOf_slotMembers htakes,
    childrenOf_slotMembers htakes', records_limbs, records_limbs] at hslots

end

end Cst

end Lossless
