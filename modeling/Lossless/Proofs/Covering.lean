import Lossless.Proofs.Whereabouts

/-!
# The lowest value around two leaves

A node or virtual node covers the leaves that it is written with, and a tree of
values covers each leaf on one path. `Stands` follows such paths and counts the
leaves passed, and `Lowest` is the last value on the path of two neighbouring
leaves: it covers both, but none of its children does. Values whose children all
begin and end with a leaf (`Even`) have one wherever two leaves meet
(`exists_lowest`). The run between the two leaves is then a run between two
members of this value, so it is the run that the value's own anchor for this gap
leads to (`anchoredAt_of_laid`).
-/

namespace Lossless

namespace Cst

/-! ### Nodes and virtual nodes in their places -/

/-- What a node or virtual node is to a schema. -/
def Value.owner? : Value → Option Owner
  | .node t => some (.node t.type)
  | .virtual role _ _ => some (.virtual role)
  | .absent | .list _ | .scalar _ => none

/-- The schedule of a node or virtual node. -/
def Value.schedule (s : Schema) (value : Value) : Schedule :=
  ((value.owner?.bind s.entry?).map SchemaEntry.schedule).getD []

/-- The members of a node or virtual node. Every field of a virtual node
means what it wraps. -/
def Value.members (s : Schema) (value : Value) : List (Element × Member) :=
  match value with
  | .node t => Cst.members s.roles (t.fields.lookup ·) 0 (value.schedule s)
  | .virtual _ wrapped _ =>
    Cst.members s.roles (fun _ => some (wrapped.getD (.list []))) 0
      (value.schedule s)
  | .absent | .list _ | .scalar _ => []

/-- The number of leaves that a node or virtual node is written with. -/
def Value.width (s : Schema) (value : Value) : Nat :=
  widthOf s (value.members s)

/-- A value stands below another one, behind so many of its leaves. -/
inductive Stands (s : Schema) : Value → Nat → Value → Prop
  | self (top : Value) : Stands s top 0 top
  | member {top child value : Value} {front behind : List (Element × Member)}
      {e : Element} {offset : Nat}
      (hmembers : top.members s = front ++ (e, .child child) :: behind)
      (h : Stands s child offset value) :
      Stands s top (widthOf s front + offset) value

/-- The leaf with a number and the one in front of it both belong to a value
that begins behind some leaves. -/
def Around (s : Schema) (value : Value) (offset k : Nat) : Prop :=
  offset < k ∧ k < offset + value.width s

/-- A value around two neighbouring leaves, none of whose children
is around both. -/
structure Lowest (s : Schema) (top : Value) (k : Nat) (value : Value)
    (offset : Nat) : Prop where
  stands : Stands s top offset value
  around : Around s value offset k
  least : ∀ front e child behind,
    value.members s = front ++ (e, .child child) :: behind →
    ¬Around s child (offset + widthOf s front) k

/-- The value that a run of a tree belongs to, which stands in front of the leaf
with a number: the lowest one around this leaf and the one before, or the root
where there is no leaf on one side. -/
def Owns (s : Schema) (tree : Cst) (k : Nat) (value : Value)
    (offset : Nat) : Prop :=
  if 0 < k ∧ k < (Value.node tree).width s then
    Lowest s (.node tree) k value offset
  else value = .node tree ∧ offset = 0

/-- The member that a leaf belongs to. -/
def memberAt? (s : Schema) :
    List (Element × Member) → Nat → Option (Element × Member)
  | [], _ => none
  | m :: ms, k =>
    if k < m.2.width s then some m else memberAt? s ms (k - m.2.width s)

/-- The member that the leaf in front of one belongs to. -/
def memberBefore? (s : Schema) (ms : List (Element × Member)) :
    Nat → Option (Element × Member)
  | 0 => none
  | k + 1 => memberAt? s ms k

section

variable {s : Schema} {owner : Owner} {e : SchemaEntry}
  {value : Value} {type : String} {fields : List (String × Value)}
  {role : VirtualRole} {wrapped : Option Value} {items : List Cst}
  {front front' behind behind' ms : List (Element × Member)}
  {m m' : Element × Member} {i i' k : Nat}

/-! ### The member of a leaf -/

theorem exists_member (h : k < widthOf s ms) :
    ∃ front m behind i, ms = front ++ m :: behind ∧
      k = widthOf s front + i ∧ i < m.2.width s := by
  induction ms generalizing k with
  | nil => exact absurd h (Nat.not_lt_zero _)
  | cons m ms ih =>
    by_cases hk : k < m.2.width s
    · exact ⟨[], m, ms, k, rfl, (Nat.zero_add k).symm, hk⟩
    · rw [widthOf_cons] at h
      obtain ⟨front, m', behind, i, rfl, hi, hlt⟩ :=
        ih (k := k - m.2.width s) (by omega)
      exact ⟨m :: front, m', behind, i, rfl, by rw [widthOf_cons]; omega, hlt⟩

theorem memberAt?_append (behind : List (Element × Member))
    (hi : i < m.2.width s) :
    memberAt? s (front ++ m :: behind) (widthOf s front + i) = some m := by
  induction front with
  | nil => simp [memberAt?, hi]
  | cons m' front ih =>
    rw [List.cons_append, memberAt?, widthOf_cons, if_neg (by omega), ← ih]
    congr 1
    omega

theorem memberAt?_of_le (h : widthOf s ms ≤ k) : memberAt? s ms k = none := by
  induction ms generalizing k with
  | nil => rfl
  | cons m ms ih =>
    rw [widthOf_cons] at h
    rw [memberAt?, if_neg (by omega)]
    exact ih (by omega)

theorem mem_of_memberAt? (h : memberAt? s ms k = some m) : m ∈ ms := by
  induction ms generalizing k with
  | nil => exact nomatch h
  | cons m' ms ih =>
    rw [memberAt?] at h
    split at h
    · rw [← Option.some.inj h]
      exact List.mem_cons_self
    · exact List.mem_cons_of_mem _ (ih h)

theorem mem_of_memberBefore? (h : memberBefore? s ms k = some m) : m ∈ ms := by
  cases k with
  | zero => exact nomatch h
  | succ k => exact mem_of_memberAt? h

/-- A leaf belongs to one member only. -/
theorem member_unique (h : front ++ m :: behind = front' ++ m' :: behind')
    (hi : i < m.2.width s) (hi' : i' < m'.2.width s)
    (hk : widthOf s front + i = widthOf s front' + i') :
    front = front' ∧ m = m' := by
  induction front generalizing front' with
  | nil =>
    cases front' with
    | nil => exact ⟨rfl, (List.cons.inj h).1⟩
    | cons first front' =>
      obtain ⟨rfl, -⟩ := List.cons.inj h
      rw [widthOf_nil, widthOf_cons] at hk
      omega
  | cons first front ih =>
    cases front' with
    | nil =>
      obtain ⟨rfl, -⟩ := List.cons.inj h
      rw [widthOf_nil, widthOf_cons] at hk
      omega
    | cons first' front' =>
      obtain ⟨rfl, hrest⟩ := List.cons.inj h
      obtain ⟨rfl, rfl⟩ := ih hrest (by simpa [Nat.add_assoc] using hk)
      exact ⟨rfl, rfl⟩

/-! ### Members of nodes and virtual nodes -/

theorem schedule_node (he : s.entry? (.node type) = some e) (extras : Extras) :
    (Value.node (.node type fields extras)).schedule s = e.schedule := by
  have howner :
      (Value.node (.node type fields extras)).owner? = some (.node type) := rfl
  rw [Value.schedule, howner, Option.bind_some, he]
  rfl

theorem schedule_virtual (he : s.entry? (.virtual role) = some e)
    (extras : Extras) :
    (Value.virtual role wrapped extras).schedule s = e.schedule := by
  have howner :
      (Value.virtual role wrapped extras).owner? = some (.virtual role) := rfl
  rw [Value.schedule, howner, Option.bind_some, he]
  rfl

theorem members_node (here : LaidOut s type fields e) (extras : Extras) :
    (Value.node (.node type fields extras)).members s =
      members s.roles (fields.lookup ·) 0 e.schedule := by
  rw [Value.members, schedule_node here.entry extras]
  rfl

theorem members_virtual (he : s.entry? (.virtual role) = some e)
    (hwraps : Wraps wrapped items) (extras : Extras) :
    (Value.virtual role wrapped extras).members s =
      members s.roles (fun _ => some (.list items)) 0 e.schedule := by
  rw [Value.members, schedule_virtual he extras]
  rcases hwraps with rfl | ⟨rfl, rfl⟩ <;> rfl

/-- The elements of children are children, and only these. -/
theorem isChild_of_mem_slotMembers {index : Nat} {slot : Slot}
    {value? : Option Value} (hm : m ∈ slotMembers index slot value?) :
    m.1.isChild = m.2.child?.isSome := by
  rw [slotMembers.eq_def] at hm
  split at hm
  case h_5 => obtain ⟨_, _, rfl⟩ | ⟨_, _, rfl⟩ := separator_or_item hm <;> rfl
  case h_7 => exact absurd hm List.not_mem_nil
  all_goals
    cases List.mem_singleton.1 hm
    rfl

theorem isChild_of_mem_members {roles : List (VirtualRole × SchemaEntry)}
    {look : String → Option Value} {index : Nat} {slots : Schedule}
    (hm : m ∈ members roles look index slots) :
    m.1.isChild = m.2.child?.isSome := by
  induction slots generalizing index with
  | nil => exact absurd hm List.not_mem_nil
  | cons slot slots ih =>
    rw [members] at hm
    rcases List.mem_append.1 hm with hm | hm
    · exact isChild_of_mem_slotMembers hm
    · exact ih hm

theorem Value.isChild_of_mem (hm : m ∈ value.members s) :
    m.1.isChild = m.2.child?.isSome := by
  cases value with
  | node t => exact isChild_of_mem_members hm
  | «virtual» role wrapped extras => exact isChild_of_mem_members hm
  | absent | list items | scalar value => exact absurd hm List.not_mem_nil

/-! ### Values written member by member -/

/-- A value that is written member by member, and so are its children. -/
inductive Even (s : Schema) : Value → Prop
  | intro {value : Value} {owner : Owner} {ps : List Piece}
      (howner : value.owner? = some owner)
      (pieces : ((Member.child value).content s).pieces = .ok ps)
      (along : Write.along s owner (value.schedule s) value.record false none
        (contents s (value.members s)) = .ok ps)
      (bounded : ∀ m ∈ value.members s, m.2.Bounded s)
      (children : ∀ child ∈ childrenOf (value.members s), Even s child) :
      Even s value

theorem Even.width (h : Even s value) :
    (Member.child value).width s = value.width s := by
  cases h with
  | intro howner pieces along bounded children =>
    rw [Member.width_of_pieces pieces, Piece.leafCount, leaves_along along]
    rfl

/-- A value that stands below another one has its leaves among
those of the other. -/
theorem Stands.within {top : Value} {offset : Nat}
    (h : Stands s top offset value) (htop : Even s top) :
    offset + value.width s ≤ top.width s := by
  induction h with
  | self top => exact Nat.le_of_eq (Nat.zero_add _)
  | @member top child value front behind e offset hmembers h ih =>
    cases htop with
    | intro howner pieces along bounded children =>
      have hchild : Even s child :=
        children child (mem_childrenOf (e := e) (by simp [hmembers]))
      have hwithin := ih hchild
      have htop : top.width s =
          widthOf s front + (child.width s + widthOf s behind) := by
        rw [Value.width, hmembers, widthOf_append, widthOf_cons, hchild.width]
      omega

/-! ### The lowest value around two leaves -/

theorem Around.of_stands {child : Value} {offset : Nat} (hchild : Even s child)
    (h : Stands s child offset value) {start : Nat}
    (haround : Around s value (start + offset) k) : Around s child start k := by
  have hwithin := h.within hchild
  exact ⟨by have := haround.1; omega, by have := haround.2; omega⟩

/-- The child around two leaves is the member that the second one belongs to. -/
theorem eq_of_around {child : Value} {e : Element} (hchild : Even s child)
    (h : front ++ (e, .child child) :: behind = front' ++ m' :: behind')
    (haround : Around s child (widthOf s front) k) (hi' : i' < m'.2.width s)
    (hk : k = widthOf s front' + i') :
    front = front' ∧ (e, .child child) = m' := by
  obtain ⟨hlow, hhigh⟩ := haround
  have hi : k - widthOf s front < (Member.child child).width s := by
    rw [hchild.width]
    omega
  exact member_unique h hi hi' (by omega)

/-- Between the first and the last leaf of a value, some value is the lowest
around two leaves. -/
theorem exists_lowest_of_children {top : Value}
    (hchildren : ∀ child ∈ childrenOf (top.members s), Even s child ∧
      ∀ k, 0 < k → k < child.width s →
        ∃ value offset, Lowest s child k value offset) (hpos : 0 < k)
    (hlt : k < top.width s) : ∃ value offset, Lowest s top k value offset := by
  obtain ⟨front, ⟨e, m⟩, behind, i, hmembers, hk, hi⟩ := exists_member hlt
  by_cases hinside : ∃ child, m = .child child ∧ 0 < i
  · obtain ⟨child, rfl, hi'⟩ := hinside
    obtain ⟨hchild, hlowest⟩ :=
      hchildren child (mem_childrenOf (e := e) (by simp [hmembers]))
    rw [hchild.width] at hi
    obtain ⟨value, offset, hvalue⟩ := hlowest i hi' hi
    refine ⟨value, widthOf s front + offset,
      .member hmembers hvalue.stands, ?_, ?_⟩
    · have haround := hvalue.around
      exact ⟨by have := haround.1; omega, by have := haround.2; omega⟩
    · intro front' e' child' behind' hmembers' haround
      refine hvalue.least front' e' child' behind' hmembers' ⟨?_, ?_⟩
      · have := haround.1
        omega
      · have := haround.2
        omega
  · refine ⟨top, 0, .self top, ⟨hpos, by omega⟩, ?_⟩
    intro front' e' child' behind' hmembers' haround
    rw [Nat.zero_add] at haround
    obtain ⟨hchild, -⟩ :=
      hchildren child' (mem_childrenOf (e := e') (by simp [hmembers']))
    obtain ⟨rfl, hm⟩ := eq_of_around hchild (hmembers' ▸ hmembers) haround hi hk
    cases hm
    exact hinside ⟨child', rfl, by have := haround.1; omega⟩

theorem Even.exists_lowest (h : Even s value) (hpos : 0 < k)
    (hlt : k < value.width s) :
    ∃ below offset, Lowest s value k below offset := by
  induction h generalizing k with
  | intro howner pieces along bounded children ih =>
    exact exists_lowest_of_children (fun child hchild =>
      ⟨children child hchild, fun k hk hlt => ih child hchild hk hlt⟩) hpos hlt

/-! ### What the gap of the lowest value reads -/

/-- The gap between two members of a value is anchored in a place
that keeps the run. -/
def Anchored (s : Schema) (value : Value)
    (left right : Option (Element × Member)) (run : List Token) : Prop :=
  ∃ owner a, value.owner? = some owner ∧
    s.resolve owner (value.schedule s) ⟨left.elim .start Prod.fst,
      right.elim .stop Prod.fst⟩ = .ok a ∧
    view value.record (left.bind (·.2.record?)) (right.bind (·.2.record?)) a =
      run

/-- The gap in front of a place of a value is anchored where the
run there is kept. -/
def AnchoredAt (s : Schema) (value : Value) (k : Nat)
    (run : List Token) : Prop :=
  Anchored s value (memberBefore? s (value.members s) k)
    (memberAt? s (value.members s) k) run

theorem exists_anchor_of_gapRun {schedule : Schedule} {own : Extras}
    {left : Option Write.Left} {right : Option Extras} {e : Element}
    (h : gapRun s owner schedule own left e right ≠ []) :
    ∃ l a, left = some l ∧ s.resolve owner schedule ⟨l.element, e⟩ = .ok a ∧
      view own l.extras? right a =
        gapRun s owner schedule own left e right := by
  cases left with
  | none => exact absurd rfl h
  | some l =>
    cases ha : s.resolve owner schedule ⟨l.element, e⟩ with
    | error error =>
      refine absurd ?_ h
      simp [gapRun, placeOf, ha, Except.toOption]
    | ok a =>
      refine ⟨l, a, rfl, ha, ?_⟩
      simp [gapRun, placeOf, ha, Except.toOption]

/-- What stands in front of a gap is the last of the members in front, or the
start of the text. -/
theorem leftBehind_opening {root : Bool} {l : Write.Left}
    (h : leftBehind (opening root) front = some l) :
    l.element = front.getLast?.elim .start Prod.fst ∧
      l.extras? = front.getLast?.bind (·.2.record?) := by
  rcases List.eq_nil_or_concat front with rfl | ⟨others, m, rfl⟩
  · cases root with
    | false => exact nomatch h
    | true =>
      cases Option.some.inj h
      exact ⟨rfl, rfl⟩
  · rw [List.concat_eq_append] at h ⊢
    rw [leftBehind, List.foldl_append] at h
    rw [List.getLast?_append]
    cases Option.some.inj h
    exact ⟨rfl, rfl⟩

theorem anchored_of_gap {root : Bool} (right : Option (Element × Member))
    (howner : value.owner? = some owner)
    (hne : gapRun s owner (value.schedule s) value.record
      (leftBehind (opening root) front) (right.elim .stop Prod.fst)
      (right.bind (·.2.record?)) ≠ []) :
    Anchored s value front.getLast? right (gapRun s owner
      (value.schedule s) value.record (leftBehind (opening root) front)
      (right.elim .stop Prod.fst) (right.bind (·.2.record?))) := by
  obtain ⟨l, a, hl, ha, hview⟩ := exists_anchor_of_gapRun hne
  obtain ⟨helement, hextras⟩ := leftBehind_opening hl
  exact ⟨owner, a, howner, helement ▸ ha, hextras ▸ hview⟩

theorem memberBefore?_append (behind : List (Element × Member))
    (hfront : ∀ m ∈ front, 0 < m.2.width s) :
    memberBefore? s (front ++ behind) (widthOf s front) = front.getLast? := by
  rcases List.eq_nil_or_concat front with rfl | ⟨others, m, rfl⟩
  · rfl
  · rw [List.concat_eq_append] at hfront ⊢
    have hpos := hfront m (List.mem_append_right _ (List.mem_singleton_self m))
    have hwidth : widthOf s (others ++ [m]) =
        widthOf s others + (m.2.width s - 1) + 1 := by
      rw [widthOf_append, widthOf_cons, widthOf_nil]
      omega
    rw [hwidth, memberBefore?, List.append_assoc, List.getLast?_append]
    exact memberAt?_append behind (by omega)

section

variable {root : Bool} {ps : List Piece}
  (hbounded : ∀ m ∈ value.members s, m.2.Bounded s)
  (halong : Write.along s owner (value.schedule s) value.record root
    (opening root) (contents s (value.members s)) = .ok ps)

include hbounded halong

theorem width_pos (hm : m ∈ value.members s) : 0 < m.2.width s := by
  obtain ⟨inside, hinside⟩ := exists_pieces halong hm
  rw [Member.width_of_pieces hinside]
  exact leafCount_pos (hbounded m hm inside hinside)

/-- Between two members, or in front of the first one, the run is anchored. -/
theorem anchoredAt_of_boundary (howner : value.owner? = some owner)
    (hmembers : value.members s = front ++ m :: behind)
    (hne : Piece.runBefore ps (widthOf s front) ≠ []) :
    AnchoredAt s value (widthOf s front)
      (Piece.runBefore ps (widthOf s front)) := by
  have hpos : ∀ m' ∈ front ++ m :: behind, 0 < m'.2.width s :=
    fun m' hm' => width_pos hbounded halong (hmembers ▸ hm')
  rw [hmembers] at hbounded halong
  obtain ⟨rest, hrest, hruns⟩ :=
    runBefore_along (fun m' hm' => hbounded m' (List.mem_append_left _ hm'))
      halong
  obtain ⟨inside, -, -, -, hgap, -, -, -⟩ :=
    runBefore_cons (hbounded m (by simp)) hrest
  have hrun : Piece.runBefore ps (widthOf s front) =
      gapRun s owner (value.schedule s) value.record
        (leftBehind (opening root) front) m.1 m.2.record? := by
    rw [← hgap, ← hruns 0, Nat.add_zero]
  have hright : memberAt? s (front ++ m :: behind) (widthOf s front) = some m :=
    memberAt?_append (i := 0) behind (hpos m (by simp))
  rw [AnchoredAt, hmembers, hright, memberBefore?_append _ fun m' hm' =>
    hpos m' (List.mem_append_left _ hm'), hrun]
  exact anchored_of_gap (some m) howner (hrun ▸ hne)

/-- Behind the last member of the root, the run is anchored. -/
theorem anchoredAt_of_end (howner : value.owner? = some owner)
    (hroot : root = true) (hne : Piece.runBefore ps (value.width s) ≠ []) :
    AnchoredAt s value (value.width s)
      (Piece.runBefore ps (value.width s)) := by
  subst hroot
  have hbefore :=
    memberBefore?_append [] fun m hm => width_pos hbounded halong hm
  rw [List.append_nil] at hbefore
  rw [Value.width, runBefore_end hbounded halong] at hne ⊢
  rw [AnchoredAt, hbefore, memberAt?_of_le (Nat.le_refl _)]
  exact anchored_of_gap none howner hne

/-- Inside of a child, the run is the child's own. -/
theorem runBefore_of_child {child : Value} {e : Element} {inside : List Piece}
    (hmembers : value.members s = front ++ (e, .child child) :: behind)
    (hinside : ((Member.child child).content s).pieces = .ok inside)
    (hpos : 0 < k) (hlt : k < (Member.child child).width s) :
    Piece.runBefore ps (widthOf s front + k) = Piece.runBefore inside k := by
  rw [hmembers] at hbounded halong
  obtain ⟨rest, hrest, hruns⟩ :=
    runBefore_along (fun m' hm' => hbounded m' (List.mem_append_left _ hm'))
      halong
  obtain ⟨inside', -, hinside', -, -, -, hrun, -⟩ :=
    runBefore_cons (hbounded _ (by simp)) hrest
  cases Except.ok.inj (hinside.symm.trans hinside')
  rw [hruns, hrun k hpos hlt]

/-- The run between two leaves is anchored with the lowest value around them, if
this holds inside of the children. -/
theorem anchoredAt_of_children (howner : value.owner? = some owner)
    (hchildren : ∀ child ∈ childrenOf (value.members s), Even s child ∧
      ∀ inside, ((Member.child child).content s).pieces = .ok inside → ∀ k below
        offset, Lowest s child k below offset → Piece.runBefore inside k ≠ [] →
        AnchoredAt s below (k - offset) (Piece.runBefore inside k))
    {below : Value} {offset : Nat} (hlowest : Lowest s value k below offset)
    (hk : k < value.width s) (hne : Piece.runBefore ps k ≠ []) :
    AnchoredAt s below (k - offset) (Piece.runBefore ps k) := by
  obtain ⟨hstands, haround, hleast⟩ := hlowest
  obtain ⟨front, m, behind, i, hmembers, hk, hi⟩ := exists_member hk
  cases hstands with
  | self =>
    -- no child is around both leaves, so they stand in two members
    have hi' : i = 0 := by
      by_contra hi'
      obtain ⟨e, m⟩ := m
      cases m with
      | word text => exact hi' (Nat.lt_one_iff.1 hi)
      | child child =>
        obtain ⟨hchild, -⟩ :=
          hchildren child (mem_childrenOf (e := e) (by simp [hmembers]))
        rw [hchild.width] at hi
        exact hleast front e child behind hmembers ⟨by omega, by omega⟩
    rw [Nat.sub_zero]
    rw [hi', Nat.add_zero] at hk
    subst hk
    exact anchoredAt_of_boundary hbounded halong howner hmembers hne
  | @member _ child _ front' behind' e offset hmembers' hstands =>
    obtain ⟨hchild, hanchored⟩ :=
      hchildren child (mem_childrenOf (e := e) (by simp [hmembers']))
    have hchildAround := Around.of_stands hchild hstands haround
    obtain ⟨rfl, rfl⟩ :=
      eq_of_around hchild (hmembers' ▸ hmembers) hchildAround hi hk
    have hi' : 0 < i := by
      have := hchildAround.1
      omega
    obtain ⟨inside, hinside⟩ :=
      exists_pieces halong (m := (e, .child child)) (by simp [hmembers])
    have hrun : Piece.runBefore ps k = Piece.runBefore inside i := by
      rw [hk]
      exact runBefore_of_child hbounded halong hmembers hinside hi' hi
    have hshift : k - (widthOf s front' + offset) = i - offset := by omega
    rw [hrun] at hne ⊢
    rw [hshift]
    refine hanchored inside hinside i below offset ⟨hstands, ?_, ?_⟩ hne
    · exact ⟨by have := haround.1; omega, by have := haround.2; omega⟩
    · intro front₂ e₂ child₂ behind₂ hmembers₂ haround₂
      refine hleast front₂ e₂ child₂ behind₂ hmembers₂ ⟨?_, ?_⟩
      · have := haround₂.1
        omega
      · have := haround₂.2
        omega

end

theorem Even.anchoredAt (h : Even s value) {inside : List Piece}
    (hinside : ((Member.child value).content s).pieces = .ok inside)
    {below : Value} {offset : Nat} (hlowest : Lowest s value k below offset)
    (hne : Piece.runBefore inside k ≠ []) :
    AnchoredAt s below (k - offset) (Piece.runBefore inside k) := by
  have hk : k < value.width s := by
    have hwithin := hlowest.stands.within h
    have := hlowest.around.2
    omega
  induction h generalizing k below offset inside with
  | @intro value owner ps howner pieces along bounded children ih =>
    cases Except.ok.inj (pieces.symm.trans hinside)
    have halong : Write.along s owner (value.schedule s) value.record false
        (opening false) (contents s (value.members s)) = .ok ps := along
    refine anchoredAt_of_children bounded halong howner (fun child hchild =>
      ⟨children child hchild,
        fun inside hinside k below offset hlowest hne => ?_⟩) hlowest hk hne
    have hwithin := hlowest.stands.within (children child hchild)
    have := hlowest.around.2
    exact ih child hchild hinside hlowest hne (by omega)

/-! ### Trees that are laid out -/

theorem bounded_of_stable {ms : List (Element × Member)}
    (h : ∀ value ∈ childrenOf ms, value.Stable s) : ∀ m ∈ ms, m.2.Bounded s :=
  fun m hm ps hps => (fair_members rfl h m hm ps hps).1

theorem even_virtual (hs : s.Sound)
    (hsolid : s.Solid) (extras : Extras) (hwraps : Wraps wrapped items)
    (hitems : ∀ t ∈ items, (Value.node t).Stable s ∧
      ∀ ps, ((Member.child (.node t)).content s).pieces = .ok ps →
        Even s (.node t)) {ps : List Piece}
    (h : ((Member.child (.virtual role wrapped extras)).content s).pieces =
      .ok ps) : Even s (.virtual role wrapped extras) := by
  obtain ⟨e, he⟩ := exists_entry (Member.pieces_virtual .. ▸ h)
  obtain ⟨-, halong⟩ := (row_virtual hs hsolid extras hwraps he).along ps h
  have hall :
      ∀ child ∈ childrenOf (members s.roles
        (fun _ => some (.list items)) 0 e.schedule), child.Stable s ∧
        ∀ inside, ((Member.child child).content s).pieces = .ok inside →
          Even s child :=
    forall_children_virtual (hs.role role e he) hitems
  rw [← members_virtual he hwraps extras] at halong hall
  rw [← schedule_virtual he extras] at halong
  refine .intro rfl h halong (bounded_of_stable fun child hchild =>
    (hall child hchild).1)
    fun child hchild => ?_
  obtain ⟨inside, hinside⟩ := exists_pieces_of_children halong hchild
  exact (hall child hchild).2 inside hinside

/-- Where the nodes below a node are even when they are written, so are
all its children. -/
theorem LaidOut.even_children (hs : s.Sound) (hsolid : s.Solid)
    (here : LaidOut s type fields e) (extras : Extras)
    (h : ∀ t ∈ Branching.children (Cst.node type fields extras),
      (Value.node t).Stable s ∧
      ∀ ps, ((Member.child (.node t)).content s).pieces = .ok ps →
        Even s (.node t)) {root : Bool} {own : Extras} {ps : List Piece}
    (halong : Write.along s owner e.schedule own root (opening root)
      (contents s (members s.roles (fields.lookup ·) 0 e.schedule)) = .ok ps) :
    ∀ child ∈ childrenOf (members s.roles (fields.lookup ·) 0 e.schedule),
      Even s child := by
  intro child hchild
  obtain ⟨inside, hinside⟩ := exists_pieces_of_children halong hchild
  refine here.limbs (P := fun child => ∀ inside,
    ((Member.child child).content s).pieces = .ok inside →
    Even s child) extras (fun t ht => (h t ht).2) ?_ child hchild inside hinside
  exact fun role wrapped items extras' hwraps hitems inside hinside =>
    even_virtual hs hsolid extras' hwraps
      (fun t ht => h t (hitems t ht)) hinside

/-- A node that is laid out, not of the type of a root, and can be
written, is even. -/
theorem even_of_laid (hs : s.Sound) (hlocal : s.strategy.Local)
    (hsolid : s.Solid) {t : Cst} (hlaid : Laid s t)
    (htype : t.type ≠ s.grammar.root) {ps : List Piece}
    (h : ((Member.child (.node t)).content s).pieces = .ok ps) :
    Even s (.node t) := by
  induction hlaid generalizing ps with
  | @node type fields extras e here inner below ih =>
    obtain ⟨-, halong⟩ := (row_node hs hsolid here htype extras).along ps h
    have hstable := here.stable_limbs hs hlocal hsolid extras fun t ht =>
      stable_of_laid hs hlocal hsolid (below t ht) (inner t ht)
    have hchildren := here.even_children hs hsolid extras (fun t ht =>
      ⟨stable_of_laid hs hlocal hsolid (below t ht) (inner t ht),
        fun ps hps => ih t ht (inner t ht) hps⟩)
      halong
    rw [← members_node here extras] at halong hstable hchildren
    rw [← schedule_node here.entry extras] at halong
    exact .intro rfl h halong (bounded_of_stable hstable) hchildren

/-- Every run of a tree that is laid out has an owner, and stands where the gap
between the owner's members is anchored. -/
theorem anchoredAt_of_laid (hs : s.Sound) (hlocal : s.strategy.Local)
    (hsolid : s.Solid) {t : Cst} (hlaid : Laid s t) {ps : List Piece}
    (h : t.pieces s = .ok ps) (k : Nat) :
    (∃ value offset, Owns s t k value offset) ∧
      ∀ value offset, Owns s t k value offset →
        k ≤ (Value.node t).width s → Piece.runBefore ps k ≠ [] →
        AnchoredAt s value (k - offset) (Piece.runBefore ps k) := by
  cases hlaid with
  | @node type fields extras e here inner below =>
    obtain ⟨-, halong⟩ := along_of_node here h
    have hbelow :
        ∀ t ∈ Branching.children (Cst.node type fields extras),
          (Value.node t).Stable s ∧
          ∀ ps, ((Member.child (.node t)).content s).pieces = .ok ps →
            Even s (.node t) := fun t ht =>
      ⟨stable_of_laid hs hlocal hsolid (below t ht) (inner t ht), fun ps hps =>
        even_of_laid hs hlocal hsolid (below t ht) (inner t ht) hps⟩
    have hchildren := here.even_children hs hsolid extras hbelow halong
    have hbounded := bounded_of_stable
      (here.stable_limbs hs hlocal hsolid extras fun t ht => (hbelow t ht).1)
    have howner : (Value.node (.node type fields extras)).owner? =
        some (.node type) := rfl
    rw [← members_node here extras] at halong hchildren hbounded
    rw [← schedule_node here.entry extras] at halong
    by_cases hk : 0 < k ∧ k < (Value.node (.node type fields extras)).width s
    · simp only [Owns, if_pos hk]
      refine ⟨?_, fun value offset hlowest _ hne => ?_⟩
      · exact exists_lowest_of_children (fun child hchild =>
          ⟨hchildren child hchild,
            fun k hpos hlt => (hchildren child hchild).exists_lowest hpos hlt⟩)
          hk.1 hk.2
      · exact anchoredAt_of_children hbounded halong howner (fun child hchild =>
          ⟨hchildren child hchild,
            fun inside hinside k below offset hlowest hne =>
            (hchildren child hchild).anchoredAt hinside hlowest hne⟩)
              hlowest hk.2 hne
    · simp only [Owns, if_neg hk]
      refine ⟨⟨_, 0, rfl, rfl⟩, ?_⟩
      rintro value offset ⟨rfl, rfl⟩ hle hne
      rw [Nat.sub_zero]
      by_cases hend : k = (Value.node (.node type fields extras)).width s
      · rw [hend] at hne ⊢
        exact anchoredAt_of_end hbounded halong howner rfl hne
      · have hzero : k = 0 := by omega
        subst hzero
        have hsome :
            (Value.node (.node type fields extras)).members s ≠ [] := by
          intro hnil
          rw [Value.width, hnil] at hend
          exact hend rfl
        obtain ⟨m, behind, hmembers⟩ := List.exists_cons_of_ne_nil hsome
        have hsplit : (Value.node (.node type fields extras)).members s =
            [] ++ m :: behind := hmembers
        exact anchoredAt_of_boundary hbounded halong howner hsplit hne

end

end Cst

end Lossless
