import Lossless.Cst.Records
import Lossless.Proofs.Pieces

/-!
# Other runs in the same places

`mapRuns` puts another run under every label of a tree. Writing looks at a run
only to see whether it is empty, so what is written for such a tree is what is
written for the tree itself, run by run (`pieces_mapRuns`). With a name of its
own for every run, this tells which run is written where.
-/

namespace Lossless

/-- A record with other runs under its labels. -/
def Extras.mapRuns (f : List Token → List Token) (x : Extras) : Extras :=
  ⟨x.entries.map fun entry => (entry.1, f entry.2)⟩

theorem Extras.mapRuns_id (x : Extras) : x.mapRuns id = x := by
  cases x
  simp [Extras.mapRuns]

namespace Cst

mutual

/-- A tree with other runs in its records. -/
def mapRuns (f : List Token → List Token) : Cst → Cst
  | .node type fields extras =>
    .node type (mapFieldsRuns f fields) (extras.mapRuns f)

/-- Fields with other runs below them. -/
def mapFieldsRuns (f : List Token → List Token) :
    List (String × Value) → List (String × Value)
  | [] => []
  | (name, value) :: fields =>
    (name, mapValueRuns f value) :: mapFieldsRuns f fields

/-- A value with other runs in its records. -/
def mapValueRuns (f : List Token → List Token) : Value → Value
  | .node child => .node (mapRuns f child)
  | .absent => .absent
  | .list items => .list (mapItemsRuns f items)
  | .scalar s => .scalar s
  | .virtual role (some value) extras =>
    .virtual role (some (mapValueRuns f value)) (extras.mapRuns f)
  | .virtual role none extras => .virtual role none (extras.mapRuns f)

/-- Trees with other runs in their records. -/
def mapItemsRuns (f : List Token → List Token) : List Cst → List Cst
  | [] => []
  | item :: items => mapRuns f item :: mapItemsRuns f items

end

/-- Pieces with other runs; those that come out empty are not written. -/
def Piece.mapRuns (f : List Token → List Token) (ps : List Piece) :
    List Piece :=
  ps.flatMap fun
    | .leaf text => [.leaf text]
    | .extras run => ofRun (f run)

namespace Write

/-- A node below another one with other runs. -/
def Inner.mapRuns (f : List Token → List Token) (i : Inner) : Inner :=
  ⟨i.extras.mapRuns f, i.pieces.map (Piece.mapRuns f)⟩

/-- A part with other runs. -/
def Part.mapRuns (f : List Token → List Token) : Part → Part
  | .node inner => .node (inner.mapRuns f)
  | .absent => .absent
  | .list items => .list (items.map (Inner.mapRuns f))
  | .scalar value => .scalar value
  | .virtual role inner => .virtual role (inner.mapRuns f)

/-- What a schedule finds its fields in, with other runs. -/
def Origin.mapRuns (f : List Token → List Token) : Origin → Origin
  | .fields parts => .fields (parts.map fun p => (p.1, p.2.mapRuns f))
  | .wrapped part => .wrapped (part.map (Part.mapRuns f))

/-- What an element writes, with other runs. -/
def Content.mapRuns (f : List Token → List Token) : Content → Content
  | .text word => .text word
  | .inner i => .inner (i.mapRuns f)

/-- An element in front of a gap, with other runs. -/
def Left.mapRuns (f : List Token → List Token) (l : Left) : Left :=
  ⟨l.element, l.extras?.map (Extras.mapRuns f)⟩

/-- Elements with other runs. -/
def mapElements (f : List Token → List Token) (es : List (Element × Content)) :
    List (Element × Content) := es.map fun e => (e.1, e.2.mapRuns f)

theorem mapElements_cons (f : List Token → List Token) (e : Element)
    (content : Content) (es : List (Element × Content)) :
    mapElements f ((e, content) :: es) =
      (e, content.mapRuns f) :: mapElements f es := rfl

variable {s : Schema} {f : List Token → List Token}

/-! ### What a schedule finds -/

theorem part?_mapRuns (f : List Token → List Token) (o : Origin)
    (name : String) :
    (o.mapRuns f).part? name = (o.part? name).map (Part.mapRuns f) := by
  cases o with
  | fields parts => exact Named.lookup_map ..
  | wrapped part => rfl

theorem items?_mapRuns (f : List Token → List Token) (o : Origin)
    (name : String) :
    (o.mapRuns f).items? name =
      (o.items? name).map (List.map (Inner.mapRuns f)) := by
  cases o with
  | fields parts =>
    have hpart := part?_mapRuns f (.fields parts) name
    simp only [Origin.mapRuns] at hpart
    simp only [Origin.items?, Origin.mapRuns, hpart]
    cases (Origin.fields parts).part? name with
    | none => rfl
    | some part => cases part <;> rfl
  | wrapped part =>
    cases part with
    | none => rfl
    | some part => cases part <;> rfl

theorem virtual?_mapRuns (f : List Token → List Token) (o : Origin)
    (role : VirtualRole) :
    (o.mapRuns f).virtual? role = (o.virtual? role).map (Inner.mapRuns f) := by
  cases o with
  | wrapped part => rfl
  | fields parts =>
    rw [Origin.mapRuns, Origin.virtual?, Origin.virtual?]
    induction parts with
    | nil => rfl
    | cons part parts ih =>
      obtain ⟨name, part⟩ := part
      rw [List.map_cons, List.findSome?_cons, List.findSome?_cons, ih]
      cases part with
      | «virtual» role' inner =>
        by_cases hrole : role' = role <;> simp [Part.mapRuns, hrole]
      | _ => rfl

theorem itemElements_mapRuns (f : List Token → List Token) (slot : Nat)
    (separator : Option String) (index : Nat) (items : List Inner) :
    itemElements slot separator index (items.map (Inner.mapRuns f)) =
      mapElements f (itemElements slot separator index items) := by
  induction items generalizing index with
  | nil => rfl
  | cons item items ih =>
    rw [List.map_cons, itemElements_cons, itemElements_cons, ih, mapElements,
      mapElements, List.map_append]
    cases separator <;> cases index <;> rfl

theorem slotElements_mapRuns (f : List Token → List Token) (owner : Owner)
    (o : Origin) (index : Nat) (slot : Slot) :
    slotElements owner (o.mapRuns f) index slot =
      (slotElements owner o index slot).map (mapElements f) := by
  cases slot with
  | extras label | implied field | token text => rfl
  | scalar field | node field | optional field =>
    rw [slotElements, slotElements, part?_mapRuns]
    cases o.part? field with
    | none => rfl
    | some part =>
      cases part with
      | scalar value => cases value <;> rfl
      | _ => rfl
  | list field separator =>
    rw [slotElements, slotElements, items?_mapRuns]
    cases o.items? field with
    | none => rfl
    | some items =>
      exact congrArg Except.ok (itemElements_mapRuns f index separator 0 items)
  | «virtual» role =>
    rw [slotElements, slotElements, virtual?_mapRuns]
    cases o.virtual? role <;> rfl

theorem elements_mapRuns (f : List Token → List Token) (owner : Owner)
    (o : Origin) (index : Nat) (slots : Schedule) :
    elements owner (o.mapRuns f) index slots =
      (elements owner o index slots).map (mapElements f) := by
  induction slots generalizing index with
  | nil => rfl
  | cons slot slots ih =>
    rw [elements, elements, slotElements_mapRuns, ih]
    cases slotElements owner o index slot with
    | error e => rfl
    | ok here =>
      cases elements owner o (index + 1) slots with
      | error e => rfl
      | ok further => exact congrArg Except.ok (List.map_append ..).symm

/-! ### Gaps and rows -/

theorem get_mapRuns (hf : f [] = []) (x : Extras) (label : Label) :
    (x.mapRuns f).get label = f (x.get label) := by
  rw [Extras.get, Extras.get, Extras.mapRuns, Named.lookup_map]
  cases x.entries.lookup label with
  | none => exact hf.symm
  | some run => rfl

theorem mapRuns_ofRun (hf : f [] = []) (run : List Token) :
    Piece.mapRuns f (Piece.ofRun run) = Piece.ofRun (f run) := by
  cases run with
  | nil =>
    rw [hf]
    rfl
  | cons t run => exact List.flatMap_singleton ..

theorem mapRuns_append (ps qs : List Piece) :
    Piece.mapRuns f (ps ++ qs) = Piece.mapRuns f ps ++ Piece.mapRuns f qs :=
  List.flatMap_append

theorem gap_mapRuns (hf : f [] = []) (owner : Owner) (schedule : Schedule)
    (own : Extras) (left right : Left) :
    gap s owner schedule (own.mapRuns f) (left.mapRuns f) (right.mapRuns f) =
      (gap s owner schedule own left right).map (Piece.mapRuns f) := by
  cases ha : s.resolve owner schedule ⟨left.element, right.element⟩ with
  | error e =>
    have ha' : s.resolve owner schedule ⟨(left.mapRuns f).element,
      (right.mapRuns f).element⟩ = .error e := ha
    rw [gap, gap, ha, ha']
    rfl
  | ok a =>
    have hrun : runAt (own.mapRuns f) (left.mapRuns f) (right.mapRuns f) a =
        f (runAt own left right a) := by
      rw [runAt, runAt, Left.mapRuns, Left.mapRuns]
      cases a.target with
      | owner => exact get_mapRuns hf own a.label
      | left =>
        cases left.extras? with
        | none => exact hf.symm
        | some x => exact get_mapRuns hf x a.label
      | right =>
        cases right.extras? with
        | none => exact hf.symm
        | some x => exact get_mapRuns hf x a.label
    have ha' : s.resolve owner schedule ⟨(left.mapRuns f).element,
      (right.mapRuns f).element⟩ = .ok a := ha
    rw [gap_of_anchor ha, gap_of_anchor ha', hrun, ← mapRuns_ofRun hf]
    rfl

theorem between_mapRuns (hf : f [] = []) (owner : Owner) (schedule : Schedule)
    (own : Extras) (left : Option Left) (here : Left) :
    between s owner schedule (own.mapRuns f)
        (left.map (Left.mapRuns f)) (here.mapRuns f) =
      (between s owner schedule own left here).map (Piece.mapRuns f) := by
  cases left with
  | none => rfl
  | some left => exact gap_mapRuns hf owner schedule own left here

theorem pieces_content_mapRuns (f : List Token → List Token)
    (content : Content) :
    (content.mapRuns f).pieces = content.pieces.map (Piece.mapRuns f) := by
  cases content <;> rfl

theorem extras?_mapRuns (f : List Token → List Token) (content : Content) :
    (content.mapRuns f).extras? = content.extras?.map (Extras.mapRuns f) := by
  cases content <;> rfl

/-- Along the same elements, the same is written, run by run. -/
theorem along_mapRuns (hf : f [] = []) (owner : Owner) (schedule : Schedule)
    (own : Extras) (root : Bool) (left : Option Left)
    (es : List (Element × Content)) :
    along s owner schedule (own.mapRuns f) root
        (left.map (Left.mapRuns f)) (mapElements f es) =
      (along s owner schedule own root left es).map (Piece.mapRuns f) := by
  induction es generalizing left with
  | nil =>
    cases root with
    | false => cases left <;> rfl
    | true =>
      cases left with
      | none => rfl
      | some left => exact gap_mapRuns hf owner schedule own left ⟨.stop, none⟩
  | cons e es ih =>
    obtain ⟨e, content⟩ := e
    have hhere : (⟨e, (content.mapRuns f).extras?⟩ : Left) =
        Left.mapRuns f ⟨e, content.extras?⟩ := by
      rw [Left.mapRuns, extras?_mapRuns]
    have hrest := ih (some ⟨e, content.extras?⟩)
    rw [Option.map_some] at hrest
    rw [mapElements_cons, along_cons, along_cons, hhere, between_mapRuns hf,
      pieces_content_mapRuns, hrest]
    cases between s owner schedule own left ⟨e, content.extras?⟩ with
    | error e => rfl
    | ok front =>
      cases content.pieces with
      | error e => rfl
      | ok inside =>
        cases along s owner schedule own root
          (some ⟨e, content.extras?⟩) es with
        | error e => rfl
        | ok rest =>
          change Except.ok _ = Except.ok _
          rw [mapRuns_append, mapRuns_append]

theorem frame_mapRuns (hf : f [] = []) (owner : Owner) (own : Extras)
    (root : Bool) (o : Origin) :
    frame s owner (own.mapRuns f) root (o.mapRuns f) =
      (frame s owner own root o).map (Piece.mapRuns f) := by
  rw [frame, frame]
  cases s.schedule owner with
  | error e => rfl
  | ok schedule =>
    rw [Outcome.ok_bind, Outcome.ok_bind, elements_mapRuns]
    cases elements owner o 0 schedule with
    | error e => rfl
    | ok es =>
      have halong := along_mapRuns (s := s) hf owner schedule own root
        (if root then some ⟨.start, none⟩ else none) es
      cases root <;> exact halong

/-! ### Trees -/

mutual

theorem node_mapRuns (hf : f [] = []) (root : Bool) (t : Cst) :
    node s root (t.mapRuns f) = (node s root t).map (Piece.mapRuns f) := by
  cases t with
  | node type fields extras =>
    rw [Cst.mapRuns, node, node, parts_mapRuns hf fields]
    exact frame_mapRuns hf (.node type) extras root (.fields (parts s fields))

theorem parts_mapRuns (hf : f [] = []) (fields : List (String × Value)) :
    parts s (mapFieldsRuns f fields) =
      (parts s fields).map fun p => (p.1, p.2.mapRuns f) := by
  cases fields with
  | nil => rfl
  | cons field fields =>
    obtain ⟨name, value⟩ := field
    rw [mapFieldsRuns, parts, parts, part_mapRuns hf value,
      parts_mapRuns hf fields, List.map_cons]

theorem part_mapRuns (hf : f [] = []) (value : Value) :
    part s (mapValueRuns f value) = (part s value).mapRuns f := by
  match value with
  | .node (.node type fields extras) =>
    rw [mapValueRuns, part, part,
      node_mapRuns hf false (.node type fields extras)]
    rfl
  | .absent | .scalar _ => rfl
  | .list items =>
    rw [mapValueRuns, part, part, inners_mapRuns hf items]
    rfl
  | .virtual role (some value) extras =>
    rw [mapValueRuns, part, part, part_mapRuns hf value]
    exact congrArg (fun pieces => Part.virtual role ⟨_, pieces⟩) (frame_mapRuns
      hf (.virtual role) extras false (.wrapped (some (part s value))))
  | .virtual role none extras =>
    rw [mapValueRuns, part, part]
    exact congrArg (fun pieces => Part.virtual role ⟨_, pieces⟩)
      (frame_mapRuns hf (.virtual role) extras false (.wrapped none))

theorem inners_mapRuns (hf : f [] = []) (items : List Cst) :
    inners s (mapItemsRuns f items) =
      (inners s items).map (Inner.mapRuns f) := by
  cases items with
  | nil => rfl
  | cons item items =>
    rw [mapItemsRuns, inners, inners, node_mapRuns hf false item,
      inners_mapRuns hf items]
    cases item
    rfl

end

end Write

/-- A tree with other runs is written as the tree itself, run by run. -/
theorem pieces_mapRuns {f : List Token → List Token} (hf : f [] = [])
    (s : Schema) (t : Cst) :
    (t.mapRuns f).pieces s = (t.pieces s).map (Piece.mapRuns f) :=
  Write.node_mapRuns hf true t

/-! ### Records -/

mutual

@[simp] theorem mapRuns_id (t : Cst) : t.mapRuns id = t := by
  cases t
  rw [mapRuns, mapFieldsRuns_id, Extras.mapRuns_id]

theorem mapFieldsRuns_id (fields : List (String × Value)) :
    mapFieldsRuns id fields = fields := by
  cases fields with
  | nil => rfl
  | cons field fields => rw [mapFieldsRuns, mapValueRuns_id, mapFieldsRuns_id]

theorem mapValueRuns_id (value : Value) : mapValueRuns id value = value := by
  match value with
  | .node child => rw [mapValueRuns, mapRuns_id]
  | .list items => rw [mapValueRuns, mapItemsRuns_id]
  | .virtual role (some wrapped) extras =>
    rw [mapValueRuns, mapValueRuns_id, Extras.mapRuns_id]
  | .virtual role none extras => rw [mapValueRuns, Extras.mapRuns_id]
  | .absent | .scalar _ => rfl

theorem mapItemsRuns_id (items : List Cst) : mapItemsRuns id items = items := by
  cases items with
  | nil => rfl
  | cons item items => rw [mapItemsRuns, mapRuns_id, mapItemsRuns_id]

end

/-- Records with other runs. -/
def mapRecordsRuns (f : List Token → List Token) (rs : List (Owner × Extras)) :
    List (Owner × Extras) :=
  rs.map fun r => (r.1, r.2.mapRuns f)

theorem mapRecordsRuns_append (f : List Token → List Token)
    (rs rs' : List (Owner × Extras)) :
    mapRecordsRuns f (rs ++ rs') =
      mapRecordsRuns f rs ++ mapRecordsRuns f rs' := List.map_append ..

mutual

theorem records_mapRuns (f : List Token → List Token) (t : Cst) :
    (t.mapRuns f).records = mapRecordsRuns f t.records := by
  cases t with
  | node type fields extras =>
    rw [mapRuns, records, records, fieldsRecords_mapRuns]
    rfl

theorem fieldsRecords_mapRuns (f : List Token → List Token)
    (fields : List (String × Value)) :
    fieldsRecords (mapFieldsRuns f fields) =
      mapRecordsRuns f (fieldsRecords fields) := by
  cases fields with
  | nil => rfl
  | cons field fields =>
    rw [mapFieldsRuns, fieldsRecords, fieldsRecords, mapRecordsRuns_append,
      valueRecords_mapRuns, fieldsRecords_mapRuns]

theorem valueRecords_mapRuns (f : List Token → List Token) (value : Value) :
    valueRecords (mapValueRuns f value) =
      mapRecordsRuns f (valueRecords value) := by
  match value with
  | .node child =>
    rw [mapValueRuns, valueRecords, valueRecords, records_mapRuns]
  | .list items =>
    rw [mapValueRuns, valueRecords, valueRecords, itemsRecords_mapRuns]
  | .virtual role (some wrapped) extras =>
    rw [mapValueRuns, valueRecords, valueRecords, valueRecords_mapRuns]
    rfl
  | .virtual role none extras | .absent | .scalar _ => rfl

theorem itemsRecords_mapRuns (f : List Token → List Token) (items : List Cst) :
    itemsRecords (mapItemsRuns f items) =
      mapRecordsRuns f (itemsRecords items) := by
  cases items with
  | nil => rfl
  | cons item items =>
    rw [mapItemsRuns, itemsRecords, itemsRecords, mapRecordsRuns_append,
      records_mapRuns, itemsRecords_mapRuns]

end

end Cst

end Lossless
