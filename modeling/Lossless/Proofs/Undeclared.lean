import Lossless.Proofs.Interchange
import Lossless.Proofs.Verdicts
import Mathlib.Logic.Relation

/-!
# What a reader takes from a JSON value

A tree is read from an object by the declared fields of its type, so whatever is
read conforms to the grammar: each reading of a member gives values of its shape
(`Fitting`), and nodes are assembled from such readings. An `Edit` adds or
changes a member that the grammar does not declare for the object that it stands
in. Edited values are read alike (`Alike`), because a node only looks up the
declared names (`readObject_congr`).
-/

namespace Lossless

namespace Grammar

variable {g : Grammar}

/-! ### The member that counts -/

theorem foldl_eq_member?_or {α : Type} (members : List (String × α))
    (key : String) (found : Option α) :
    members.foldl (fun found m => if m.1 = key then some m.2 else found) found =
      (member? members key).or found := by
  induction members generalizing found with
  | nil => rfl
  | cons m members ih =>
    rw [List.foldl_cons, member?, List.foldl_cons, ih, ih]
    by_cases hkey : m.1 = key
    · rw [if_pos hkey, if_pos hkey, Option.or_assoc, Option.some_or]
    · rw [if_neg hkey, if_neg hkey, Option.or_none]

/-- The members behind count before those in front. -/
theorem member?_append {α : Type} (front behind : List (String × α))
    (key : String) :
    member? (front ++ behind) key =
      (member? behind key).or (member? front key) := by
  rw [member?, List.foldl_append, foldl_eq_member?_or behind]
  rfl

theorem member?_cons {α : Type} (m : String × α) (members : List (String × α))
    (key : String) :
    member? (m :: members) key =
      (member? members key).or (if m.1 = key then some m.2 else none) :=
  member?_append [m] members key

/-- A member that counts is one of the members. -/
theorem mem_of_member? {α : Type} {members : List (String × α)} {key : String}
    {a : α} (h : member? members key = some a) : (key, a) ∈ members := by
  induction members with
  | nil => cases h
  | cons m members ih =>
    rw [member?_cons] at h
    rcases Option.or_eq_some_iff.1 h with hmember | ⟨-, hfirst⟩
    · exact List.mem_cons_of_mem _ (ih hmember)
    · split at hfirst
      case isTrue hkey =>
        cases hfirst
        exact hkey ▸ List.mem_cons_self
      case isFalse => cases hfirst

/-- A member under another key does not matter. -/
theorem member?_append_cons {α : Type} {front behind : List (String × α)}
    {key name : String} (a : α) (h : key ≠ name) :
    member? (front ++ (key, a) :: behind) name =
      member? (front ++ behind) name := by
  rw [member?_append, member?_cons, if_neg h, Option.or_none, member?_append]

/-! ### What is read conforms -/

/-- A reading gives values of the shape that it is asked for, with
nodes that conform. -/
def Fitting (g : Grammar) (read : Reading) : Prop :=
  ∀ shape place value, read shape place = .ok (some value) →
    shape.Admits value ∧ ∀ c ∈ value.nodes, g.Conforms c

theorem declares_of_readField? {type : String} {d : FieldDef}
    {reading : Option Reading} {field : String × Ast.Value}
    (hreading : ∀ read, reading = some read → g.Fitting read)
    (h : readField? type d reading = .ok field) :
    d.Declares field ∧ ∀ c ∈ field.2.nodes, g.Conforms c := by
  obtain ⟨name, shape⟩ := d
  revert h
  fun_cases readField? type ⟨name, shape⟩ reading with
  | case1 hshape =>
    intro h
    cases h
    obtain rfl : shape = .optional := hshape
    exact ⟨⟨rfl, .absent⟩, fun c hc => absurd hc List.not_mem_nil⟩
  | case2 => exact fun h => nomatch h
  | case3 _ read =>
    intro h
    obtain ⟨found, hread, h⟩ := Outcome.bind_eq_ok.1 h
    cases found with
    | none => exact nomatch h
    | some value =>
      cases h
      obtain ⟨hadmits, hnodes⟩ := hreading _ rfl _ _ value hread
      exact ⟨⟨rfl, hadmits⟩, hnodes⟩

/-- Fields that are read one by one are the declared ones. -/
theorem declares_of_mapM_readField? {type : String}
    {found : String → Option Reading} {defs : List FieldDef}
    {fields : List (String × Ast.Value)}
    (hfound : ∀ name read, found name = some read → g.Fitting read)
    (h : defs.mapM (fun d => readField? type d (found d.name)) = .ok fields) :
    List.Forall₂ FieldDef.Declares defs fields ∧
      ∀ c ∈ fields.flatMap fun field => field.2.nodes, g.Conforms c := by
  induction defs generalizing fields with
  | nil =>
    cases h
    exact ⟨.nil, fun c hc => absurd hc List.not_mem_nil⟩
  | cons d defs ih =>
    rw [List.mapM_cons] at h
    obtain ⟨field, hfield, h⟩ := Outcome.bind_eq_ok.1 h
    obtain ⟨others, hothers, h⟩ := Outcome.bind_eq_ok.1 h
    cases h
    obtain ⟨hdeclares, hnodes⟩ := declares_of_readField? (hfound d.name) hfield
    obtain ⟨hrest, hbelow⟩ := ih hothers
    refine ⟨.cons hdeclares hrest, fun c hc => ?_⟩
    rw [List.flatMap_cons] at hc
    exact (List.mem_append.1 hc).elim (hnodes c) (hbelow c)

theorem conforms_of_readObject {members : List (String × Json)}
    {rs : List (String × Reading)} {place : String} {t : Ast}
    (hreadings : ∀ r ∈ rs, g.Fitting r.2)
    (h : g.readObject members rs place = .ok t) : g.Conforms t := by
  rw [readObject] at h
  split at h
  case h_2 => cases h
  case h_1 type htype =>
    rw [assemble] at h
    split at h
    case h_1 => cases h
    case h_2 defs hdefs =>
      obtain ⟨fields, hfields, h⟩ := Outcome.bind_eq_ok.1 h
      cases h
      have hfound : ∀ name read, member? rs name = some read → g.Fitting read :=
        fun name read hread => hreadings (name, read) (mem_of_member? hread)
      obtain ⟨hdeclares, hbelow⟩ := declares_of_mapM_readField? hfound hfields
      obtain ⟨hnames, hshapes⟩ := forall₂_declares_iff.1 hdeclares
      exact .node hdefs hnames hshapes hbelow

mutual

theorem conforms_of_readNode (g : Grammar) (value : Json) {place : String}
    {t : Ast} (h : readNode g value place = .ok t) : g.Conforms t := by
  cases value with
  | object members =>
    rw [readNode] at h
    exact conforms_of_readObject (fitting_readings g members) h
  | _ => rw [readNode] at h <;> cases h

theorem fitting_readings (g : Grammar) (members : List (String × Json)) :
    ∀ r ∈ readings g members, g.Fitting r.2 := by
  cases members with
  | nil => exact fun r hr => absurd hr List.not_mem_nil
  | cons m members =>
    obtain ⟨key, value⟩ := m
    rw [readings]
    exact List.forall_mem_cons.2 ⟨fitting_readValue g value,
      fitting_readings g members⟩

theorem fitting_readValue (g : Grammar) (value : Json) :
    g.Fitting fun shape place => readValue g value shape place := by
  intro shape place read h
  change readValue g value shape place = _ at h
  cases shape with
  | scalar =>
    rw [readValue] at h
    obtain ⟨s, -, rfl⟩ := Option.map_eq_some_iff.1 (Except.ok.inj h)
    exact ⟨.scalar s, fun c hc => absurd hc List.not_mem_nil⟩
  | list =>
    cases value with
    | array items =>
      rw [readValue] at h
      obtain ⟨ts, hts, h⟩ := Outcome.map_eq_ok.1 h
      obtain rfl := Option.some.inj h
      exact ⟨.list ts, conforms_of_readItems g items hts⟩
    | _ => rw [readValue] at h <;> cases h
  | node =>
    cases value with
    | object members =>
      rw [readValue] at h
      obtain ⟨t, ht, h⟩ := Outcome.map_eq_ok.1 h
      obtain rfl := Option.some.inj h
      refine ⟨.node t, List.forall_mem_singleton.2 ?_⟩
      exact conforms_of_readObject (fitting_readings g members) ht
    | _ => rw [readValue] at h <;> cases h
  | optional =>
    cases value with
    | null =>
      rw [readValue] at h
      cases h
      exact ⟨.absent, fun c hc => absurd hc List.not_mem_nil⟩
    | object members =>
      rw [readValue] at h
      obtain ⟨t, ht, h⟩ := Outcome.map_eq_ok.1 h
      obtain rfl := Option.some.inj h
      refine ⟨.present t, List.forall_mem_singleton.2 ?_⟩
      exact conforms_of_readObject (fitting_readings g members) ht
    | _ => rw [readValue] at h <;> cases h

theorem conforms_of_readItems (g : Grammar) (items : List Json) {place : String}
    {ts : List Ast} (h : readItems g items place = .ok ts) :
    ∀ t ∈ ts, g.Conforms t := by
  cases items with
  | nil =>
    cases h
    exact fun t ht => absurd ht List.not_mem_nil
  | cons item items =>
    rw [readItems] at h
    obtain ⟨first, hfirst, h⟩ := Outcome.bind_eq_ok.1 h
    obtain ⟨others, hothers, h⟩ := Outcome.bind_eq_ok.1 h
    cases h
    exact List.forall_mem_cons.2 ⟨conforms_of_readNode g item hfirst,
      conforms_of_readItems g items hothers⟩

end

/-! ### Members that are passed over -/

/-- The keys that the grammar declares for an object: the fields of its type, if
it has a declared one. -/
def declaredKeys (g : Grammar) (members : List (String × Json)) : List String :=
  (((typeOf? members).bind g.fields?).getD []).map FieldDef.name

/-- A key of an object that says nothing to the grammar. -/
def PassesOver (g : Grammar) (members : List (String × Json))
    (key : String) : Prop :=
  key ≠ "type" ∧ key ∉ g.declaredKeys members

/-- One member that is passed over is added or gets another value, anywhere
in a JSON value. -/
inductive Edit (g : Grammar) : Json → Json → Prop
  | add {front behind : List (String × Json)} {key : String} (value : Json)
      (h : g.PassesOver (front ++ behind) key) :
      Edit g (.object (front ++ behind)) (.object (front ++ (key, value) ::
        behind))
  | change {front behind : List (String × Json)} {key : String}
      (value value' : Json)
      (h : g.PassesOver (front ++ (key, value) :: behind) key) :
      Edit g (.object (front ++ (key, value) :: behind))
        (.object (front ++ (key, value') :: behind))
  | member {front behind : List (String × Json)} {key : String}
      {value value' : Json} (h : Edit g value value') :
      Edit g (.object (front ++ (key, value) :: behind))
        (.object (front ++ (key, value') :: behind))
  | item {front behind : List Json} {value value' : Json}
      (h : Edit g value value') : Edit g (.array (front ++ value :: behind))
      (.array (front ++ value' :: behind))

/-- Two values are read alike, as nodes and as values of any shape, with
the same errors. -/
structure Alike (g : Grammar) (value value' : Json) : Prop where
  node : ∀ place, readNode g value place = readNode g value' place
  value : ∀ shape place, readValue g value shape place =
    readValue g value' shape place

theorem typeOf?_append_cons {front behind : List (String × Json)} {key : String}
    (value : Json) (h : key ≠ "type") :
    typeOf? (front ++ (key, value) :: behind) = typeOf? (front ++ behind) := by
  rw [typeOf?, member?_append_cons value h, typeOf?]

theorem readings_append_cons (front behind : List (String × Json))
    (key : String) (value : Json) :
    readings g (front ++ (key, value) :: behind) =
      readings g front ++
        (key, fun shape place => readValue g value shape place) ::
          readings g behind := by
  rw [readings_eq, readings_eq, readings_eq, List.map_append, List.map_cons]

/-- A node looks at the type of its object, and at the readings under
the declared keys. -/
theorem readObject_congr {members members' : List (String × Json)}
    {rs rs' : List (String × Reading)}
    (htype : typeOf? members = typeOf? members')
    (hreadings : ∀ name ∈ g.declaredKeys members,
      member? rs name = member? rs' name) (place : String) :
    g.readObject members rs place = g.readObject members' rs' place := by
  rw [readObject, readObject, ← htype]
  cases hfound : typeOf? members with
  | none => rfl
  | some type =>
    simp only [assemble]
    cases hdefs : g.fields? type with
    | none => rfl
    | some defs =>
      have hkeys : g.declaredKeys members = defs.map FieldDef.name := by
        rw [declaredKeys, hfound, Option.bind_some, hdefs, Option.getD_some]
      simp only
      rw [Outcome.mapM_congr fun d hd => ?_]
      rw [hreadings d.name (hkeys ▸ List.mem_map.2 ⟨d, hd, rfl⟩)]

theorem alike_object {members members' : List (String × Json)}
    (h : ∀ place, g.readObject members (readings g members) place =
      g.readObject members' (readings g members') place) :
    g.Alike (.object members) (.object members') where
  node place := by rw [readNode, readNode, h]
  value shape place := by
    cases shape with
    | node => rw [readValue, readValue, h]
    | optional => rw [readValue, readValue, h]
    | list => rw [readValue, readValue] <;> exact nofun
    | scalar => rw [readValue, readValue]; rfl

theorem alike_array {items items' : List Json}
    (h : ∀ place, readItems g items place = readItems g items' place) :
    g.Alike (.array items) (.array items') where
  node place := by rw [readNode, readNode] <;> exact nofun
  value shape place := by
    cases shape with
    | node => rw [readValue, readValue] <;> exact nofun
    | optional => rw [readValue, readValue] <;> exact nofun
    | list => rw [readValue, readValue, h]
    | scalar => rw [readValue, readValue]; rfl

/-- A member that is passed over may as well not be there. -/
theorem alike_add {front behind : List (String × Json)} {key : String}
    (value : Json) (hkey : key ≠ "type")
    (hdeclared : key ∉ g.declaredKeys (front ++ behind)) :
    g.Alike (.object (front ++ behind)) (.object (front ++ (key, value) ::
      behind)) := by
  have htype :
      typeOf? (front ++ behind) = typeOf? (front ++ (key, value) :: behind) :=
    (typeOf?_append_cons value hkey).symm
  refine alike_object fun place =>
    readObject_congr htype (fun name hname => ?_) place
  have hne : key ≠ name := fun he => hdeclared (he ▸ hname)
  rw [readings_append_cons, member?_append_cons _ hne, readings_eq, readings_eq,
    readings_eq, List.map_append]

/-- What is edited is an object or an array, before and after. -/
theorem Edit.ne_string {value value' : Json} (h : g.Edit value value')
    (type : String) : value ≠ .string type ∧ value' ≠ .string type := by
  cases h <;> exact ⟨nofun, nofun⟩

theorem typeOf?_eq_some_iff {members : List (String × Json)} {type : String} :
    typeOf? members = some type ↔
      member? members "type" = some (.string type) := by
  rw [typeOf?]
  constructor
  · intro h
    split at h
    case h_1 type' hmember => rw [hmember, Option.some.inj h]
    case h_2 => cases h
  · intro h
    rw [h]

/-- Editing the value of a member does not make it a type, nor unmake it. -/
theorem typeOf?_of_edit {front behind : List (String × Json)} {key : String}
    {value value' : Json} (h : g.Edit value value') :
    typeOf? (front ++ (key, value) :: behind) =
      typeOf? (front ++ (key, value') :: behind) := by
  by_cases hkey : key = "type"
  · ext type
    obtain ⟨hvalue, hvalue'⟩ := h.ne_string type
    rw [typeOf?_eq_some_iff, typeOf?_eq_some_iff, member?_append,
      member?_append, member?_cons, member?_cons]
    -- a type behind is the one that counts; if there is none, both
    -- values are in its place
    cases member? behind "type" with
    | some counted => rfl
    | none => simp [hkey, hvalue, hvalue']
  · rw [typeOf?_append_cons value hkey, typeOf?_append_cons value' hkey]

theorem readItems_append_cons {front behind : List Json} {value value' : Json}
    (h : g.Alike value value') (place : String) :
    readItems g (front ++ value :: behind) place =
      readItems g (front ++ value' :: behind) place := by
  induction front with
  | nil => rw [List.nil_append, List.nil_append, readItems, readItems, h.node]
  | cons item front ih =>
    rw [List.cons_append, List.cons_append, readItems, readItems, ih]

/-- By induction on the place of the edit, an edited value is read as it was. -/
theorem alike_of_edit {value value' : Json} (h : g.Edit value value') :
    g.Alike value value' := by
  induction h with
  | add value h => exact alike_add value h.1 h.2
  | @change front behind key value value' h =>
    have hkeys : g.declaredKeys (front ++ (key, value) :: behind) =
        g.declaredKeys (front ++ behind) := by
      rw [declaredKeys, typeOf?_append_cons value h.1, declaredKeys]
    have hdeclared : key ∉ g.declaredKeys (front ++ behind) := hkeys ▸ h.2
    have hbefore := alike_add value h.1 hdeclared
    have hafter := alike_add value' h.1 hdeclared
    exact ⟨fun place => (hbefore.node place).symm.trans (hafter.node place),
      fun shape place =>
        (hbefore.value shape place).symm.trans (hafter.value shape place)⟩
  | @member front behind key value value' h ih =>
    have hread : (fun shape place => readValue g value shape place) =
        fun shape place => readValue g value' shape place :=
      funext fun shape => funext fun place => ih.value shape place
    refine alike_object fun place =>
      readObject_congr (typeOf?_of_edit h) (fun name _ => ?_) place
    rw [readings_append_cons, readings_append_cons, hread]
  | item h ih => exact alike_array fun place => readItems_append_cons ih place

/-- Whatever is read conforms to the grammar, so the check of it asks for the
type of its root only; and members that the grammar does not declare for their
object do not matter to what is read. -/
theorem check_of_read_and_read_of_edits (g : Grammar) (value : Json) :
    (∀ t, g.read value = .ok t → (∀ u ∈ t.preorder, g.Declares u) ∧
      g.check t = if t.type = g.root then .ok ()
        else .error (.unexpectedRoot g.root t.type)) ∧
      ∀ value', Relation.EqvGen g.Edit value value' →
        g.read value' = g.read value := by
  refine ⟨fun t h => ?_, fun value' h => ?_⟩
  · have hconforms := conforms_of_readNode g value h
    refine ⟨conforms_iff.1 hconforms, ?_⟩
    split
    case isTrue hroot => exact check_of_conforms hroot hconforms
    case isFalse hroot => rw [check, if_pos hroot]
  · induction h with
    | rel value value' h => exact ((alike_of_edit h).node _).symm
    | refl value => rfl
    | symm value value' _ ih => exact ih.symm
    | trans value value' value'' _ _ ih ih' => exact ih'.trans ih

/-- Where a node stands in a text is passed over. -/
example : functions.Edit (.object [("type", .string "EmptyStatement")])
    (.object [("type", .string "EmptyStatement"), ("range", .array [])]) :=
  @Edit.add functions [("type", .string "EmptyStatement")] [] "range"
    (.array []) ⟨by decide, by decide⟩

end Grammar

end Lossless
