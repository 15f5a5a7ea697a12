import Lossless.Proofs.Conformance
import Lossless.Proofs.Equality
import Lossless.Proofs.Rounding

/-!
# Trees written as JSON and read again

A tree that fits a grammar is read again from the JSON value that it is written
as. In an object the keys are the declared field names behind `type`, which no
field has for a name, so each field is found under its own key
(`member?_readings`). Absent nodes and null scalars are written alike, and so
are integers and numbers that happen to be integral; what a value was is told by
the shape that its field is declared with, and a number is read as an equal one
(`exists_ofJson?`).
-/

namespace Lossless

/-! ### Scalars -/

theorem Binary64.isNaN_of_isFinite {x : Binary64} (h : x.isFinite = true) :
    x.isNaN = false := by
  cases x with
  | nan => exact nomatch h
  | infinite s => rfl
  | finite s m e hc => rfl

namespace Scalar

/-- A scalar that is a number is a finite one. -/
def isFinite : Scalar → Bool
  | .number x => x.isFinite
  | _ => true

/-- A scalar is read again as an equal one: an integral number as an integer,
with its sign lost on a zero. -/
theorem exists_ofJson? {s : Scalar} (h : s.isFinite = true) :
    ∃ s', Scalar.ofJson? s.toJson = some s' ∧ s'.equal s = true := by
  cases s with
  | null => exact ⟨_, rfl, rfl⟩
  | bool b => exact ⟨_, rfl, beq_self_eq_true b⟩
  | string text => exact ⟨_, rfl, beq_self_eq_true text⟩
  | number x =>
    have hfinite : x.isFinite = true := h
    rw [toJson]
    cases hint : x.integer? (1 <<< 53 - 1) with
    | some i => exact ⟨_, rfl, Binary64.equal_ofInt hint⟩
    | none =>
      simp only [hfinite, if_true]
      exact ⟨_, rfl, Binary64.equal_self (Binary64.isNaN_of_isFinite hfinite)⟩

end Scalar

namespace Ast

/-- A value that is a number is a finite one. -/
def Value.isFinite : Value → Bool
  | .scalar s => s.isFinite
  | _ => true

/-- Every number in the fields of a tree is finite. -/
def FiniteNumbers (t : Ast) : Prop :=
  ∀ u ∈ Branching.nodes t, ∀ field ∈ u.fields, field.2.isFinite = true

instance (t : Ast) : Decidable t.FiniteNumbers :=
  inferInstanceAs (Decidable (∀ u ∈ Branching.nodes t, ∀ field ∈ u.fields,
    field.2.isFinite = true))

theorem FiniteNumbers.of_mem_children {t c : Ast} (h : t.FiniteNumbers)
    (hc : c ∈ t.children) : c.FiniteNumbers :=
  fun u hu => h u (Branching.mem_nodes_of_mem_children hc hu)

theorem membersOf_eq (fields : List (String × Value)) :
    membersOf fields =
      fields.map fun field => (field.1, valueToJson field.2) := by
  induction fields with
  | nil => rfl
  | cons field fields ih => rw [membersOf, ih, List.map_cons]

/-- The keys of the object that a node is written as. -/
theorem map_fst_membersOf (type : String) (fields : List (String × Value)) :
    (("type", Json.string type) :: membersOf fields).map Prod.fst =
      "type" :: fields.map Prod.fst := by
  rw [membersOf_eq, List.map_cons, List.map_map]
  rfl

end Ast

namespace Grammar

variable {g : Grammar}

/-! ### Members by key -/

theorem foldl_member {α : Type} {members : List (String × α)}
    (h : (members.map Prod.fst).Nodup) (key : String) (found : Option α) :
    members.foldl (fun found m => if m.1 = key then some m.2 else found) found =
      (members.lookup key).or found := by
  induction members generalizing found with
  | nil => rfl
  | cons m members ih =>
    rw [List.map_cons, List.nodup_cons] at h
    rw [List.foldl_cons, ih h.2, List.lookup_cons]
    by_cases hkey : m.1 = key
    · subst hkey
      rw [Named.lookup_eq_none.2 h.1, if_pos rfl, beq_self_eq_true]
      rfl
    · rw [if_neg hkey, beq_false_of_ne (Ne.symm hkey)]

/-- Where no key stands twice, the last member with a key is the first one. -/
theorem member?_eq_lookup {α : Type} {members : List (String × α)}
    (h : (members.map Prod.fst).Nodup) (key : String) :
    member? members key = members.lookup key := by
  rw [member?, foldl_member h, Option.or_none]

theorem readings_eq (members : List (String × Json)) :
    readings g members = members.map fun m =>
      (m.1, fun shape place => readValue g m.2 shape place) := by
  induction members with
  | nil => rfl
  | cons m members ih => rw [readings, ih, List.map_cons]

/-- The reading of a member is found under its key. -/
theorem member?_readings {members : List (String × Json)}
    (h : (members.map Prod.fst).Nodup) {key : String} {value : Json}
    (hmem : (key, value) ∈ members) :
    member? (readings g members) key =
      some fun shape place => readValue g value shape place := by
  have hkeys : (readings g members).map Prod.fst = members.map Prod.fst := by
    rw [readings_eq, List.map_map]
    rfl
  rw [member?_eq_lookup (hkeys ▸ h), readings_eq]
  exact (Named.lookup_map
    (fun value shape place => readValue g value shape place) members key).trans
    (congrArg _ (Named.lookup_of_mem h hmem))

/-- No field of a grammar that passes its own check is called `type`. -/
theorem ne_type_of_fieldFault? {type : String} {earlier : List String}
    {defs : List FieldDef} (h : fieldFault? type earlier defs = none) :
    ∀ d ∈ defs, d.name ≠ "type" := by
  induction defs generalizing earlier with
  | nil => exact fun d hd => absurd hd List.not_mem_nil
  | cons d defs ih =>
    rw [fieldFault?] at h
    split at h
    · cases h
    case isFalse hname =>
      split at h
      · cases h
      · exact List.forall_mem_cons.2 ⟨hname, ih h⟩

/-- No field of a type is called `type`, the key of the type itself, and
none stands twice. -/
def KeysApart (g : Grammar) : Prop :=
  ∀ type defs, g.fields? type = some defs →
    ("type" :: defs.map FieldDef.name).Nodup

theorem validate_of_ofText {text : String} (h : ofText text = .ok g) :
    g.validate = .ok g := by
  rw [ofText] at h
  split at h
  · rename_i g' _
    have hself := h
    rw [validate] at hself
    split at hself
    · cases hself
    · obtain rfl := Except.ok.inj hself
      exact h
  · cases h

theorem keysApart_of_validate (h : g.validate = .ok g) : g.KeysApart := by
  intro type defs hdefs
  have hfault := fieldFault?_of_validate h hdefs
  refine List.nodup_cons.2 ⟨fun hmem => ?_, (nodup_of_fieldFault? hfault).1⟩
  obtain ⟨d, hd, hname⟩ := List.mem_map.1 hmem
  exact ne_type_of_fieldFault? hfault d hd hname

/-! ### Reading what was written -/

/-- A tree is read again from what it is written as, whichever place an
error would name. -/
def ReadsAgain (g : Grammar) (t : Ast) : Prop :=
  ∀ place, ∃ t', g.readNode t.toJson place = .ok t' ∧ t'.equal t = true

theorem readValue_toJson {shape : FieldShape} {c : Ast}
    (hfits : shape.fits (.node c) = true) (place : String) :
    readValue g c.toJson shape place =
      (g.readNode c.toJson place).map (some ∘ .node) := by
  obtain ⟨type, fields⟩ := c
  cases shape with
  | node => rw [Ast.toJson, readValue, readNode]
  | optional => rw [Ast.toJson, readValue, readNode]
  | list => exact nomatch hfits
  | scalar => exact nomatch hfits

theorem exists_readItems {items : List Ast} (h : ∀ c ∈ items, g.ReadsAgain c)
    (place : String) :
    ∃ items', readItems g (Ast.itemsToJson items) place = .ok items' ∧
      List.Forall₂ (fun a b => a.equal b = true) items' items := by
  induction items with
  | nil => exact ⟨[], rfl, .nil⟩
  | cons c cs ih =>
    obtain ⟨hc, hcs⟩ := List.forall_mem_cons.1 h
    obtain ⟨c', hread, hequal⟩ := hc place
    obtain ⟨cs', hreads, hequals⟩ := ih hcs
    refine ⟨c' :: cs', ?_, .cons hequal hequals⟩
    rw [Ast.itemsToJson, readItems, hread, hreads]
    rfl

/-- A value of a shape is read again, as a value of this shape. -/
theorem exists_readValue {shape : FieldShape} {value : Ast.Value}
    (hfits : shape.fits value = true) (hfinite : value.isFinite = true)
    (hnodes : ∀ c ∈ value.nodes, g.ReadsAgain c) (place : String) :
    ∃ value', readValue g (Ast.valueToJson value) shape place =
        .ok (some value') ∧
      value'.Equal value := by
  cases value with
  | node c =>
    obtain ⟨c', hread, hequal⟩ := hnodes c (List.mem_singleton.2 rfl) place
    exact ⟨.node
        c', by rw [Ast.valueToJson, readValue_toJson hfits, hread]; rfl,
      .node hequal⟩
  | absent =>
    cases shape with
    | optional => exact ⟨.absent, by rw [Ast.valueToJson, readValue], .absent⟩
    | node => exact nomatch hfits
    | list => exact nomatch hfits
    | scalar => exact nomatch hfits
  | list items =>
    cases shape with
    | list =>
      have hitems : ∀ c ∈ items, g.ReadsAgain c := hnodes
      obtain ⟨items', hreads, hequals⟩ := exists_readItems hitems place
      exact ⟨.list items', by rw [Ast.valueToJson, readValue, hreads]; rfl,
        .list hequals⟩
    | node => exact nomatch hfits
    | optional => exact nomatch hfits
    | scalar => exact nomatch hfits
  | scalar s =>
    cases shape with
    | scalar =>
      obtain ⟨s', hs, hequal⟩ := Scalar.exists_ofJson? (s := s) hfinite
      exact ⟨.scalar s', by rw [Ast.valueToJson, readValue, hs]; rfl,
        .scalar hequal⟩
    | node => exact nomatch hfits
    | optional => exact nomatch hfits
    | list => exact nomatch hfits

theorem readField?_some {type : String} {d : FieldDef} {read : Reading}
    {value : Ast.Value}
    (h : read d.shape ("field " ++ Text.backquote d.name ++ " of " ++
      Text.backquote type) = .ok (some value)) :
    readField? type d (some read) = .ok (d.name, value) := by
  rw [readField?]
  simp only [h]
  rfl

/-- The fields of a node are read again one by one, if each is found
under its name. -/
theorem exists_mapM_readField? (type : String) {found : String → Option Reading}
    {defs : List FieldDef} {fields : List (String × Ast.Value)}
    (hnames : fields.map Prod.fst = defs.map FieldDef.name)
    (hshapes : ∀ x ∈ defs.zip fields, x.1.shape.fits x.2.2 = true)
    (hfound : ∀ field ∈ fields, found field.1 = some fun shape place =>
      readValue g (Ast.valueToJson field.2) shape place)
    (hfinite : ∀ field ∈ fields, field.2.isFinite = true)
    (hnodes : ∀ field ∈ fields, ∀ c ∈ field.2.nodes, g.ReadsAgain c) :
    ∃ fields', defs.mapM (fun d => readField? type d (found d.name)) =
        .ok fields' ∧
      List.Forall₂ Ast.EqualField fields' fields := by
  induction defs generalizing fields with
  | nil =>
    obtain rfl : fields = [] := List.map_eq_nil_iff.1 hnames
    exact ⟨[], rfl, .nil⟩
  | cons d defs ih =>
    cases fields with
    | nil => exact absurd hnames (by simp)
    | cons field fields =>
      obtain ⟨name, value⟩ := field
      simp only [List.map_cons, List.cons.injEq] at hnames
      obtain ⟨rfl, hnames⟩ := hnames
      rw [List.zip_cons_cons, List.forall_mem_cons] at hshapes
      rw [List.forall_mem_cons] at hfound hfinite hnodes
      obtain ⟨value', hread, hequal⟩ :=
        exists_readValue hshapes.1 hfinite.1 hnodes.1
          ("field " ++ Text.backquote d.name ++ " of " ++ Text.backquote type)
      obtain ⟨fields', hreads, hequals⟩ :=
        ih hnames hshapes.2 hfound.2 hfinite.2 hnodes.2
      refine ⟨(d.name, value') :: fields', ?_, .cons ⟨rfl, hequal⟩ hequals⟩
      have hfield :
          readField? type d (found d.name) = .ok (d.name, value') := by
        rw [hfound.1, readField?_some hread]
      rw [List.mapM_cons, hfield, hreads]
      rfl

/-- By induction over the tree, it is read again wherever it stands. -/
theorem readsAgain_of_conforms (hkeys : g.KeysApart) {t : Ast} :
    g.Conforms t → t.FiniteNumbers → g.ReadsAgain t := by
  induction t using Branching.induction with
  | step t ih =>
    intro hconforms hfinite place
    cases hconforms with
    | @node type fields defs hdefs hnames hshapes hbelow =>
      have hnodup := hkeys type defs hdefs
      rw [← hnames] at hnodup
      have hnodes : ∀ field ∈ fields, ∀ c ∈ field.2.nodes,
          g.ReadsAgain c := fun field hfield c hc => by
        have hchild : c ∈ (Ast.node type fields).children :=
          List.mem_flatMap.2 ⟨field, hfield, hc⟩
        exact ih c hchild (hbelow c hchild) (hfinite.of_mem_children hchild)
      rw [← Ast.map_fst_membersOf type] at hnodup
      have hfound :
          ∀ field ∈ fields, member? (readings g (("type", .string type) ::
            Ast.membersOf fields)) field.1 =
            some fun shape place => readValue g
              (Ast.valueToJson field.2) shape place := fun field hfield => by
        refine member?_readings hnodup (List.mem_cons_of_mem _ ?_)
        rw [Ast.membersOf_eq]
        exact List.mem_map.2 ⟨field, hfield, rfl⟩
      obtain ⟨fields', hreads, hequals⟩ :=
        exists_mapM_readField? type hnames hshapes hfound
          (hfinite _ (Branching.mem_nodes_self _)) hnodes
      refine ⟨.node type fields', ?_, Ast.equal_node.2 ⟨rfl, hequals⟩⟩
      rw [Ast.toJson, readNode, readObject, typeOf?, member?_eq_lookup hnodup,
        List.lookup_cons_self]
      simp only [assemble, hdefs, hreads]
      rfl

/-- A tree that a grammar accepts, with finite numbers only, is read again as an
equal one from the JSON value that it is written as. -/
theorem exists_read_of_check {text : String} {g : Grammar} {t : Ast}
    (hgrammar : ofText text = .ok g) (hcheck : g.check t = .ok ())
    (hfinite : t.FiniteNumbers) :
    ∃ t', g.read t.toJson = .ok t' ∧ t'.equal t = true ∧ t.equal t' = true := by
  obtain ⟨t', hread, hequal⟩ :=
    readsAgain_of_conforms (keysApart_of_validate (validate_of_ofText hgrammar))
      (conforms_of_check hcheck) hfinite "the root"
  exact ⟨t', hread, hequal, Ast.equal_symm hequal⟩

/-- A table with a field of each shape. -/
def sampleTable : String :=
  "[\"1\", \"Pair\", " ++
    "\x7b\"Pair\": [[\"first\", \"node\"], [\"second\", \"optional\"], " ++
      "[\"more\", \"list\"]], " ++
    "\"Leaf\": [[\"value\", \"scalar\"]]\x7d]"

def sampleGrammar : Grammar where
  version := "1"
  root := "Pair"
  types :=
    [("Pair", [⟨"first", .node⟩, ⟨"second", .optional⟩, ⟨"more", .list⟩]),
      ("Leaf", [⟨"value", .scalar⟩])]

/-- A tree with a number that is a negative zero, one with a fraction and one
beyond the safe integers. -/
def sampleTree : Ast :=
  .node "Pair"
    [("first", .node (leaf (.number (.zero true)))),
      ("second", .absent),
      ("more", .list [leaf .null, leaf (.number (.ofRatio true 1 3)),
        leaf (.number (.ofNat 9007199254740994))])]
where
  leaf (s : Scalar) : Ast := .node "Leaf" [("value", .scalar s)]

theorem exists_read_of_check_sample :
    ∃ t', sampleGrammar.read sampleTree.toJson = .ok t' ∧
      t'.equal sampleTree = true ∧ sampleTree.equal t' = true :=
  have hgrammar : ofText sampleTable = .ok sampleGrammar := by decide +kernel
  exists_read_of_check hgrammar (by decide +kernel) (by decide +kernel)

end Grammar

end Lossless
