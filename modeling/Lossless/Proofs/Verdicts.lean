import Lossless.Proofs.Conformance
import Lossless.Proofs.Traversals

/-!
# What a check finds

A grammar declares a node when it has the node's type and the node has just the
declared fields, in order, with values of the declared shapes; `Defect` are the
ways in which it fails to. A tree passes the check when its root has the root
type and every node is declared. Otherwise the root is blamed, or the first node
that is not declared in the order in which a recursion comes to the nodes
(`check_verdict`).
-/

namespace Lossless

/-- The nodes of a tree, each in front of those below it, in the
order of the fields. -/
def Ast.preorder (t : Ast) : List Ast :=
  t.recurse fun t below => t :: below.flatten

theorem Ast.preorder_eq_nodes (t : Ast) : t.preorder = Branching.nodes t := by
  refine (Branching.eq_of_recursion (Ast.recurse_eq _) (fun t => ?_) t).symm
  rw [Branching.nodes_eq, List.flatMap_def]

/-- What a field of a shape may hold. -/
inductive FieldShape.Admits : FieldShape → Ast.Value → Prop
  | node (child : Ast) : Admits .node (.node child)
  | present (child : Ast) : Admits .optional (.node child)
  | absent : Admits .optional .absent
  | list (items : List Ast) : Admits .list (.list items)
  | scalar (s : Scalar) : Admits .scalar (.scalar s)

theorem FieldShape.fits_iff {shape : FieldShape} {value : Ast.Value} :
    shape.fits value = true ↔ shape.Admits value := by
  constructor
  · intro h
    revert h
    fun_cases FieldShape.fits shape value with
    | case1 child => exact fun _ => .node child
    | case2 child => exact fun _ => .present child
    | case3 => exact fun _ => .absent
    | case4 items => exact fun _ => .list items
    | case5 s => exact fun _ => .scalar s
    | case6 => exact fun h => nomatch h
  · intro h
    cases h <;> rfl

/-- A field has the declared name and holds a value of the declared shape. -/
def FieldDef.Declares (d : FieldDef) (field : String × Ast.Value) : Prop :=
  field.1 = d.name ∧ d.shape.Admits field.2

namespace Grammar

variable {g : Grammar}

/-- A node by itself is one of the grammar: it has a declared type and just the
declared fields in order. -/
def Declares (g : Grammar) (u : Ast) : Prop :=
  ∃ defs, g.fields? u.type = some defs ∧
    List.Forall₂ FieldDef.Declares defs u.fields

/-- What is wrong with a node that is not declared: its type, or else the
names of its fields, or else the shape of the first field that does not have
the declared one. -/
inductive Defect (g : Grammar) (u : Ast) : ShapeError → Prop
  | unknownType (hdefs : g.fields? u.type = none) :
      Defect g u (.unknownType u.type)
  | fieldSet {defs : List FieldDef} (hdefs : g.fields? u.type = some defs)
    (hnames : u.fieldNames ≠ defs.map FieldDef.name) :
    Defect g u (.fieldSet u.type (defs.map FieldDef.name) u.fieldNames)
  | fieldShape {front behind : List FieldDef} {d : FieldDef}
      {fields others : List (String × Ast.Value)} {value : Ast.Value}
      (hdefs : g.fields? u.type = some (front ++ d :: behind))
      (hnames : u.fieldNames = (front ++ d :: behind).map FieldDef.name)
      (hfields : u.fields = fields ++ (d.name, value) :: others)
      (hfront : List.Forall₂ FieldDef.Declares front fields)
      (hvalue : ¬d.shape.Admits value) :
      Defect g u (.fieldShape u.type d.name d.shape)

/-! ### One node -/

theorem forall₂_declares_iff {defs : List FieldDef}
    {fields : List (String × Ast.Value)} :
    List.Forall₂ FieldDef.Declares defs fields ↔
      fields.map Prod.fst = defs.map FieldDef.name ∧
        ∀ x ∈ defs.zip fields, x.1.shape.fits x.2.2 = true := by
  induction defs generalizing fields with
  | nil => cases fields <;> simp
  | cons d defs ih =>
    cases fields with
    | nil => simp
    | cons field fields =>
      simp only [List.forall₂_cons, ih, List.map_cons, List.cons.injEq,
        List.zip_cons_cons, List.forall_mem_cons, FieldDef.Declares,
        FieldShape.fits_iff]
      tauto

theorem checkNode_eq_ok_iff {u : Ast} :
    g.checkNode u = .ok () ↔ g.Declares u := by
  constructor
  · intro h
    obtain ⟨defs, hdefs, hnames, hshapes⟩ := checkNode_eq_ok h
    exact ⟨defs, hdefs, forall₂_declares_iff.2 ⟨hnames, hshapes⟩⟩
  · rintro ⟨defs, hdefs, hfields⟩
    obtain ⟨hnames, hshapes⟩ := forall₂_declares_iff.1 hfields
    exact checkNode_of_fits hdefs hnames hshapes

/-- The first field of a wrong shape splits the declared fields and those of the
node at one place. -/
theorem exists_split_of_find? {defs : List FieldDef}
    {fields : List (String × Ast.Value)} {d : FieldDef}
    {field : String × Ast.Value}
    (hnames : fields.map Prod.fst = defs.map FieldDef.name)
    (h : (defs.zip fields).find? (fun x => !x.1.shape.fits x.2.2) =
      some (d, field)) :
    ∃ front behind before others, defs = front ++ d :: behind ∧
      fields = before ++ field :: others ∧
      field.1 = d.name ∧ List.Forall₂ FieldDef.Declares front before ∧
      ¬d.shape.Admits field.2 := by
  induction defs generalizing fields with
  | nil => exact nomatch h
  | cons d' defs ih =>
    cases fields with
    | nil => exact nomatch hnames
    | cons field' fields =>
      simp only [List.map_cons, List.cons.injEq] at hnames
      rw [List.zip_cons_cons, List.find?_cons] at h
      split at h
      case h_1 hmisfit =>
        obtain ⟨rfl, rfl⟩ := Prod.mk.inj (Option.some.inj h)
        refine ⟨[], defs, [], fields, rfl, rfl, hnames.1, .nil,
          fun hadmits => ?_⟩
        rw [FieldShape.fits_iff.2 hadmits] at hmisfit
        exact nomatch hmisfit
      case h_2 hfits =>
        obtain ⟨front, behind, before, others, rfl, rfl, hname, hfront,
          hvalue⟩ := ih hnames.2 h
        have hadmits : d'.shape.Admits field'.2 :=
          FieldShape.fits_iff.1 (by simpa using hfits)
        have hfront' := List.Forall₂.cons ⟨hnames.1, hadmits⟩ hfront
        exact ⟨d' :: front, behind, field' :: before, others, rfl, rfl, hname,
          hfront', hvalue⟩

theorem find?_of_split {front behind : List FieldDef}
    {before others : List (String × Ast.Value)} {d : FieldDef}
    {field : String × Ast.Value}
    (hfront : List.Forall₂ FieldDef.Declares front before)
    (hvalue : ¬d.shape.Admits field.2) :
    ((front ++ d :: behind).zip (before ++ field :: others)).find? (fun x =>
      !x.1.shape.fits x.2.2) =
      some (d, field) := by
  have hmisfit : d.shape.fits field.2 = false := by
    rw [← Bool.not_eq_true, FieldShape.fits_iff]
    exact hvalue
  have hfits := (forall₂_declares_iff.1 hfront).2
  rw [List.zip_append hfront.length_eq, List.zip_cons_cons,
    List.find?_append, List.find?_eq_none.2 fun x
      hx => by rw [hfits x hx]; exact Bool.false_ne_true]
  simp [hmisfit]

theorem checkNode_eq_error_iff {u : Ast} {e : ShapeError} :
    g.checkNode u = .error e ↔ g.Defect u e := by
  constructor
  · intro h
    rw [checkNode] at h
    split at h
    case h_1 hdefs =>
      cases h
      exact .unknownType hdefs
    case h_2 defs hdefs =>
      simp only at h
      split at h
      case isTrue hnames =>
        cases h
        exact .fieldSet hdefs hnames
      case isFalse hnames =>
        split at h
        case h_1 d field hfind =>
          cases h
          obtain ⟨name, value⟩ := field
          obtain ⟨front, behind, before, others, rfl, hfields, rfl,
            hfront, hvalue⟩ :=
            exists_split_of_find? (Classical.not_not.1 hnames) hfind
          exact .fieldShape hdefs
            (Classical.not_not.1 hnames) hfields hfront hvalue
        case h_2 => cases h
  · intro h
    cases h with
    | unknownType hdefs => rw [checkNode, hdefs]
    | fieldSet hdefs hnames =>
      rw [checkNode, hdefs]
      exact if_pos hnames
    | fieldShape hdefs hnames hfields hfront hvalue =>
      rw [checkNode, hdefs]
      simp only
      rw [if_neg (Classical.not_not.2 hnames), hfields,
        find?_of_split hfront hvalue]

/-! ### All nodes -/

/-- A tree conforms when each of its nodes is declared. -/
theorem conforms_iff {t : Ast} :
    g.Conforms t ↔ ∀ u ∈ t.preorder, g.Declares u := by
  rw [Ast.preorder_eq_nodes]
  constructor
  · exact fun h u hu =>
      checkNode_eq_ok_iff.1 (checkNode_of_conforms (conforms_of_mem_nodes h hu))
  · exact fun h => conforms_of_checkNode t fun u hu =>
      checkNode_eq_ok_iff.2 (h u hu)

theorem checkNodes_eq_ok_iff {ts : List Ast} :
    g.checkNodes ts = .ok () ↔ ∀ u ∈ ts, g.Declares u := by
  induction ts with
  | nil => simp [checkNodes]
  | cons t ts ih =>
    rw [checkNodes, List.forall_mem_cons, ← ih, ← checkNode_eq_ok_iff]
    cases g.checkNode t <;> simp

/-- The first node with a defect is the one that is blamed. -/
theorem checkNodes_eq_error_iff {ts : List Ast} {e : ShapeError} :
    g.checkNodes ts = .error e ↔
      ∃ front u behind, ts = front ++ u :: behind ∧
        (∀ v ∈ front, g.Declares v) ∧ g.Defect u e := by
  induction ts with
  | nil => simp [checkNodes]
  | cons t ts ih =>
    rw [checkNodes]
    cases ht : g.checkNode t with
    | error e' =>
      constructor
      · intro h
        cases h
        exact ⟨[], t, ts, rfl, fun _ hv => absurd hv List.not_mem_nil,
          checkNode_eq_error_iff.1 ht⟩
      · rintro ⟨front, u, behind, hts, hfront, hu⟩
        cases front with
        | nil =>
          obtain ⟨rfl, -⟩ := List.cons.inj hts
          rw [← checkNode_eq_error_iff, ht] at hu
          exact hu
        | cons v front =>
          obtain ⟨rfl, -⟩ := List.cons.inj hts
          have hok := checkNode_eq_ok_iff.2 (hfront _ List.mem_cons_self)
          rw [ht] at hok
          cases hok
    | ok _ =>
      simp only
      rw [ih]
      constructor
      · rintro ⟨front, u, behind, rfl, hfront, hu⟩
        exact ⟨t :: front, u, behind, rfl,
          List.forall_mem_cons.2 ⟨checkNode_eq_ok_iff.1 ht, hfront⟩, hu⟩
      · rintro ⟨front, u, behind, hts, hfront, hu⟩
        cases front with
        | nil =>
          obtain ⟨rfl, -⟩ := List.cons.inj hts
          rw [← checkNode_eq_error_iff, ht] at hu
          cases hu
        | cons v front =>
          obtain ⟨-, rfl⟩ := List.cons.inj hts
          exact ⟨front, u, behind, rfl,
            fun w hw => hfront w (List.mem_cons_of_mem _ hw), hu⟩

/-- A tree passes the check if its root has the root type and every node is
declared. Otherwise the root is blamed for its type, or the first node that is
not declared for its defect. -/
theorem check_verdict (g : Grammar) (t : Ast) :
    (g.check t = .ok () ↔ t.type = g.root ∧ ∀ u ∈ t.preorder, g.Declares u) ∧
      ∀ e, g.check t = .error e ↔
        (t.type ≠ g.root ∧ e = .unexpectedRoot g.root t.type) ∨
          (t.type = g.root ∧
            ∃ front u behind, t.preorder = front ++ u :: behind ∧
              (∀ v ∈ front, g.Declares v) ∧ g.Defect u e) := by
  rw [check, ← Ast.preorder_eq_nodes]
  by_cases hroot : t.type = g.root
  · rw [if_neg (Classical.not_not.2 hroot)]
    refine ⟨?_, fun e => ?_⟩
    · rw [checkNodes_eq_ok_iff, and_iff_right hroot]
    · rw [checkNodes_eq_error_iff, and_iff_right hroot]
      exact ⟨.inr, fun h => h.resolve_left fun hne => hne.1 hroot⟩
  · rw [if_pos hroot]
    refine ⟨iff_of_false (by simp) fun h => hroot h.1, fun e => ?_⟩
    rw [Except.error.injEq]
    exact ⟨fun h => .inl ⟨hroot, h.symm⟩,
      fun h => (h.resolve_right fun hpass => hroot hpass.1).2.symm⟩

end Grammar

end Lossless
