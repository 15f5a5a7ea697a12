import Lossless.Grammar.Shape
import Lossless.Proofs.Named
import Lossless.Proofs.Walk

/-!
# Trees that fit a grammar

`Conforms` says of a tree, by recursion, what `check` tests along a walk: every
node has a declared type, exactly the declared fields in the declared order, and
values of the declared shapes. A tree that passes the check conforms
(`conforms_of_check`), and one that conforms passes it (`check_of_conforms`).
-/

namespace Lossless

/-- The nodes of a field are children of its node. -/
theorem Ast.mem_children {type name : String}
    {fields : List (String × Ast.Value)} {value : Ast.Value} {t : Ast}
    (hvalue : fields.lookup name = some value) (ht : t ∈ value.nodes) :
    t ∈ Branching.children (Ast.node type fields) :=
  List.mem_flatMap.2 ⟨_, Named.mem_of_lookup hvalue, ht⟩

namespace Grammar

/-- Every node of a tree has a declared type with exactly the declared fields in
order, and its fields hold values of the declared shapes. -/
inductive Conforms (g : Grammar) : Ast → Prop
  | node {type : String} {fields : List (String × Ast.Value)}
      {defs : List FieldDef} (declared : g.fields? type = some defs)
      (names : fields.map Prod.fst = defs.map FieldDef.name)
      (shapes : ∀ x ∈ defs.zip fields, x.1.shape.fits x.2.2 = true)
      (below : ∀ c ∈ Branching.children (Ast.node type fields), Conforms g c) :
      Conforms g (.node type fields)

theorem checkNode_eq_ok {g : Grammar} {t : Ast} (h : g.checkNode t = .ok ()) :
    ∃ defs, g.fields? t.type = some defs ∧
      t.fieldNames = defs.map FieldDef.name ∧
      ∀ x ∈ defs.zip t.fields, x.1.shape.fits x.2.2 = true := by
  rw [checkNode] at h
  cases hdefs : g.fields? t.type with
  | none => simp [hdefs] at h
  | some defs =>
    simp only [hdefs] at h
    split at h
    · exact nomatch h
    · rename_i hnames
      refine ⟨defs, rfl, Classical.not_not.1 hnames, ?_⟩
      split at h
      · exact nomatch h
      · rename_i hfind
        intro x hx
        have := List.find?_eq_none.1 hfind x hx
        simpa using this

theorem checkNodes_eq_ok {g : Grammar} {ts : List Ast}
    (h : g.checkNodes ts = .ok ()) : ∀ t ∈ ts, g.checkNode t = .ok () := by
  induction ts with
  | nil => exact fun t ht => absurd ht List.not_mem_nil
  | cons u ts ih =>
    rw [checkNodes] at h
    cases hu : g.checkNode u with
    | error e => simp [hu] at h
    | ok _ =>
      simp only [hu] at h
      intro t ht
      rcases List.mem_cons.1 ht with rfl | ht
      · exact hu
      · exact ih h t ht

theorem conforms_of_checkNode {g : Grammar} (t : Ast)
    (h : ∀ u ∈ Branching.nodes t, g.checkNode u = .ok ()) : g.Conforms t := by
  induction t using Branching.induction with
  | step t ih =>
    rcases checkNode_eq_ok (h t (Branching.mem_nodes_self t)) with
      ⟨defs, hdefs, hnames, hshapes⟩
    cases t with
    | node type fields =>
      refine .node hdefs hnames hshapes fun c hc => ih c hc fun u hu => ?_
      exact h u (Branching.mem_nodes_of_mem_children hc hu)

theorem type_of_check {g : Grammar} {t : Ast} (h : g.check t = .ok ()) :
    t.type = g.root := by
  rw [check] at h
  split at h
  · exact nomatch h
  · rename_i hroot
    exact Classical.not_not.1 hroot

/-- A tree that passes the check conforms. -/
theorem conforms_of_check {g : Grammar} {t : Ast} (h : g.check t = .ok ()) :
    g.Conforms t := by
  rw [check, if_neg (Classical.not_not.2 (type_of_check h))] at h
  exact conforms_of_checkNode t (checkNodes_eq_ok h)

theorem checkNode_of_fits {g : Grammar} {t : Ast} {defs : List FieldDef}
    (hdefs : g.fields? t.type = some defs)
    (hnames : t.fieldNames = defs.map FieldDef.name)
    (hshapes : ∀ x ∈ defs.zip t.fields, x.1.shape.fits x.2.2 = true) :
    g.checkNode t = .ok () := by
  have hfind :
      (defs.zip t.fields).find? (fun x => !x.1.shape.fits x.2.2) = none := by
    refine List.find?_eq_none.2 fun x hx => ?_
    rw [hshapes x hx]
    exact Bool.false_ne_true
  rw [checkNode, hdefs]
  simp only
  rw [if_neg (Classical.not_not.2 hnames), hfind]

theorem checkNode_of_conforms {g : Grammar} {t : Ast} (h : g.Conforms t) :
    g.checkNode t = .ok () := by
  cases h with
  | node hdeclared hnames hshapes hbelow =>
    exact checkNode_of_fits hdeclared hnames hshapes

theorem conforms_of_mem_nodes {g : Grammar} {t u : Ast} (h : g.Conforms t)
    (hu : u ∈ Branching.nodes t) : g.Conforms u := by
  induction t using Branching.induction with
  | step t ih =>
    rw [Branching.nodes_eq] at hu
    rcases List.mem_cons.1 hu with rfl | hlower
    · exact h
    · rcases List.mem_flatMap.1 hlower with ⟨c, hc, huc⟩
      cases h with
      | node hdeclared hnames hshapes hbelow => exact ih c hc (hbelow c hc) huc

/-- A tree that conforms passes the check, if its root has the type that the
grammar asks for. -/
theorem check_of_conforms {g : Grammar} {t : Ast} (htype : t.type = g.root)
    (h : g.Conforms t) : g.check t = .ok () := by
  rw [check, if_neg (Classical.not_not.2 htype)]
  have hall : ∀ ts : List Ast, (∀ u ∈ ts, g.checkNode u = .ok ()) →
      g.checkNodes ts = .ok () := by
    intro ts hts
    induction ts with
    | nil => rfl
    | cons u ts ih =>
      rw [checkNodes, hts u List.mem_cons_self]
      exact ih fun u hu => hts u (List.mem_cons_of_mem _ hu)
  exact hall _ fun u hu => checkNode_of_conforms (conforms_of_mem_nodes h hu)

/-! ### Fields by name -/

/-- No type declares a field twice. -/
def Distinct (g : Grammar) : Prop :=
  ∀ type declared, g.fields? type = some declared →
    (declared.map FieldDef.name).Nodup

theorem nodup_of_fieldFault? {type : String} {earlier : List String}
    {defs : List FieldDef} (h : fieldFault? type earlier defs = none) :
    (defs.map FieldDef.name).Nodup ∧ ∀ d ∈ defs, d.name ∉ earlier := by
  induction defs generalizing earlier with
  | nil => exact ⟨List.nodup_nil, fun _ hd => absurd hd List.not_mem_nil⟩
  | cons d defs ih =>
    rw [fieldFault?] at h
    split at h
    · exact nomatch h
    · split at h
      · exact nomatch h
      · rename_i hearlier
        rcases ih h with ⟨hnodup, hnot⟩
        refine ⟨?_, fun d' hd' => ?_⟩
        · rw [List.map_cons, List.nodup_cons]
          refine ⟨fun hmem => ?_, hnodup⟩
          rcases List.mem_map.1 hmem with ⟨d', hd', hname⟩
          exact hnot d' hd'
            (hname ▸ List.mem_append_right _ (List.mem_singleton_self _))
        · rcases List.mem_cons.1 hd' with rfl | hd'
          · exact hearlier
          · exact fun hmem => hnot d' hd' (List.mem_append_left _ hmem)

/-- In a grammar that passes its own check the fields of no
type have a fault. -/
theorem fieldFault?_of_validate {g : Grammar} (h : g.validate = .ok g)
    {type : String} {defs : List FieldDef}
    (hdefs : g.fields? type = some defs) : fieldFault? type [] defs = none := by
  have hfault : g.fault? = none := by
    rw [validate] at h
    split at h
    · cases h
    · assumption
  rw [fault?] at hfault
  split at hfault
  · cases hfault
  · exact List.findSome?_eq_none_iff.1 hfault (type, defs)
      (Named.mem_of_lookup hdefs)

/-- A grammar that passes its own check declares no field twice. -/
theorem distinct_of_validate {g : Grammar} (h : g.validate = .ok g) :
    g.Distinct :=
  fun _ _ hdeclared =>
    (nodup_of_fieldFault? (fieldFault?_of_validate h hdeclared)).1

/-- A declared field is found under its name, with a value of its shape. -/
theorem exists_field {defs : List FieldDef} {fields : List (String × Ast.Value)}
    {d : FieldDef} (hdistinct : (defs.map FieldDef.name).Nodup)
    (hnames : fields.map Prod.fst = defs.map FieldDef.name)
    (hshapes : ∀ x ∈ defs.zip fields, x.1.shape.fits x.2.2 = true)
    (hd : d ∈ defs) :
    ∃ value, fields.lookup d.name = some value ∧ d.shape.fits value = true := by
  induction defs generalizing fields with
  | nil => exact absurd hd List.not_mem_nil
  | cons d' defs ih =>
    cases fields with
    | nil => exact nomatch hnames
    | cons field fields =>
      rcases field with ⟨name, value⟩
      simp only [List.map_cons, List.cons.injEq] at hnames
      rcases hnames with ⟨rfl, hnames⟩
      rw [List.map_cons, List.nodup_cons] at hdistinct
      rcases List.mem_cons.1 hd with rfl | hd
      · exact ⟨value, List.lookup_cons_self,
          hshapes (d, (d.name, value)) List.mem_cons_self⟩
      · have hne : d.name ≠ d'.name :=
          fun he => hdistinct.1 (he ▸ List.mem_map.2 ⟨d, hd, rfl⟩)
        have hbeq : (d.name == d'.name) = false := by simpa using hne
        rw [List.lookup_cons, hbeq]
        exact ih hdistinct.2 hnames
          (fun x hx => hshapes x (List.mem_cons_of_mem _ hx)) hd

end Grammar

end Lossless
