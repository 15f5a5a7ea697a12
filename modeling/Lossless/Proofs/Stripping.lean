import Lossless.Proofs.Enclosing

/-!
# Which concrete trees stand for a syntax tree

A concrete tree may hold virtual nodes anywhere, and they may wrap anything,
other virtual nodes included. `virtuals` lists what they wrap. There is a
syntax tree inside just where each wraps a list or nothing
(`isSome_plain_iff`). Elsewhere `strip` blames a node with a field that holds
some other virtual node (`misfit_of_strip`): every field takes as many of the
children's trees as it holds, so that no later field finds one missing
(`strip_value`). A lifted tree has no virtual nodes, and the tree that it was
lifted from is inside it (`plain_ofAst`).
-/

namespace Lossless

namespace Cst

/-! ### Virtual nodes anywhere in a tree -/

mutual

/-- What the virtual nodes of a tree wrap. -/
def virtuals : Cst → List (Option Value)
  | .node _ fields _ => fieldsVirtuals fields

/-- What the virtual nodes below some fields wrap. -/
def fieldsVirtuals : List (String × Value) → List (Option Value)
  | [] => []
  | (_, value) :: fields => valueVirtuals value ++ fieldsVirtuals fields

/-- What the virtual nodes of a field wrap, those inside one
another included. -/
def valueVirtuals : Value → List (Option Value)
  | .node child => virtuals child
  | .absent | .scalar _ => []
  | .list items => itemsVirtuals items
  | .virtual _ none _ => [none]
  | .virtual _ (some value) _ => some value :: valueVirtuals value

/-- What the virtual nodes of the trees of a list wrap. -/
def itemsVirtuals : List Cst → List (Option Value)
  | [] => []
  | item :: items => virtuals item ++ itemsVirtuals items

end

/-- What a virtual node may wrap to stand for a list: the list itself, or
nothing for the empty one. -/
inductive ListOrNothing : Option Value → Prop
  | nothing : ListOrNothing none
  | list (items : List Cst) : ListOrNothing (some (.list items))

theorem isSome_bind_bind {α β γ : Type} {x : Option α} {y : Option β}
    {f : α → β → γ} :
    (x >>= fun a => y >>= fun b => some (f a b)).isSome ↔
      x.isSome ∧ y.isSome := by
  cases x <;> cases y <;> simp

mutual

/-- There is a syntax tree inside a concrete tree if every virtual node wraps a
list or nothing. -/
theorem isSome_plain_iff (t : Cst) :
    t.plain.isSome ↔ ∀ wrapped ∈ t.virtuals, ListOrNothing wrapped := by
  match t with
  | .node type fields extras =>
    rw [plain, Option.isSome_map, virtuals]
    exact isSome_plainFields_iff fields

theorem isSome_plainFields_iff (fields : List (String × Value)) :
    (plainFields fields).isSome ↔
      ∀ wrapped ∈ fieldsVirtuals fields, ListOrNothing wrapped := by
  match fields with
  | [] => exact ⟨fun _ wrapped h => absurd h List.not_mem_nil, fun _ => rfl⟩
  | (name, value) :: fields =>
    rw [plainFields, fieldsVirtuals, isSome_bind_bind,
      isSome_plainValue_iff value, isSome_plainFields_iff fields,
      List.forall_mem_append]

theorem isSome_plainValue_iff (value : Value) :
    (plainValue value).isSome ↔
      ∀ wrapped ∈ valueVirtuals value, ListOrNothing wrapped := by
  match value with
  | .node child =>
    rw [plainValue, Option.isSome_map, valueVirtuals]
    exact isSome_plain_iff child
  | .absent | .scalar _ =>
    exact ⟨fun _ wrapped h => absurd h List.not_mem_nil, fun _ => rfl⟩
  | .list items =>
    rw [plainValue, Option.isSome_map, valueVirtuals]
    exact isSome_plainItems_iff items
  | .virtual _ none _ =>
    exact ⟨fun _ => List.forall_mem_singleton.2 .nothing, fun _ => rfl⟩
  | .virtual _ (some (.list items)) _ =>
    rw [plainValue, Option.isSome_map, valueVirtuals, List.forall_mem_cons,
      valueVirtuals]
    exact (isSome_plainItems_iff items).trans (and_iff_right (.list items)).symm
  -- the virtual node itself is to blame, whatever is inside the
  -- value that it wraps
  | .virtual _ (some (.node _)) _ | .virtual _ (some .absent) _
  | .virtual _ (some (.scalar _)) _ | .virtual _ (some (.virtual ..)) _ =>
    refine iff_of_false (fun h => nomatch h) fun h => ?_
    rw [valueVirtuals] at h
    cases h _ List.mem_cons_self

theorem isSome_plainItems_iff (items : List Cst) :
    (plainItems items).isSome ↔
      ∀ wrapped ∈ itemsVirtuals items, ListOrNothing wrapped := by
  match items with
  | [] => exact ⟨fun _ wrapped h => absurd h List.not_mem_nil, fun _ => rfl⟩
  | item :: items =>
    rw [plainItems, itemsVirtuals, isSome_bind_bind, isSome_plain_iff item,
      isSome_plainItems_iff items, List.forall_mem_append]

end

/-! ### Trees that are refused -/

/-- The faults that a virtual node in a field of a node of a type may have. -/
inductive Misfit (type : String) : CstError → Prop
  | nested (role : VirtualRole) :
      Misfit type (.malformed (.node type) (.nestedVirtual role))
  | wrapsNoList (role : VirtualRole) :
      Misfit type (.malformed (.node type) (.wrapsNoList role))

/-- A value takes as many nodes from the supply as it holds, or it is a virtual
node that is at fault. -/
theorem strip_value (type : String) {supply : List Ast} {value : Value}
    (h : value.nodes.length ≤ supply.length) :
    (∃ value',
      value.strip type supply = .ok (value', supply.drop value.nodes.length)) ∨
      ∃ e, Misfit type e ∧ value.strip type supply = .error e := by
  match value with
  | .node child =>
    match supply with
    | a :: supply => exact .inl ⟨.node a, rfl⟩
  | .absent => exact .inl ⟨.absent, rfl⟩
  | .scalar s => exact .inl ⟨.scalar s, rfl⟩
  | .list items => exact .inl ⟨.list (supply.take items.length), rfl⟩
  | .virtual role wrapped extras =>
    rw [Value.strip_virtual]
    match wrapped with
    | none => exact .inl ⟨.list [], rfl⟩
    | some (.list items) => exact .inl ⟨.list (supply.take items.length), rfl⟩
    | some (.virtual ..) => exact .inr ⟨_, .nested role, rfl⟩
    | some (.node _) | some .absent | some (.scalar _) =>
      exact .inr ⟨_, .wrapsNoList role, rfl⟩

theorem misfit_of_stripFields {type : String} {supply : List Ast}
    {fields : List (String × Value)} {e : CstError}
    (hlength : (fields.flatMap fun field => field.2.nodes).length ≤
      supply.length) (h : stripFields type supply fields = .error e) :
    Misfit type e := by
  induction fields generalizing supply with
  | nil => cases h
  | cons field fields ih =>
    obtain ⟨name, value⟩ := field
    have hlengths : value.nodes.length +
          (fields.flatMap fun field => field.2.nodes).length ≤
        supply.length := by
      rwa [List.flatMap_cons, List.length_append] at hlength
    have hown : value.nodes.length ≤ supply.length := by omega
    rw [stripFields] at h
    rcases strip_value type hown with ⟨value', hvalue⟩ | ⟨e', hmisfit, hvalue⟩
    · rw [hvalue, Outcome.ok_bind] at h
      rcases Outcome.bind_eq_error.1 h with hfields | ⟨others, -, h⟩
      · exact ih
          (by rw [List.length_drop]; exact Nat.le_sub_of_add_le' hlengths)
          hfields
      · cases h
    · rw [hvalue] at h
      cases h
      exact hmisfit

/-- A tree is refused for a virtual node that a field of one of
its nodes holds. -/
theorem misfit_of_strip {t : Cst} {e : CstError} (h : t.strip = .error e) :
    ∃ u ∈ Branching.nodes t, Misfit u.type e := by
  induction t using Branching.induction with
  | step t ih =>
    rw [strip, Branching.fold_eq] at h
    rcases Outcome.bind_eq_error.1 h with hchildren | ⟨trees, htrees, h⟩
    · obtain ⟨c, hc, herror⟩ := Outcome.exists_error_of_mapM hchildren
      obtain ⟨u, hu, hmisfit⟩ := ih c hc herror
      exact ⟨u, Branching.mem_nodes_of_mem_children hc hu, hmisfit⟩
    · rcases Outcome.bind_eq_error.1 h with hfields | ⟨fields, -, h⟩
      · refine ⟨t, Branching.mem_nodes_self t, misfit_of_stripFields ?_ hfields⟩
        exact Nat.le_of_eq (Outcome.length_of_mapM htrees).symm
      · cases h

/-! ### Lifted trees -/

theorem plainItems_ofAst {items : List Ast}
    (h : ∀ a ∈ items, (ofAst a).plain = some a) :
    plainItems (items.map ofAst) = some items := by
  induction items with
  | nil => rfl
  | cons item items ih =>
    obtain ⟨hitem, hitems⟩ := List.forall_mem_cons.1 h
    rw [List.map_cons, plainItems, hitem, ih hitems]
    rfl

theorem plainValue_liftValue {value : Ast.Value}
    (h : ∀ a ∈ value.nodes, (ofAst a).plain = some a) :
    plainValue (liftValue value) = some value := by
  cases value with
  | node child =>
    rw [liftValue, plainValue, h child List.mem_cons_self, Option.map_some]
  | absent => rfl
  | list items =>
    have hitems : plainItems (items.map ofAst) = some items :=
      plainItems_ofAst h
    rw [liftValue, plainValue, hitems, Option.map_some]
  | scalar s => rfl

/-- The syntax tree inside a lifted tree is the one that it was lifted from. -/
theorem plain_ofAst (a : Ast) : (ofAst a).plain = some a := by
  induction a using Branching.induction with
  | step a ih =>
    obtain ⟨type, fields⟩ := a
    have hfields :
        plainFields (fields.map fun field => (field.1, liftValue field.2)) =
          some fields := by
      replace ih : ∀ a ∈ fields.flatMap fun field => field.2.nodes,
        (ofAst a).plain = some a := ih
      induction fields with
      | nil => rfl
      | cons field fields ihFields =>
        rw [List.flatMap_cons] at ih
        obtain ⟨hfirst, hrest⟩ := List.forall_mem_append.1 ih
        rw [List.map_cons, plainFields, plainValue_liftValue hfirst,
          ihFields hrest]
        rfl
    rw [ofAst_node, plain, hfields, Option.map_some]

/-- A concrete tree is stripped to the syntax tree inside it, which is there if
every virtual node wraps a list or nothing. Otherwise it is refused for a
virtual node of one of its nodes. A lifted tree is stripped to the tree that it
was lifted from. -/
theorem strip_verdict :
    (∀ t : Cst,
      ((∃ a, t.strip = .ok a) ↔ ∀ wrapped ∈ t.virtuals, ListOrNothing wrapped) ∧
      (∀ a, t.strip = .ok a ↔ t.plain = some a) ∧
      ∀ e, t.strip = .error e → ∃ u ∈ Branching.nodes t, Misfit u.type e) ∧
      ∀ a : Ast, (ofAst a).strip = .ok a := by
  refine ⟨fun t =>
      ⟨?_, fun a => ⟨plain_of_strip, strip_of_plain⟩, fun e => misfit_of_strip⟩,
    fun a => strip_of_plain (plain_ofAst a)⟩
  rw [← isSome_plain_iff, Option.isSome_iff_exists]
  exact exists_congr fun a => ⟨plain_of_strip, strip_of_plain⟩

end Cst

end Lossless
