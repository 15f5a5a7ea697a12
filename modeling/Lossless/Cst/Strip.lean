import Lossless.Cst.Basic

/-!
# The syntax tree inside a concrete tree

`strip` drops all extras and puts in the place of every virtual node the list
that it wraps, or the empty list if it wraps nothing. A tree with a virtual node
that wraps anything else has no syntax tree.
-/

namespace Lossless

namespace Cst

/-- The node at the front of a supply, for a field of a node of a type, and what
is left of the supply. -/
def takeNode (type : String) : List Ast → Except CstError (Ast.Value × List Ast)
  | child :: supply => .ok (.node child, supply)
  | [] => .error (.malformed (.node type) .childMissing)

/-- As many nodes from the front of a supply as there are items, and what is
left of the supply. -/
def takeList (supply : List Ast) (items : List Cst) : Ast.Value × List Ast :=
  (.list (supply.take items.length), supply.drop items.length)

/-- What a field of a node of a type stands for, with nodes taken from the front
of a supply, as many as the field holds, and what is left of the supply. What a
virtual node wraps has to be of the shape of its role. -/
def Value.strip (type : String) (supply : List Ast) :
    Value → Except CstError (Ast.Value × List Ast)
  | .node _ => takeNode type supply
  | .absent => .ok (.absent, supply)
  | .list items => .ok (takeList supply items)
  | .scalar s => .ok (.scalar s, supply)
  | .virtual role wrapped _ =>
    match role.shape, wrapped with
    | .list, none => .ok (.list [], supply)
    | .optional, none => .ok (.absent, supply)
    | _, some (.virtual ..) =>
      .error (.malformed (.node type) (.nestedVirtual role))
    | .list, some (.list items) => .ok (takeList supply items)
    | .node, some (.node _) | .optional, some (.node _) => takeNode type supply
    | .optional, some .absent => .ok (.absent, supply)
    | .scalar, some (.scalar s) => .ok (.scalar s, supply)
    | _, _ => .error (.malformed (.node type) (.wrapsNoList role))

/-- Every role stands for a list, which may be empty. -/
theorem Value.strip_virtual (type : String) (supply : List Ast)
    (role : VirtualRole) (wrapped : Option Value) (extras : Extras) :
    Value.strip type supply (.virtual role wrapped extras) = match wrapped with
      | none => .ok (.list [], supply)
      | some (.list items) => .ok (takeList supply items)
      | some (.virtual ..) =>
        .error (.malformed (.node type) (.nestedVirtual role))
      | some _ => .error (.malformed (.node type) (.wrapsNoList role)) := by
  rcases wrapped with _ | _ | _ | _ | _ | _ <;> cases role <;> rfl

/-- What the fields of a node of a type stand for, one after another. -/
def stripFields (type : String) (supply : List Ast) :
    List (String × Value) → Except CstError (List (String × Ast.Value))
  | [] => .ok []
  | (name, value) :: fields => do
    let (value, supply) ← value.strip type supply
    let fields ← stripFields type supply fields
    .ok ((name, value) :: fields)

/-- The syntax tree inside a concrete tree, worked out from the leaves up. -/
def strip (t : Cst) : Except CstError Ast :=
  Branching.fold (fun t
    parts => do .ok (.node t.type (← stripFields t.type parts t.fields))) t

end Cst

end Lossless
