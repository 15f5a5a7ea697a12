import Lossless.Ast.Basic

/-!
# Equality of syntax trees

Two trees are equal when they have the same types, the same fields in the same
order, lists of the same lengths and equal scalars. The pairs of nodes that are
still to be compared wait on a list, so trees of any depth can be compared.
Equality differs from being the same tree only on numbers.
-/

namespace Lossless

namespace Ast

/-- The pairs of nodes that must be equal for two values to be, if the values
agree themselves. -/
def Value.pairs? : Value → Value → Option (List (Ast × Ast))
  | .node a, .node b => some [(a, b)]
  | .absent, .absent => some []
  | .list as, .list bs =>
    if as.length = bs.length then some (as.zip bs) else none
  | .scalar s, .scalar t => if s.equal t then some [] else none
  | _, _ => none

/-- The pairs of nodes that must be equal for two runs of fields to be, if
the names agree. -/
def pairs? :
    List (String × Value) → List (String × Value) → Option (List (Ast × Ast))
  | [], [] => some []
  | (m, v) :: fs, (n, w) :: gs =>
    if m = n then do return (← v.pairs? w) ++ (← pairs? fs gs) else none
  | _, _ => none

theorem Value.map_fst_pairs? {v w : Value} {ps : List (Ast × Ast)}
    (h : v.pairs? w = some ps) : ps.map Prod.fst = v.nodes := by
  fun_cases Value.pairs? v w <;> simp_all [Value.pairs?]
  · simp [← h, nodes]
  · simp [nodes]
  · rename_i as bs hl
    rw [← h, List.map_fst_zip (by omega)]
    rfl
  · simp [nodes]

theorem map_fst_pairs? {fs gs : List (String × Value)} {ps : List (Ast × Ast)}
    (h : pairs? fs gs = some ps) :
    ps.map Prod.fst = fs.flatMap fun field => field.2.nodes := by
  fun_induction pairs? fs gs generalizing ps with
  | case1 => simp_all
  | case2 v fs n w gs ih =>
    simp only [Option.bind_eq_bind, Option.bind_eq_some_iff, Option.pure_def,
      Option.some.injEq] at h
    obtain ⟨ps₁, h₁, ps₂, h₂, rfl⟩ := h
    simp [Value.map_fst_pairs? h₁, ih h₂]
  | case3 => simp at h
  | case4 => simp at h

/-- Whether all pairs on a list are pairs of equal trees. -/
def allEqual : List (Ast × Ast) → Bool
  | [] => true
  | (a, b) :: waiting =>
    if a.type = b.type then
      match _h : pairs? a.fields b.fields with
      | some pairs => allEqual (pairs ++ waiting)
      | none => false
    else false
termination_by pairs => total Branching.size (pairs.map Prod.fst)
decreasing_by
  rw [List.map_append, map_fst_pairs? _h, List.map_cons, total_append,
    total_cons, Branching.size_eq]
  simp only [branching_children, children]
  omega

/-- Equality of trees, up to equality of their scalars. -/
def equal (a b : Ast) : Bool := allEqual [(a, b)]

end Ast

end Lossless
