import Lossless.Ast.Equality
import Lossless.Ast.Estree
import Lossless.Proofs.Walk
import Mathlib.Data.List.Forall2

/-!
# Equality as a recursion

The comparison of two trees works through a list of pairs that wait. A list
passes when each of its pairs does (`allEqual_iff`), so two nodes are equal when
their types are and their fields are, one by one (`equal_node`). Equality is not
reflexive: a number that is none does not equal itself. It is on every tree
without such numbers (`equal_self`).
-/

namespace Lossless

namespace Ast

theorem allEqual_append (ps qs : List (Ast × Ast)) :
    allEqual (ps ++ qs) = (allEqual ps && allEqual qs) := by
  fun_induction allEqual ps with
  | case1 => simp
  | case2 a b waiting htype pairs hpairs ih =>
    rw [List.cons_append, allEqual, if_pos htype]
    split
    · rename_i pairs' hpairs'
      obtain rfl := Option.some.inj (hpairs.symm.trans hpairs')
      rw [← ih, List.append_assoc]
    · simp_all
  | case3 a b waiting htype hpairs =>
    rw [List.cons_append, allEqual, if_pos htype]
    split <;> simp_all
  | case4 a b waiting htype =>
    rw [List.cons_append, allEqual, if_neg htype, Bool.false_and]

theorem allEqual_cons (a b : Ast) (ps : List (Ast × Ast)) :
    allEqual ((a, b) :: ps) = (a.equal b && allEqual ps) :=
  allEqual_append [(a, b)] ps

/-- A list of pairs passes when each of its pairs does. -/
theorem allEqual_iff {ps : List (Ast × Ast)} :
    allEqual ps = true ↔ ∀ p ∈ ps, p.1.equal p.2 = true := by
  induction ps with
  | nil => simp [allEqual]
  | cons p ps ih =>
    rw [allEqual_cons, Bool.and_eq_true, ih, List.forall_mem_cons]

/-- Two values are equal: both are of the same sort, and what
they hold is equal. -/
inductive Value.Equal : Value → Value → Prop where
  | node {a b : Ast} (h : a.equal b = true) : Equal (.node a) (.node b)
  | absent : Equal .absent .absent
  | list {as bs : List Ast}
    (h : List.Forall₂ (fun a b => a.equal b = true) as bs) :
    Equal (.list as) (.list bs)
  | scalar {s t : Scalar} (h : s.equal t = true) : Equal (.scalar s) (.scalar t)

theorem allEqual_zip_iff {as bs : List Ast} (h : as.length = bs.length) :
    allEqual (as.zip bs) = true ↔
      List.Forall₂ (fun a b => a.equal b = true) as bs := by
  rw [allEqual_iff, List.forall₂_iff_zip]
  exact ⟨fun hall => ⟨h, fun hp => hall _ hp⟩, fun hall _ hp => hall.2 hp⟩

theorem Value.equal_iff {v w : Value} :
    v.Equal w ↔ ∃ ps, v.pairs? w = some ps ∧ allEqual ps = true := by
  constructor
  · intro h
    cases h with
    | node h => exact ⟨_, rfl, by simpa [allEqual_cons, allEqual] using h⟩
    | absent => exact ⟨_, rfl, by simp [allEqual]⟩
    | list h =>
      exact ⟨_, if_pos h.length_eq, (allEqual_zip_iff h.length_eq).2 h⟩
    | scalar h => exact ⟨_, if_pos h, by simp [allEqual]⟩
  · rintro ⟨ps, hps, hall⟩
    revert hps
    fun_cases Value.pairs? v w <;> intro hps
    case case1 a b =>
      obtain rfl := Option.some.inj hps
      rw [allEqual_cons, Bool.and_eq_true] at hall
      exact .node hall.1
    case case2 => exact .absent
    case case3 as bs hlength =>
      obtain rfl := Option.some.inj hps
      exact .list ((allEqual_zip_iff hlength).1 hall)
    case case5 s t h => exact .scalar h
    all_goals exact nomatch hps

/-- Two fields are equal: they have the same name and equal values. -/
def EqualField (f g : String × Value) : Prop := f.1 = g.1 ∧ f.2.Equal g.2

theorem forall₂_equalField_iff {fields fields' : List (String × Value)} :
    List.Forall₂ EqualField fields fields' ↔
      ∃ ps, pairs? fields fields' = some ps ∧ allEqual ps = true := by
  fun_induction pairs? fields fields' with
  | case1 => exact ⟨fun _ => ⟨[], rfl, by simp [allEqual]⟩, fun _ => .nil⟩
  | case2 v fs name w gs ih =>
    rw [List.forall₂_cons, ih, EqualField, Value.equal_iff]
    constructor
    · rintro ⟨⟨-, ps, hps, hall⟩, qs, hqs, hall'⟩
      exact ⟨ps ++ qs, by simp [hps, hqs], by rw [allEqual_append, hall, hall',
        Bool.and_self]⟩
    · rintro ⟨ps, hps, hall⟩
      simp only [Option.bind_eq_bind, Option.bind_eq_some_iff, Option.pure_def,
        Option.some.injEq] at hps
      obtain ⟨ps, hps, qs, hqs, rfl⟩ := hps
      rw [allEqual_append, Bool.and_eq_true] at hall
      exact ⟨⟨rfl, ps, hps, hall.1⟩, qs, hqs, hall.2⟩
  | case3 m v fs n w gs hname =>
    simp only [List.forall₂_cons, EqualField, hname, false_and, false_iff]
    exact fun ⟨_, h, _⟩ => nomatch h
  | case4 fs gs hnil hcons =>
    refine ⟨fun h => ?_, fun ⟨_, h, _⟩ => nomatch h⟩
    cases h with
    | nil => exact absurd rfl (hnil rfl)
    | cons hfield hfields => exact (hcons _ _ _ _ _ _ rfl rfl).elim

/-- Two nodes are equal: they have the same type, and their fields are
equal in order. -/
theorem equal_node {type type' : String}
    {fields fields' : List (String × Value)} :
    (node type fields).equal (node type' fields') = true ↔
      type = type' ∧ List.Forall₂ EqualField fields fields' := by
  rw [forall₂_equalField_iff, equal, allEqual]
  by_cases htype : type = type'
  · simp only [Ast.type, Ast.fields, htype, if_pos, true_and]
    split
    · rename_i ps hps
      simp [hps]
    · rename_i hps
      simp [hps]
  · simp [Ast.type, htype]

/-! ### Trees that equal themselves -/

end Ast

theorem Binary64.equal_self {x : Binary64} (h : x.isNaN = false) :
    x.equal x = true := by
  cases x with
  | nan => exact nomatch h
  | infinite negative => simp [equal]
  | finite negative m e canonical => simp [equal]

namespace Ast

/-- Whether a field holds a number that is none. -/
def Value.isNaN : Value → Bool
  | .scalar (.number x) => x.isNaN
  | _ => false

/-- Every number in the fields of a tree is one. -/
def NumbersOnly (t : Ast) : Prop :=
  ∀ u ∈ Branching.nodes t, ∀ field ∈ u.fields, field.2.isNaN = false

instance (t : Ast) : Decidable t.NumbersOnly :=
  inferInstanceAs (Decidable (∀ u ∈ Branching.nodes t, ∀ field ∈ u.fields,
    field.2.isNaN = false))

theorem NumbersOnly.of_mem_children {t c : Ast} (h : t.NumbersOnly)
    (hc : c ∈ t.children) : c.NumbersOnly :=
  fun u hu => h u (Branching.mem_nodes_of_mem_children hc hu)

theorem Value.equal_self {v : Value}
    (hchildren : ∀ c ∈ v.nodes, c.equal c = true)
    (hnumber : v.isNaN = false) : v.Equal v := by
  cases v with
  | node child => exact .node (hchildren child (List.mem_singleton.2 rfl))
  | absent => exact .absent
  | list items => exact .list (List.forall₂_same.2 hchildren)
  | scalar s =>
    refine .scalar ?_
    cases s with
    | number x => exact Binary64.equal_self hnumber
    | null => rfl
    | bool b => exact beq_self_eq_true b
    | string text => exact beq_self_eq_true text

/-- By induction over the tree, it equals itself if all its numbers do. -/
theorem equal_self {t : Ast} : t.NumbersOnly → t.equal t = true := by
  induction t using Branching.induction with
  | step t ih =>
    intro h
    obtain ⟨type, fields⟩ := t
    refine equal_node.2 ⟨rfl, List.forall₂_same.2 fun field hfield => ⟨rfl, ?_⟩⟩
    have hchild :
        ∀ c ∈ field.2.nodes, c ∈ (node type fields).children := fun c hc =>
      List.mem_flatMap.2 ⟨field, hfield, hc⟩
    exact Value.equal_self (fun c hc =>
      ih c (hchild c hc) (h.of_mem_children (hchild c hc)))
      (h _ (Branching.mem_nodes_self _) field hfield)

/-! ### Order of comparison -/

end Ast

theorem Binary64.equal_symm {x y : Binary64} (h : x.equal y = true) :
    y.equal x = true := by
  cases x with
  | nan => exact nomatch h
  | infinite s =>
    cases y with
    | infinite t => exact beq_iff_eq.2 (beq_iff_eq.1 h).symm
    | nan => exact nomatch h
    | finite t n f hn => exact nomatch h
  | finite s m e hm =>
    cases y with
    | nan => exact nomatch h
    | infinite t => exact nomatch h
    | finite t n f hn =>
      simp only [equal, Bool.and_eq_true, Bool.or_eq_true, beq_iff_eq] at h ⊢
      obtain ⟨⟨rfl, rfl⟩, hsign⟩ := h
      exact ⟨⟨rfl, rfl⟩, hsign.imp_left Eq.symm⟩

theorem Scalar.equal_symm {s t : Scalar} (h : s.equal t = true) :
    t.equal s = true := by
  revert h
  fun_cases Scalar.equal s t with
  | case1 => exact id
  | case2 a b => exact fun h => beq_iff_eq.2 (beq_iff_eq.1 h).symm
  | case3 x y => exact Binary64.equal_symm
  | case4 a b => exact fun h => beq_iff_eq.2 (beq_iff_eq.1 h).symm
  | case5 => exact fun h => absurd h Bool.false_ne_true

namespace Ast

theorem Value.Equal.symm {v w : Value} (h : v.Equal w)
    (hnodes : ∀ a ∈ v.nodes, ∀ b, a.equal b = true → b.equal a = true) :
    w.Equal v := by
  cases h with
  | node h => exact .node (hnodes _ (List.mem_singleton.2 rfl) _ h)
  | absent => exact .absent
  | scalar h => exact .scalar (Scalar.equal_symm h)
  | @list as bs h =>
    have hitems : ∀ a ∈ as, ∀ b, a.equal b = true → b.equal a = true := hnodes
    clear hnodes
    refine .list ?_
    induction h with
    | nil => exact .nil
    | cons h hs ih =>
      obtain ⟨hfirst, hothers⟩ := List.forall_mem_cons.1 hitems
      exact .cons (hfirst _ h) (ih hothers)

/-- Trees are equal whichever stands first. -/
theorem equal_symm {t u : Ast} : t.equal u = true → u.equal t = true := by
  induction t using Branching.induction generalizing u with
  | step t ih =>
    intro h
    obtain ⟨type, fields⟩ := t
    obtain ⟨type', fields'⟩ := u
    obtain ⟨rfl, hfields⟩ := equal_node.1 h
    refine equal_node.2 ⟨rfl, ?_⟩
    have hnodes : ∀ field ∈ fields, ∀ a ∈ field.2.nodes, ∀ b, a.equal b = true →
        b.equal a = true :=
      fun field hfield a ha b => ih a (List.mem_flatMap.2 ⟨field, hfield, ha⟩)
    clear h ih
    induction hfields with
    | nil => exact .nil
    | cons hfield hrest ihrest =>
      obtain ⟨hfirst, hothers⟩ := List.forall_mem_cons.1 hnodes
      exact .cons ⟨hfield.1.symm, hfield.2.symm hfirst⟩ (ihrest hothers)

/-! ### The nodes of programs -/

section

variable {a a' b b' : Ast} {as as' : List Ast}

theorem equal_identifier (name : String) :
    (identifier name).equal (identifier name) = true :=
  equal_node.2 ⟨rfl, .cons ⟨rfl, .scalar (beq_self_eq_true name)⟩ .nil⟩

theorem equal_literal {value value' : Scalar} (raw : String)
    (h : value.equal value' = true) :
    (literal value raw).equal (literal value' raw) = true :=
  equal_node.2 ⟨rfl,
    .cons ⟨rfl, .scalar h⟩ (.cons ⟨rfl, .scalar (beq_self_eq_true raw)⟩ .nil)⟩

theorem equal_callExpression (h : a.equal a' = true)
    (hs : List.Forall₂ (fun a b => a.equal b = true) as as') :
    (callExpression a as).equal (callExpression a' as') = true :=
  equal_node.2 ⟨rfl, .cons ⟨rfl, .node h⟩ (.cons ⟨rfl, .list hs⟩ .nil)⟩

theorem equal_emptyStatement : emptyStatement.equal emptyStatement = true :=
  equal_node.2 ⟨rfl, .nil⟩

theorem equal_expressionStatement (h : a.equal a' = true) :
    (expressionStatement a).equal (expressionStatement a') = true :=
  equal_node.2 ⟨rfl, .cons ⟨rfl, .node h⟩ .nil⟩

theorem equal_returnStatement_none :
    (returnStatement none).equal (returnStatement none) = true :=
  equal_node.2 ⟨rfl, .cons ⟨rfl, .absent⟩ .nil⟩

theorem equal_returnStatement_some (h : a.equal a' = true) :
    (returnStatement (some a)).equal (returnStatement (some a')) = true :=
  equal_node.2 ⟨rfl, .cons ⟨rfl, .node h⟩ .nil⟩

theorem equal_blockStatement
    (hs : List.Forall₂ (fun a b => a.equal b = true) as as') :
    (blockStatement as).equal (blockStatement as') = true :=
  equal_node.2 ⟨rfl, .cons ⟨rfl, .list hs⟩ .nil⟩

theorem equal_functionDeclaration (h : a.equal a' = true)
    (hs : List.Forall₂ (fun a b => a.equal b = true) as as')
    (hb : b.equal b' = true) :
    (functionDeclaration a as b).equal (functionDeclaration a' as' b') = true :=
  equal_node.2 ⟨rfl,
    .cons ⟨rfl, .node h⟩ (.cons ⟨rfl, .list hs⟩ (.cons ⟨rfl, .node hb⟩ .nil))⟩

theorem equal_program (hs : List.Forall₂ (fun a b => a.equal b = true) as as') :
    (program as).equal (program as') = true :=
  equal_node.2 ⟨rfl, .cons ⟨rfl, .list hs⟩ .nil⟩

end

end Ast

end Lossless
