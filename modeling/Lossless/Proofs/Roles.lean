import Lossless.Proofs.Places
import Lossless.Proofs.Respacing

/-!
# The roles of tokens

A parser gives every token that it passes a role. Between the position at which
it starts and the one that it reaches, the trivia are extras, and of the other
tokens only semicolons and parentheses can be; the parentheses of either role
are balanced; and the semicolons are counted by the statements of the tree: an
extra one ends a return or an expression, a semantic one is an empty statement
(`SourceToken.Assigned`). It follows the recursion of the parsers that the roles
of a whole program are so (`Program.assigned_of_parse`).
-/

namespace Lossless

/-! ### Parentheses and semicolons -/

namespace TokenKind

def isParen (k : TokenKind) : Bool := k = leftParen || k = rightParen

/-- The kinds of tokens that carry meaning in one place and are
extras in another. -/
def marks : List TokenKind := [semicolon, leftParen, rightParen]

theorem notMem_marks {k : TokenKind} :
    k ∉ marks ↔ k ≠ semicolon ∧ k.isParen = false := by
  cases k <;> decide

theorem isTrivia_of_mem_marks : ∀ k ∈ marks, k.isTrivia = false := by decide

/-- The parentheses of a list are opened and closed in pairs. -/
inductive Balanced : List TokenKind → Prop where
  | nil : Balanced []
  | enclosed {ks : List TokenKind} (h : Balanced ks) :
      Balanced (leftParen :: (ks ++ [rightParen]))
  | append {ks ks' : List TokenKind} (h : Balanced ks) (h' : Balanced ks') :
      Balanced (ks ++ ks')

end TokenKind

namespace SourceToken

/-- The parentheses that have a role. -/
def parens (role : Role) (ts : List SourceToken) : List TokenKind :=
  (ts.filter fun t => t.role = role && t.token.kind.isParen).map (·.token.kind)

/-- The number of semicolons that have a role. -/
def semicolons (role : Role) (ts : List SourceToken) : Nat :=
  ts.countP fun t => t.role = role && t.token.kind = .semicolon

theorem parens_append (role : Role) (ts us : List SourceToken) :
    parens role (ts ++ us) = parens role ts ++ parens role us := by
  rw [parens, List.filter_append, List.map_append, parens, parens]

theorem semicolons_append (role : Role) (ts us : List SourceToken) :
    semicolons role (ts ++ us) = semicolons role ts + semicolons role us :=
  List.countP_append

theorem parens_singleton (role role' : Role) (t : Token) :
    parens role [⟨role', t⟩] =
      if role' = role ∧ t.kind.isParen = true then [t.kind] else [] := by
  by_cases h : role' = role ∧ t.kind.isParen = true <;> simp [parens, h]

theorem semicolons_singleton (role role' : Role) (t : Token) :
    semicolons role [⟨role', t⟩] =
      if role' = role ∧ t.kind = .semicolon then 1 else 0 := by
  by_cases h : role' = role ∧ t.kind = .semicolon <;> simp [semicolons, h]

end SourceToken

/-! ### Statements of a tree -/

namespace Ast

/-- The number of nodes of a tree that have one of some types. -/
def numberOf (types : List String) (t : Ast) : Nat :=
  (Branching.nodes t).countP fun u => u.type ∈ types

/-- The number of statements that a semicolon may end. -/
def endings : Ast → Nat := numberOf ["ReturnStatement", "ExpressionStatement"]

/-- The number of statements that are a semicolon. -/
def empties : Ast → Nat := numberOf ["EmptyStatement"]

theorem countP_flatMap_nodes (types : List String) (items : List Ast) :
    (items.flatMap Branching.nodes).countP (fun u => u.type ∈ types) =
      total (numberOf types) items := by
  induction items with
  | nil => rfl
  | cons t items ih =>
    rw [List.flatMap_cons, List.countP_append, ih, total_cons, numberOf]

/-- A node is counted with the nodes below its fields. -/
theorem numberOf_node (types : List String) (type : String)
    (fields : List (String × Value)) :
    numberOf types (.node type fields) = (if type ∈ types then 1 else 0) +
      total (numberOf types) (fields.flatMap fun field => field.2.nodes) := by
  rw [numberOf, Branching.nodes_eq, List.countP_cons, countP_flatMap_nodes,
    Nat.add_comm]
  by_cases h : type ∈ types <;> simp [h, Ast.type] <;> rfl

@[simp] theorem numberOf_identifier (types : List String) (name : String) :
    numberOf types (identifier name) = if "Identifier" ∈ types then 1 else 0 :=
  numberOf_node ..

@[simp] theorem numberOf_literal (types : List String) (value : Scalar)
    (raw : String) :
    numberOf types (literal value raw) = if "Literal" ∈ types then 1 else 0 :=
  numberOf_node ..

@[simp] theorem numberOf_emptyStatement (types : List String) :
    numberOf types emptyStatement = if "EmptyStatement" ∈ types then 1 else 0 :=
  numberOf_node ..

@[simp] theorem numberOf_callExpression (types : List String) (callee : Ast)
    (arguments : List Ast) :
    numberOf types (callExpression callee arguments) =
      (if "CallExpression" ∈ types then 1 else 0) +
        (numberOf types callee + total (numberOf types) arguments) := by
  rw [callExpression, numberOf_node]
  simp [Value.nodes]

@[simp] theorem numberOf_expressionStatement (types : List String) (t : Ast) :
    numberOf types (expressionStatement t) =
      (if "ExpressionStatement" ∈ types then 1 else 0) + numberOf types t :=
  numberOf_node ..

@[simp] theorem numberOf_returnStatement_none (types : List String) :
    numberOf types (returnStatement none) =
      if "ReturnStatement" ∈ types then 1 else 0 :=
  numberOf_node ..

@[simp] theorem numberOf_returnStatement_some (types : List String) (t : Ast) :
    numberOf types (returnStatement (some t)) =
      (if "ReturnStatement" ∈ types then 1 else 0) + numberOf types t :=
  numberOf_node ..

@[simp] theorem numberOf_functionDeclaration (types : List String) (id : Ast)
    (params : List Ast) (body : Ast) :
    numberOf types (functionDeclaration id params body) =
      (if "FunctionDeclaration" ∈ types then 1 else 0) +
        (numberOf types id +
          (total (numberOf types) params + numberOf types body)) := by
  rw [functionDeclaration, numberOf_node]
  simp [Value.nodes]

@[simp] theorem numberOf_blockStatement (types : List String)
    (body : List Ast) :
    numberOf types (blockStatement body) =
      (if "BlockStatement" ∈ types then 1 else 0) +
        total (numberOf types) body := by
  rw [blockStatement, numberOf_node]
  simp [Value.nodes]

@[simp] theorem numberOf_program (types : List String) (body : List Ast) :
    numberOf types (program body) =
      (if "Program" ∈ types then 1 else 0) + total (numberOf types) body := by
  rw [program, numberOf_node]
  simp [Value.nodes]

end Ast

/-! ### Tokens with their roles -/

namespace SourceToken

open TokenKind (Balanced marks)
open List (forall_mem_nil forall_mem_cons forall_mem_singleton
  forall_mem_append)

/-- A token may have its role: trivia are extras, and of the other tokens
only some may be. -/
def Allowed (t : SourceToken) : Prop :=
  (t.token.kind.isTrivia = true → t.role = .extra) ∧
    (t.role = .extra → t.token.kind.isTrivia = true ∨ t.token.kind ∈ marks)

section

variable {t : Token}

theorem allowed_trivia (h : t.kind.isTrivia = true) : Allowed ⟨.extra, t⟩ :=
  ⟨fun _ => rfl, fun _ => .inl h⟩

theorem allowed_semantic (h : t.kind.isTrivia = false) :
    Allowed ⟨.semantic, t⟩ :=
  ⟨fun htrivia => absurd (h.symm.trans htrivia) Bool.false_ne_true, nofun⟩

theorem allowed_mark {role : Role} (h : t.kind ∈ marks) : Allowed ⟨role, t⟩ :=
  ⟨fun htrivia => absurd ((TokenKind.isTrivia_of_mem_marks _ h).symm.trans
    htrivia) Bool.false_ne_true,
    fun _ => .inr h⟩

end

/-- Tokens have the roles that they should have, if they are those of trees with
a number of statements that a semicolon may end, and a number of empty ones. -/
structure Assigned (ts : List SourceToken) (endings empties : Nat) : Prop where
  allowed : ∀ t ∈ ts, t.Allowed
  balanced : ∀ role, Balanced (parens role ts)
  endings : semicolons .extra ts ≤ endings
  empties : semicolons .semantic ts = empties

namespace Assigned

variable {ts us : List SourceToken} {endings endings' empties empties' : Nat}

theorem append (h : Assigned ts endings empties)
    (h' : Assigned us endings' empties') :
    Assigned (ts ++ us) (endings + endings') (empties + empties') where
  allowed := forall_mem_append.2 ⟨h.allowed, h'.allowed⟩
  balanced role :=
    parens_append role ts us ▸ (h.balanced role).append (h'.balanced role)
  endings :=
    semicolons_append .extra ts us ▸ Nat.add_le_add h.endings h'.endings
  empties := by rw [semicolons_append, h.empties, h'.empties]

theorem mono (h : Assigned ts endings empties) (hle : endings ≤ endings') :
    Assigned ts endings' empties :=
  ⟨h.allowed, h.balanced, h.endings.trans hle, h.empties⟩

/-- Where there are no parentheses and no semicolons, nothing is counted. -/
theorem unmarked (hallowed : ∀ t ∈ ts, t.Allowed)
    (hmarks : ∀ t ∈ ts, t.token.kind ∉ marks) : Assigned ts 0 0 := by
  have hsemicolons (role : Role) : semicolons role ts = 0 :=
    List.countP_eq_zero.2 fun t ht => by
    simp [(TokenKind.notMem_marks.1 (hmarks t ht)).1]
  have hparens (role : Role) : parens role ts = [] := by
    rw [parens, List.filter_eq_nil_iff.2 fun t ht => by
      simp [(TokenKind.notMem_marks.1 (hmarks t ht)).2], List.map_nil]
  exact ⟨hallowed, fun role => hparens role ▸ .nil,
    Nat.le_of_eq (hsemicolons _), hsemicolons _⟩

theorem ofTrivia {trivia : List Token}
    (h : ∀ t ∈ trivia, t.kind.isTrivia = true) :
    Assigned (trivia.map (⟨.extra, ·⟩)) 0 0 := by
  refine unmarked (List.forall_mem_map.2 fun t ht => allowed_trivia (h t ht))
    (List.forall_mem_map.2 fun t ht hmark => ?_)
  exact Bool.false_ne_true
    ((TokenKind.isTrivia_of_mem_marks _ hmark).symm.trans (h t ht))

/-- A semicolon is counted. -/
theorem semicolon {role : Role} {t : Token} (h : t.kind = .semicolon) :
    Assigned [⟨role, t⟩]
      (if role = .extra then 1 else 0) (if role = .semantic then 1 else 0) where
  allowed := forall_mem_singleton.2 (allowed_mark (h ▸ .head _))
  balanced role' := by
    rw [parens_singleton, h, if_neg fun h => absurd h.2 (by decide)]
    exact .nil
  endings := by
    rw [semicolons_singleton, h]
    cases role <;> decide
  empties := by
    rw [semicolons_singleton, h]
    cases role <;> rfl

/-- A pair of parentheses around tokens has a role of its own and
changes no count. -/
theorem enclosed (role : Role) {opening closing : Token}
    (h : Assigned ts endings empties) (hopening : opening.kind = .leftParen)
    (hclosing : closing.kind = .rightParen) :
    Assigned ([⟨role, opening⟩] ++ (ts ++ [⟨role, closing⟩])) endings
      empties where
  allowed := forall_mem_append.2
    ⟨forall_mem_singleton.2 (allowed_mark (hopening ▸ .tail _ (.head _))),
      forall_mem_append.2 ⟨h.allowed, forall_mem_singleton.2
        (allowed_mark (hclosing ▸ .tail _ (.tail _ (.head _))))⟩⟩
  balanced role' := by
    rw [parens_append, parens_append, parens_singleton, parens_singleton,
      hopening, hclosing]
    by_cases hrole : role = role'
    · rw [if_pos ⟨hrole, rfl⟩, if_pos ⟨hrole, rfl⟩]
      exact .enclosed (h.balanced role')
    · rw [if_neg fun h => hrole h.1, if_neg fun h => hrole h.1, List.append_nil]
      exact h.balanced role'
  endings := by
    rw [semicolons_append, semicolons_append, semicolons_singleton,
      semicolons_singleton, hopening, hclosing]
    simpa using h.endings
  empties := by
    rw [semicolons_append, semicolons_append, semicolons_singleton,
      semicolons_singleton, hopening, hclosing]
    simpa using h.empties

end Assigned

end SourceToken

/-! ### Steps of a parser -/

namespace Stream

open SourceToken (Assigned)

/-- The tokens between two positions have been given the roles that
they should have. -/
def Assigns (s next : Stream) (endings empties : Nat) : Prop :=
  ∃ passed, next.behind = passed.reverse ++ s.behind ∧
    Assigned passed endings empties

namespace Assigns

variable {s next last : Stream} {endings endings' empties empties' : Nat}

theorem refl (s : Stream) : s.Assigns s 0 0 :=
  ⟨[], rfl, .unmarked (List.forall_mem_nil _) (List.forall_mem_nil _)⟩

theorem append (h : s.Assigns next endings empties)
    (h' : next.Assigns last endings' empties') :
    s.Assigns last (endings + endings') (empties + empties') := by
  obtain ⟨passed, hbehind, hpassed⟩ := h
  obtain ⟨passed', hbehind', hpassed'⟩ := h'
  refine ⟨passed ++ passed', ?_, hpassed.append hpassed'⟩
  rw [hbehind', hbehind, List.reverse_append, List.append_assoc]

theorem mono (h : s.Assigns next endings empties) (hle : endings ≤ endings') :
    s.Assigns next endings' empties := by
  obtain ⟨passed, hbehind, hpassed⟩ := h
  exact ⟨passed, hbehind, hpassed.mono hle⟩

end Assigns

/-- Only trivia are passed behind a token. -/
theorem exists_trivia_pass (s : Stream) (role : Role) (t : Token)
    (ts : List Token) :
    ∃ trivia, (s.pass role t ts).behind = trivia.reverse ++ ⟨role, t⟩ ::
        s.behind ∧
      Assigned trivia 0 0 := by
  rw [pass, skipTrivia_eq]
  exact ⟨_, rfl,
    .ofTrivia fun t ht => List.all_eq_true.1 List.all_takeWhile t ht⟩

end Stream

namespace Parser

open SourceToken (Assigned)
open Lossless.Stream (Assigns)

variable {kind : TokenKind} {role : Role} {s mid : Stream}
  {endings empties : Nat}

theorem exists_trivia_of_accept? {r : Read Token s}
    (h : accept? kind role s = some r) :
    r.value.kind = kind ∧
      ∃ trivia, r.next.behind = trivia.reverse ++ ⟨role, r.value⟩ :: s.behind ∧
        Assigned trivia 0 0 := by
  obtain ⟨ts, -, hkind, hnext⟩ := exists_of_accept? h
  exact ⟨hkind, hnext ▸ s.exists_trivia_pass role r.value ts⟩

/-- A token is counted, the trivia behind it are not. -/
theorem assigns_accept? {r : Read Token s} (h : accept? kind role s = some r)
    (hassigned : ∀ t : Token, t.kind = kind →
      Assigned [⟨role, t⟩] endings empties) :
    s.Assigns r.next endings empties := by
  obtain ⟨hkind, trivia, hbehind, htrivia⟩ := exists_trivia_of_accept? h
  refine ⟨[⟨role, r.value⟩] ++ trivia, ?_,
    (hassigned r.value hkind).append htrivia⟩
  rw [hbehind, List.reverse_append, List.append_assoc]
  rfl

/-- Most tokens carry meaning and are not counted. -/
theorem assigns_unmarked {r : Read Token s}
    (h : accept? kind .semantic s = some r)
    (hkind : kind.isTrivia = false ∧ kind ∉ TokenKind.marks) :
    s.Assigns r.next 0 0 := by
  refine assigns_accept? h fun t ht => .unmarked ?_ ?_
  · exact List.forall_mem_singleton.2
      (SourceToken.allowed_semantic (ht ▸ hkind.1))
  · exact List.forall_mem_singleton.2 (ht ▸ hkind.2)

/-- Parentheses are passed around what is between them. -/
theorem assigns_enclosed {opening : Read Token s} {closing : Read Token mid}
    (hopening : expect .leftParen role s = .ok opening)
    (h : opening.next.Assigns mid endings empties)
    (hclosing : expect .rightParen role mid = .ok closing) :
    s.Assigns closing.next endings empties := by
  obtain ⟨hleft, trivia, hbehind, htrivia⟩ :=
    exists_trivia_of_accept? (accept?_of_expect hopening)
  obtain ⟨hright, trivia', hbehind', htrivia'⟩ :=
    exists_trivia_of_accept? (accept?_of_expect hclosing)
  obtain ⟨passed, hpassed, hassigned⟩ := h
  have hinner := htrivia.append hassigned
  rw [Nat.zero_add, Nat.zero_add] at hinner
  refine ⟨_, ?_, (hinner.enclosed role hleft hright).append htrivia'⟩
  rw [hbehind', hpassed, hbehind]
  simp

/-! ### Expressions -/

/-- A parser gives the tokens of a tree the roles that they should have. -/
def Assigning (p : Parser Ast) : Prop := ∀ s r, p s = .ok r →
  s.Assigns r.next r.value.endings r.value.empties

theorem assigning_identifier : Assigning identifier := by
  intro s r h
  obtain ⟨name, hname, rfl⟩ := identifier_eq_ok h
  change s.Assigns name.next (Ast.identifier name.value.text).endings
    (Ast.identifier name.value.text).empties
  simpa [Ast.endings, Ast.empties] using assigns_unmarked hname (by decide)

/-- Literals are no trivia, parentheses or semicolons. -/
theorem unmarked_of_value {raw : String} {value : Scalar}
    (h : Literal.value kind raw = .ok value) :
    kind.isTrivia = false ∧ kind ∉ TokenKind.marks := by
  cases kind with
  | trueWord | falseWord | nullWord | number | string => decide
  | _ => exact nomatch h

theorem assigning_literal (kind : TokenKind) : Assigning (literal kind) := by
  intro s r h
  obtain ⟨token, value, htoken, hvalue, rfl⟩ := literal_eq_ok h
  change s.Assigns token.next (Ast.literal value token.value.text).endings
    (Ast.literal value token.value.text).empties
  simpa [Ast.endings, Ast.empties] using
    assigns_unmarked htoken (unmarked_of_value hvalue)

theorem assigning_primary {expression : Parser Ast}
    (hexpression : Assigning expression) : Assigning (primary expression) := by
  intro s r h
  rcases primary_eq_ok h with h | h |
    ⟨opening, inner, closing, hopening, hinner, hclosing, rfl⟩
  · exact assigning_identifier s r h
  · exact assigning_literal s.kind s r h
  · exact assigns_enclosed hopening (hexpression _ _ hinner) hclosing

theorem assigns_itemsUntil {stop : TokenKind → Bool} {item : Parser Ast}
    (hitem : Assigning item) (s : Stream) :
    ∀ r, itemsUntil stop item s = .ok r →
      s.Assigns r.next (total Ast.endings r.value)
        (total Ast.empties r.value) := by
  intro r h
  rcases itemsUntil_eq_ok h with ⟨-, rfl⟩ |
    ⟨first, others, hfirst, hothers, rfl⟩
  · exact .refl s
  · exact (hitem _ _ hfirst).append
      (assigns_itemsUntil hitem first.next others hothers)
termination_by s.size
decreasing_by exact first.shorter

theorem assigns_separated {item : Parser Ast} (hitem : Assigning item)
    (s : Stream) :
    ∀ r, separated item s = .ok r →
      s.Assigns r.next (total Ast.endings r.value)
        (total Ast.empties r.value) := by
  intro r h
  rcases separated_eq_ok h with
    ⟨only, honly, rfl⟩ | ⟨first, comma, others, hfirst, hcomma, hothers, rfl⟩
  · exact hitem _ _ honly
  · have hmark := assigns_unmarked hcomma (by decide)
    have hrest :=
      hmark.append (assigns_separated hitem comma.next others hothers)
    rw [Nat.zero_add, Nat.zero_add] at hrest
    exact (hitem _ _ hfirst).append hrest
termination_by s.size
decreasing_by exact Nat.lt_trans comma.shorter first.shorter

theorem assigns_parenthesized {item : Parser Ast} (hitem : Assigning item)
    {r : Read (List Ast) s} (h : parenthesized item s = .ok r) :
    s.Assigns r.next (total Ast.endings r.value)
      (total Ast.empties r.value) := by
  rcases parenthesized_eq_ok h with ⟨opening, hopening,
    ⟨closing, hclosing, rfl⟩ | ⟨items, closing, hitems, hclosing, rfl⟩⟩
  · exact assigns_enclosed hopening (.refl _) hclosing
  · exact assigns_enclosed hopening
      (assigns_separated hitem _ items hitems) hclosing

/-- The calls of a callee are counted behind it. -/
theorem assigns_calls {argument : Parser Ast} (hargument : Assigning argument)
    {callee : Ast} {start : Stream} (s : Stream)
    (hcallee : start.Assigns s callee.endings callee.empties) :
    ∀ r, calls argument callee s = .ok r →
      start.Assigns r.next r.value.endings r.value.empties := by
  intro r h
  rcases calls_eq_ok h with rfl | ⟨arguments, chain, harguments, hchain, rfl⟩
  · exact hcallee
  · refine assigns_calls hargument arguments.next ?_ chain hchain
    simpa [Ast.endings, Ast.empties] using
      hcallee.append (assigns_parenthesized hargument harguments)
termination_by s.size
decreasing_by exact arguments.shorter

/-- By induction on the levels, the tokens of an expression get their roles. -/
theorem assigning_expression (levels : Nat) :
    Assigning (expression levels) := by
  induction levels with
  | zero => exact fun s r h => nomatch h
  | succ levels ih =>
    intro s r h
    obtain ⟨callee, chain, hcallee, hchain, rfl⟩ := expression_succ_eq_ok h
    exact assigns_calls ih _ (assigning_primary ih s callee hcallee) chain
      hchain

/-! ### Statements -/

/-- At the end of a statement there is one semicolon at most. -/
theorem assigns_terminator {r : Reach Unit s} (h : terminator s = .ok r) :
    s.Assigns r.next 1 0 := by
  rcases terminator_eq_ok h with ⟨mark, hmark, rfl⟩ | rfl
  · exact assigns_accept? hmark fun t ht => .semicolon ht
  · exact (Assigns.refl s).mono (Nat.zero_le _)

theorem assigning_returnStatement (levels : Nat) :
    Assigning (returnStatement levels) := by
  intro s r h
  obtain ⟨word, hword, hcases⟩ := returnStatement_eq_ok h
  have hword := assigns_unmarked (accept?_of_expect hword) (by decide)
  rcases hcases with ⟨ending, hending, rfl⟩ |
    ⟨argument, ending, hargument, hending, rfl⟩
  · change s.Assigns ending.next (Ast.returnStatement none).endings
      (Ast.returnStatement none).empties
    simpa [Ast.endings, Ast.empties] using
      hword.append (assigns_terminator hending)
  · have hargument := assigning_expression levels _ _ hargument
    have hall := hword.append (hargument.append (assigns_terminator hending))
    change s.Assigns ending.next
      (Ast.returnStatement (some argument.value)).endings
      (Ast.returnStatement (some argument.value)).empties
    simpa [Ast.endings, Ast.empties, Nat.add_comm 1] using hall

theorem assigning_expressionStatement (levels : Nat) :
    Assigning (expressionStatement levels) := by
  intro s r h
  obtain ⟨value, ending, hvalue, hending, rfl⟩ := expressionStatement_eq_ok h
  have hall :=
    (assigning_expression levels _ _ hvalue).append (assigns_terminator hending)
  change s.Assigns ending.next (Ast.expressionStatement value.value).endings
    (Ast.expressionStatement value.value).empties
  simpa [Ast.endings, Ast.empties, Nat.add_comm 1] using hall

theorem assigning_functionDeclaration {body : Parser Ast}
    (hbody : Assigning body) : Assigning (functionDeclaration body) := by
  intro s r h
  obtain ⟨word, name, params, inner, hword, hname, hparams, hinner, rfl⟩ :=
    functionDeclaration_eq_ok h
  have hword := assigns_unmarked (accept?_of_expect hword) (by decide)
  have hname := assigning_identifier _ _ hname
  have hparams := assigns_parenthesized assigning_identifier hparams
  have hall := hword.append (hname.append (hparams.append (hbody _ _ hinner)))
  change s.Assigns inner.next
    (Ast.functionDeclaration name.value params.value inner.value).endings
    (Ast.functionDeclaration name.value params.value inner.value).empties
  simpa [Ast.endings, Ast.empties] using hall

theorem assigning_statement (levels : Nat) {block : Bool → Parser Ast}
    {inFunction : Bool} (hblock : ∀ inFunction, Assigning (block inFunction)) :
    Assigning (statement levels block inFunction) := by
  intro s r h
  rcases statement_eq_ok h with h | ⟨-, h⟩ | h | ⟨mark, hmark, rfl⟩ | h
  · exact assigning_functionDeclaration (hblock true) s r h
  · exact assigning_returnStatement levels s r h
  · exact hblock inFunction s r h
  · have hall :=
      assigns_accept? (accept?_of_expect hmark) fun t ht => .semicolon ht
    change s.Assigns mark.next Ast.emptyStatement.endings
      Ast.emptyStatement.empties
    simpa [Ast.endings, Ast.empties] using hall
  · exact assigning_expressionStatement levels s r h

theorem assigning_block (levels : Nat) (inFunction : Bool) :
    Assigning (block levels inFunction) := by
  induction levels generalizing inFunction with
  | zero => exact fun s r h => nomatch h
  | succ levels ih =>
    intro s r h
    obtain ⟨opening, body, closing, hopening, hbody, hclosing, rfl⟩ :=
      block_succ_eq_ok h
    have hopening := assigns_unmarked (accept?_of_expect hopening) (by decide)
    have hbody := assigns_itemsUntil (assigning_statement levels ih) _ _ hbody
    have hclosing := assigns_unmarked (accept?_of_expect hclosing) (by decide)
    have hall := hopening.append (hbody.append hclosing)
    change s.Assigns closing.next (Ast.blockStatement body.value).endings
      (Ast.blockStatement body.value).empties
    simpa [Ast.endings, Ast.empties] using hall

theorem assigns_program {r : Reach Ast s} (h : program s = .ok r) :
    s.Assigns r.next r.value.endings r.value.empties := by
  obtain ⟨body, hbody, rfl⟩ := program_eq_ok h
  have hall := assigns_itemsUntil (assigning_statement maxNesting
    fun inFunction => assigning_block maxNesting inFunction) _ _ hbody
  change s.Assigns body.next (Ast.program body.value).endings
    (Ast.program body.value).empties
  simpa [Ast.endings, Ast.empties] using hall

/-- Items are read until there are no more. -/
theorem stop_of_itemsUntil {α : Type} {stop : TokenKind → Bool}
    {item : Parser α} (s : Stream) :
    ∀ r, itemsUntil stop item s = .ok r → stop r.next.kind = true := by
  intro r h
  rcases itemsUntil_eq_ok h with ⟨hstop, rfl⟩ |
    ⟨first, others, hfirst, hothers, rfl⟩
  · exact hstop
  · exact stop_of_itemsUntil first.next others hothers
termination_by s.size
decreasing_by exact first.shorter

/-- A program ends where the text does. -/
theorem kind_program {r : Reach Ast s} (h : program s = .ok r) :
    r.next.kind = .endOfFile := by
  obtain ⟨body, hbody, rfl⟩ := program_eq_ok h
  exact of_decide_eq_true (stop_of_itemsUntil s body hbody)

end Parser

/-! ### Programs -/

open SourceToken (parens semicolons)

/-- What is promised of the tokens of a program and their roles. -/
structure Program.Assigned (text : String) (p : Program) : Prop where
  tokens : p.tokens.map SourceToken.token = tokenize text
  trivia : ∀ t ∈ p.tokens, t.token.kind.isTrivia = true → t.role = .extra
  extras : ∀ t ∈ p.tokens, t.role = .extra → t.token.kind.isTrivia = true ∨
    t.token.spelled ∈ [(.semicolon, ";"), (.leftParen, "("), (.rightParen, ")")]
  /-- The other tokens are the leaves of the tree. -/
  words : (p.tokens.filter (·.role = .semantic)).map (Leaf.text ·.text) =
    p.ast.words
  balanced : ∀ role, TokenKind.Balanced (parens role p.tokens)
  endings : semicolons .extra p.tokens ≤
    p.ast.numberOf ["ReturnStatement", "ExpressionStatement"]
  empties : semicolons .semantic p.tokens = p.ast.numberOf ["EmptyStatement"]

theorem Token.spelled_of_mem_marks {t : Token} (h : t.kind ∈ TokenKind.marks)
    (hword : t.word = t.text) :
    t.spelled ∈ [(.semicolon, ";"), (.leftParen, "("), (.rightParen, ")")] := by
  have hspelled : t.spelled = (t.kind, t.kind.spelling?.getD t.text) :=
    congrArg _ hword.symm
  rw [hspelled]
  simp only [TokenKind.marks, List.mem_cons, List.not_mem_nil, or_false] at h
  rcases h with h | h | h
  · rw [h]
    exact .head _
  · rw [h]
    exact .tail _ (.head _)
  · rw [h]
    exact .tail _ (.tail _ (.head _))

/-- Tokens that are read as their own texts are read as the texts of those
that carry meaning. -/
theorem SourceToken.allLeaves_eq {ts : List SourceToken}
    (h : ∀ t ∈ ts, t.token.word = t.text) :
    allLeaves ts = (ts.filter (·.role = .semantic)).map (Leaf.text ·.text) := by
  induction ts with
  | nil => rfl
  | cons t ts ih =>
    have hts := ih fun u hu => h u (List.mem_cons_of_mem _ hu)
    obtain ⟨role, token⟩ := t
    cases role with
    | extra => exact hts
    | semantic =>
      exact congrArg₂ (Leaf.text · ::
        ·) (h ⟨.semantic, token⟩ List.mem_cons_self) hts

namespace Program

variable {text : String} {p : Program}

theorem assigned_tokens (h : parse text = .ok p) :
    SourceToken.Assigned p.tokens p.ast.endings p.ast.empties := by
  obtain ⟨-, -, htokens, -⟩ := parse_eq_ok h
  obtain ⟨body, hbody, h⟩ := Outcome.bind_eq_ok.1 h
  rw [← Except.ok.inj h] at htokens ⊢
  -- no token of the text is taken for its end, so all of them are behind
  have hahead : body.next.ahead = [] := by
    cases hahead : body.next.ahead with
    | nil => rfl
    | cons t ts =>
      have hkind := Parser.kind_program hbody
      rw [Stream.kind, hahead] at hkind
      refine absurd hkind (placedIn_of_tokenize text t ?_).notEnd
      rw [← htokens, Stream.tokens, hahead]
      simp
  obtain ⟨passed, hbehind, hpassed⟩ := Parser.assigns_program hbody
  have hfront : SourceToken.Assigned
      ((Token.front (tokenize text)).map (⟨.extra, ·⟩)) 0 0 :=
    .ofTrivia fun t ht => List.all_eq_true.1 List.all_takeWhile t ht
  have hall := hfront.append hpassed
  rw [Nat.zero_add, Nat.zero_add] at hall
  have hstart : (Stream.ofTokens (tokenize text) text.utf8ByteSize).behind =
      ((Token.front (tokenize text)).map (⟨.extra, ·⟩)).reverse := by
    rw [Stream.ofTokens, Stream.skipTrivia_eq, List.append_nil]
  rw [Stream.tokens, hahead, hbehind, hstart]
  simpa using hall

/-- The tokens of a program are those of its text, and they have the roles that
they should have. -/
theorem assigned_of_parse (h : parse text = .ok p) : p.Assigned text := by
  obtain ⟨-, -, htokens, hleaves⟩ := parse_eq_ok h
  have hwords : ∀ t ∈ p.tokens, t.token.word = t.text := fun t ht =>
    word_eq_text (htokens ▸ List.mem_map_of_mem ht)
  obtain ⟨hallowed, hbalanced, hendings, hempties⟩ := assigned_tokens h
  refine ⟨htokens, fun t ht => (hallowed t ht).1, fun t ht hrole => ?_, ?_,
    hbalanced, hendings, hempties⟩
  · exact ((hallowed t ht).2 hrole).imp_right fun hmark =>
      Token.spelled_of_mem_marks hmark (hwords t ht)
  · rw [← SourceToken.allLeaves_eq hwords, hleaves]

/-- Parentheses and semicolons in all their roles: a call in parentheses, an
empty statement behind it, and a return without a semicolon. -/
theorem assigned_of_parse_sample :
    ∃ p, parse "(f((a), 1)); ; function f(a, b) \x7b return (a) \x7d // end" =
        .ok p ∧
      p.Assigned
        "(f((a), 1)); ; function f(a, b) \x7b return (a) \x7d // end" := by
  have hok : (parse
    "(f((a), 1)); ; function f(a, b) \x7b return (a) \x7d // end").isOk =
      true := by
    decide +kernel
  obtain ⟨p, hp⟩ := Outcome.exists_of_isOk hok
  exact ⟨p, hp, assigned_of_parse hp⟩

end Program

end Lossless
