import Lossless.Proofs.Equality
import Lossless.Proofs.Parsing

/-!
# Trees of programs

Which trees are expressions, statements and programs, over a lexicon that says
what a name and what a literal is, and how deep their blocks and expressions
nest. A parser returns such trees only, over every lexicon that covers the
tokens it reads (`Program.grammatical_of_parse`). In particular no literal of a
program is a number that differs from itself (`Program.equal_self_of_parse`).
-/

namespace Lossless

/-- What the leaves of a program may be. -/
structure Lexicon where
  isName : String → Prop
  isLiteral : Scalar → String → Prop

namespace Lexicon

/-- The literals of the lexicon equal themselves. -/
def Reflexive (lex : Lexicon) : Prop :=
  ∀ value raw, lex.isLiteral value raw → value.equal value = true

/-- A token is a name of the lexicon if it is an identifier, and one of its
literals if it has a value. -/
def Covers (lex : Lexicon) (t : Token) : Prop :=
  (t.kind = .identifier → lex.isName t.text) ∧
    ∀ value, Literal.value t.kind t.text = .ok value →
      lex.isLiteral value t.text

end Lexicon

namespace Ast

variable {lex : Lexicon}

/-- Names of functions and of their parameters. -/
inductive IsName (lex : Lexicon) : Ast → Prop where
  | identifier {name : String} (hname : lex.isName name) :
      IsName lex (.identifier name)

/-- Names, literals and calls. -/
inductive IsExpression (lex : Lexicon) : Ast → Prop where
  | identifier {name : String} (hname : lex.isName name) :
      IsExpression lex (.identifier name)
  | literal {value : Scalar} {raw : String}
      (hliteral : lex.isLiteral value raw) :
      IsExpression lex (.literal value raw)
  | callExpression {callee : Ast} {arguments : List Ast}
      (hcallee : IsExpression lex callee)
      (harguments : ∀ t ∈ arguments, IsExpression lex t) :
      IsExpression lex (.callExpression callee arguments)

/-- Statements, inside a function or not: only there one may return. -/
inductive IsStatement (lex : Lexicon) : Bool → Ast → Prop where
  | functionDeclaration {inFunction : Bool} {id : Ast} {params body : List Ast}
      (hid : IsName lex id) (hparams : ∀ t ∈ params, IsName lex t)
      (hbody : ∀ t ∈ body, IsStatement lex true t) : IsStatement lex inFunction
      (.functionDeclaration id params (.blockStatement body))
  | returnNothing : IsStatement lex true (.returnStatement none)
  | returnValue {t : Ast} (h : IsExpression lex t) :
      IsStatement lex true (.returnStatement (some t))
  | blockStatement {inFunction : Bool} {body : List Ast}
      (hbody : ∀ t ∈ body, IsStatement lex inFunction t) :
      IsStatement lex inFunction (.blockStatement body)
  | emptyStatement {inFunction : Bool} :
      IsStatement lex inFunction .emptyStatement
  | expressionStatement {inFunction : Bool} {t : Ast} (h : IsExpression lex t) :
      IsStatement lex inFunction (.expressionStatement t)

/-- Programs: statements outside of any function. -/
inductive IsProgram (lex : Lexicon) : Ast → Prop where
  | program {body : List Ast} (hbody : ∀ t ∈ body, IsStatement lex false t) :
      IsProgram lex (.program body)

/-! ### Nesting -/

/-- The greatest of the levels of some fields. -/
def deepest (inner : List (String × Nat)) : Nat :=
  (inner.map Prod.snd).foldr max 0

/-- The levels that a node of a type takes, from those that its fields take. A
block takes one level more than its statements. An expression takes one more
than its arguments; a callee is no deeper than the call. The names that a
function declares are no expressions. -/
def levels (type : String) (inner : List (String × Nat)) : Nat :=
  match type with
  | "BlockStatement" => 1 + deepest inner
  | "Identifier" | "Literal" => 1
  | "CallExpression" =>
    deepest (inner.map fun (field, n) =>
      (field, if field = "arguments" then 1 + n else n))
  | "FunctionDeclaration" => (inner.lookup "body").getD 0
  | _ => deepest inner

mutual

/-- How deep the blocks and expressions of a tree nest in each other. -/
def nesting : Ast → Nat
  | .node type fields => levels type (nestings fields)

/-- How deep each of some fields nests. -/
def nestings : List (String × Value) → List (String × Nat)
  | [] => []
  | (name, value) :: fields => (name, valueNesting value) :: nestings fields

/-- How deep what a field holds nests. -/
def valueNesting : Value → Nat
  | .node t => nesting t
  | .list items => itemsNesting items
  | .absent | .scalar _ => 0

/-- How deep the trees of a list nest. -/
def itemsNesting : List Ast → Nat
  | [] => 0
  | t :: items => max (nesting t) (itemsNesting items)

end

theorem itemsNesting_le {items : List Ast} {n : Nat} :
    itemsNesting items ≤ n ↔ ∀ t ∈ items, t.nesting ≤ n := by
  induction items with
  | nil => simp [itemsNesting]
  | cons t items ih => rw [itemsNesting, Nat.max_le, ih, List.forall_mem_cons]

theorem nesting_callExpression (callee : Ast) (arguments : List Ast) :
    (callExpression callee arguments).nesting =
      max callee.nesting (1 + itemsNesting arguments) := by
  simp [callExpression, nesting, nestings, valueNesting, levels, deepest]

theorem nesting_expressionStatement (t : Ast) :
    (expressionStatement t).nesting = t.nesting := by
  simp [expressionStatement, nesting, nestings, valueNesting, levels, deepest]

theorem nesting_returnStatement_some (t : Ast) :
    (returnStatement (some t)).nesting = t.nesting := by
  simp [returnStatement, nesting, nestings, valueNesting, levels, deepest]

theorem nesting_blockStatement (body : List Ast) :
    (blockStatement body).nesting = 1 + itemsNesting body := by
  simp [blockStatement, nesting, nestings, valueNesting, levels, deepest]

theorem nesting_functionDeclaration (id : Ast) (params : List Ast)
    (body : Ast) :
    (functionDeclaration id params body).nesting = body.nesting := rfl

theorem nesting_program (body : List Ast) :
    (program body).nesting = itemsNesting body := by
  simp [program, nesting, nestings, valueNesting, levels, deepest]

/-- An expression takes a level. -/
theorem IsExpression.nesting_pos {t : Ast} (h : IsExpression lex t) :
    0 < t.nesting := by
  induction h with
  | identifier => exact Nat.one_pos
  | literal => exact Nat.one_pos
  | callExpression _ _ hcallee _ =>
    rw [nesting_callExpression]
    omega

/-- Expressions that nest no deeper than a number of levels. -/
def IsLeveled (lex : Lexicon) (n : Nat) (t : Ast) : Prop :=
  IsExpression lex t ∧ t.nesting ≤ n

theorem IsName.isExpression {t : Ast} (h : IsName lex t) :
    IsExpression lex t := by
  cases h with
  | identifier hname => exact .identifier hname

theorem IsName.isLeveled {t : Ast} (h : IsName lex t) (n : Nat) :
    IsLeveled lex (n + 1) t := by
  cases h with
  | identifier hname => exact ⟨.identifier hname, Nat.le_add_left ..⟩

/-! ### Trees that equal themselves -/

theorem IsName.equal_self {t : Ast} (h : IsName lex t) : t.equal t = true := by
  cases h with
  | identifier => exact equal_identifier _

theorem IsExpression.equal_self (hlex : lex.Reflexive) {t : Ast}
    (h : IsExpression lex t) : t.equal t = true := by
  induction h with
  | identifier => exact equal_identifier _
  | literal h => exact equal_literal _ (hlex _ _ h)
  | callExpression _ _ hcallee harguments =>
    exact equal_callExpression hcallee (List.forall₂_same.2 harguments)

theorem IsStatement.equal_self (hlex : lex.Reflexive) {inFunction : Bool}
    {t : Ast} (h : IsStatement lex inFunction t) : t.equal t = true := by
  induction h with
  | functionDeclaration hid hparams _ hbody =>
    exact equal_functionDeclaration hid.equal_self
      (List.forall₂_same.2 fun t ht => (hparams t ht).equal_self)
      (equal_blockStatement (List.forall₂_same.2 hbody))
  | returnNothing => exact equal_returnStatement_none
  | returnValue h => exact equal_returnStatement_some (h.equal_self hlex)
  | blockStatement _ hbody =>
    exact equal_blockStatement (List.forall₂_same.2 hbody)
  | emptyStatement => exact equal_emptyStatement
  | expressionStatement h => exact equal_expressionStatement (h.equal_self hlex)

theorem IsProgram.equal_self (hlex : lex.Reflexive) {t : Ast}
    (h : IsProgram lex t) : t.equal t = true := by
  cases h with
  | program hbody =>
    exact equal_program (List.forall₂_same.2 fun t ht =>
      (hbody t ht).equal_self hlex)

end Ast

/-! ### What parsers return -/

/-- A lexicon covers the tokens ahead. -/
def Stream.Covered (lex : Lexicon) (s : Stream) : Prop :=
  ∀ t ∈ s.ahead, lex.Covers t

theorem Stream.Takes.covered {lex : Lexicon} {s next : Stream}
    {leaves : List Leaf} (h : s.Takes next leaves) (hs : s.Covered lex) :
    next.Covered lex := by
  obtain ⟨passed, hahead, -, -⟩ := h
  exact fun t ht => hs t (hahead ▸ List.mem_append_right _ ht)

namespace Parser

open Ast

variable {lex : Lexicon} {P : Ast → Prop}

/-- What a parser reads from tokens that a lexicon covers has a property. -/
def Yields (lex : Lexicon) (p : Parser Ast) (P : Ast → Prop) : Prop :=
  ∀ s r, s.Covered lex → p s = .ok r → P r.value

theorem mem_ahead_of_accept? {kind : TokenKind} {role : Role} {s : Stream}
    {r : Read Token s} (h : accept? kind role s = some r) :
    r.value ∈ s.ahead := by
  obtain ⟨ts, hahead, -, -⟩ := exists_of_accept? h
  exact hahead ▸ List.mem_cons_self

theorem yields_identifier : Yields lex identifier (IsName lex) := by
  intro s r hs h
  obtain ⟨name, hname, rfl⟩ := identifier_eq_ok h
  exact .identifier
    ((hs _ (mem_ahead_of_accept? hname)).1 (accept?_eq_some hname).1)

theorem yields_literal (kind : TokenKind) :
    Yields lex (literal kind) fun t => IsExpression lex t ∧ t.nesting = 1 := by
  intro s r hs h
  obtain ⟨token, value, htoken, hvalue, rfl⟩ := literal_eq_ok h
  have hkind := (accept?_eq_some htoken).1
  exact ⟨.literal
    ((hs _ (mem_ahead_of_accept? htoken)).2 value (hkind ▸ hvalue)), rfl⟩

theorem yields_itemsUntil {stop : TokenKind → Bool} {item : Parser Ast}
    (hfaithful : Faithful item) (hitem : Yields lex item P) (s : Stream) :
    ∀ r, s.Covered lex → itemsUntil stop item s = .ok r →
      ∀ t ∈ r.value, P t := by
  intro r hs h
  rcases itemsUntil_eq_ok h with ⟨-, rfl⟩ |
    ⟨first, others, hfirst, hothers, rfl⟩
  · exact List.forall_mem_nil _
  · have hnext := (hfaithful _ _ hfirst).takes.covered hs
    exact List.forall_mem_cons.2 ⟨hitem _ _ hs hfirst,
      yields_itemsUntil hfaithful hitem first.next others hnext hothers⟩
termination_by s.size
decreasing_by exact first.shorter

theorem yields_separated {item : Parser Ast} (hfaithful : Faithful item)
    (hitem : Yields lex item P) (s : Stream) :
    ∀ r, s.Covered lex → separated item s = .ok r → ∀ t ∈ r.value, P t := by
  intro r hs h
  rcases separated_eq_ok h with
    ⟨only, honly, rfl⟩ | ⟨first, comma, others, hfirst, hcomma, hothers, rfl⟩
  · exact List.forall_mem_singleton.2 (hitem _ _ hs honly)
  · have hnext := (hfaithful _ _ hfirst).takes.covered hs
    have hbehind := (accept?_eq_some hcomma).2.covered hnext
    exact List.forall_mem_cons.2 ⟨hitem _ _ hs hfirst,
      yields_separated hfaithful hitem comma.next others hbehind hothers⟩
termination_by s.size
decreasing_by exact Nat.lt_trans comma.shorter first.shorter

theorem yields_parenthesized {item : Parser Ast} (hfaithful : Faithful item)
    (hitem : Yields lex item P) {s : Stream} {r : Read (List Ast) s}
    (hs : s.Covered lex) (h : parenthesized item s = .ok r) :
    ∀ t ∈ r.value, P t := by
  rcases parenthesized_eq_ok h with ⟨opening, hopening,
    ⟨closing, hclosing, rfl⟩ | ⟨items, closing, hitems, hclosing, rfl⟩⟩
  · exact List.forall_mem_nil _
  · have hnext := (expect_eq_ok hopening).2.covered hs
    exact yields_separated hfaithful hitem _ items hnext hitems

theorem yields_primary {expression : Parser Ast} {levels : Nat}
    (hexpression : Yields lex expression (IsLeveled lex levels)) :
    Yields lex (primary expression) (IsLeveled lex (levels + 1)) := by
  intro s r hs h
  rcases primary_eq_ok h with h | h |
    ⟨opening, inner, closing, hopening, hinner, hclosing, rfl⟩
  · exact (yields_identifier s r hs h).isLeveled levels
  · obtain ⟨hliteral, hnesting⟩ := yields_literal s.kind s r hs h
    exact ⟨hliteral, hnesting ▸ Nat.le_add_left ..⟩
  · obtain ⟨hvalue, hnesting⟩ :=
      hexpression _ _ ((expect_eq_ok hopening).2.covered hs) hinner
    exact ⟨hvalue, Nat.le_succ_of_le hnesting⟩

theorem yields_calls {argument : Parser Ast} (hfaithful : Faithful argument)
    {levels : Nat} (hargument : Yields lex argument (IsLeveled lex levels))
    {callee : Ast} (hcallee : IsLeveled lex (levels + 1) callee) (s : Stream) :
    ∀ r, s.Covered lex →
      calls argument callee s = .ok r → IsLeveled lex (levels + 1) r.value := by
  intro r hs h
  rcases calls_eq_ok h with rfl | ⟨arguments, chain, harguments, hchain, rfl⟩
  · exact hcallee
  · have hnext := (reads_parenthesized hfaithful harguments).2.covered hs
    have hitems := yields_parenthesized hfaithful hargument hs harguments
    refine yields_calls hfaithful hargument
      ⟨?_, ?_⟩ arguments.next chain hnext hchain
    · exact .callExpression hcallee.1 fun t ht => (hitems t ht).1
    · have hdeepest : itemsNesting arguments.value ≤ levels :=
        itemsNesting_le.2 fun t ht => (hitems t ht).2
      have hnesting := hcallee.2
      rw [nesting_callExpression]
      omega
termination_by s.size
decreasing_by exact arguments.shorter

/-- By induction on the levels, an expression takes no more than there are. -/
theorem yields_expression (levels : Nat) :
    Yields lex (expression levels) (IsLeveled lex levels) := by
  induction levels with
  | zero => exact fun s r _ h => nomatch h
  | succ levels ih =>
    intro s r hs h
    obtain ⟨callee, chain, hcallee, hchain, rfl⟩ := expression_succ_eq_ok h
    have hfaithful := faithful_expression levels
    have hnext := (faithful_primary hfaithful s callee hcallee).takes.covered hs
    exact yields_calls hfaithful ih
      (yields_primary ih s callee hs hcallee) _ chain hnext hchain

/-- A statement that nests no deeper than a number of levels. -/
def Placed (lex : Lexicon) (inFunction : Bool) (n : Nat) (t : Ast) : Prop :=
  IsStatement lex inFunction t ∧ t.nesting ≤ n

theorem yields_returnStatement (levels : Nat) :
    Yields lex (returnStatement levels) (Placed lex true levels) := by
  intro s r hs h
  rcases returnStatement_eq_ok h with ⟨word, hword,
    ⟨ending, hending, rfl⟩ | ⟨argument, ending, hargument, hending, rfl⟩⟩
  · exact ⟨.returnNothing, Nat.zero_le _⟩
  · have hnext := (expect_eq_ok hword).2.covered hs
    obtain ⟨hvalue, hnesting⟩ := yields_expression levels _ _ hnext hargument
    exact ⟨.returnValue hvalue,
      le_of_eq_of_le (nesting_returnStatement_some _) hnesting⟩

theorem yields_expressionStatement (levels : Nat) (inFunction : Bool) :
    Yields lex (expressionStatement levels) (Placed lex inFunction levels) := by
  intro s r hs h
  obtain ⟨value, ending, hvalue, hending, rfl⟩ := expressionStatement_eq_ok h
  obtain ⟨hexpression, hnesting⟩ := yields_expression levels _ _ hs hvalue
  exact ⟨.expressionStatement hexpression,
    le_of_eq_of_le (nesting_expressionStatement _) hnesting⟩

/-- A block whose statements are inside a function or not, and that nests no
deeper than some levels. -/
def IsBlock (lex : Lexicon) (inFunction : Bool) (n : Nat) (t : Ast) : Prop :=
  ∃ body, t = .blockStatement body ∧
    (∀ u ∈ body, IsStatement lex inFunction u) ∧ t.nesting ≤ n

theorem yields_functionDeclaration {body : Parser Ast} {levels : Nat}
    {inFunction : Bool} (hbody : Yields lex body (IsBlock lex true levels)) :
    Yields lex (functionDeclaration body) (Placed lex inFunction levels) := by
  intro s r hs h
  obtain ⟨word, name, params, inner, hword, hname, hparams, hinner, rfl⟩ :=
    functionDeclaration_eq_ok h
  have hword := (expect_eq_ok hword).2.covered hs
  have hnext := (faithful_identifier _ _ hname).takes.covered hword
  have hbehind :=
    (reads_parenthesized faithful_identifier hparams).2.covered hnext
  obtain ⟨statements, hstatements, hall, hnesting⟩ := hbody _ _ hbehind hinner
  have hparams :=
    yields_parenthesized faithful_identifier yields_identifier hnext hparams
  refine ⟨?_, le_of_eq_of_le (nesting_functionDeclaration ..) hnesting⟩
  change IsStatement lex inFunction
    (.functionDeclaration name.value params.value inner.value)
  rw [hstatements]
  exact .functionDeclaration (yields_identifier _ _ hword hname) hparams hall

theorem yields_statement {levels : Nat} {block : Bool → Parser Ast}
    {inFunction : Bool}
    (hblock : ∀ inFunction,
      Yields lex (block inFunction) (IsBlock lex inFunction levels)) :
    Yields lex (statement levels block inFunction)
      (Placed lex inFunction levels) := by
  intro s r hs h
  rcases statement_eq_ok h with h | ⟨hin, h⟩ | h | ⟨mark, hmark, rfl⟩ | h
  · exact yields_functionDeclaration (hblock true) s r hs h
  · exact hin ▸ yields_returnStatement levels s r hs h
  · obtain ⟨body, hbody, hall, hnesting⟩ := hblock inFunction s r hs h
    exact ⟨hbody ▸ .blockStatement hall, hnesting⟩
  · exact ⟨.emptyStatement, Nat.zero_le _⟩
  · exact yields_expressionStatement levels inFunction s r hs h

theorem yields_block (levels : Nat) (inFunction : Bool) :
    Yields lex (block levels inFunction) (IsBlock lex inFunction levels) := by
  induction levels generalizing inFunction with
  | zero => exact fun s r _ h => nomatch h
  | succ levels ih =>
    intro s r hs h
    obtain ⟨opening, body, closing, hopening, hbody, hclosing, rfl⟩ :=
      block_succ_eq_ok h
    have hnext := (expect_eq_ok hopening).2.covered hs
    have hitems := yields_itemsUntil (faithful_statement levels fun b =>
      faithful_block levels b)
      (yields_statement ih) _ body hnext hbody
    refine ⟨body.value, rfl, fun t ht => (hitems t ht).1, ?_⟩
    have hdeepest : itemsNesting body.value ≤ levels :=
      itemsNesting_le.2 fun t ht => (hitems t ht).2
    change (blockStatement body.value).nesting ≤ _
    rw [nesting_blockStatement]
    omega

end Parser

/-- The tree of a text is a program over every lexicon that covers the tokens of
the text, and its blocks and expressions do not nest too deep. -/
theorem Program.grammatical_of_parse {lex : Lexicon} {text : String}
    {p : Program} (hlex : ∀ t ∈ tokenize text, lex.Covers t)
    (h : parse text = .ok p) :
    Ast.IsProgram lex p.ast ∧ p.ast.nesting ≤ maxNesting := by
  obtain ⟨body, hbody, h⟩ := Outcome.bind_eq_ok.1 h
  rw [← Except.ok.inj h]
  obtain ⟨items, hitems, rfl⟩ := Parser.program_eq_ok hbody
  have hs : (Stream.ofTokens (tokenize text) text.utf8ByteSize).Covered lex :=
    (Stream.takes_skipTrivia [] false false _ _).covered hlex
  have hall := Parser.yields_itemsUntil (Parser.faithful_statement maxNesting
    fun b => Parser.faithful_block maxNesting b)
    (Parser.yields_statement fun b => Parser.yields_block maxNesting b)
    _ items hs hitems
  refine ⟨.program fun t ht => (hall t ht).1, ?_⟩
  change (Ast.program items.value).nesting ≤ _
  rw [Ast.nesting_program]
  exact Ast.itemsNesting_le.2 fun t ht => (hall t ht).2

/-! ### Programs equal themselves -/

/-- A lexicon in which any text is a name, and the literals are the values that
equal themselves. -/
def Lexicon.reflexive : Lexicon where
  isName _ := True
  isLiteral value _ := value.equal value = true

namespace Literal

/-- The number that a literal denotes is finite. -/
theorem isFinite_of_number {raw : String} {x : Binary64}
    (h : number raw = .ok x) : x.isFinite = true := by
  obtain ⟨y, -, h⟩ := Outcome.bind_eq_ok.1 h
  split at h
  · rename_i hfinite
    exact Except.ok.inj h ▸ hfinite
  · exact nomatch h

theorem equal_self_of_value {kind : TokenKind} {raw : String} {v : Scalar}
    (h : value kind raw = .ok v) : v.equal v = true := by
  cases kind with
  | trueWord | falseWord | nullWord =>
    obtain rfl := Except.ok.inj h
    rfl
  | number =>
    obtain ⟨x, hx, rfl⟩ := Outcome.map_eq_ok.1 h
    have hfinite := isFinite_of_number hx
    refine Binary64.equal_self ?_
    cases x with
    | nan => exact nomatch hfinite
    | _ => rfl
  | string =>
    obtain ⟨text, -, rfl⟩ := Outcome.map_eq_ok.1 h
    exact beq_self_eq_true text
  | _ => exact nomatch h

end Literal

/-- The tree of a program equals itself. -/
theorem Program.equal_self_of_parse {text : String} {p : Program}
    (h : parse text = .ok p) : p.ast.equal p.ast = true := by
  have hcovers : ∀ t ∈ tokenize text, Lexicon.reflexive.Covers t := fun t _ =>
    ⟨fun _ => trivial, fun _ hvalue => Literal.equal_self_of_value hvalue⟩
  exact (grammatical_of_parse hcovers h).1.equal_self fun _ _ h => h

end Lossless
