import Lossless.Proofs.Grammatical

/-!
# What stands where in a tree

The way down to a node of a tree (`Leads`) names the types and the fields that
it passes. Below a part of a program there are parts of programs only, each in a
field that may hold its type, and one stands inside a function just where the
way passes the body of a function (`IsPart.of_leads`). So the tree of a text is
well formed (`WellFormed`): it passes the check of the grammar, its fields hold
what they are for, returns lie in bodies of functions, and names and literals
are tokens of the text (`Program.wellFormed_of_parse`).
-/

namespace Lossless

namespace Ast

/-- The types of statements. -/
def statementTypes : List String :=
  ["FunctionDeclaration", "ReturnStatement", "BlockStatement", "EmptyStatement",
    "ExpressionStatement"]

/-- The types of expressions. -/
def expressionTypes : List String := ["Identifier", "Literal", "CallExpression"]

/-- The types of the nodes that a field may hold in a node of a type. -/
def fieldTypes (type field : String) : List String :=
  match field with
  | "body" =>
    if type = "FunctionDeclaration" then ["BlockStatement"] else statementTypes
  | "callee" | "arguments" | "expression" | "argument" => expressionTypes
  | "id" | "params" => ["Identifier"]
  | _ => []

/-- The way from a tree down to a node of it: the types of the nodes that it
passes, each with the field below which it goes on. -/
inductive Leads : Ast → List (String × String) → Ast → Prop where
  | here (t : Ast) : Leads t [] t
  | into {t c u : Ast} {field : String × Value} {way : List (String × String)}
      (hfield : field ∈ t.fields) (hc : c ∈ field.2.nodes) (h : Leads c way u) :
      Leads t ((t.type, field.1) :: way) u

/-- The step of a way into a function. -/
def functionBody : String × String := ("FunctionDeclaration", "body")

/-- What is promised of the tree of a text. -/
structure WellFormed (text : String) (t : Ast) : Prop where
  checks : Grammar.functions.check t = .ok ()
  /-- Fields hold what they are for. -/
  fields : ∀ way u, t.Leads way u → ∀ field ∈ u.fields, ∀ c ∈ field.2.nodes,
    c.type ∈ fieldTypes u.type field.1
  /-- A return lies in the body of a function. -/
  returns : ∀ way u, t.Leads way u → u.type = "ReturnStatement" →
    functionBody ∈ way
  /-- A name is an identifier of the text. -/
  names : ∀ way u, t.Leads way u → u.type = "Identifier" →
    ∃ token ∈ tokenize text, token.kind = .identifier ∧
      u = .identifier token.text
  /-- A literal is a token of the text and has its value. -/
  literals : ∀ way u, t.Leads way u → u.type = "Literal" →
    ∃ token ∈ tokenize text, ∃ value,
      Literal.value token.kind token.text = .ok value ∧
      u = .literal value token.text
  /-- Blocks and expressions do not nest too deep. -/
  nesting : t.nesting ≤ 256

/-- No field holds a program. -/
theorem program_notMem_fieldTypes (type field : String) :
    "Program" ∉ fieldTypes type field := by
  rw [fieldTypes.eq_def]
  split
  · split <;> decide
  all_goals decide

/-- The nodes of a tree are those to which there is a way. -/
theorem mem_nodes_iff {t u : Ast} :
    u ∈ Branching.nodes t ↔ ∃ way, t.Leads way u := by
  constructor
  · intro h
    induction t using Branching.induction with
    | step t ih =>
      rw [Branching.nodes_eq] at h
      rcases List.mem_cons.1 h with rfl | h
      · exact ⟨[], .here _⟩
      · obtain ⟨c, hc, h⟩ := List.mem_flatMap.1 h
        obtain ⟨way, hway⟩ := ih c hc h
        obtain ⟨field, hfield, hc⟩ := List.mem_flatMap.1 hc
        exact ⟨_, .into hfield hc hway⟩
  · rintro ⟨way, h⟩
    induction h with
    | here => exact Branching.mem_nodes_self _
    | into hfield hc _ ih =>
      exact Branching.mem_nodes_of_mem_children
        (List.mem_flatMap.2 ⟨_, hfield, hc⟩) ih

/-! ### Parts of programs -/

section

variable {lex : Lexicon} {inFunction : Bool} {t c u : Ast}
  {way : List (String × String)}

/-- The parts of a program: itself, its statements, inside of a function or not,
and their expressions. -/
inductive IsPart (lex : Lexicon) : Bool → Ast → Prop where
  | program {t : Ast} (h : IsProgram lex t) : IsPart lex false t
  | statement {inFunction : Bool} {t : Ast} (h : IsStatement lex inFunction t) :
      IsPart lex inFunction t
  | expression {inFunction : Bool} {t : Ast} (h : IsExpression lex t) :
      IsPart lex inFunction t

theorem IsName.type_mem (h : IsName lex t) : t.type ∈ ["Identifier"] := by
  cases h with
  | identifier => exact .head _

theorem IsExpression.type_mem (h : IsExpression lex t) :
    t.type ∈ expressionTypes := by
  cases h with
  | identifier => exact .head _
  | literal => exact .tail _ (.head _)
  | callExpression => exact .tail _ (.tail _ (.head _))

theorem IsStatement.type_mem (h : IsStatement lex inFunction t) :
    t.type ∈ statementTypes := by
  cases h with
  | functionDeclaration => exact .head _
  | returnNothing => exact .tail _ (.head _)
  | returnValue => exact .tail _ (.head _)
  | blockStatement => exact .tail _ (.tail _ (.head _))
  | emptyStatement => exact .tail _ (.tail _ (.tail _ (.head _)))
  | expressionStatement => exact .tail _ (.tail _ (.tail _ (.tail _ (.head _))))

/-- A part of a program in a field that may hold it. Inside of a function is
what is in the body of one or in a node that is. -/
structure Held (lex : Lexicon) (inFunction : Bool) (type field : String)
    (c : Ast) : Prop where
  part : ∃ inner, IsPart lex inner c ∧
    (inner = true → inFunction = true ∨ (type, field) = functionBody)
  type_mem : c.type ∈ fieldTypes type field

theorem IsPart.held {type field : String} (h : IsPart lex inFunction c)
    (hc : c.type ∈ fieldTypes type field) : Held lex inFunction type field c :=
  ⟨⟨inFunction, h, .inl⟩, hc⟩

open List (forall_mem_nil forall_mem_cons forall_mem_singleton)

theorem IsExpression.held (inFunction : Bool) (h : IsExpression lex t) :
    ∀ field ∈ t.fields, ∀ c ∈ field.2.nodes,
      Held lex inFunction t.type field.1 c := by
  cases h with
  | identifier => exact forall_mem_singleton.2 (forall_mem_nil _)
  | literal => exact forall_mem_cons.2 ⟨forall_mem_nil _,
    forall_mem_singleton.2 (forall_mem_nil _)⟩
  | callExpression hcallee harguments =>
    exact forall_mem_cons.2 ⟨forall_mem_singleton.2
        (IsPart.held (.expression hcallee) hcallee.type_mem),
      forall_mem_singleton.2 fun c hc =>
        IsPart.held (.expression (harguments c hc)) (harguments c hc).type_mem⟩

theorem IsStatement.held (h : IsStatement lex inFunction t) :
    ∀ field ∈ t.fields, ∀ c ∈ field.2.nodes,
      Held lex inFunction t.type field.1 c := by
  cases h with
  | functionDeclaration hid hparams hbody =>
    have hname {c : Ast} (hc : IsName lex c) : IsPart lex inFunction c :=
      .expression hc.isExpression
    have hblock : IsPart lex true (.blockStatement _) :=
      .statement (.blockStatement hbody)
    exact forall_mem_cons.2
      ⟨forall_mem_singleton.2 ((hname hid).held hid.type_mem),
        forall_mem_cons.2 ⟨fun c hc =>
            (hname (hparams c hc)).held (hparams c hc).type_mem,
          forall_mem_singleton.2 (forall_mem_singleton.2
            ⟨⟨true, hblock, fun _ => .inr rfl⟩, .head _⟩)⟩⟩
  | returnNothing => exact forall_mem_singleton.2 (forall_mem_nil _)
  | returnValue h =>
    exact forall_mem_singleton.2
      (forall_mem_singleton.2 (IsPart.held (.expression h) h.type_mem))
  | blockStatement hbody =>
    exact forall_mem_singleton.2 fun c hc =>
      IsPart.held (.statement (hbody c hc)) (hbody c hc).type_mem
  | emptyStatement => exact forall_mem_nil _
  | expressionStatement h =>
    exact forall_mem_singleton.2
      (forall_mem_singleton.2 (IsPart.held (.expression h) h.type_mem))

/-- What the fields of a part of a program hold are parts of it. -/
theorem IsPart.fields (h : IsPart lex inFunction t) :
    ∀ field ∈ t.fields, ∀ c ∈ field.2.nodes,
      Held lex inFunction t.type field.1 c := by
  cases h with
  | program h =>
    cases h with
    | program hbody =>
      exact forall_mem_singleton.2 fun c hc =>
        IsPart.held (.statement (hbody c hc)) (hbody c hc).type_mem
  | statement h => exact h.held
  | expression h => exact h.held inFunction

/-- By induction on the way, it leads to a part of the program. -/
theorem IsPart.of_leads (h : IsPart lex inFunction t) (hway : t.Leads way u) :
    ∃ inner, IsPart lex inner u ∧
      (inner = true → inFunction = true ∨ functionBody ∈ way) := by
  induction hway generalizing inFunction with
  | here => exact ⟨inFunction, h, .inl⟩
  | into hfield hc _ ih =>
    obtain ⟨middle, hmiddle, hbody⟩ := (h.fields _ hfield _ hc).part
    obtain ⟨inner, hinner, hway⟩ := ih hmiddle
    refine ⟨inner, hinner, fun h => ?_⟩
    rcases hway h with hmiddle | hway
    · rcases hbody hmiddle with hfunction | hstep
      · exact .inl hfunction
      · exact .inr (hstep ▸ .head _)
    · exact .inr (.tail _ hway)

/-- A return is a part inside of a function only. -/
theorem IsStatement.inFunction_of_return (h : IsStatement lex inFunction t)
    (htype : t.type = "ReturnStatement") : inFunction = true := by
  cases h with
  | returnNothing | returnValue => rfl
  | _ =>
    simp [Ast.functionDeclaration, Ast.blockStatement, Ast.emptyStatement,
      Ast.expressionStatement, type] at htype

theorem IsProgram.type_eq (h : IsProgram lex t) : t.type = "Program" := by
  cases h with
  | program => rfl

theorem IsPart.inFunction_of_return (h : IsPart lex inFunction t)
    (htype : t.type = "ReturnStatement") : inFunction = true := by
  cases h with
  | program h => exact absurd (h.type_eq.symm.trans htype) (by decide)
  | statement h => exact h.inFunction_of_return htype
  | expression h => exact absurd (htype ▸ h.type_mem) (by decide)

theorem IsPart.isExpression (h : IsPart lex inFunction t)
    (htype : t.type ∈ expressionTypes) : IsExpression lex t := by
  cases h with
  | program h => exact absurd (h.type_eq ▸ htype) (by decide)
  | statement h =>
    have hdisjoint : ∀ type ∈ statementTypes, type ∉ expressionTypes := by
      decide
    exact absurd htype (hdisjoint _ h.type_mem)
  | expression h => exact h

theorem IsExpression.exists_name (h : IsExpression lex t)
    (htype : t.type = "Identifier") :
    ∃ name, lex.isName name ∧ t = .identifier name := by
  cases h with
  | identifier hname => exact ⟨_, hname, rfl⟩
  | _ => simp [Ast.literal, Ast.callExpression, type] at htype

theorem IsExpression.exists_literal (h : IsExpression lex t)
    (htype : t.type = "Literal") :
    ∃ value raw, lex.isLiteral value raw ∧ t = .literal value raw := by
  cases h with
  | literal hliteral => exact ⟨_, _, hliteral, rfl⟩
  | _ => simp [Ast.identifier, Ast.callExpression, type] at htype

end

end Ast

/-! ### The trees of texts -/

/-- The names and the literals that a text spells. -/
def Lexicon.ofText (text : String) : Lexicon where
  isName name := ∃ token ∈ tokenize text, token.kind = .identifier ∧
    token.text = name
  isLiteral value raw := ∃ token ∈ tokenize text,
    Literal.value token.kind raw = .ok value ∧ token.text = raw

theorem Lexicon.covers_ofText {text : String} :
    ∀ t ∈ tokenize text, (ofText text).Covers t :=
  fun t ht => ⟨fun hkind => ⟨t, ht, hkind, rfl⟩,
    fun _ hvalue => ⟨t, ht, hvalue, rfl⟩⟩

namespace Program

open Ast (Leads functionBody)

/-- The tree of a text is well formed. -/
theorem wellFormed_of_parse {text : String} {p : Program}
    (h : parse text = .ok p) : p.ast.WellFormed text := by
  obtain ⟨hprogram, hnesting⟩ := grammatical_of_parse Lexicon.covers_ofText h
  obtain ⟨hfits, hroot, -, -⟩ := parse_eq_ok h
  have hpart {way : List (String × String)}
      {u : Ast} (hway : p.ast.Leads way u) :
      ∃ inner, Ast.IsPart (.ofText text) inner u ∧
        (inner = true → functionBody ∈ way) := by
    obtain ⟨inner, hinner, hbody⟩ := (Ast.IsPart.program hprogram).of_leads hway
    exact ⟨inner, hinner, fun h => (hbody h).resolve_left Bool.false_ne_true⟩
  refine ⟨Grammar.check_of_conforms hroot hfits,
    fun way u hway field hfield c hc => ?_, fun way u hway htype => ?_,
    fun way u hway htype => ?_, fun way u hway htype => ?_, hnesting⟩
  · obtain ⟨inner, hinner, -⟩ := hpart hway
    exact (hinner.fields field hfield c hc).type_mem
  · obtain ⟨inner, hinner, hbody⟩ := hpart hway
    exact hbody (hinner.inFunction_of_return htype)
  · obtain ⟨inner, hinner, -⟩ := hpart hway
    have hexpression := hinner.isExpression (htype ▸ .head _)
    obtain ⟨name, ⟨token, htoken, hkind, rfl⟩, hu⟩ :=
      hexpression.exists_name htype
    exact ⟨token, htoken, hkind, hu⟩
  · obtain ⟨inner, hinner, -⟩ := hpart hway
    have hexpression := hinner.isExpression (htype ▸ .tail _ (.head _))
    obtain ⟨value, raw, ⟨token, htoken, hvalue, rfl⟩, hu⟩ :=
      hexpression.exists_literal htype
    exact ⟨token, htoken, value, hvalue, hu⟩

/-- A return with a call lies two blocks deep in a function. -/
theorem wellFormed_of_parse_sample :
    ∃ p, parse "function f(a) \x7b \x7b return g(a, 0x1f)('b') \x7d \x7d" =
        .ok p ∧
      p.ast.WellFormed
        "function f(a) \x7b \x7b return g(a, 0x1f)('b') \x7d \x7d" := by
  have hok :
      (parse "function f(a) \x7b \x7b return g(a, 0x1f)('b') \x7d \x7d").isOk =
        true := by
    decide +kernel
  obtain ⟨p, hp⟩ := Outcome.exists_of_isOk hok
  exact ⟨p, hp, wellFormed_of_parse hp⟩

end Program

end Lossless
