import Lossless.Proofs.Bundled
import Lossless.Proofs.Inversion
import Lossless.Proofs.Tokenizing

/-!
# What a parser reads

Between the position at which a parser starts and the one that it reaches, every
token has been given a role. A parser is faithful when the tokens that got a
meaning are, in order, the leaves of the tree that it returns, and that tree
fits the grammar (`Parser.Faithful`). Each parser of the language is, if the
parsers of its parts are; so it follows the recursion of the parsers that a
whole program is read faithfully (`faithful_program`).
-/

namespace Lossless

/-! ### The nodes of programs -/

namespace Grammar

theorem conforms_of_fits {g : Grammar} {type : String}
    {fields : List (String × Ast.Value)} {defs : List FieldDef}
    (hdeclared : g.fields? type = some defs)
    (hnames : fields.map Prod.fst = defs.map FieldDef.name)
    (hfits : (defs.zip fields).all (fun x => x.1.shape.fits x.2.2) = true)
    (hbelow : ∀ field ∈ fields, ∀ t ∈ field.2.nodes, g.Conforms t) :
    g.Conforms (.node type fields) := by
  refine .node hdeclared hnames (List.all_eq_true.1 hfits) fun t ht => ?_
  obtain ⟨field, hfield, ht⟩ := List.mem_flatMap.1 ht
  exact hbelow field hfield t ht

end Grammar

/-- Trees that fit the grammar of programs. -/
abbrev Ast.Fits (t : Ast) : Prop := Grammar.functions.Conforms t

/-- What a program's tree is spelled with. -/
abbrev Ast.words (t : Ast) : List Leaf := t.leaves .functions

namespace Ast

open Grammar Leaf
open List (forall_mem_nil forall_mem_cons forall_mem_singleton)

theorem words_identifier (name : String) :
    (identifier name).words = [.text name] := rfl

theorem words_literal (value : Scalar) (raw : String) :
    (literal value raw).words = [.text raw] := rfl

theorem words_emptyStatement : emptyStatement.words = [.text ";"] := rfl

theorem words_expressionStatement (t : Ast) :
    (expressionStatement t).words = t.words :=
  List.append_nil _

theorem words_returnStatement_none :
    (returnStatement none).words = [.text "return"] := rfl

theorem words_returnStatement_some (t : Ast) :
    (returnStatement (some t)).words = [.text "return"] ++ t.words :=
  congrArg _ (List.append_nil _)

theorem words_callExpression (callee : Ast) (arguments : List Ast) :
    (callExpression callee arguments).words = callee.words ++ ([.text "("] ++
      (ofItems (some ",") 0 (arguments.map words) ++ [.text ")"])) := by
  rw [← itemLeaves_eq_map]
  rfl

theorem words_functionDeclaration (id : Ast) (params : List Ast) (body : Ast) :
    (functionDeclaration id params body).words =
      [.text "function"] ++ (id.words ++
        (([.text "("] ++ (ofItems (some ",") 0 (params.map words) ++
          [.text ")"])) ++ body.words)) := by
  rw [← itemLeaves_eq_map, ← List.append_nil body.words, List.append_assoc,
    List.append_assoc]
  rfl

theorem words_blockStatement (body : List Ast) : (blockStatement body).words =
    [.text "\x7b"] ++ (ofItems none 0 (body.map words) ++ [.text "\x7d"]) := by
  rw [← itemLeaves_eq_map]
  rfl

theorem words_program (body : List Ast) :
    (program body).words = ofItems none 0 (body.map words) := by
  rw [← itemLeaves_eq_map, ← List.append_nil (ofItems ..)]
  rfl

theorem fits_identifier (name : String) : (identifier name).Fits :=
  conforms_of_fits rfl rfl rfl (forall_mem_singleton.2 (forall_mem_nil _))

theorem fits_literal (value : Scalar) (raw : String) :
    (literal value raw).Fits :=
  conforms_of_fits rfl rfl rfl (forall_mem_cons.2 ⟨forall_mem_nil _,
    forall_mem_singleton.2 (forall_mem_nil _)⟩)

theorem fits_emptyStatement : emptyStatement.Fits :=
  conforms_of_fits rfl rfl rfl (forall_mem_nil _)

theorem fits_expressionStatement {t : Ast} (ht : t.Fits) :
    (expressionStatement t).Fits :=
  conforms_of_fits rfl rfl rfl
    (forall_mem_singleton.2 (forall_mem_singleton.2 ht))

theorem fits_returnStatement_none : (returnStatement none).Fits :=
  conforms_of_fits rfl rfl rfl (forall_mem_singleton.2 (forall_mem_nil _))

theorem fits_returnStatement_some {t : Ast} (ht : t.Fits) :
    (returnStatement (some t)).Fits :=
  conforms_of_fits rfl rfl rfl
    (forall_mem_singleton.2 (forall_mem_singleton.2 ht))

theorem fits_callExpression {callee : Ast} {arguments : List Ast}
    (hcallee : callee.Fits) (harguments : ∀ t ∈ arguments, t.Fits) :
    (callExpression callee arguments).Fits :=
  conforms_of_fits rfl rfl rfl (forall_mem_cons.2
    ⟨forall_mem_singleton.2 hcallee, forall_mem_singleton.2 harguments⟩)

theorem fits_functionDeclaration {id : Ast} {params : List Ast} {body : Ast}
    (hid : id.Fits) (hparams : ∀ t ∈ params, t.Fits) (hbody : body.Fits) :
    (functionDeclaration id params body).Fits :=
  conforms_of_fits rfl rfl rfl (forall_mem_cons.2 ⟨forall_mem_singleton.2 hid,
    forall_mem_cons.2 ⟨hparams,
      forall_mem_singleton.2 (forall_mem_singleton.2 hbody)⟩⟩)

theorem fits_blockStatement {body : List Ast} (h : ∀ t ∈ body, t.Fits) :
    (blockStatement body).Fits :=
  conforms_of_fits rfl rfl rfl (forall_mem_singleton.2 h)

theorem fits_program {body : List Ast} (h : ∀ t ∈ body, t.Fits) :
    (program body).Fits :=
  conforms_of_fits rfl rfl rfl (forall_mem_singleton.2 h)

end Ast

/-! ### Steps over tokens -/

/-- The leaves that a token in a role is read as. -/
def Token.leaves (t : Token) : Role → List Leaf
  | .semantic => [.text t.word]
  | .extra => []

/-- The leaves that tokens with roles are read as. -/
def SourceToken.allLeaves (ts : List SourceToken) : List Leaf :=
  ts.flatMap fun t => t.token.leaves t.role

namespace Stream

/-- The tokens between two positions have been given roles, and are read
as some leaves. -/
def Takes (s next : Stream) (leaves : List Leaf) : Prop :=
  ∃ passed : List SourceToken,
    s.ahead = passed.map SourceToken.token ++ next.ahead ∧
    next.behind = passed.reverse ++ s.behind ∧
    SourceToken.allLeaves passed = leaves

namespace Takes

variable {s next last : Stream} {leaves leaves' : List Leaf}

theorem refl (s : Stream) : s.Takes s [] := ⟨[], rfl, rfl, rfl⟩

theorem append (h : s.Takes next leaves) (h' : next.Takes last leaves') :
    s.Takes last (leaves ++ leaves') := by
  obtain ⟨passed, hahead, hbehind, rfl⟩ := h
  obtain ⟨passed', hahead', hbehind', rfl⟩ := h'
  refine ⟨passed ++ passed', ?_, ?_, List.flatMap_append⟩
  · rw [hahead, hahead', List.map_append, List.append_assoc]
  · rw [hbehind', hbehind, List.reverse_append, List.append_assoc]

/-- A step over a token, whatever comes behind it. -/
theorem cons {role : Role} {t : Token} {ts : List Token} {newline : Bool}
    {textEnd : Nat} (hahead : s.ahead = t :: ts)
    (h : Takes ⟨⟨role, t⟩ :: s.behind, newline, ts, textEnd⟩ next leaves) :
    s.Takes next (t.leaves role ++ leaves) := by
  obtain ⟨passed, hts, hbehind, rfl⟩ := h
  refine ⟨⟨role, t⟩ :: passed, ?_, ?_, List.flatMap_cons⟩
  · rw [hahead, List.map_cons, List.cons_append]
    exact congrArg _ hts
  · rw [hbehind, List.reverse_cons, List.append_assoc]
    rfl

end Takes

theorem takes_skipTrivia (behind : List SourceToken) (newline newline' : Bool)
    (textEnd : Nat) (ts : List Token) :
    Takes ⟨behind, newline', ts, textEnd⟩
      (skipTrivia behind newline textEnd ts) [] := by
  fun_induction skipTrivia behind newline textEnd ts generalizing newline' with
  | case1 => exact .refl _
  | case2 behind newline t ts _ ih =>
    exact Takes.cons (s := ⟨behind, newline', t :: ts, textEnd⟩) rfl (ih false)
  | case3 => exact ⟨[], rfl, rfl, rfl⟩

theorem takes_pass {s : Stream} (role : Role) {t : Token} {ts : List Token}
    (hahead : s.ahead = t :: ts) : s.Takes (s.pass role t ts) (t.leaves role) :=
  List.append_nil (t.leaves role) ▸ .cons hahead
    (takes_skipTrivia _ _ false _ _)

/-- A tree was read between two positions: it fits the grammar, and the tokens
are read as its leaves. -/
structure Reads (s next : Stream) (t : Ast) : Prop where
  fits : t.Fits
  takes : s.Takes next t.words

/-- Trees were read between two positions, with separators between them. -/
structure ReadsAll (separator : Option String) (s next : Stream)
    (items : List Ast) : Prop where
  fits : ∀ t ∈ items, t.Fits
  takes : s.Takes next (Leaf.ofItems separator 0 (items.map Ast.words))

end Stream

namespace Parser

theorem accept?_eq_some {kind : TokenKind} {role : Role} {s : Stream}
    {r : Read Token s} (h : accept? kind role s = some r) :
    r.value.kind = kind ∧ s.Takes r.next (r.value.leaves role) := by
  obtain ⟨ts, hahead, hkind, hnext⟩ := exists_of_accept? h
  exact ⟨hkind, hnext ▸ Stream.takes_pass role hahead⟩

/-- A token of a kind with a spelling is read as that spelling. -/
theorem takes_accept? {kind : TokenKind} {word : String} {s : Stream}
    {r : Read Token s} (hword : kind.spelling? = some word)
    (h : accept? kind .semantic s = some r) : s.Takes r.next [.text word] := by
  obtain ⟨hkind, htakes⟩ := accept?_eq_some h
  rw [Token.leaves, Token.word, hkind, hword] at htakes
  exact htakes

theorem expect_eq_ok {kind : TokenKind} {role : Role} {s : Stream}
    {r : Read Token s} (h : expect kind role s = .ok r) :
    r.value.kind = kind ∧ s.Takes r.next (r.value.leaves role) :=
  accept?_eq_some (accept?_of_expect h)

theorem takes_expect {kind : TokenKind} {word : String} {s : Stream}
    {r : Read Token s} (hword : kind.spelling? = some word)
    (h : expect kind .semantic s = .ok r) : s.Takes r.next [.text word] :=
  takes_accept? hword (accept?_of_expect h)

/-! ### Parsers of parts -/

/-- Whatever a parser reads is a tree of the grammar, read from
tokens that spell it. -/
def Faithful (p : Parser Ast) : Prop := ∀ s r, p s = .ok r →
  s.Reads r.next r.value

theorem faithful_identifier : Faithful identifier := by
  intro s r h
  obtain ⟨name, hname, rfl⟩ := identifier_eq_ok h
  obtain ⟨hkind, htakes⟩ := accept?_eq_some hname
  rw [Token.leaves, Token.word, hkind] at htakes
  exact ⟨Ast.fits_identifier _, Ast.words_identifier _ ▸ htakes⟩

/-- Only kinds that leave the spelling open are literals. -/
theorem spelling?_of_value {kind : TokenKind} {raw : String} {value : Scalar}
    (h : Literal.value kind raw = .ok value) : kind.spelling? = none := by
  cases kind with
  | trueWord | falseWord | nullWord | number | string => rfl
  | _ => exact nomatch h

theorem faithful_literal (kind : TokenKind) : Faithful (literal kind) := by
  intro s r h
  obtain ⟨token, value, htoken, hvalue, rfl⟩ := literal_eq_ok h
  obtain ⟨hkind, htakes⟩ := accept?_eq_some htoken
  rw [Token.leaves, Token.word, hkind, spelling?_of_value hvalue] at htakes
  exact ⟨Ast.fits_literal _ _, Ast.words_literal _ _ ▸ htakes⟩

theorem faithful_primary {expression : Parser Ast}
    (hexpression : Faithful expression) : Faithful (primary expression) := by
  intro s r h
  rcases primary_eq_ok h with h | h |
    ⟨opening, inner, closing, hopening, hinner, hclosing, rfl⟩
  · exact faithful_identifier s r h
  · exact faithful_literal s.kind s r h
  · -- the parentheses are extras
    have hreads := hexpression _ _ hinner
    have htakes := (expect_eq_ok hopening).2.append
      (hreads.takes.append (expect_eq_ok hclosing).2)
    simp only [Token.leaves, List.nil_append, List.append_nil] at htakes
    exact ⟨hreads.fits, htakes⟩

theorem reads_itemsUntil {stop : TokenKind → Bool} {item : Parser Ast}
    (hitem : Faithful item) (s : Stream) :
    ∀ r, itemsUntil stop item s = .ok r → s.ReadsAll none r.next r.value := by
  intro r h
  rcases itemsUntil_eq_ok h with ⟨-, rfl⟩ |
    ⟨first, others, hfirst, hothers, rfl⟩
  · exact ⟨List.forall_mem_nil _, .refl s⟩
  · have hreads := hitem _ _ hfirst
    have hrest := reads_itemsUntil hitem first.next others hothers
    exact ⟨List.forall_mem_cons.2 ⟨hreads.fits, hrest.fits⟩,
      Leaf.ofItems_cons_none _ _ ▸ hreads.takes.append hrest.takes⟩
termination_by s.size
decreasing_by exact first.shorter

theorem reads_separated {item : Parser Ast} (hitem : Faithful item)
    (s : Stream) :
    ∀ r, separated item s = .ok r →
      s.ReadsAll (some ",") r.next r.value ∧ r.value ≠ [] := by
  intro r h
  rcases separated_eq_ok h with
    ⟨only, honly, rfl⟩ | ⟨first, comma, others, hfirst, hcomma, hothers, rfl⟩
  · have hreads := hitem _ _ honly
    refine ⟨⟨List.forall_mem_singleton.2 hreads.fits, ?_⟩, List.cons_ne_nil _ _⟩
    exact hreads.takes.append (.refl only.next)
  · have hreads := hitem _ _ hfirst
    obtain ⟨hrest, hne⟩ := reads_separated hitem comma.next others hothers
    refine ⟨⟨List.forall_mem_cons.2 ⟨hreads.fits, hrest.fits⟩, ?_⟩,
      List.cons_ne_nil _ _⟩
    -- behind a comma there is at least one item
    have hmap : others.value.map Ast.words ≠ [] :=
      fun he => hne (List.map_eq_nil_iff.1 he)
    have hmark := takes_accept? rfl hcomma
    exact Leaf.ofItems_cons (some ",") _ hmap ▸ hreads.takes.append
      (hmark.append hrest.takes)
termination_by s.size
decreasing_by exact Nat.lt_trans comma.shorter first.shorter

/-- Items between parentheses are read together with these. -/
theorem reads_parenthesized {item : Parser Ast} (hitem : Faithful item)
    {s : Stream} {r : Read (List Ast) s} (h : parenthesized item s = .ok r) :
    (∀ t ∈ r.value, t.Fits) ∧ s.Takes r.next ([.text "("] ++
      (Leaf.ofItems (some ",") 0 (r.value.map Ast.words) ++ [.text ")"])) := by
  rcases parenthesized_eq_ok h with ⟨opening, hopening,
    ⟨closing, hclosing, rfl⟩ | ⟨items, closing, hitems, hclosing, rfl⟩⟩
  · exact ⟨List.forall_mem_nil _,
      (takes_expect rfl hopening).append (takes_expect rfl hclosing)⟩
  · have hreads := (reads_separated hitem _ _ hitems).1
    exact ⟨hreads.fits, (takes_expect rfl hopening).append
      (hreads.takes.append (takes_expect rfl hclosing))⟩

/-- The calls of a callee are spelled behind it. -/
theorem reads_calls {argument : Parser Ast} (hargument : Faithful argument)
    {callee : Ast} (hcallee : callee.Fits) (s : Stream) :
    ∀ r, calls argument callee s = .ok r →
      r.value.Fits ∧
        ∃ leaves, s.Takes r.next leaves ∧
          r.value.words = callee.words ++ leaves := by
  intro r h
  rcases calls_eq_ok h with rfl | ⟨arguments, chain, harguments, hchain, rfl⟩
  · exact ⟨hcallee, [], .refl s, (List.append_nil _).symm⟩
  · obtain ⟨hfits, htakes⟩ := reads_parenthesized hargument harguments
    rcases reads_calls hargument (Ast.fits_callExpression hcallee hfits)
      arguments.next chain hchain with ⟨hvalue, leaves, hleaves, hwords⟩
    -- the call that has been read is the callee of the calls behind it
    refine ⟨hvalue, _, htakes.append hleaves, hwords.trans ?_⟩
    rw [Ast.words_callExpression, List.append_assoc]
termination_by s.size
decreasing_by exact arguments.shorter

/-- By induction on the levels, an expression is read faithfully. -/
theorem faithful_expression (levels : Nat) : Faithful (expression levels) := by
  induction levels with
  | zero => exact fun s r h => nomatch h
  | succ levels ih =>
    intro s r h
    obtain ⟨callee, chain, hcallee, hchain, rfl⟩ := expression_succ_eq_ok h
    have hreads := faithful_primary ih s callee hcallee
    obtain ⟨hfits, leaves, htakes, hwords⟩ :=
      reads_calls ih hreads.fits callee.next chain hchain
    exact ⟨hfits, hwords ▸ hreads.takes.append htakes⟩

/-! ### Statements -/

/-- The end of a statement adds no leaf, whether a semicolon
stands there or not. -/
theorem takes_terminator {s : Stream} {r : Reach Unit s}
    (h : terminator s = .ok r) : s.Takes r.next [] := by
  rcases terminator_eq_ok h with ⟨mark, hmark, rfl⟩ | rfl
  · exact (accept?_eq_some hmark).2
  · exact .refl s

theorem faithful_returnStatement (levels : Nat) :
    Faithful (returnStatement levels) := by
  intro s r h
  rcases returnStatement_eq_ok h with ⟨word, hword,
    ⟨ending, hending, rfl⟩ | ⟨argument, ending, hargument, hending, rfl⟩⟩
  · exact ⟨Ast.fits_returnStatement_none, Ast.words_returnStatement_none ▸
      (takes_expect rfl hword).append (takes_terminator hending)⟩
  · have hreads := faithful_expression levels _ _ hargument
    have htail := hreads.takes.append (takes_terminator hending)
    rw [List.append_nil] at htail
    exact ⟨Ast.fits_returnStatement_some hreads.fits,
      Ast.words_returnStatement_some _ ▸ (takes_expect rfl hword).append htail⟩

theorem faithful_expressionStatement (levels : Nat) :
    Faithful (expressionStatement levels) := by
  intro s r h
  obtain ⟨value, ending, hvalue, hending, rfl⟩ := expressionStatement_eq_ok h
  have hreads := faithful_expression levels _ _ hvalue
  have htakes := hreads.takes.append (takes_terminator hending)
  rw [List.append_nil] at htakes
  exact ⟨Ast.fits_expressionStatement hreads.fits,
    Ast.words_expressionStatement value.value ▸ htakes⟩

theorem faithful_functionDeclaration {body : Parser Ast}
    (hbody : Faithful body) : Faithful (functionDeclaration body) := by
  intro s r h
  obtain ⟨word, name, params, inner, hword, hname, hparams, hinner, rfl⟩ :=
    functionDeclaration_eq_ok h
  have hid := faithful_identifier _ _ hname
  obtain ⟨hfits, htakes⟩ := reads_parenthesized faithful_identifier hparams
  have hblock := hbody _ _ hinner
  exact ⟨Ast.fits_functionDeclaration hid.fits hfits hblock.fits,
    Ast.words_functionDeclaration .. ▸ (takes_expect rfl hword).append
      (hid.takes.append (htakes.append hblock.takes))⟩

theorem faithful_statement (levels : Nat) {block : Bool → Parser Ast}
    {inFunction : Bool} (hblock : ∀ inFunction, Faithful (block inFunction)) :
    Faithful (statement levels block inFunction) := by
  intro s r h
  rcases statement_eq_ok h with h | ⟨-, h⟩ | h | ⟨mark, hmark, rfl⟩ | h
  · exact faithful_functionDeclaration (hblock true) s r h
  · exact faithful_returnStatement levels s r h
  · exact hblock inFunction s r h
  · exact ⟨Ast.fits_emptyStatement,
      Ast.words_emptyStatement ▸ takes_expect rfl hmark⟩
  · exact faithful_expressionStatement levels s r h

theorem faithful_block (levels : Nat) (inFunction : Bool) :
    Faithful (block levels inFunction) := by
  induction levels generalizing inFunction with
  | zero => exact fun s r h => nomatch h
  | succ levels ih =>
    intro s r h
    obtain ⟨opening, body, closing, hopening, hbody, hclosing, rfl⟩ :=
      block_succ_eq_ok h
    have hreads := reads_itemsUntil (faithful_statement levels ih) _ _ hbody
    exact ⟨Ast.fits_blockStatement hreads.fits,
      Ast.words_blockStatement _ ▸ (takes_expect rfl hopening).append
        (hreads.takes.append (takes_expect rfl hclosing))⟩

/-- A whole program is read faithfully. -/
theorem reads_program {s : Stream} {r : Reach Ast s} (h : program s = .ok r) :
    s.Reads r.next r.value ∧ r.value.type = Grammar.functions.root := by
  obtain ⟨body, hbody, rfl⟩ := program_eq_ok h
  have hreads := reads_itemsUntil (faithful_statement maxNesting
    fun inFunction => faithful_block maxNesting inFunction) _ _ hbody
  exact ⟨⟨Ast.fits_program hreads.fits, Ast.words_program _ ▸ hreads.takes⟩,
    rfl⟩

end Parser

/-! ### Programs -/

theorem SourceToken.allLeaves_extras (ts : List Token) :
    allLeaves (ts.map (⟨.extra, ·⟩)) = [] :=
  List.flatMap_eq_nil_iff.2 fun t ht => by
    obtain ⟨t', -, rfl⟩ := List.mem_map.1 ht
    rfl

/-- The program of a text fits the grammar, its tokens are those of the text,
and the ones that carry meaning are read as the leaves of the tree. -/
theorem Program.parse_eq_ok {text : String} {p : Program}
    (h : parse text = .ok p) :
    p.ast.Fits ∧ p.ast.type = Grammar.functions.root ∧
      p.tokens.map SourceToken.token = tokenize text ∧
      SourceToken.allLeaves p.tokens = p.ast.words := by
  obtain ⟨body, hbody, h⟩ := Outcome.bind_eq_ok.1 h
  rw [← Except.ok.inj h]
  obtain ⟨hreads, htype⟩ := Parser.reads_program hbody
  refine ⟨hreads.fits, htype, ?_⟩
  -- the trivia in front of the program are passed before the parser starts
  have htrivia :=
    Stream.takes_skipTrivia [] false false text.utf8ByteSize (tokenize text)
  obtain ⟨passed, hahead, hbehind, hleaves⟩ := htrivia.append hreads.takes
  have htokens :
      body.next.tokens = passed ++ body.next.ahead.map (⟨.extra, ·⟩) := by
    rw [Stream.tokens, hbehind, List.append_nil, List.reverse_reverse]
  constructor
  · rw [htokens, List.map_append, List.map_map]
    exact (congrArg _ (List.map_id _)).trans hahead.symm
  · rw [htokens, SourceToken.allLeaves, List.flatMap_append]
    exact (congrArg _ (SourceToken.allLeaves_extras _)).trans
      ((List.append_nil _).trans hleaves)

/-- Tokens that are read as their own texts go together with their leaves. -/
theorem Leaf.verdict_allLeaves {streamEnd : Nat} {ts : List SourceToken}
    (h : ∀ t ∈ ts, t.token.word = t.text) :
    verdict streamEnd (SourceToken.allLeaves ts) (ts.filter (!·.isExtra)) =
      none := by
  induction ts with
  | nil => rfl
  | cons t ts ih =>
    have hts := ih fun u hu => h u (List.mem_cons_of_mem _ hu)
    obtain ⟨role, token⟩ := t
    cases role with
    | extra => exact hts
    | semantic =>
      have hword : token.text = token.word :=
        (h ⟨.semantic, token⟩ List.mem_cons_self).symm
      exact (if_pos hword).trans hts

end Lossless
