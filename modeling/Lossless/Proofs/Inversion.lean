import Lossless.Program.Statement

/-!
# What a parser has done

A parser that succeeds has read the parts of what it returns one behind the
other. For each parser of the language a lemma says which parts these may be,
and puts together what was read from them. Whatever is proved of all that a
parser returns is proved along these lemmas and need not look into the parser.
-/

namespace Lossless.Parser

variable {α : Type} {kind : TokenKind} {role : Role} {s : Stream}

/-! ### Tokens -/

theorem exists_of_accept? {r : Read Token s}
    (h : accept? kind role s = some r) :
    ∃ ts, s.ahead = r.value :: ts ∧
      r.value.kind = kind ∧ r.next = s.pass role r.value ts := by
  rw [accept?] at h
  split at h
  · rename_i t ts hahead
    split at h
    · rename_i hkind
      cases h
      exact ⟨ts, hahead, hkind, rfl⟩
    · cases h
  · cases h

theorem accept?_of_expect {r : Read Token s} (h : expect kind role s = .ok r) :
    accept? kind role s = some r := by
  rw [expect] at h
  cases haccept : accept? kind role s with
  | none =>
    rw [haccept] at h
    cases h
  | some r' =>
    rw [haccept] at h
    rw [Except.ok.inj h]

theorem identifier_eq_ok {r : Read Ast s} (h : identifier s = .ok r) :
    ∃ name, accept? .identifier .semantic s = some name ∧
      r = name.map fun t => .identifier t.text := by
  rw [identifier] at h
  cases haccept : accept? .identifier .semantic s with
  | some name =>
    rw [haccept] at h
    exact ⟨name, rfl, (Except.ok.inj h).symm⟩
  | none =>
    rw [haccept] at h
    dsimp only at h
    split at h
    · split at h <;> cases h
    · cases h

theorem literal_eq_ok {r : Read Ast s} (h : literal kind s = .ok r) :
    ∃ token value, accept? kind .semantic s = some token ∧
      Literal.value kind token.value.text = .ok value ∧
      r = token.map fun t => .literal value t.text := by
  obtain ⟨token, htoken, h⟩ := Outcome.bind_eq_ok.1 h
  cases hvalue : Literal.value kind token.value.text with
  | error e =>
    rw [hvalue] at h
    cases h
  | ok value =>
    rw [hvalue] at h
    exact ⟨token, value, accept?_of_expect htoken, hvalue,
      (Except.ok.inj h).symm⟩

/-! ### Lists -/

theorem itemsUntil_eq_ok {stop : TokenKind → Bool} {item : Parser α}
    {r : Reach (List α) s} (h : itemsUntil stop item s = .ok r) :
    stop s.kind = true ∧ r = .stay [] ∨
      ∃ first others, item s = .ok first ∧
        itemsUntil stop item first.next = .ok others ∧
        r = (first.trailedBy (others.map (first.value :: ·))).reach := by
  rw [itemsUntil] at h
  split at h
  · rename_i hstop
    exact .inl ⟨hstop, (Except.ok.inj h).symm⟩
  · obtain ⟨first, hfirst, h⟩ := Outcome.bind_eq_ok.1 h
    obtain ⟨others, hothers, h⟩ := Outcome.bind_eq_ok.1 h
    exact .inr ⟨first, others, hfirst, hothers, (Except.ok.inj h).symm⟩

theorem separated_eq_ok {item : Parser α} {r : Read (List α) s}
    (h : separated item s = .ok r) :
    (∃ only, item s = .ok only ∧ r = only.map ([·])) ∨
      ∃ first comma others, item s = .ok first ∧
        accept? .comma .semantic first.next = some comma ∧
        separated item comma.next = .ok others ∧
        r = first.followedBy
          (comma.followedBy (others.map (first.value :: ·))) := by
  rw [separated] at h
  obtain ⟨first, hfirst, h⟩ := Outcome.bind_eq_ok.1 h
  split at h
  · exact .inl ⟨first, hfirst, (Except.ok.inj h).symm⟩
  · rename_i comma hcomma
    obtain ⟨others, hothers, h⟩ := Outcome.bind_eq_ok.1 h
    exact .inr ⟨first, comma, others, hfirst, hcomma, hothers,
      (Except.ok.inj h).symm⟩

theorem parenthesized_eq_ok {item : Parser α} {r : Read (List α) s}
    (h : parenthesized item s = .ok r) :
    ∃ opening, expect .leftParen .semantic s = .ok opening ∧
      ((∃ closing, expect .rightParen .semantic opening.next = .ok closing ∧
        r = opening.followedBy (closing.map fun _ => [])) ∨
        ∃ items closing, separated item opening.next = .ok items ∧
          expect .rightParen .semantic items.next = .ok closing ∧
          r = opening.followedBy (items.followedBy (closing.map fun _ =>
            items.value))) := by
  obtain ⟨opening, hopening, h⟩ := Outcome.bind_eq_ok.1 h
  refine ⟨opening, hopening, ?_⟩
  split at h
  · obtain ⟨closing, hclosing, h⟩ := Outcome.bind_eq_ok.1 h
    exact .inl ⟨closing, hclosing, (Except.ok.inj h).symm⟩
  · obtain ⟨items, hitems, h⟩ := Outcome.bind_eq_ok.1 h
    obtain ⟨closing, hclosing, h⟩ := Outcome.bind_eq_ok.1 h
    exact .inr ⟨items, closing, hitems, hclosing, (Except.ok.inj h).symm⟩

/-! ### Expressions -/

theorem primary_eq_ok {expression : Parser Ast} {r : Read Ast s}
    (h : primary expression s = .ok r) :
    identifier s = .ok r ∨ literal s.kind s = .ok r ∨
      ∃ opening inner closing, expect .leftParen .extra s = .ok opening ∧
        expression opening.next = .ok inner ∧
        expect .rightParen .extra inner.next = .ok closing ∧
        r = opening.followedBy (inner.followedBy (closing.map fun _ =>
          inner.value)) := by
  rw [primary] at h
  split at h
  · exact .inl h
  · split at h
    · exact .inr (.inl h)
    · split at h
      · obtain ⟨opening, hopening, h⟩ := Outcome.bind_eq_ok.1 h
        obtain ⟨inner, hinner, h⟩ := Outcome.bind_eq_ok.1 h
        obtain ⟨closing, hclosing, h⟩ := Outcome.bind_eq_ok.1 h
        exact .inr (.inr ⟨opening, inner, closing, hopening, hinner, hclosing,
          (Except.ok.inj h).symm⟩)
      · cases h

theorem calls_eq_ok {argument : Parser Ast} {callee : Ast} {r : Reach Ast s}
    (h : calls argument callee s = .ok r) :
    r = .stay callee ∨
      ∃ arguments chain, parenthesized argument s = .ok arguments ∧
        calls argument (.callExpression callee arguments.value) arguments.next =
          .ok chain ∧
        r = (arguments.trailedBy chain).reach := by
  rw [calls] at h
  split at h
  · obtain ⟨arguments, harguments, h⟩ := Outcome.bind_eq_ok.1 h
    obtain ⟨chain, hchain, h⟩ := Outcome.bind_eq_ok.1 h
    exact .inr ⟨arguments, chain, harguments, hchain, (Except.ok.inj h).symm⟩
  · exact .inl (Except.ok.inj h).symm

theorem expression_succ_eq_ok {levels : Nat} {r : Read Ast s}
    (h : expression (levels + 1) s = .ok r) :
    ∃ callee chain, primary (expression levels) s = .ok callee ∧
      calls (expression levels) callee.value callee.next = .ok chain ∧
      r = callee.trailedBy chain := by
  obtain ⟨callee, hcallee, h⟩ := Outcome.bind_eq_ok.1 h
  obtain ⟨chain, hchain, h⟩ := Outcome.bind_eq_ok.1 h
  exact ⟨callee, chain, hcallee, hchain, (Except.ok.inj h).symm⟩

/-! ### Statements -/

theorem terminator_eq_ok {r : Reach Unit s} (h : terminator s = .ok r) :
    (∃ mark, accept? .semicolon .extra s = some mark ∧
      r = (mark.map fun _ => ()).reach) ∨
      r = .stay () := by
  rw [terminator] at h
  split at h
  · rename_i mark hmark
    exact .inl ⟨mark, hmark, (Except.ok.inj h).symm⟩
  · split at h
    · exact .inr (Except.ok.inj h).symm
    · cases h

theorem returnStatement_eq_ok {levels : Nat} {r : Read Ast s}
    (h : returnStatement levels s = .ok r) :
    ∃ word, expect .returnWord .semantic s = .ok word ∧
      ((∃ ending, terminator word.next = .ok ending ∧
        r = word.trailedBy (ending.map fun _ => .returnStatement none)) ∨
        ∃ argument ending, expression levels word.next = .ok argument ∧
          terminator argument.next = .ok ending ∧
          r = word.followedBy (argument.trailedBy
            (ending.map fun _ => .returnStatement (some argument.value)))) := by
  obtain ⟨word, hword, h⟩ := Outcome.bind_eq_ok.1 h
  refine ⟨word, hword, ?_⟩
  split at h
  · obtain ⟨ending, hending, h⟩ := Outcome.bind_eq_ok.1 h
    exact .inl ⟨ending, hending, (Except.ok.inj h).symm⟩
  · obtain ⟨argument, hargument, h⟩ := Outcome.bind_eq_ok.1 h
    obtain ⟨ending, hending, h⟩ := Outcome.bind_eq_ok.1 h
    exact .inr ⟨argument, ending, hargument, hending, (Except.ok.inj h).symm⟩

theorem expressionStatement_eq_ok {levels : Nat} {r : Read Ast s}
    (h : expressionStatement levels s = .ok r) :
    ∃ value ending, expression levels s = .ok value ∧
      terminator value.next = .ok ending ∧
      r = value.trailedBy (ending.map fun _ =>
        .expressionStatement value.value) := by
  obtain ⟨value, hvalue, h⟩ := Outcome.bind_eq_ok.1 h
  obtain ⟨ending, hending, h⟩ := Outcome.bind_eq_ok.1 h
  exact ⟨value, ending, hvalue, hending, (Except.ok.inj h).symm⟩

theorem functionDeclaration_eq_ok {body : Parser Ast} {r : Read Ast s}
    (h : functionDeclaration body s = .ok r) :
    ∃ word name params inner, expect .functionWord .semantic s = .ok word ∧
      identifier word.next = .ok name ∧
      parenthesized identifier name.next = .ok params ∧
      body params.next = .ok inner ∧
      r = word.followedBy (name.followedBy (params.followedBy
        (inner.map (.functionDeclaration name.value params.value)))) := by
  obtain ⟨word, hword, h⟩ := Outcome.bind_eq_ok.1 h
  obtain ⟨name, hname, h⟩ := Outcome.bind_eq_ok.1 h
  obtain ⟨params, hparams, h⟩ := Outcome.bind_eq_ok.1 h
  obtain ⟨inner, hinner, h⟩ := Outcome.bind_eq_ok.1 h
  exact ⟨word, name, params, inner, hword, hname, hparams, hinner,
    (Except.ok.inj h).symm⟩

theorem statement_eq_ok {levels : Nat} {block : Bool → Parser Ast}
    {inFunction : Bool} {r : Read Ast s}
    (h : statement levels block inFunction s = .ok r) :
    functionDeclaration (block true) s = .ok r ∨ (inFunction = true ∧
      returnStatement levels s = .ok r) ∨ block inFunction s = .ok r ∨
      (∃ mark, expect .semicolon .semantic s = .ok mark ∧
        r = mark.map fun _ => .emptyStatement) ∨
      expressionStatement levels s = .ok r := by
  rw [statement] at h
  split at h
  · exact .inl h
  · split at h
    · rename_i hin
      exact .inr (.inl ⟨hin, h⟩)
    · cases h
  · exact .inr (.inr (.inl h))
  · obtain ⟨mark, hmark, h⟩ := Outcome.bind_eq_ok.1 h
    exact .inr (.inr (.inr (.inl ⟨mark, hmark, (Except.ok.inj h).symm⟩)))
  · exact .inr (.inr (.inr (.inr h)))

theorem block_succ_eq_ok {levels : Nat} {inFunction : Bool} {r : Read Ast s}
    (h : block (levels + 1) inFunction s = .ok r) :
    ∃ opening body closing, expect .leftBrace .semantic s = .ok opening ∧
      itemsUntil (fun k => k = .rightBrace || k = .endOfFile)
        (statement levels (block levels) inFunction) opening.next = .ok body ∧
      expect .rightBrace .semantic body.next = .ok closing ∧
      r = opening.followedBy (body.followedBy (closing.map fun _ =>
        .blockStatement body.value)) := by
  obtain ⟨opening, hopening, h⟩ := Outcome.bind_eq_ok.1 h
  obtain ⟨body, hbody, h⟩ := Outcome.bind_eq_ok.1 h
  obtain ⟨closing, hclosing, h⟩ := Outcome.bind_eq_ok.1 h
  exact ⟨opening, body, closing, hopening, hbody, hclosing,
    (Except.ok.inj h).symm⟩

theorem program_eq_ok {r : Reach Ast s} (h : program s = .ok r) :
    ∃ body, itemsUntil (· = .endOfFile)
        (statement maxNesting (block maxNesting) false) s = .ok body ∧
      r = body.map .program := by
  obtain ⟨body, hbody, h⟩ := Outcome.bind_eq_ok.1 h
  exact ⟨body, hbody, (Except.ok.inj h).symm⟩

end Lossless.Parser
