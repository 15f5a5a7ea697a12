import Lossless.Proofs.Printing

/-!
# Reading printed programs

A parser in front of the words of a tree returns a tree equal to it and stops
behind these words, whatever words follow that cannot go on with it
(`Parser.Restores`). It is shown for one parser after another, in the order in
which they call each other: expressions by induction on the levels left, with
the calls of a chain as a list, then statements and blocks. So a program that is
printed is read back (`Program.exists_parse_of_spaced`).
-/

namespace Lossless

/-! ### What a parser sees -/

/-- A parser is in front of some words: the tokens ahead are spelled as these,
trivia apart, and no line ends before the first of them. -/
structure Stream.Stands (s : Stream) (ws : List String) : Prop where
  sameLine : s.newline = false
  shows : Shows s.ahead ws
  front : ∀ t ∈ s.ahead.head?, t.kind.isTrivia = false

namespace Stream

variable {s : Stream} {w : String} {ws : List String}

theorem stands_skipTrivia {ts : List Token} (h : Shows ts ws)
    (behind : List SourceToken) (textEnd : Nat) :
    (skipTrivia behind false textEnd ts).Stands ws := by
  induction h generalizing behind with
  | nil => exact ⟨rfl, .nil, fun t ht => nomatch ht⟩
  | @word t ts ws hkind hword h =>
    have htrivia : t.kind.isTrivia = false := hkind ▸ hword.notTrivia
    rw [skipTrivia, if_neg (Bool.eq_false_iff.1 htrivia)]
    exact ⟨rfl, .word hkind hword h, fun u hu => Option.some.inj hu ▸ htrivia⟩
  | @blank t ts ws hkind h ih =>
    have hline : endsLine t = false := by simp [endsLine, hkind]
    have htrivia : t.kind.isTrivia = true := by rw [hkind]; rfl
    rw [skipTrivia, if_pos htrivia, hline]
    exact ih _

/-- In front of a word a parser finds a token that is this word, and behind that
token the other words. -/
theorem Stands.exists_ahead (h : s.Stands (w :: ws)) :
    ∃ t ts, s.ahead = t :: ts ∧ t.kind = wordKind w ∧
      t.text = w ∧ ∀ role, (s.pass role t ts).Stands ws := by
  obtain ⟨-, hshows, hfront⟩ := h
  generalize s.ahead = ahead at hshows hfront
  cases hshows with
  | word hkind _ h =>
    exact ⟨_, _, rfl, hkind, rfl, fun role => stands_skipTrivia h _ _⟩
  | blank hkind _ =>
    have htrivia := hfront _ rfl
    rw [hkind] at htrivia
    exact nomatch htrivia

theorem Stands.kind_cons (h : s.Stands (w :: ws)) : s.kind = wordKind w := by
  obtain ⟨t, ts, hahead, hkind, -, -⟩ := h.exists_ahead
  simp only [kind, hahead, hkind]

/-- In front of the spelling of a kind a parser finds that kind. -/
theorem Stands.kind_mark {kind : TokenKind} (hword : kind.spelling? = some w)
    (h : s.Stands (w :: ws)) : s.kind = kind :=
  h.kind_cons.trans (wordKind_of_spelling? kind hword)

theorem Stands.ahead_nil (h : s.Stands []) : s.ahead = [] := by
  obtain ⟨-, hshows, hfront⟩ := h
  generalize s.ahead = ahead at hshows hfront
  cases hshows with
  | nil => rfl
  | blank hkind _ =>
    have htrivia := hfront _ rfl
    rw [hkind] at htrivia
    exact nomatch htrivia

theorem Stands.kind_nil (h : s.Stands []) : s.kind = .endOfFile := by
  simp only [kind, h.ahead_nil]

end Stream

/-- The kind of the first of some words. -/
def firstKind : List String → TokenKind
  | [] => .endOfFile
  | w :: _ => wordKind w

theorem Stream.Stands.kind_eq {s : Stream} {ws : List String}
    (h : s.Stands ws) : s.kind = firstKind ws := by
  cases ws with
  | nil => exact h.kind_nil
  | cons w ws => exact h.kind_cons

namespace Parser

variable {s : Stream} {w : String} {ws rest : List String} {kind : TokenKind}

theorem exists_accept? (h : s.Stands (w :: rest)) (hkind : wordKind w = kind)
    (role : Role) :
    ∃ r, accept? kind role s = some r ∧
      r.value.text = w ∧ r.next.Stands rest := by
  obtain ⟨t, ts, hahead, hkind', htext, hnext⟩ := h.exists_ahead
  rw [accept?]
  split
  · rename_i t' ts' hahead'
    obtain ⟨rfl, rfl⟩ := List.cons.inj (hahead.symm.trans hahead')
    rw [if_pos (hkind'.trans hkind)]
    exact ⟨_, rfl, htext, hnext role⟩
  · rename_i hahead'
    cases hahead.symm.trans hahead'

theorem accept?_eq_none (hkind : s.kind ≠ kind) (role : Role) :
    accept? kind role s = none := by
  rw [accept?]
  split
  · rename_i t ts hahead
    have ht : t.kind ≠ kind := by simpa only [Stream.kind, hahead] using hkind
    rw [if_neg ht]
  · rfl

theorem exists_expect (h : s.Stands (w :: rest)) (hkind : wordKind w = kind)
    (role : Role) :
    ∃ r, expect kind role s = .ok r ∧
      r.value.text = w ∧ r.next.Stands rest := by
  obtain ⟨r, haccept, hr⟩ := exists_accept? h hkind role
  exact ⟨r, by rw [expect, haccept], hr⟩

/-- A token whose kind leaves no choice of the spelling is found
where it is spelled. -/
theorem exists_mark (kind : TokenKind) (hword : kind.spelling? = some w)
    (h : s.Stands (w :: rest)) (role : Role) :
    ∃ r, expect kind role s = .ok r ∧ r.next.Stands rest := by
  obtain ⟨r, hexpect, -, hnext⟩ :=
    exists_expect h (wordKind_of_spelling? kind hword) role
  exact ⟨r, hexpect, hnext⟩

/-- A parser in front of the words of a tree reads a tree that equals it, if
what follows fits. -/
def Restores (p : Parser Ast) (fits : TokenKind → Prop) (t : Ast) : Prop :=
  ∀ s rest, s.Stands (t.printed ++ rest) → fits (firstKind rest) →
    ∃ r, p s = .ok r ∧ r.value.equal t = true ∧ r.next.Stands rest

/-- Nothing is called that a call does not follow. -/
def Uncalled (kind : TokenKind) : Prop := kind ≠ .leftParen

theorem restores_identifier {t : Ast} (h : t.IsName .words)
    (fits : TokenKind → Prop) : Restores identifier fits t := by
  intro s rest hs _
  cases h with
  | identifier hname =>
    obtain ⟨r, haccept, htext, hnext⟩ :=
      exists_accept? hs (Lexicon.isName_words.1 hname) .semantic
    exact ⟨r.map fun t => .identifier t.text, by rw [identifier, haccept],
      htext ▸ Ast.equal_identifier _, hnext⟩

theorem restores_literal {value : Scalar} {raw : String}
    (h : Lexicon.words.isLiteral value raw) (fits : TokenKind → Prop) :
    Restores (literal (wordKind raw)) fits (.literal value raw) := by
  intro s rest hs _
  obtain ⟨-, v, hvalue, hequal⟩ := Lexicon.isLiteral_words.1 h
  obtain ⟨r, hexpect, htext, hnext⟩ := exists_expect hs rfl .semantic
  refine ⟨r.map fun t => .literal v t.text, ?_,
    htext ▸ Ast.equal_literal _ hequal, hnext⟩
  rw [literal, hexpect, Outcome.ok_bind, htext, hvalue]

/-! ### Lists -/

/-- Trees that equal others one by one. -/
abbrev EqualItems (as bs : List Ast) : Prop :=
  List.Forall₂ (fun a b => a.equal b = true) as bs

theorem uncalled_mark (kind : TokenKind) (hword : kind.spelling? = some w)
    (hkind : kind ≠ .leftParen) : Uncalled (firstKind (w :: rest)) :=
  fun h => hkind ((wordKind_of_spelling? kind hword).symm.trans h)

theorem exists_separated {item : Parser Ast} {items : List Ast}
    (hne : items ≠ []) (hitems : ∀ t ∈ items, Restores item Uncalled t) :
    ∀ s rest, s.Stands (Ast.printedList items ++ ")" :: rest) →
      ∃ r, separated item s = .ok r ∧
        EqualItems r.value items ∧ r.next.Stands (")" :: rest) := by
  have hcomma : wordKind "," = .comma := wordKind_of_spelling? .comma rfl
  induction items with
  | nil => exact absurd rfl hne
  | cons t items ih =>
    intro s rest hs
    obtain ⟨hitem, hitems⟩ := List.forall_mem_cons.1 hitems
    cases items with
    | nil =>
      rw [show Ast.printedList [t] = t.printed from List.intercalate_singleton]
        at hs
      obtain ⟨first, hfirst, hequal, hnext⟩ :=
        hitem s _ hs (uncalled_mark .rightParen rfl (by decide))
      have hkind : first.next.kind = .rightParen := hnext.kind_mark rfl
      have hend : first.next.kind ≠ .comma := by
        rw [hkind]
        decide
      refine ⟨first.map ([·]), ?_, .cons hequal .nil, hnext⟩
      rw [separated, hfirst, Outcome.ok_bind, accept?_eq_none hend]
    | cons t' items =>
      have hprinted :
          Ast.printedList (t :: t' :: items) ++ ")" :: rest =
            t.printed ++ "," ::
              (Ast.printedList (t' :: items) ++ ")" :: rest) := by
        simp [Ast.printedList, List.intercalate_cons_cons]
      rw [hprinted] at hs
      obtain ⟨first, hfirst, hequal, hnext⟩ :=
        hitem s _ hs (uncalled_mark .comma rfl (by decide))
      obtain ⟨comma, haccept, -, hnext⟩ := exists_accept? hnext hcomma .semantic
      obtain ⟨others, hothers, hequals, hnext⟩ :=
        ih (List.cons_ne_nil _ _) hitems _ rest hnext
      refine ⟨first.followedBy
          (comma.followedBy (others.map (first.value :: ·))), ?_,
        .cons hequal hequals, hnext⟩
      rw [separated, hfirst, Outcome.ok_bind, haccept]
      simp only [hothers, Outcome.ok_bind]

/-- The words of a tree begin with one of some kinds. -/
def Opens (kinds : List TokenKind) (t : Ast) : Prop :=
  ∃ w ws, t.printed = w :: ws ∧ wordKind w ∈ kinds

/-- The kinds of names and literals. -/
abbrev operands : List TokenKind :=
  [.identifier, .number, .string, .trueWord, .falseWord, .nullWord]

theorem Opens.firstKind_mem {kinds : List TokenKind} {t : Ast}
    (h : Opens kinds t) (rest : List String) :
    firstKind (t.printed ++ rest) ∈ kinds := by
  obtain ⟨w, ws, hprinted, hkind⟩ := h
  rwa [hprinted]

theorem printedList_cons (t : Ast) (items : List Ast) :
    ∃ ws, Ast.printedList (t :: items) = t.printed ++ ws := by
  cases items with
  | nil => exact ⟨[], by simp [Ast.printedList]⟩
  | cons t' items =>
    exact ⟨_, by simp [Ast.printedList, List.intercalate_cons_cons]; rfl⟩

/-- Items between parentheses are read back. -/
theorem exists_parenthesized {item : Parser Ast} {items : List Ast}
    (hitems : ∀ t ∈ items, Restores item Uncalled t)
    (hopens : ∀ t ∈ items, Opens operands t)
    (hs : s.Stands ("(" :: (Ast.printedList items ++ ")" :: rest))) :
    ∃ r, parenthesized item s = .ok r ∧
      EqualItems r.value items ∧ r.next.Stands rest := by
  obtain ⟨opening, hopening, hnext⟩ := exists_mark .leftParen rfl hs .semantic
  cases items with
  | nil =>
    obtain ⟨closing, hclosing, hbehind⟩ :=
      exists_mark .rightParen rfl hnext .semantic
    have hkind : opening.next.kind = .rightParen := hnext.kind_mark rfl
    refine ⟨opening.followedBy (closing.map fun _ => []), ?_, .nil, hbehind⟩
    rw [parenthesized, hopening, Outcome.ok_bind, if_pos hkind, hclosing,
      Outcome.ok_bind]
  | cons t items =>
    have hkind : opening.next.kind ≠ .rightParen := by
      obtain ⟨ws, hprinted⟩ := printedList_cons t items
      have hmem :=
        (hopens t List.mem_cons_self).firstKind_mem (ws ++ ")" :: rest)
      rw [← List.append_assoc, ← hprinted, ← hnext.kind_eq] at hmem
      exact fun h => absurd (h ▸ hmem) (by decide)
    obtain ⟨r, hread, hequal, hbehind⟩ :=
      exists_separated (List.cons_ne_nil _ _) hitems _ _ hnext
    obtain ⟨closing, hclosing, hbehind⟩ :=
      exists_mark .rightParen rfl hbehind .semantic
    refine ⟨opening.followedBy (r.followedBy (closing.map fun _ => r.value)),
      ?_, hequal, hbehind⟩
    rw [parenthesized, hopening, Outcome.ok_bind, if_neg hkind, hread,
      Outcome.ok_bind, hclosing, Outcome.ok_bind]

end Parser

/-! ### Chains of calls -/

namespace Ast

variable {lex : Lexicon}

/-- A tree with calls of it behind each other. -/
def called (head : Ast) (chain : List (List Ast)) : Ast :=
  chain.foldl callExpression head

/-- The words of calls. -/
def printedCalls (chain : List (List Ast)) : List String :=
  chain.flatMap fun arguments => "(" :: (printedList arguments ++ [")"])

theorem printed_called (head : Ast) (chain : List (List Ast)) :
    (head.called chain).printed = head.printed ++ printedCalls chain := by
  induction chain generalizing head with
  | nil => exact (List.append_nil _).symm
  | cons arguments chain ih =>
    rw [called, List.foldl_cons, ← called, ih, printed_callExpression,
      printedCalls, printedCalls, List.flatMap_cons, List.append_assoc]

/-- What a chain of calls starts from. -/
inductive IsHead (lex : Lexicon) : Ast → Prop where
  | identifier {name : String} (hname : lex.isName name) :
      IsHead lex (.identifier name)
  | literal {value : Scalar} {raw : String}
      (hliteral : lex.isLiteral value raw) : IsHead lex (.literal value raw)

/-- An expression is a chain of calls of a name or a literal, and the arguments
in it take a level less. -/
theorem IsLeveled.exists_called {n : Nat} {t : Ast}
    (h : IsLeveled lex (n + 1) t) :
    ∃ head chain, t = called head chain ∧ IsHead lex head ∧
      ∀ arguments ∈ chain, ∀ u ∈ arguments, IsLeveled lex n u := by
  obtain ⟨hexpression, hnesting⟩ := h
  induction hexpression with
  | identifier hname =>
    exact ⟨_, [], rfl, .identifier hname, List.forall_mem_nil _⟩
  | literal hliteral =>
    exact ⟨_, [], rfl, .literal hliteral, List.forall_mem_nil _⟩
  | @callExpression callee arguments _ harguments ih _ =>
    rw [nesting_callExpression] at hnesting
    obtain ⟨head, chain, rfl, hhead, hchain⟩ := ih (by omega)
    refine ⟨head, chain ++ [arguments], (List.foldl_concat ..).symm, hhead, ?_⟩
    rw [List.forall_mem_append, List.forall_mem_singleton]
    have hdeepest : itemsNesting arguments ≤ n := by omega
    exact ⟨hchain,
      fun u hu => ⟨harguments u hu, itemsNesting_le.1 hdeepest u hu⟩⟩

end Ast

namespace Parser

open Ast (called printedCalls IsHead IsLeveled)

variable {s : Stream} {rest : List String}

theorem opens_of_isExpression {t : Ast} (h : t.IsExpression .words) :
    Opens operands t := by
  induction h with
  | @identifier name hname =>
    refine ⟨name, [], rfl, ?_⟩
    rw [Lexicon.isName_words.1 hname]
    decide
  | @literal value raw hliteral =>
    obtain ⟨hkind, -⟩ := Lexicon.isLiteral_words.1 hliteral
    refine ⟨raw, [], rfl, ?_⟩
    revert hkind
    cases wordKind raw <;> decide
  | callExpression _ _ hcallee _ =>
    obtain ⟨w, ws, hprinted, hkind⟩ := hcallee
    exact ⟨w, _, by rw [Ast.printed_callExpression, hprinted, List.cons_append],
      hkind⟩

theorem restores_primary (expression : Parser Ast) {t : Ast}
    (h : IsHead .words t) (fits : TokenKind → Prop) :
    Restores (primary expression) fits t := by
  intro s rest hs hrest
  cases h with
  | identifier hname =>
    have hkind : s.kind = .identifier :=
      hs.kind_cons.trans (Lexicon.isName_words.1 hname)
    rw [primary, if_pos hkind]
    exact restores_identifier (.identifier hname) fits s rest hs hrest
  | @literal value raw hliteral =>
    have hkind : s.kind = wordKind raw := hs.kind_cons
    obtain ⟨hisLiteral, -⟩ := Lexicon.isLiteral_words.1 hliteral
    have hne : s.kind ≠ .identifier := fun h => by
      simp [← hkind, h, TokenKind.isLiteral] at hisLiteral
    rw [primary, if_neg hne, hkind, if_pos hisLiteral]
    exact restores_literal hliteral fits s rest hs hrest

/-- By induction on the chain, the calls of a callee are read back. -/
theorem exists_calls {argument : Parser Ast} {callee callee' : Ast}
    {chain : List (List Ast)}
    (hitems : ∀ arguments ∈ chain, ∀ t ∈ arguments,
      Restores argument Uncalled t)
    (hopens : ∀ arguments ∈ chain, ∀ t ∈ arguments, Opens operands t)
    (hcallee : callee'.equal callee = true) :
    ∀ s, s.Stands (printedCalls chain ++ rest) → Uncalled (firstKind rest) →
      ∃ r, calls argument callee' s = .ok r ∧
        r.value.equal (callee.called chain) = true ∧ r.next.Stands rest := by
  induction chain generalizing callee callee' with
  | nil =>
    intro s hs hrest
    refine ⟨.stay callee', ?_, hcallee, hs⟩
    rw [calls, if_neg (by rw [hs.kind_eq]; exact hrest)]
  | cons arguments chain ih =>
    intro s hs hrest
    obtain ⟨hitem, hitems⟩ := List.forall_mem_cons.1 hitems
    obtain ⟨hopen, hopens⟩ := List.forall_mem_cons.1 hopens
    have hprinted : printedCalls (arguments :: chain) ++ rest = "(" ::
        (Ast.printedList arguments ++ ")" :: (printedCalls chain ++ rest)) := by
      simp [printedCalls]
    rw [hprinted] at hs
    have hkind : s.kind = .leftParen := hs.kind_mark rfl
    obtain ⟨r, hread, hequals, hnext⟩ := exists_parenthesized hitem hopen hs
    obtain ⟨others, hothers, hequal, hbehind⟩ :=
      ih hitems hopens
        (Ast.equal_callExpression hcallee hequals) r.next hnext hrest
    refine ⟨(r.trailedBy others).reach, ?_, hequal, hbehind⟩
    rw [calls, if_pos hkind, hread, Outcome.ok_bind, hothers, Outcome.ok_bind]

/-- By induction on the levels, expressions that take no more than there
are are read back. -/
theorem restores_expression (levels : Nat) {t : Ast}
    (h : IsLeveled .words levels t) :
    Restores (expression levels) Uncalled t := by
  induction levels generalizing t with
  | zero => exact absurd h.2 (by have := h.1.nesting_pos; omega)
  | succ levels ih =>
    intro s rest hs hrest
    obtain ⟨head, chain, rfl, hhead, hchain⟩ := h.exists_called
    rw [Ast.printed_called, List.append_assoc] at hs
    obtain ⟨callee, hcallee, hequal, hnext⟩ :=
      restores_primary (expression levels) hhead (fun _ => True) s _ hs trivial
    obtain ⟨r, hread, hequal, hbehind⟩ := exists_calls
      (fun arguments harguments u hu => ih (hchain arguments harguments u hu))
      (fun arguments harguments u hu =>
        opens_of_isExpression (hchain arguments harguments u hu).1)
      hequal callee.next hnext hrest
    refine ⟨callee.trailedBy r, ?_, hequal, hbehind⟩
    simp only [expression, hcallee, Outcome.ok_bind, hread]

/-! ### Statements -/

theorem exists_terminator (hs : s.Stands (";" :: rest)) :
    ∃ r, terminator s = .ok r ∧ r.next.Stands rest := by
  obtain ⟨r, haccept, -, hnext⟩ :=
    exists_accept? hs (wordKind_of_spelling? .semicolon rfl) .extra
  exact ⟨(r.map fun _ => ()).reach, by rw [terminator, haccept], hnext⟩

theorem restores_expressionStatement {levels : Nat} {t : Ast}
    (h : IsLeveled .words levels t) (fits : TokenKind → Prop) :
    Restores (expressionStatement levels) fits (.expressionStatement t) := by
  intro s rest hs _
  rw [Ast.printed_expressionStatement, List.append_assoc] at hs
  obtain ⟨value, hvalue, hequal, hnext⟩ :=
    restores_expression levels h s _ hs
      (uncalled_mark .semicolon rfl (by decide))
  obtain ⟨ending, hending, hbehind⟩ := exists_terminator hnext
  refine ⟨value.trailedBy (ending.map fun _ =>
    .expressionStatement value.value), ?_,
    Ast.equal_expressionStatement hequal, hbehind⟩
  rw [expressionStatement, hvalue, Outcome.ok_bind, hending, Outcome.ok_bind]

theorem restores_returnNothing (levels : Nat) (fits : TokenKind → Prop) :
    Restores (returnStatement levels) fits (.returnStatement none) := by
  intro s rest hs _
  obtain ⟨word, hword, hnext⟩ := exists_mark .returnWord rfl hs .semantic
  have hkind : word.next.kind = .semicolon := hnext.kind_mark rfl
  obtain ⟨ending, hending, hbehind⟩ := exists_terminator hnext
  refine ⟨word.trailedBy (ending.map fun _ => .returnStatement none), ?_,
    Ast.equal_returnStatement_none, hbehind⟩
  rw [returnStatement, hword, Outcome.ok_bind, hkind, if_pos (.inr rfl),
    hending, Outcome.ok_bind]

theorem restores_returnValue {levels : Nat} {t : Ast}
    (h : IsLeveled .words levels t) (fits : TokenKind → Prop) :
    Restores (returnStatement levels) fits (.returnStatement (some t)) := by
  intro s rest hs _
  rw [Ast.printed_returnStatement_some, List.cons_append,
    List.append_assoc] at hs
  obtain ⟨word, hword, hnext⟩ := exists_mark .returnWord rfl hs .semantic
  have hstarts : ¬(word.next.newline = true ∨
    (!word.next.kind.startsExpression) = true) := by
    have hkind := (opens_of_isExpression h.1).firstKind_mem ([";"] ++ rest)
    rw [← hnext.kind_eq] at hkind
    rw [hnext.sameLine]
    revert hkind
    cases word.next.kind <;> decide
  obtain ⟨argument, hargument, hequal, hbehind⟩ :=
    restores_expression levels h _ _ hnext
      (uncalled_mark .semicolon rfl (by decide))
  obtain ⟨ending, hending, hbehind⟩ := exists_terminator hbehind
  refine ⟨word.followedBy (argument.trailedBy (ending.map fun _ =>
    .returnStatement (some argument.value))), ?_,
      Ast.equal_returnStatement_some hequal, hbehind⟩
  rw [returnStatement, hword, Outcome.ok_bind, if_neg hstarts, hargument,
    Outcome.ok_bind, hending, Outcome.ok_bind]

/-- Whatever follows. -/
abbrev Anything (_ : TokenKind) : Prop := True

/-- Statements are read back, one after another, up to a word
that stops them. -/
theorem exists_itemsUntil (stop : TokenKind → Bool) {item : Parser Ast}
    {items : List Ast} (hitems : ∀ t ∈ items, Restores item Anything t)
    (hgo : ∀ t ∈ items, ∀ rest, stop (firstKind (t.printed ++ rest)) = false)
    (hstop : stop (firstKind rest) = true) :
    ∀ s, s.Stands (items.flatMap Ast.printed ++ rest) →
      ∃ r, itemsUntil stop item s = .ok r ∧
        EqualItems r.value items ∧ r.next.Stands rest := by
  induction items with
  | nil =>
    intro s hs
    refine ⟨.stay [], ?_, .nil, hs⟩
    rw [itemsUntil, if_pos (by rw [hs.kind_eq]; exact hstop)]
  | cons t items ih =>
    intro s hs
    obtain ⟨hitem, hitems⟩ := List.forall_mem_cons.1 hitems
    obtain ⟨hgo, hgos⟩ := List.forall_mem_cons.1 hgo
    rw [List.flatMap_cons, List.append_assoc] at hs
    have hkind : ¬stop s.kind = true := by rw [hs.kind_eq, hgo]; decide
    obtain ⟨first, hfirst, hequal, hnext⟩ := hitem s _ hs trivial
    obtain ⟨others, hothers, hequals, hbehind⟩ :=
      ih hitems hgos first.next hnext
    refine ⟨(first.trailedBy (others.map (first.value :: ·))).reach, ?_,
      .cons hequal hequals, hbehind⟩
    rw [itemsUntil, if_neg hkind, hfirst, Outcome.ok_bind, hothers,
      Outcome.ok_bind]

/-- The kinds that a statement begins with. -/
abbrev openings : List TokenKind :=
  [.functionWord, .returnWord, .leftBrace, .semicolon] ++ operands

theorem opens_of_isStatement {inFunction : Bool} {t : Ast}
    (h : t.IsStatement .words inFunction) : Opens openings t := by
  cases h with
  | functionDeclaration =>
    refine ⟨_, _, Ast.printed_functionDeclaration .., ?_⟩
    rw [wordKind_of_spelling? .functionWord rfl]
    decide
  | returnNothing =>
    refine ⟨_, _, Ast.printed_returnStatement_none, ?_⟩
    rw [wordKind_of_spelling? .returnWord rfl]
    decide
  | returnValue =>
    refine ⟨_, _, Ast.printed_returnStatement_some _, ?_⟩
    rw [wordKind_of_spelling? .returnWord rfl]
    decide
  | blockStatement =>
    refine ⟨_, _, Ast.printed_blockStatement _, ?_⟩
    rw [wordKind_of_spelling? .leftBrace rfl]
    decide
  | emptyStatement =>
    refine ⟨_, _, Ast.printed_emptyStatement, ?_⟩
    rw [wordKind_of_spelling? .semicolon rfl]
    decide
  | expressionStatement h =>
    obtain ⟨w, ws, hprinted, hkind⟩ := opens_of_isExpression h
    refine ⟨w, ws ++ [";"], by rw [Ast.printed_expressionStatement, hprinted,
      List.cons_append], ?_⟩
    exact List.mem_append_right _ hkind

/-- A parser of blocks reads those back that take at most some levels. -/
def RestoresBlocks (block : Bool → Parser Ast) (levels : Nat) : Prop :=
  ∀ inFunction body, (∀ t ∈ body, Ast.IsStatement .words inFunction t) →
    (Ast.blockStatement body).nesting ≤ levels →
      Restores (block inFunction) Anything (.blockStatement body)

theorem restores_functionDeclaration {body : Parser Ast} {id : Ast}
    {params : List Ast} {block : Ast} (hid : id.IsName .words)
    (hparams : ∀ t ∈ params, t.IsName .words)
    (hbody : Restores body Anything block) :
    Restores (functionDeclaration body) Anything
      (.functionDeclaration id params block) := by
  intro s rest hs _
  simp only [Ast.printed_functionDeclaration, List.cons_append,
    List.append_assoc] at hs
  obtain ⟨word, hword, hnext⟩ := exists_mark .functionWord rfl hs .semantic
  obtain ⟨name, hname, hequal, hnext⟩ :=
    restores_identifier hid Anything _ _ hnext trivial
  obtain ⟨items, hitems, hequals, hnext⟩ := exists_parenthesized
    (fun t ht => restores_identifier (hparams t ht) Uncalled)
    (fun t ht => opens_of_isExpression (hparams t ht).isExpression) hnext
  obtain ⟨r, hread, hequal', hbehind⟩ := hbody _ rest hnext trivial
  refine ⟨word.followedBy (name.followedBy (items.followedBy (r.map
    (.functionDeclaration name.value items.value)))), ?_,
    Ast.equal_functionDeclaration hequal hequals hequal', hbehind⟩
  rw [functionDeclaration, hword, Outcome.ok_bind, hname, Outcome.ok_bind,
    hitems, Outcome.ok_bind, hread, Outcome.ok_bind]

theorem restores_statement {levels : Nat} {block : Bool → Parser Ast}
    (hblock : RestoresBlocks block levels) {inFunction : Bool} {t : Ast}
    (h : t.IsStatement .words inFunction) (hnesting : t.nesting ≤ levels) :
    Restores (statement levels block inFunction) Anything t := by
  intro s rest hs hrest
  cases h with
  | functionDeclaration hid hparams hbody =>
    have hkind : s.kind = .functionWord := hs.kind_mark rfl
    simp only [statement, hkind]
    exact restores_functionDeclaration hid hparams
      (hblock true _ hbody hnesting) s rest hs hrest
  | returnNothing =>
    have hkind : s.kind = .returnWord := hs.kind_mark rfl
    simp only [statement, hkind]
    exact restores_returnNothing levels Anything s rest hs hrest
  | returnValue h =>
    have hkind : s.kind = .returnWord := hs.kind_mark rfl
    simp only [statement, hkind]
    rw [Ast.nesting_returnStatement_some] at hnesting
    exact restores_returnValue ⟨h, hnesting⟩ Anything s rest hs hrest
  | blockStatement hbody =>
    have hkind : s.kind = .leftBrace := hs.kind_mark rfl
    simp only [statement, hkind]
    exact hblock _ _ hbody hnesting s rest hs hrest
  | emptyStatement =>
    have hkind : s.kind = .semicolon := hs.kind_mark rfl
    obtain ⟨mark, hmark, hnext⟩ := exists_mark .semicolon rfl hs .semantic
    refine ⟨mark.map fun _ => .emptyStatement, ?_,
      Ast.equal_emptyStatement, hnext⟩
    simp only [statement, hkind, hmark, Outcome.ok_bind]
  | expressionStatement h =>
    have hkind : s.kind ∈ operands := by
      rw [hs.kind_eq, Ast.printed_expressionStatement, List.append_assoc]
      exact (opens_of_isExpression h).firstKind_mem _
    have hstatement :
        statement levels block inFunction s = expressionStatement levels s := by
      rw [statement]
      split <;> simp_all
    rw [hstatement]
    rw [Ast.nesting_expressionStatement] at hnesting
    exact restores_expressionStatement ⟨h, hnesting⟩ Anything s rest hs hrest

/-- By induction on the levels, blocks that take no more than there
are are read back. -/
theorem restoresBlocks_block (levels : Nat) :
    RestoresBlocks (block levels) levels := by
  induction levels with
  | zero =>
    intro inFunction body _ hnesting
    rw [Ast.nesting_blockStatement] at hnesting
    omega
  | succ levels ih =>
    intro inFunction body hbody hnesting s rest hs _
    simp only [Ast.printed_blockStatement, List.cons_append,
      List.append_assoc] at hs
    obtain ⟨opening, hopening, hnext⟩ := exists_mark .leftBrace rfl hs .semantic
    have hdeepest : Ast.itemsNesting body ≤ levels := by
      rw [Ast.nesting_blockStatement] at hnesting
      omega
    obtain ⟨r, hread, hequals, hnext⟩ := exists_itemsUntil
      (fun k => k = .rightBrace || k = .endOfFile)
      (fun t ht => restores_statement ih (hbody t ht)
        (Ast.itemsNesting_le.1 hdeepest t ht))
      (fun t ht rest => by
        have hkind := (opens_of_isStatement (hbody t ht)).firstKind_mem rest
        revert hkind
        cases firstKind (t.printed ++ rest) <;> decide)
      (by rw [firstKind, wordKind_of_spelling? .rightBrace rfl]; decide)
        opening.next hnext
    obtain ⟨closing, hclosing, hbehind⟩ :=
      exists_mark .rightBrace rfl hnext .semantic
    refine ⟨opening.followedBy (r.followedBy (closing.map fun _ =>
      .blockStatement r.value)), ?_,
      Ast.equal_blockStatement hequals, hbehind⟩
    simp only [block, hopening, Outcome.ok_bind, hread, hclosing]

end Parser

namespace Program

/-- A program that does not nest too deep is read back from its words with
single spaces between them: the text is a program, and its tree equals the one
that was printed. -/
theorem exists_parse_of_spaced {t : Ast} (ht : t.IsProgram .words)
    (hnesting : t.nesting ≤ maxNesting) {text : String}
    (htext : Spaced t.printed text) :
    ∃ p, parse text = .ok p ∧ p.ast.equal t = true := by
  have hshows := shows_tokenize htext ht.isWord
  cases ht with
  | @program body hbody =>
    rw [Ast.printed_program] at hshows
    rw [Ast.nesting_program] at hnesting
    have hstands : (Stream.ofTokens (tokenize text) text.utf8ByteSize).Stands
        (body.flatMap Ast.printed ++ []) := by
      rw [List.append_nil]
      exact Stream.stands_skipTrivia hshows [] _
    have hgo (t : Ast) (h : t ∈ body) (rest : List String) :
        decide (firstKind (t.printed ++ rest) = .endOfFile) = false := by
      have hkind := (Parser.opens_of_isStatement (hbody t h)).firstKind_mem rest
      revert hkind
      cases firstKind (t.printed ++ rest) <;> decide
    obtain ⟨r, hread, hequals, -⟩ := Parser.exists_itemsUntil (· = .endOfFile)
      (fun t h => Parser.restores_statement
        (Parser.restoresBlocks_block maxNesting) (hbody t h)
        (Ast.itemsNesting_le.1 hnesting t h)) hgo rfl _ hstands
    refine ⟨⟨.program r.value, r.next.tokens⟩, ?_, Ast.equal_program hequals⟩
    simp only [parse, Parser.program, hread, Outcome.ok_bind]
    rfl

/-- A program with a call of a call, a return with a value, blocks in each other
and an empty statement. -/
def sampleTree : Ast :=
  .program
    [.functionDeclaration (.identifier "f") [.identifier "a", .identifier "b"]
      (.blockStatement
        [.blockStatement [.emptyStatement, .returnStatement none],
          .returnStatement (some (.callExpression
            (.callExpression (.identifier "a")
              [.identifier "b", .literal (.number (.ofNat 1)) "1"]) []))]),
      .expressionStatement
        (.callExpression (.identifier "f") [.literal (.string "x") "\"x\""])]

theorem exists_parse_of_spaced_sample :
    sampleTree.IsProgram .words ∧ sampleTree.nesting ≤ maxNesting ∧
      ∃ p, parse (" ".intercalate sampleTree.printed) = .ok p ∧
        p.ast.equal sampleTree = true := by
  have hname {name : String} (h : wordKind name = .identifier) :
      Lexicon.words.isName name :=
    Lexicon.isName_words.2 h
  have hf : Lexicon.words.isName "f" := hname (by decide +kernel)
  have ha : Lexicon.words.isName "a" := hname (by decide +kernel)
  have hb : Lexicon.words.isName "b" := hname (by decide +kernel)
  have hone : Lexicon.words.isLiteral (.number (.ofNat 1)) "1" :=
    Lexicon.isLiteral_words.2 ⟨by decide +kernel,
      .number (.ofNat 1), by decide +kernel, by decide +kernel⟩
  have hx : Lexicon.words.isLiteral (.string "x") "\"x\"" :=
    Lexicon.isLiteral_words.2 ⟨by decide +kernel,
      .string "x", by decide +kernel, by decide +kernel⟩
  have hvalue : Ast.IsExpression .words (.callExpression
    (.callExpression (.identifier "a") [.identifier "b",
      .literal (.number (.ofNat 1)) "1"]) []) :=
    .callExpression (.callExpression (.identifier ha)
      (List.forall_mem_cons.2 ⟨.identifier hb,
        List.forall_mem_singleton.2 (.literal hone)⟩)) (List.forall_mem_nil _)
  have hinner : Ast.IsStatement .words true (.blockStatement [.emptyStatement,
    .returnStatement none]) :=
    .blockStatement (List.forall_mem_cons.2 ⟨.emptyStatement,
      List.forall_mem_singleton.2 .returnNothing⟩)
  have ht : sampleTree.IsProgram .words := by
    refine .program
      (List.forall_mem_cons.2 ⟨.functionDeclaration (.identifier hf) ?_ ?_,
        List.forall_mem_singleton.2 (.expressionStatement (.callExpression
          (.identifier hf) (List.forall_mem_singleton.2 (.literal hx))))⟩)
    · exact List.forall_mem_cons.2 ⟨.identifier ha,
        List.forall_mem_singleton.2 (.identifier hb)⟩
    · exact List.forall_mem_cons.2 ⟨hinner,
        List.forall_mem_singleton.2 (.returnValue hvalue)⟩
  have hnesting : sampleTree.nesting ≤ maxNesting := by decide
  exact ⟨ht, hnesting,
    exists_parse_of_spaced ht hnesting (spaced_intercalate _)⟩

end Program

end Lossless
