import Lossless.Proofs.Grammatical
import Lossless.Proofs.Spacing
import Mathlib.Data.List.Forall2

/-!
# Printing programs

A program is printed as the texts of its leaves in order, with a semicolon
behind every return and every expression that is a statement. Where its names
and literals are single tokens, all of these texts are words
(`IsProgram.isWord`).
-/

namespace Lossless

/-! ### The words of a tree -/

/-- What the nodes of a program are printed with. -/
def Layout.terminated : Layout
  | "ReturnStatement" => functions "ReturnStatement" ++ [.token ";"]
  | "ExpressionStatement" => functions "ExpressionStatement" ++ [.token ";"]
  | type => functions type

namespace Leaf

/-- The text of a leaf that has one. -/
def text? : Leaf → Option String
  | .text w => some w
  | .textless _ _ => none

/-- The texts of some leaves. -/
def texts (leaves : List Leaf) : List String := leaves.filterMap text?

theorem texts_append (leaves leaves' : List Leaf) :
    texts (leaves ++ leaves') = texts leaves ++ texts leaves' :=
  List.filterMap_append

theorem texts_ofItems_none (items : List (List Leaf)) :
    texts (ofItems none 0 items) = (items.map texts).flatten := by
  induction items with
  | nil => rfl
  | cons item items ih =>
    rw [ofItems_cons_none, texts_append, ih, List.map_cons, List.flatten_cons]

theorem texts_ofItems_some (separator : String) (items : List (List Leaf)) :
    texts (ofItems (some separator) 0 items) =
      [separator].intercalate (items.map texts) := by
  induction items with
  | nil => rfl
  | cons item items ih =>
    cases items with
    | nil => simp [ofItems, ofSeparator]
    | cons item' items =>
      rw [ofItems_cons _ _ (List.cons_ne_nil _ _), texts_append,
        texts_append, ih]
      simp only [List.map_cons, List.intercalate_cons_cons, List.append_assoc]
      rfl

end Leaf

namespace Ast

/-- The words that a tree is printed with. -/
def printed (t : Ast) : List String := Leaf.texts (t.leaves .terminated)

/-- The words that the items of a list are printed with, with commas
between the items. -/
def printedList (items : List Ast) :
    List String := [","].intercalate (items.map printed)

theorem printed_identifier (name : String) :
    (identifier name).printed = [name] := rfl

theorem printed_literal (value : Scalar) (raw : String) :
    (literal value raw).printed = [raw] := rfl

theorem texts_itemLeaves_none (items : List Ast) :
    Leaf.texts (Leaf.ofItems none 0 (itemLeaves .terminated items)) =
      items.flatMap printed := by
  rw [itemLeaves_eq_map, Leaf.texts_ofItems_none, List.map_map]
  rfl

theorem texts_itemLeaves_some (items : List Ast) :
    Leaf.texts (Leaf.ofItems (some ",") 0 (itemLeaves .terminated items)) =
      printedList items := by
  rw [itemLeaves_eq_map, Leaf.texts_ofItems_some, List.map_map]
  rfl

theorem printed_callExpression (callee : Ast) (arguments : List Ast) :
    (callExpression callee arguments).printed =
      callee.printed ++ "(" :: (printedList arguments ++ [")"]) := by
  rw [← texts_itemLeaves_some]
  change Leaf.texts
    (callee.leaves .terminated ++ ([.text "("] ++ (_ ++ [.text ")"]))) = _
  simp only [Leaf.texts_append]
  rfl

theorem printed_emptyStatement : emptyStatement.printed = [";"] := rfl

theorem printed_expressionStatement (t : Ast) :
    (expressionStatement t).printed = t.printed ++ [";"] :=
  Leaf.texts_append (t.leaves .terminated) [.text ";"]

theorem printed_returnStatement_none :
    (returnStatement none).printed = ["return", ";"] := rfl

theorem printed_returnStatement_some (t : Ast) :
    (returnStatement (some t)).printed = "return" :: (t.printed ++ [";"]) :=
  congrArg _ (Leaf.texts_append (t.leaves .terminated) [.text ";"])

theorem printed_blockStatement (body : List Ast) :
    (blockStatement body).printed =
      "\x7b" :: (body.flatMap printed ++ ["\x7d"]) := by
  rw [← texts_itemLeaves_none]
  exact congrArg _ (Leaf.texts_append _ [.text "\x7d"])

theorem printed_functionDeclaration (id : Ast) (params : List Ast)
    (body : Ast) :
    (functionDeclaration id params body).printed =
      "function" ::
        (id.printed ++ "(" :: (printedList params ++ ")" :: body.printed)) := by
  rw [← texts_itemLeaves_some]
  change Leaf.texts ([.text "function"] ++ (id.leaves .terminated ++
    ([.text "("] ++ (_ ++ ([.text ")"] ++ (body.leaves .terminated ++ [])))))) =
    _
  simp only [Leaf.texts_append, List.append_nil]
  rfl

theorem printed_program (body : List Ast) :
    (program body).printed = body.flatMap printed := by
  rw [← texts_itemLeaves_none]
  exact congrArg _ (List.append_nil _)

end Ast

/-! ### Words only -/

/-- Names and literals that are single tokens, the literals with
an equal value. -/
def Lexicon.words : Lexicon where
  isName name := ∃ t, tokenize name = [t] ∧ t.kind = .identifier
  isLiteral value raw := ∃ t v, tokenize raw = [t] ∧ t.kind.isLiteral = true ∧
    Literal.value t.kind raw = .ok v ∧ v.equal value = true

/-- A kind that leaves no choice of the spelling is the kind of its spelling. -/
theorem wordKind_of_spelling? (kind : TokenKind) {w : String}
    (h : kind.spelling? = some w) : wordKind w = kind := by
  have hall : ∀ kind ∈ TokenKind.all, ∀ w ∈ kind.spelling?,
      wordKind w = kind := by decide +kernel
  exact hall kind (List.mem_of_getElem? kind.all_getElem_index) w h

theorem isWord_of_spelling? (kind : TokenKind) {w : String}
    (h : kind.spelling? = some w) : IsWord w := by
  have hkind := wordKind_of_spelling? kind h
  constructor
  · rw [hkind]
    rintro rfl
    exact nomatch h
  · rw [hkind]
    cases kind with
    | blank | lineTerminator | lineComment | blockComment => exact nomatch h
    | _ => rfl

namespace Lexicon

theorem isName_words {name : String} :
    words.isName name ↔ wordKind name = .identifier := by
  constructor
  · rintro ⟨t, ht, hkind⟩
    rw [wordKind_of_tokenize ht, hkind]
  · intro h
    have hknown : wordKind name ≠ .unknown := by
      rw [h]
      decide
    obtain ⟨t, ht, hkind⟩ := exists_tokenize_of_wordKind hknown
    exact ⟨t, ht, hkind.trans h⟩

theorem isLiteral_words {value : Scalar} {raw : String} :
    words.isLiteral value raw ↔
      (wordKind raw).isLiteral = true ∧
        ∃ v, Literal.value (wordKind raw) raw = .ok v ∧
          v.equal value = true := by
  constructor
  · rintro ⟨t, v, ht, hkind, hvalue, hequal⟩
    rw [wordKind_of_tokenize ht]
    exact ⟨hkind, v, hvalue, hequal⟩
  · rintro ⟨hkind, v, hvalue, hequal⟩
    have hknown : wordKind raw ≠ .unknown := by
      intro h
      rw [h] at hkind
      exact nomatch hkind
    obtain ⟨t, ht, ht'⟩ := exists_tokenize_of_wordKind hknown
    exact ⟨t, v, ht, ht' ▸ hkind, ht' ▸ hvalue, hequal⟩

end Lexicon

theorem isWord_of_wordKind {w : String}
    (h : (wordKind w).startsExpression = true) : IsWord w := by
  constructor
  · intro hkind
    simp [hkind, TokenKind.startsExpression, TokenKind.isLiteral] at h
  · revert h
    cases wordKind w <;> decide

theorem forall_mem_intercalate {α : Type} {P : α → Prop}
    {b : α} {items : List (List α)} (hitems : ∀ item ∈ items, ∀ a ∈ item, P a)
    (hb : P b) : ∀ a ∈ [b].intercalate items, P a := by
  induction items with
  | nil => exact List.forall_mem_nil _
  | cons item items ih =>
    obtain ⟨hitem, hitems⟩ := List.forall_mem_cons.1 hitems
    cases items with
    | nil => simpa using hitem
    | cons item' items =>
      simp only [List.intercalate_cons_cons, List.forall_mem_append,
        List.forall_mem_singleton]
      exact ⟨⟨hitem, hb⟩, ih hitems⟩

namespace Ast

variable {t : Ast}

theorem IsName.isWord (h : IsName .words t) : ∀ w ∈ t.printed, IsWord w := by
  cases h with
  | identifier hname =>
    rw [printed_identifier, List.forall_mem_singleton]
    exact isWord_of_wordKind (by rw [Lexicon.isName_words.1 hname]; rfl)

theorem forall_mem_printedList {items : List Ast}
    (h : ∀ t ∈ items, ∀ w ∈ t.printed, IsWord w) :
    ∀ w ∈ printedList items, IsWord w :=
  forall_mem_intercalate (List.forall_mem_map.2 h)
    (isWord_of_spelling? .comma rfl)

theorem IsExpression.isWord (h : IsExpression .words t) :
    ∀ w ∈ t.printed, IsWord w := by
  induction h with
  | identifier hname => exact (IsName.identifier hname).isWord
  | literal hliteral =>
    rw [printed_literal, List.forall_mem_singleton]
    obtain ⟨hkind, -⟩ := Lexicon.isLiteral_words.1 hliteral
    exact isWord_of_wordKind (by rw [TokenKind.startsExpression, hkind]; rfl)
  | callExpression _ _ hcallee harguments =>
    simp only [printed_callExpression, List.forall_mem_append,
      List.forall_mem_cons]
    exact ⟨hcallee, isWord_of_spelling? .leftParen rfl,
      forall_mem_printedList harguments,
      isWord_of_spelling? .rightParen rfl, List.forall_mem_nil _⟩

theorem IsStatement.isWord {inFunction : Bool}
    (h : IsStatement .words inFunction t) : ∀ w ∈ t.printed, IsWord w := by
  have hsemicolon := isWord_of_spelling? .semicolon rfl
  have hreturn := isWord_of_spelling? .returnWord rfl
  have hblock {body : List Ast}
      (hbody : ∀ t ∈ body, ∀ w ∈ t.printed, IsWord w) :
      ∀ w ∈ (Ast.blockStatement body).printed, IsWord w := by
    simp only [printed_blockStatement, List.forall_mem_append,
      List.forall_mem_cons]
    exact ⟨isWord_of_spelling? .leftBrace rfl, List.forall_mem_flatMap.2 hbody,
      isWord_of_spelling? .rightBrace rfl, List.forall_mem_nil _⟩
  induction h with
  | functionDeclaration hid hparams _ hbody =>
    simp only [printed_functionDeclaration, List.forall_mem_append,
      List.forall_mem_cons]
    exact ⟨isWord_of_spelling? .functionWord rfl,
      hid.isWord, isWord_of_spelling? .leftParen rfl,
      forall_mem_printedList fun t ht => (hparams t ht).isWord,
      isWord_of_spelling? .rightParen rfl, hblock hbody⟩
  | returnNothing =>
    simp only [printed_returnStatement_none, List.forall_mem_cons]
    exact ⟨hreturn, hsemicolon, List.forall_mem_nil _⟩
  | returnValue h =>
    simp only [printed_returnStatement_some, List.forall_mem_append,
      List.forall_mem_cons]
    exact ⟨hreturn, h.isWord, hsemicolon, List.forall_mem_nil _⟩
  | blockStatement _ hbody => exact hblock hbody
  | emptyStatement => exact List.forall_mem_singleton.2 hsemicolon
  | expressionStatement h =>
    simp only [printed_expressionStatement, List.forall_mem_append,
      List.forall_mem_cons]
    exact ⟨h.isWord, hsemicolon, List.forall_mem_nil _⟩

theorem IsProgram.isWord (h : IsProgram .words t) :
    ∀ w ∈ t.printed, IsWord w := by
  cases h with
  | program hbody =>
    rw [printed_program]
    exact List.forall_mem_flatMap.2 fun t ht => (hbody t ht).isWord

end Ast

end Lossless
