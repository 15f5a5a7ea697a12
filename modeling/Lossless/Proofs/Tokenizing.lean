import Lossless.Proofs.Acceptance
import Lossless.Token.Lexer

/-!
# The tokens of a text

Splitting a text loses nothing: its tokens stand one behind the other from the
start of the text on, and their texts put together are the text
(`tiles_of_tokenize`, `join_of_tokenize`). A parser looks at the kinds of tokens
only. For marks and for the words that open a statement the kind leaves no
choice of the spelling, so a token is spelled as its kind says (`word_eq_text`).
-/

namespace Lossless

/-! ### Spellings of kinds -/

/-- How the tokens of a kind are spelled, for the marks and for the words that
open a statement. -/
def TokenKind.spelling? : TokenKind → Option String
  | leftParen => some "("
  | rightParen => some ")"
  | leftBrace => some "\x7b"
  | rightBrace => some "\x7d"
  | comma => some ","
  | semicolon => some ";"
  | functionWord => some "function"
  | returnWord => some "return"
  | _ => none

/-- What a token is read as: the spelling of its kind, or else its own text. -/
def Token.word (t : Token) : String := t.kind.spelling?.getD t.text

theorem TokenKind.eq_of_spelling?_ofWord {text word : String}
    (h : (ofWord text).spelling? = some word) : text = word := by
  revert h
  fun_cases ofWord text <;> intro h
  case case1 => exact Option.some.inj h
  case case2 => exact Option.some.inj h
  all_goals exact nomatch h

namespace Lexer

theorem spelling?_slash (cs : List Char) :
    (slash cs).kind.spelling? = none := by
  fun_cases slash cs <;> rfl

theorem spelling?_point (cs : List Char) :
    (point cs).kind.spelling? = none := by
  fun_cases point cs <;> rfl

theorem spelling?_carriageReturn (cs : List Char) :
    (carriageReturn cs).kind.spelling? = none := by
  fun_cases carriageReturn cs <;> rfl

/-- The token that a text begins with is spelled as its kind says. -/
theorem eq_of_spelling?_lexeme {c : Char} {cs : List Char} {word : String}
    (h : (lexeme c cs).kind.spelling? = some word) :
    String.ofList (c :: (lexeme c cs).body) = word := by
  revert h
  fun_cases lexeme c cs <;> intro h
  -- a mark is one character
  case case1 | case2 | case3 | case4 | case5 | case6 =>
    rename_i hc
    rw [beq_iff_eq.1 hc]
    exact Option.some.inj h
  case case7 => cases (spelling?_carriageReturn cs).symm.trans h
  case case9 => cases (spelling?_slash cs).symm.trans h
  case case10 =>
    dsimp only at h
    split at h
    · cases h
    · cases h
  case case12 => cases (spelling?_point cs).symm.trans h
  case case14 => exact TokenKind.eq_of_spelling?_ofWord h
  all_goals cases h

end Lexer

namespace Cursor

theorem word_next {s : Cursor} : s.next.1.word = s.next.1.text := by
  obtain ⟨mark, rest⟩ := s
  cases rest with
  | nil => rfl
  | cons c cs =>
    change (Lexer.lexeme c cs).kind.spelling?.getD _ = _
    cases hword : (Lexer.lexeme c cs).kind.spelling? with
    | none => rfl
    | some word => exact (Lexer.eq_of_spelling?_lexeme hword).symm

/-- What holds of the next token wherever a text is split holds of
all its tokens. -/
theorem forall_tokens {motive : Token → Prop}
    (h : ∀ s : Cursor, motive s.next.1) (s : Cursor) :
    ∀ t ∈ s.tokens, motive t := by
  by_cases hrest : s.rest = []
  · rw [tokens_of_end hrest]
    exact fun t ht => absurd ht List.not_mem_nil
  · rw [tokens_of_not_end hrest]
    intro t ht
    rcases List.mem_cons.1 ht with rfl | ht
    · exact h s
    · exact forall_tokens h s.next.2 t ht
termination_by s.rest.length
decreasing_by exact length_next_lt hrest

end Cursor

/-- The tokens of a text are spelled as their kinds say. -/
theorem word_eq_text {text : String} {t : Token} (ht : t ∈ tokenize text) :
    t.word = t.text :=
  Cursor.forall_tokens (motive := fun t => t.word = t.text)
    (fun _ => Cursor.word_next) _ t ht

/-! ### Tiling -/

theorem Text.Mark.offset_past (m : Mark) (cs : List Char) :
    (m.past cs).offset = m.offset + (String.ofList cs).utf8ByteSize := by
  induction cs generalizing m with
  | nil => rfl
  | cons c cs ih =>
    rw [past_cons, ih, step, String.ofList_cons, String.utf8ByteSize_append,
      String.utf8ByteSize_singleton, Nat.add_assoc]

namespace Cursor

/-- The next token stands at the position, is as long as its text and ends where
the next position is. -/
theorem next_spec (s : Cursor) : s.next.1.span.range.start = s.mark.offset ∧
    s.next.1.text.utf8ByteSize = s.next.1.span.range.length ∧
      s.next.1.span.range.stop = s.next.2.mark.offset := by
  obtain ⟨mark, rest⟩ := s
  cases rest with
  | nil => exact ⟨rfl, (Nat.sub_self _).symm, rfl⟩
  | cons c cs =>
    refine ⟨rfl, ?_, rfl⟩
    change _ = (mark.past (c :: (Lexer.lexeme c cs).body)).offset - mark.offset
    rw [Text.Mark.offset_past, Nat.add_sub_cancel_left]
    rfl

theorem next_append (s : Cursor) :
    s.next.1.text ++ String.ofList s.next.2.rest = String.ofList s.rest := by
  obtain ⟨mark, rest⟩ := s
  cases rest with
  | nil => rfl
  | cons c cs =>
    change String.ofList (c :: (Lexer.lexeme c cs).body) ++
      String.ofList (Lexer.lexeme c cs).rest = _
    rw [← String.ofList_append, List.cons_append, Lexer.lexeme_append]

open Cst.Build in
/-- Whatever their roles are, the tokens of a text tile it. -/
theorem tiles_of_tokens {s : Cursor} {ts : List SourceToken}
    (h : ts.map SourceToken.token = s.tokens) : Tiles s.mark.offset ts := by
  by_cases hrest : s.rest = []
  · rw [tokens_of_end hrest] at h
    rw [List.map_eq_nil_iff.1 h]
    trivial
  · rw [tokens_of_not_end hrest] at h
    obtain ⟨t, ts, rfl, ht, hts⟩ := List.map_eq_cons_iff.1 h
    obtain ⟨hstart, hlength, hstop⟩ := s.next_spec
    rw [← ht] at hstart hlength hstop
    refine ⟨⟨hstart, hlength⟩, ?_⟩
    rw [SourceToken.range, hstop]
    exact tiles_of_tokens hts
termination_by s.rest.length
decreasing_by exact length_next_lt hrest

theorem join_tokens (s : Cursor) :
    String.join (s.tokens.map Token.text) = String.ofList s.rest := by
  by_cases hrest : s.rest = []
  · rw [tokens_of_end hrest, hrest]
    rfl
  · rw [tokens_of_not_end hrest, List.map_cons, String.join_cons,
      join_tokens s.next.2, next_append]
termination_by s.rest.length
decreasing_by exact length_next_lt hrest

end Cursor

theorem tiles_of_tokenize {text : String} {ts : List SourceToken}
    (h : ts.map SourceToken.token = tokenize text) : Cst.Build.Tiles 0 ts :=
  Cursor.tiles_of_tokens h

theorem join_of_tokenize {text : String} {ts : List SourceToken}
    (h : ts.map SourceToken.token = tokenize text) :
    String.join (ts.map SourceToken.text) = text := by
  have hmap :
      ts.map SourceToken.text = (ts.map SourceToken.token).map Token.text := by
    rw [List.map_map]
    rfl
  rw [hmap, h, tokenize, Cursor.join_tokens, Cursor.ofText,
    String.ofList_toList]

end Lossless
