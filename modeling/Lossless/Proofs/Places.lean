import Lossless.Proofs.Tokenizing
import Mathlib.Data.List.Chain
import Mathlib.Data.List.Induction

/-!
# The places of tokens

A place is counted over the bytes in front of it: the line feeds among them, and
the bytes behind the last of these (`Place.behind`). No other character has the
byte of a line feed in its encoding, so stepping over the characters of a text
counts the same (`place_past`). The tokens of a text tile it from its first byte
to its last, each with the places of both its ends, and whoever goes on asking
at the end of the text gets empty tokens there (`tokens_tile_text`).
-/

namespace Lossless

/-! ### Counting over bytes -/

namespace Text

/-- The bytes of a text. -/
def bytes (text : String) : List UInt8 := text.toUTF8.data.toList

/-- The place behind some bytes: the number of line feeds among them, and the
number of bytes behind the last of these. -/
def Place.behind (bytes : List UInt8) : Place where
  line := bytes.count 10
  column := (bytes.reverse.takeWhile (· != 10)).length

/-- The place of a byte offset of a text, counted over the bytes
in front of it. -/
def countedPlace (text : String) (offset : Nat) : Place :=
  .behind ((bytes text).take offset)

theorem bytes_ofList (cs : List Char) :
    bytes (String.ofList cs) = cs.flatMap String.utf8EncodeChar := by
  rw [bytes, String.toUTF8_eq_toByteArray, String.toByteArray_ofList,
    List.utf8Encode, List.data_toByteArray]

theorem bytes_ofList_append (cs ds : List Char) :
    bytes (String.ofList (cs ++ ds)) =
      bytes (String.ofList cs) ++ bytes (String.ofList ds) := by
  simp only [bytes_ofList, List.flatMap_append]

theorem length_bytes (text : String) :
    (bytes text).length = text.utf8ByteSize := rfl

/-- Only a line feed is encoded with the byte of a line feed. -/
theorem not_mem_utf8EncodeChar {c : Char} (hc : c ≠ '\n') :
    10 ∉ String.utf8EncodeChar c := by
  have hne : c.val.toNat ≠ 10 := fun h => hc (Char.ext (UInt32.toNat_inj.1 h))
  fun_cases String.utf8EncodeChar c <;> simp only [List.mem_cons,
    List.not_mem_nil, or_false, ← UInt8.toNat_inj, UInt8.toNat_ofNat'] <;>
    simp only [UInt8.reduceToNat] <;> omega

theorem Place.behind_append {bs bs' : List UInt8} (h : 10 ∉ bs') :
    behind (bs ++ bs') =
      ⟨(behind bs).line, (behind bs).column + bs'.length⟩ := by
  have hall : ∀ b ∈ bs'.reverse, (b != 10) = true := fun b hb =>
    bne_iff_ne.2 fun he => h (he ▸ List.mem_reverse.1 hb)
  rw [behind, List.count_append, List.count_eq_zero_of_not_mem h,
    List.reverse_append, List.takeWhile_append_of_pos hall, List.length_append,
    List.length_reverse, Nat.add_comm bs'.length]
  rfl

theorem Place.behind_append_newline (bs : List UInt8) :
    behind (bs ++ [10]) = ⟨(behind bs).line + 1, 0⟩ := by
  simp [behind]

/-- The mark behind some characters has the place that is counted
over their bytes. -/
theorem place_past (cs : List Char) :
    (Mark.start.past cs).place = .behind (bytes (String.ofList cs)) := by
  induction cs using List.reverseRecOn with
  | nil => rfl
  | append_singleton cs c ih =>
    rw [Mark.past_append, Mark.past_cons, Mark.past_nil, bytes_ofList_append,
      Mark.step, ih]
    split
    · rename_i hc
      rw [hc]
      exact (Place.behind_append_newline _).symm
    · rename_i hc
      have hbytes : bytes (String.ofList [c]) = String.utf8EncodeChar c := by
        rw [bytes_ofList, List.flatMap_singleton]
      rw [hbytes, Place.behind_append (not_mem_utf8EncodeChar hc),
        String.length_utf8EncodeChar]

end Text

/-! ### Along a text -/

theorem TokenKind.ofWord_ne (w : String) : ofWord w ≠ .endOfFile := by
  fun_cases ofWord w <;> exact fun h => TokenKind.noConfusion h

namespace Lexer

theorem kind_slash_ne (cs : List Char) : (slash cs).kind ≠ .endOfFile := by
  fun_cases slash cs <;> rintro ⟨⟩

theorem kind_point_ne (cs : List Char) : (point cs).kind ≠ .endOfFile := by
  fun_cases point cs <;> rintro ⟨⟩

theorem kind_carriageReturn_ne (cs : List Char) :
    (carriageReturn cs).kind ≠ .endOfFile := by
  fun_cases carriageReturn cs <;> rintro ⟨⟩

/-- What a text begins with is never read as its end. -/
theorem kind_lexeme_ne (c : Char) (cs : List Char) :
    (lexeme c cs).kind ≠ .endOfFile := by
  fun_cases lexeme c cs
  case case7 => exact kind_carriageReturn_ne cs
  case case9 => exact kind_slash_ne cs
  case case10 =>
    dsimp only
    split <;> rintro ⟨⟩
  case case12 => exact kind_point_ne cs
  case case14 => exact TokenKind.ofWord_ne _
  all_goals exact fun h => TokenKind.noConfusion h

end Lexer

namespace Cursor

open Text (Mark bytes countedPlace)

/-- A position in a text: the characters behind it and those ahead make up the
text, and the mark is the one behind the former. -/
def Within (text : String) (s : Cursor) : Prop :=
  ∃ front, text = String.ofList (front ++ s.rest) ∧
    s.mark = Mark.start.past front

theorem within_ofText (text : String) : (ofText text).Within text :=
  ⟨[], (String.ofList_toList).symm, rfl⟩

/-- The place of a position is the one that is counted in
front of its offset. -/
theorem Within.place_eq {text : String} {s : Cursor} (h : s.Within text) :
    s.mark.place = countedPlace text s.mark.offset := by
  obtain ⟨front, rfl, hmark⟩ := h
  have hoffset : s.mark.offset = (bytes (String.ofList front)).length := by
    rw [hmark, Mark.offset_past, Text.length_bytes]
    exact Nat.zero_add _
  rw [countedPlace, hoffset, Text.bytes_ofList_append, List.take_left, hmark,
    Text.place_past]

/-- A step over a token leads to another position in the same text. -/
theorem Within.next {text : String} {s : Cursor} (h : s.Within text) :
    s.next.2.Within text := by
  obtain ⟨front, htext, hmark⟩ := h
  obtain ⟨mark, rest⟩ := s
  cases rest with
  | nil => exact ⟨front, htext, hmark⟩
  | cons c cs =>
    refine ⟨front ++ c :: (Lexer.lexeme c cs).body, ?_, ?_⟩
    · rw [htext, List.append_assoc, List.cons_append]
      exact congrArg (fun ds => String.ofList (front ++ c :: ds))
        (Lexer.lexeme_append c cs).symm
    · rw [Mark.past_append, ← hmark]
      rfl

/-- A step over a token does not change where the text ends. -/
theorem past_next (s : Cursor) :
    s.next.2.mark.past s.next.2.rest = s.mark.past s.rest := by
  obtain ⟨mark, rest⟩ := s
  cases rest with
  | nil => rfl
  | cons c cs =>
    change (mark.past (c :: (Lexer.lexeme c cs).body)).past
      (Lexer.lexeme c cs).rest = mark.past (c :: cs)
    rw [← Mark.past_append, List.cons_append, Lexer.lexeme_append]

/-- What a step promises of the token that it passes holds of all tokens, if the
step keeps what it needs. -/
theorem forall_tokens_of_step {motive : Token → Prop}
    (invariant : Cursor → Prop)
    (hstep : ∀ s, invariant s →
      s.rest ≠ [] → motive s.next.1 ∧ invariant s.next.2)
    (s : Cursor) (hs : invariant s) : ∀ t ∈ s.tokens, motive t := by
  by_cases hrest : s.rest = []
  · rw [tokens_of_end hrest]
    exact List.forall_mem_nil _
  · obtain ⟨hmotive, hnext⟩ := hstep s hs hrest
    rw [tokens_of_not_end hrest, List.forall_mem_cons]
    exact ⟨hmotive, forall_tokens_of_step invariant hstep s.next.2 hnext⟩
termination_by s.rest.length
decreasing_by exact length_next_lt hrest

theorem text_next_ne {s : Cursor} (h : s.rest ≠ []) : s.next.1.text ≠ "" := by
  obtain ⟨mark, rest⟩ := s
  cases rest with
  | nil => exact absurd rfl h
  | cons c cs =>
    change String.ofList (c :: (Lexer.lexeme c cs).body) ≠ ""
    exact fun he => List.cons_ne_nil _ _ (String.ofList_eq_empty_iff.1 he)

theorem kind_next_ne {s : Cursor} (h : s.rest ≠ []) :
    s.next.1.kind ≠ .endOfFile := by
  obtain ⟨mark, rest⟩ := s
  cases rest with
  | nil => exact absurd rfl h
  | cons c cs => exact Lexer.kind_lexeme_ne c cs

theorem places_next (s : Cursor) :
    s.next.1.span.start = s.mark.place ∧
      s.next.1.span.stop = s.next.2.mark.place := by
  obtain ⟨mark, rest⟩ := s
  cases rest with
  | nil => exact ⟨rfl, rfl⟩
  | cons c cs => exact ⟨rfl, rfl⟩

theorem start_head {s : Cursor} :
    ∀ t ∈ s.tokens.head?, t.span.range.start = s.mark.offset := by
  by_cases hrest : s.rest = []
  · rw [tokens_of_end hrest]
    exact nofun
  · rw [tokens_of_not_end hrest]
    rintro t ⟨⟩
    exact s.next_spec.1

/-- Each token starts where the one in front of it stops. -/
theorem isChain_tokens (s : Cursor) :
    s.tokens.IsChain fun t u => u.span.range.start = t.span.range.stop := by
  by_cases hrest : s.rest = []
  · rw [tokens_of_end hrest]
    exact .nil
  · rw [tokens_of_not_end hrest, List.isChain_cons]
    refine ⟨fun u hu => ?_, isChain_tokens s.next.2⟩
    rw [s.next_spec.2.2, start_head u hu]
termination_by s.rest.length
decreasing_by exact length_next_lt hrest

/-- The last token stops where the text ends. -/
theorem stop_getLast (s : Cursor) :
    ∀ t ∈ s.tokens.getLast?,
      t.span.range.stop = (s.mark.past s.rest).offset := by
  by_cases hrest : s.rest = []
  · rw [tokens_of_end hrest]
    exact nofun
  · rw [tokens_of_not_end hrest, List.getLast?_cons, ← past_next]
    rintro t ⟨⟩
    cases hlast : s.next.2.tokens.getLast? with
    | some u => exact stop_getLast s.next.2 u hlast
    | none =>
      -- without a token behind it the first one is the last
      have hend : s.next.2.rest = [] := by
        by_contra hrest'
        rw [tokens_of_not_end hrest', List.getLast?_cons] at hlast
        exact nomatch hlast
      rw [hend, Mark.past_nil]
      exact s.next_spec.2.2
termination_by s.rest.length
decreasing_by exact length_next_lt hrest

/-- Asking for more tokens than there are yields those there are, and then the
end of the text each time. -/
theorem take_tokens (s : Cursor) (n : Nat) :
    s.take (s.tokens.length + n) =
      s.tokens ++ List.replicate n ⟨.endOfFile, "",
        (s.mark.past s.rest).span (s.mark.past s.rest)⟩ := by
  by_cases hrest : s.rest = []
  · rw [tokens_of_end hrest, List.length_nil, Nat.zero_add, List.nil_append,
      hrest, Mark.past_nil]
    obtain ⟨mark, rest⟩ := s
    obtain rfl : rest = [] := hrest
    induction n with
    | zero => rfl
    | succ n ih =>
      rw [take, List.replicate_succ]
      exact congrArg _ ih
  · rw [tokens_of_not_end hrest, List.length_cons, Nat.add_right_comm, take,
      List.cons_append, take_tokens s.next.2 n, past_next]
termination_by s.rest.length
decreasing_by exact length_next_lt hrest

end Cursor

/-! ### The tokens of a text -/

/-- A token of a text: it holds characters, is as long as its range says, and
both its ends have the places that are counted there. -/
structure Token.PlacedIn (text : String) (t : Token) : Prop where
  nonempty : t.text ≠ ""
  notEnd : t.kind ≠ .endOfFile
  length : t.span.range.length = t.text.utf8ByteSize
  start : t.span.start = Text.countedPlace text t.span.range.start
  stop : t.span.stop = Text.countedPlace text t.span.range.stop

/-- The empty token at the end of a text. -/
def Token.atEnd (text : String) : Token where
  kind := .endOfFile
  text := ""
  span := ⟨.empty text.utf8ByteSize, Text.countedPlace text text.utf8ByteSize,
    Text.countedPlace text text.utf8ByteSize⟩

theorem placedIn_of_tokenize (text : String) :
    ∀ t ∈ tokenize text, t.PlacedIn text := by
  refine Cursor.forall_tokens_of_step (Cursor.Within text)
    (fun s hs hrest => ?_) _ (Cursor.within_ofText text)
  obtain ⟨hstart, hlength, hstop⟩ := s.next_spec
  obtain ⟨hstartPlace, hstopPlace⟩ := s.places_next
  refine ⟨⟨Cursor.text_next_ne hrest, Cursor.kind_next_ne hrest, hlength.symm,
    ?_, ?_⟩, hs.next⟩
  · rw [hstartPlace, hstart, hs.place_eq]
  · rw [hstopPlace, hstop, hs.next.place_eq]

theorem past_toList (text : String) : Text.Mark.start.past text.toList =
    ⟨text.utf8ByteSize, Text.countedPlace text text.utf8ByteSize⟩ := by
  have hoffset :
      (Text.Mark.start.past text.toList).offset = text.utf8ByteSize := by
    rw [Text.Mark.offset_past, String.ofList_toList]
    exact Nat.zero_add _
  have hend : Cursor.Within text ⟨Text.Mark.start.past text.toList, []⟩ :=
    ⟨text.toList, by rw [List.append_nil, String.ofList_toList], rfl⟩
  have hplace := hend.place_eq
  rw [hoffset] at hplace
  rw [← hplace, ← hoffset]

/-- The tokens of a text tile it: their texts make up the text, the first starts
at its first byte, each other one where the one in front stops, and the last
stops at its end. All of them hold characters and have the places that are
counted in the text. Behind them there are only empty tokens at the end. -/
theorem tokens_tile_text (text : String) :
    String.join ((tokenize text).map Token.text) = text ∧
      (∀ t ∈ tokenize text, t.PlacedIn text) ∧
      (∀ t ∈ (tokenize text).head?, t.span.range.start = 0) ∧
      (tokenize text).IsChain (fun t u => u.span.range.start =
        t.span.range.stop) ∧
      (∀ t ∈ (tokenize text).getLast?, t.span.range.stop = text.utf8ByteSize) ∧
      ∀ n, (Cursor.ofText text).take ((tokenize text).length + n) =
        tokenize text ++ List.replicate n (Token.atEnd text) := by
  have hend := past_toList text
  refine ⟨?_, placedIn_of_tokenize text, Cursor.start_head,
    Cursor.isChain_tokens _, fun t ht => ?_, fun n => ?_⟩
  · rw [tokenize, Cursor.join_tokens, Cursor.ofText, String.ofList_toList]
  · rw [Cursor.stop_getLast _ t ht, Cursor.ofText, hend]
  · rw [tokenize, Cursor.take_tokens, Cursor.ofText, hend]
    rfl

end Lossless
