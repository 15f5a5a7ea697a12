import Lossless.Proofs.Spacing

/-!
# The longest token

The classes of tokens are given by themselves, without the lexer:
`InClass kind piece rest` says of a piece of a text, with `rest` behind it, that
it belongs to a class of tokens of some kind. A piece of one character that is
in no class is a token as well, of unknown kind (`IsLexeme`). At each place the
lexer takes the longest piece that is a token, and no piece is a token of two
kinds (`longest_lexeme`). So the tokens of a text are the only way to split it
into longest pieces (`munched_iff`).
-/

namespace Lossless

namespace Lexer

open Text

/-! ### Classes of tokens -/

/-- The marks with their kinds. -/
def marks : List (Char × TokenKind) :=
  [('(', .leftParen), (')', .rightParen), ('\x7b', .leftBrace),
    ('\x7d', .rightBrace), (',', .comma), (';', .semicolon)]

/-- The characters that open and close a string. -/
def IsQuote (q : Char) : Prop := q = '"' ∨ q = '\''

/-- What may stand behind the opening quote `q` of a string: plain
characters, and backslashes with the character behind them, or with both
characters of a line end. -/
inductive Quotable (q : Char) : List Char → Prop where
  | nil : Quotable q []
  | plain {c : Char} {cs : List Char} (hquote : c ≠ q) (hbackslash : c ≠ '\\')
      (hline : isLineTerminator c = false) (h : Quotable q cs) :
      Quotable q (c :: cs)
  | escaped {c : Char} {cs : List Char} (h : Quotable q cs) :
      Quotable q ('\\' :: c :: cs)
  | escapedLineEnd {cs : List Char} (h : Quotable q cs) :
      Quotable q ('\\' :: '\r' :: '\n' :: cs)

/-- A run of digits, which may be empty. -/
def Digits (ds : List Char) : Prop := ∀ d ∈ ds, d.isDigit = true

/-- The power of ten that may stand at the end of a numeral. Its digits
may be missing. -/
inductive IsPower : List Char → Prop where
  | none : IsPower []
  | some {letter : Char} {sign digits : List Char}
      (hletter : letter = 'e' ∨ letter = 'E')
      (hsign : sign = [] ∨ sign = ['+'] ∨ sign = ['-'])
      (hdigits : Digits digits) : IsPower (letter :: (sign ++ digits))

/-- Numerals. Behind `0x` the digits may be missing, and so may those behind a
point that has some in front. -/
inductive IsNumeral : List Char → Prop where
  | hex {x : Char} {digits : List Char} (hx : x = 'x' ∨ x = 'X')
      (hdigits : ∀ d ∈ digits, isHexDigit d = true) :
      IsNumeral ('0' :: x :: digits)
  | whole {d : Char} {digits power : List Char} (hdigits : Digits (d :: digits))
      (hpower : IsPower power) : IsNumeral (d :: (digits ++ power))
  | fraction {d : Char} {digits places power : List Char}
      (hdigits : Digits (d :: digits)) (hplaces : Digits places)
      (hpower : IsPower power) :
      IsNumeral (d :: (digits ++ '.' :: (places ++ power)))
  | point {d : Char} {places power : List Char} (hplaces : Digits (d :: places))
      (hpower : IsPower power) : IsNumeral ('.' :: d :: (places ++ power))

/-- No block comment ends within some characters. -/
def Endless (cs : List Char) : Prop := ¬['*', '/'] <:+: cs

/-- `InClass kind piece rest`: the piece, in front of the rest, belongs to a
class of tokens of the kind. -/
inductive InClass : TokenKind → List Char → List Char → Prop where
  | mark {c : Char} {kind : TokenKind} {rest : List Char}
      (h : (c, kind) ∈ marks) : InClass kind [c] rest
  | lineEnd {c : Char} {rest : List Char} (h : isLineTerminator c = true) :
      InClass .lineTerminator [c] rest
  | lineEndPair {rest : List Char} : InClass .lineTerminator ['\r', '\n'] rest
  | blanks {c : Char} {cs rest : List Char}
      (h : ∀ d ∈ c :: cs, isBlank d = true) : InClass .blank (c :: cs) rest
  | lineComment {cs rest : List Char}
      (h : ∀ c ∈ cs, isLineTerminator c = false) :
      InClass .lineComment ('/' :: '/' :: cs) rest
  /-- The end of the comment is the first one behind its opening. -/
  | blockComment {cs rest : List Char} (h : Endless (cs ++ ['*'])) :
      InClass .blockComment ('/' :: '*' :: (cs ++ ['*', '/'])) rest
  | openComment {cs : List Char} (h : Endless cs) :
      InClass .unknown ('/' :: '*' :: cs) []
  | string {q : Char} {cs rest : List Char} (hq : IsQuote q)
      (h : Quotable q cs) : InClass .string (q :: (cs ++ [q])) rest
  | openString {q : Char} {cs rest : List Char}
      (hq : IsQuote q) (h : Quotable q cs)
      (hrest : ∀ c ∈ rest.head?, isLineTerminator c = true) :
      InClass .unknown (q :: cs) rest
  | brokenString {q : Char} {cs : List Char} (hq : IsQuote q)
      (h : Quotable q cs) : InClass .unknown (q :: (cs ++ ['\\'])) []
  | number {cs rest : List Char} (h : IsNumeral cs) : InClass .number cs rest
  | word {c : Char} {cs rest : List Char} (hstart : startsWord c = true)
      (h : ∀ d ∈ cs, continuesWord d = true) :
      InClass (TokenKind.ofWord (String.ofList (c :: cs))) (c :: cs) rest

/-- A piece of a text is a token of some kind: it is in a class, or it is any
other single character. -/
def IsLexeme (kind : TokenKind) (piece rest : List Char) : Prop :=
  InClass kind piece rest ∨
    kind = .unknown ∧ piece.length = 1 ∧ ∀ kind', ¬InClass kind' piece rest

/-- A piece at the front of a text is a token, of one kind only, and no longer
piece is a token. -/
structure Longest (kind : TokenKind) (piece rest : List Char) : Prop where
  isLexeme : IsLexeme kind piece rest
  unique : ∀ kind', IsLexeme kind' piece rest → kind' = kind
  length_le : ∀ kind' piece' rest', piece' ++ rest' = piece ++ rest →
    IsLexeme kind' piece' rest' → piece'.length ≤ piece.length

/-- A text is split into longest tokens, one behind the other. -/
inductive Munched : List Char → List (TokenKind × List Char) → Prop where
  | nil : Munched [] []
  | cons {kind : TokenKind} {piece rest : List Char}
      {pieces : List (TokenKind × List Char)} (h : Longest kind piece rest)
      (hrest : Munched rest pieces) :
      Munched (piece ++ rest) ((kind, piece) :: pieces)

/-! ### What the first character decides -/

theorem lexeme_of_mark {c : Char} {kind : TokenKind} (h : (c, kind) ∈ marks)
    (cs : List Char) : lexeme c cs = ⟨kind, [], cs⟩ := by
  simp only [marks, List.mem_cons, List.not_mem_nil, or_false,
    Prod.mk.injEq] at h
  rcases h with ⟨rfl, rfl⟩ | ⟨rfl, rfl⟩ | ⟨rfl, rfl⟩ | ⟨rfl, rfl⟩ | ⟨rfl, rfl⟩ |
    ⟨rfl, rfl⟩ <;> rfl

theorem lexeme_of_isLineTerminator {c : Char} (h : isLineTerminator c = true)
    (hc : c ≠ '\r') (cs : List Char) :
    lexeme c cs = ⟨.lineTerminator, [], cs⟩ := by
  simp only [isLineTerminator, Bool.or_eq_true, beq_iff_eq] at h
  rcases h with ((rfl | rfl) | rfl) | rfl
  · rfl
  · exact absurd rfl hc
  · rfl
  · rfl

theorem lexeme_slash (cs : List Char) : lexeme '/' cs = slash cs := rfl

theorem lexeme_of_isQuote {q : Char} (hq : IsQuote q) (cs : List Char) :
    lexeme q cs =
      ⟨if (stringBody q cs).1 then .string else .unknown, (stringBody q cs).2.1,
        (stringBody q cs).2.2⟩ := by
  rcases hq with rfl | rfl <;> rfl

/-- A character between two code points is one of those in between. -/
theorem mem_of_toNat_between {i j : Nat} {c : Char} (hlow : i ≤ c.toNat)
    (hhigh : c.toNat ≤ j) : c ∈ (List.range' i (j + 1 - i)).map Char.ofNat :=
  List.mem_map.2 ⟨c.toNat, List.mem_range'_1.2 ⟨hlow, by omega⟩,
    Char.ofNat_toNat c⟩

theorem mem_of_isDigit {c : Char} (h : c.isDigit = true) :
    c ∈ (List.range' 48 10).map Char.ofNat := by
  simp only [Char.isDigit, Bool.and_eq_true, decide_eq_true_eq,
    UInt32.le_iff_toNat_le] at h
  exact mem_of_toNat_between (i := 48) (j := 57) h.1 h.2

theorem lexeme_of_isDigit {c : Char} (h : c.isDigit = true) (cs : List Char) :
    lexeme c cs = ⟨.number, (numberBody c cs).1, (numberBody c cs).2⟩ := by
  have hall : ∀ d ∈ (List.range' 48 10).map Char.ofNat,
      lexeme d cs = ⟨.number, (numberBody d cs).1, (numberBody d cs).2⟩ := by
    simp only [List.range', List.map_cons, List.map_nil, List.forall_mem_cons]
    exact ⟨rfl, rfl, rfl, rfl, rfl, rfl, rfl, rfl, rfl, rfl, nofun⟩
  exact hall c (mem_of_isDigit h)

theorem startsWord_of_isDigit {c : Char} (h : c.isDigit = true) :
    startsWord c = false := by
  have hall : ((List.range' 48 10).map Char.ofNat).all (startsWord · == false) =
      true := by decide +kernel
  exact beq_iff_eq.1 (List.all_eq_true.1 hall c (mem_of_isDigit h))

theorem startsWord_of_isBlank {c : Char} (h : isBlank c = true) :
    startsWord c = false := by
  simp only [isBlank, Bool.or_eq_true, Bool.and_eq_true, beq_iff_eq,
    decide_eq_true_eq] at h
  rcases h with
    ((((((((((rfl | rfl) | rfl) | rfl) | rfl) | rfl) | ⟨hlow, hhigh⟩) | rfl) |
      rfl) | rfl) | rfl)
  case inl.inl.inl.inl.inr =>
    have hall :
        ((List.range' 0x2000 11).map Char.ofNat).all (startsWord · == false) =
          true := by decide +kernel
    exact beq_iff_eq.1 (List.all_eq_true.1 hall c
      (mem_of_toNat_between (i := 0x2000) (j := 0x200a) hlow hhigh))
  all_goals decide +kernel

theorem startsWord_of_isLineTerminator {c : Char}
    (h : isLineTerminator c = true) : startsWord c = false := by
  simp only [isLineTerminator, Bool.or_eq_true, beq_iff_eq] at h
  rcases h with ((rfl | rfl) | rfl) | rfl <;> decide +kernel

theorem lexeme_of_startsWord {c : Char} (h : startsWord c = true)
    (cs : List Char) :
    lexeme c cs =
      ⟨TokenKind.ofWord (String.ofList (c :: (run continuesWord cs).1)),
        (run continuesWord cs).1, (run continuesWord cs).2⟩ := by
  fun_cases lexeme c cs
  case case14 => rfl
  case case8 hline =>
    exact absurd h (by simp [startsWord_of_isLineTerminator hline])
  case case10 hquote _ =>
    rcases (Bool.or_eq_true _ _).mp hquote with hquote | hquote
    · exact absurd (beq_iff_eq.1 hquote ▸ h) (by decide)
    · exact absurd (beq_iff_eq.1 hquote ▸ h) (by decide)
  case case11 hdigit _ =>
    exact absurd h (by simp [startsWord_of_isDigit hdigit])
  case case13 hblank _ =>
    exact absurd h (by simp [startsWord_of_isBlank hblank])
  case case15 => contradiction
  all_goals
    rename_i hc
    exact absurd (beq_iff_eq.1 hc ▸ h) (by decide)

/-! ### Comments -/

theorem endless_nil : Endless [] := fun h => nomatch List.infix_nil.1 h

theorem endless_cons {c : Char} {cs : List Char} :
    Endless (c :: cs) ↔ ¬(c = '*' ∧ cs.head? = some '/') ∧ Endless cs := by
  have hfront : ['*', '/'] <+: c :: cs ↔ c = '*' ∧ cs.head? = some '/' := by
    cases cs with
    | nil => simp
    | cons d ds => simp [eq_comm]
  rw [Endless, List.infix_cons_iff, hfront, not_or]
  rfl

/-- The end of a comment is missing where no asterisk has a slash behind it. -/
theorem commentBody_eq_none {cs : List Char} :
    commentBody cs = none ↔ Endless cs := by
  fun_induction commentBody cs with
  | case1 => simp [endless_nil]
  | case2 cs => simp [endless_cons]
  | case3 c cs hend ih =>
    rw [Option.map_eq_none_iff, ih, endless_cons, iff_and_self]
    rintro - ⟨rfl, hhead⟩
    obtain ⟨ds, rfl⟩ := List.head?_eq_some_iff.1 hhead
    exact hend ds rfl rfl

theorem commentBody_of_endless {cs : List Char} (h : Endless (cs ++ ['*']))
    (rest : List Char) :
    commentBody (cs ++ '*' :: '/' :: rest) = some (cs ++ ['*', '/'], rest) := by
  induction cs with
  | nil => rfl
  | cons c cs ih =>
    rw [List.cons_append, endless_cons] at h
    rw [List.cons_append, commentBody.eq_3, ih h.2]
    · rfl
    · rintro ds rfl hds
      cases cs with
      | nil => exact absurd (List.cons.inj hds).1 (by decide)
      | cons d cs => exact h.1 ⟨rfl, congrArg some (List.cons.inj hds).1⟩

theorem endless_of_commentBody {cs : List Char} {r : List Char × List Char}
    (h : commentBody cs = some r) :
    ∃ ds, r.1 = ds ++ ['*', '/'] ∧ Endless (ds ++ ['*']) := by
  fun_induction commentBody cs generalizing r with
  | case1 => cases h
  | case2 cs =>
    exact ⟨[], (Option.some.inj h) ▸ rfl, endless_cons.2 ⟨by simp, endless_nil⟩⟩
  | case3 c cs hend ih =>
    obtain ⟨s, hs, rfl⟩ := Option.map_eq_some_iff.1 h
    obtain ⟨ds, hds, hendless⟩ := ih hs
    refine ⟨c :: ds, congrArg (c :: ·) hds, endless_cons.2 ⟨?_, hendless⟩⟩
    rintro ⟨rfl, hhead⟩
    -- a slash behind the asterisk would have ended the comment there
    have happend := commentBody_append hs
    rw [hds] at happend
    cases ds with
    | nil => exact absurd hhead (by decide)
    | cons d ds =>
      obtain rfl : d = '/' := Option.some.inj hhead
      exact hend _ rfl happend.symm

/-! ### Strings -/

section Strings

variable {q : Char} {cs rest : List Char}

theorem IsQuote.ne_backslash (hq : IsQuote q) : q ≠ '\\' := by
  rcases hq with rfl | rfl <;> decide

theorem IsQuote.isLineTerminator_eq_false (hq : IsQuote q) :
    isLineTerminator q = false := by
  rcases hq with rfl | rfl <;> rfl

/-- What stands between quotes does not begin with the end of a line. -/
theorem Quotable.head_ne (h : Quotable q cs) : cs.head? ≠ some '\n' := by
  cases h with
  | nil => simp
  | plain hquote hbackslash hline h =>
    exact fun hc => by simp_all [isLineTerminator]
  | escaped h => simp
  | escapedLineEnd h => simp

/-- A backslash takes the next character along, unless a carriage return and a
line feed come next. -/
theorem stringBody_escaped {c : Char} (h : ¬(c = '\r' ∧ cs.head? = some '\n')) :
    stringBody q ('\\' :: c :: cs) =
      ((stringBody q cs).1, '\\' :: c :: (stringBody q cs).2.1,
        (stringBody q cs).2.2) :=
  stringBody.eq_4 q c cs fun _ hc hcs => h ⟨hc, hcs ▸ rfl⟩

theorem stringBody_of_closed (hq : IsQuote q) (h : Quotable q cs)
    (rest : List Char) :
    stringBody q (cs ++ q :: rest) = (true, cs ++ [q], rest) := by
  induction h with
  | nil =>
    rw [List.nil_append, stringBody_cons hq.ne_backslash,
      hq.isLineTerminator_eq_false]
    simp
  | @plain c cs hquote hbackslash hline h ih =>
    rw [List.cons_append, stringBody_cons hbackslash, hline, ih]
    simp [hquote]
  | @escaped c cs h ih =>
    rw [List.cons_append, List.cons_append, stringBody_escaped, ih]
    · rfl
    · rintro ⟨-, hhead⟩
      cases cs with
      | nil => rcases hq with rfl | rfl <;> exact nomatch hhead
      | cons d cs => exact h.head_ne hhead
  | @escapedLineEnd cs h ih =>
    simp only [List.cons_append, stringBody, ih]

/-- A string that the end of a line, or of the text, leaves open is
read that far at least: a carriage return behind a backslash may take
a line feed along. -/
theorem stringBody_of_open (h : Quotable q cs)
    (hrest : ∀ c ∈ rest.head?, isLineTerminator c = true) :
    cs.length ≤ (stringBody q (cs ++ rest)).2.1.length ∧
      (cs.length = (stringBody q (cs ++ rest)).2.1.length →
        (stringBody q (cs ++ rest)).1 = false) := by
  induction h with
  | nil =>
    cases rest with
    | nil => exact ⟨Nat.le_refl _, fun _ => rfl⟩
    | cons c rest =>
      have hc : c ≠ '\\' := fun he => absurd (he ▸ hrest c rfl) (by decide)
      rw [List.nil_append, stringBody_cons hc, hrest c rfl]
      exact ⟨Nat.le_refl _, fun _ => rfl⟩
  | @plain c cs hquote hbackslash hline h ih =>
    rw [List.cons_append, stringBody_cons hbackslash, hline]
    simpa [hquote] using ih
  | @escaped c cs h ih =>
    by_cases hpair : c = '\r' ∧ (cs ++ rest).head? = some '\n'
    · obtain ⟨rfl, hhead⟩ := hpair
      cases cs with
      | nil =>
        obtain ⟨ds, hds⟩ := List.head?_eq_some_iff.1 hhead
        simp [hds, stringBody]
      | cons d cs => exact absurd hhead h.head_ne
    · rw [List.cons_append, List.cons_append, stringBody_escaped hpair]
      simpa using ih
  | @escapedLineEnd cs h ih => simpa [stringBody] using ih

theorem stringBody_of_broken (h : Quotable q cs) :
    stringBody q (cs ++ ['\\']) = (false, cs ++ ['\\'], []) := by
  induction h with
  | nil => rfl
  | @plain c cs hquote hbackslash hline h ih =>
    rw [List.cons_append, stringBody_cons hbackslash, hline, ih]
    simp [hquote]
  | @escaped c cs h ih =>
    rw [List.cons_append, List.cons_append, stringBody_escaped, ih]
    rintro ⟨-, hhead⟩
    cases cs with
    | nil => exact absurd hhead (by decide)
    | cons d cs => exact h.head_ne hhead
  | @escapedLineEnd cs h ih => simp only [List.cons_append, stringBody, ih]

/-- How the body of a string ends: with its quote, in front of the end of a line
or of the text, or with a backslash that is the last character of the text. -/
inductive StringEnd (q : Char) : Bool → List Char → List Char → Prop where
  | closed {rest : List Char} : StringEnd q true [q] rest
  | left {rest : List Char} (h : ∀ c ∈ rest.head?, isLineTerminator c = true) :
      StringEnd q false [] rest
  | broken : StringEnd q false ['\\'] []

/-- The body of a string is what may stand between its quotes, and an end. -/
theorem exists_stringEnd (q : Char) (cs : List Char) :
    ∃ ds last, Quotable q ds ∧ (stringBody q cs).2.1 = ds ++ last ∧
      StringEnd q (stringBody q cs).1 last (stringBody q cs).2.2 := by
  fun_induction stringBody q cs with
  | case1 => exact ⟨[], [], .nil, rfl, .left (by simp)⟩
  | case2 => exact ⟨[], _, .nil, rfl, .broken⟩
  | case3 cs r ih =>
    obtain ⟨ds, last, hds, hbody, hend⟩ := ih
    exact ⟨_, last, .escapedLineEnd hds,
      congrArg ('\\' :: '\r' :: '\n' :: ·) hbody, hend⟩
  | case4 c cs hc r ih =>
    obtain ⟨ds, last, hds, hbody, hend⟩ := ih
    exact ⟨_, last, .escaped hds, congrArg ('\\' :: c :: ·) hbody, hend⟩
  | case5 c cs hnil _ hcons hline =>
    refine ⟨[], [], .nil, rfl, .left ?_⟩
    rintro d ⟨⟩
    exact hline
  | case6 c cs hnil _ hcons hline hclose =>
    obtain rfl := beq_iff_eq.1 hclose
    exact ⟨[], _, .nil, rfl, .closed⟩
  | case7 c cs hnil _ hcons hline hclose r ih =>
    obtain ⟨ds, last, hds, hbody, hend⟩ := ih
    have hbackslash : c ≠ '\\' := fun hc => by
      cases cs with
      | nil => exact hnil hc rfl
      | cons d cs => exact hcons d cs hc rfl
    exact ⟨_, last, .plain (fun hc => hclose (beq_iff_eq.2 hc)) hbackslash
        (Bool.eq_false_iff.2 hline) hds,
      congrArg (c :: ·) hbody, hend⟩

end Strings

/-! ### Numerals -/

section Numerals

variable {ds power rest : List Char}

theorem run_of_forall {p : Char → Bool} (h : ∀ d ∈ ds, p d = true)
    (rest : List Char) :
    run p (ds ++ rest) = (ds ++ (run p rest).1, (run p rest).2) := by
  rw [run, run, List.takeWhile_append_of_pos h, List.dropWhile_append_of_pos h]

theorem forall_run {p : Char → Bool} (cs : List Char) :
    ∀ d ∈ (run p cs).1, p d = true :=
  fun _ hd => List.all_eq_true.1 List.all_takeWhile _ hd

/-- No power of ten begins with a digit. -/
theorem IsPower.head_isDigit (h : IsPower power) :
    ∀ c ∈ power.head?, c.isDigit = false := by
  cases h with
  | none => exact nofun
  | some hletter hsign hdigits =>
    rintro c ⟨⟩
    rcases hletter with rfl | rfl <;> rfl

theorem sign_fst (cs : List Char) :
    (sign cs).1 = [] ∨ (sign cs).1 = ['+'] ∨ (sign cs).1 = ['-'] := by
  fun_cases sign cs with
  | case1 c cs hc =>
    rcases (Bool.or_eq_true _ _).mp hc with hc | hc
    · exact .inr (.inr (congrArg ([·]) (beq_iff_eq.1 hc)))
    · exact .inr (.inl (congrArg ([·]) (beq_iff_eq.1 hc)))
  | case2 => exact .inl rfl
  | case3 => exact .inl rfl

theorem isPower_exponent (cs : List Char) : IsPower (exponent cs).1 := by
  fun_cases exponent cs with
  | case1 c cs hc s digits =>
    exact .some (by simpa using hc) (sign_fst cs) (forall_run _)
  | case2 => exact .none
  | case3 => exact .none

theorem sign_of_isDigit {c : Char} (hc : c.isDigit = true) (cs : List Char) :
    sign (c :: cs) = ([], c :: cs) := by
  rw [sign, if_neg]
  intro hsign
  rcases (Bool.or_eq_true _ _).mp hsign with he | he
  · exact absurd (beq_iff_eq.1 he ▸ hc) (by decide)
  · exact absurd (beq_iff_eq.1 he ▸ hc) (by decide)

/-- A power of ten is read to its end at least. -/
theorem IsPower.length_le (h : IsPower power) (rest : List Char) :
    power.length ≤ (exponent (power ++ rest)).1.length := by
  cases h with
  | none => exact Nat.zero_le _
  | @some letter sgn digits hletter hsign hdigits =>
    have hletter' : (letter == 'e' || letter == 'E') = true := by
      simpa using hletter
    have hrun := run_of_forall (p := Char.isDigit) hdigits rest
    simp only [List.cons_append, List.append_assoc, exponent, hletter', if_true,
      List.length_cons, List.length_append, Nat.add_le_add_iff_right]
    rcases hsign with rfl | rfl | rfl
    · cases digits with
      | nil => exact Nat.zero_le _
      | cons d digits =>
        rw [List.nil_append, List.cons_append,
          sign_of_isDigit (hdigits d List.mem_cons_self),
          ← List.cons_append, hrun]
        simp
    · simp [sign, hrun]
    · simp [sign, hrun]

/-- Digits with a power of ten are read to their end at least. -/
theorem length_digits_power_le (hds : Digits ds) (hpower : IsPower power)
    (rest : List Char) :
    (ds ++ power).length ≤ (run Char.isDigit (ds ++ (power ++ rest))).1.length +
      (exponent (run Char.isDigit (ds ++ (power ++ rest))).2).1.length := by
  rw [run_of_forall hds, List.length_append, List.length_append, Nat.add_assoc]
  refine Nat.add_le_add_left ?_ _
  cases hpower with
  | none => exact Nat.zero_le _
  | @some letter sgn digits hletter hsign hdigits =>
    have hpower := IsPower.some hletter hsign hdigits
    have hhead := hpower.head_isDigit letter rfl
    simp only [List.cons_append, run, List.takeWhile_cons,
      List.dropWhile_cons, hhead]
    exact Nat.le_trans (hpower.length_le rest) (Nat.le_add_left _ _)

theorem fraction_of_head {cs : List Char} (h : cs.head? ≠ some '.') :
    fraction cs = ([], cs) := by
  rw [fraction.eq_2]
  rintro ds rfl
  exact h rfl

theorem fraction_fst (cs : List Char) :
    (fraction cs).1 = [] ∨
      ∃ places, Digits places ∧ (fraction cs).1 = '.' :: places := by
  fun_cases fraction cs with
  | case1 cs digits => exact .inr ⟨_, forall_run _, rfl⟩
  | case2 => exact .inl rfl

theorem isNumeral_numberBody {c : Char} (hc : c.isDigit = true)
    (cs : List Char) : IsNumeral (c :: (numberBody c cs).1) := by
  have hdecimal : IsNumeral (c :: (decimalBody cs).1) := by
    have hwhole : Digits (c :: (run Char.isDigit cs).1) :=
      List.forall_mem_cons.2 ⟨hc, forall_run _⟩
    have hpower := isPower_exponent (fraction (run Char.isDigit cs).2).2
    simp only [decimalBody]
    rcases fraction_fst (run Char.isDigit cs).2 with hpoint |
      ⟨places, hplaces, hpoint⟩
    · simpa [hpoint] using IsNumeral.whole hwhole hpower
    · simpa [hpoint] using IsNumeral.fraction hwhole hplaces hpower
  fun_cases numberBody c cs with
  | case1 x ds h digits =>
    simp only [Bool.and_eq_true, Bool.or_eq_true, beq_iff_eq] at h
    obtain ⟨rfl, hx⟩ := h
    exact .hex hx (forall_run _)
  | case2 => exact hdecimal
  | case3 => exact IsNumeral.whole (List.forall_mem_singleton.2 hc) .none

theorem numberBody_of_head {c : Char} {cs : List Char}
    (h : ∀ x ∈ cs.head?, x ≠ 'x' ∧ x ≠ 'X') :
    numberBody c cs = decimalBody cs := by
  cases cs with
  | nil => rfl
  | cons x cs => simp [numberBody, h x rfl]

theorem length_whole_le (hds : Digits ds) (hpower : IsPower power)
    (rest : List Char) :
    (ds ++ power).length ≤ (decimalBody (ds ++ (power ++ rest))).1.length := by
  have hle := length_digits_power_le hds hpower rest
  simp only [decimalBody, List.length_append] at hle ⊢
  cases hpower with
  | none =>
    rw [run_of_forall hds]
    simp
    omega
  | @some letter sgn digits hletter hsign hdigits =>
    have hhead := (IsPower.some hletter hsign hdigits).head_isDigit letter rfl
    rw [fraction_of_head]
    · simpa using hle
    · rw [run_of_forall hds]
      simp only [List.cons_append, run, List.dropWhile_cons, hhead]
      rcases hletter with rfl | rfl <;> simp

theorem length_fraction_le {places : List Char} (hds : Digits ds)
    (hplaces : Digits places) (hpower : IsPower power) (rest : List Char) :
    (ds ++ '.' :: (places ++ power)).length ≤
      (decimalBody (ds ++ '.' :: (places ++ (power ++ rest)))).1.length := by
  have hle := length_digits_power_le hplaces hpower rest
  have hpoint (cs : List Char) :
      run Char.isDigit ('.' :: cs) = ([], '.' :: cs) := rfl
  simp only [decimalBody, run_of_forall hds, hpoint, fraction,
    List.length_append, List.length_cons, List.append_nil] at hle ⊢
  omega

theorem ne_of_isDigit {d : Char} (hd : d.isDigit = true) :
    d ≠ 'x' ∧ d ≠ 'X' := by
  constructor <;> rintro rfl <;> exact absurd hd (by decide)

/-- What follows the first digit of a numeral is read to its end at least. -/
theorem IsNumeral.length_le {c : Char} {p : List Char} (h : IsNumeral (c :: p))
    (hc : c.isDigit = true) (rest : List Char) :
    p.length ≤ (numberBody c (p ++ rest)).1.length := by
  cases h with
  | @hex x digits hx hdigits =>
    have hprefix : (x == 'x' || x == 'X') = true := by simpa using hx
    simp [numberBody, hprefix, run_of_forall hdigits]
  | @whole _ ds power hdigits hpower =>
    have hds : Digits ds := (List.forall_mem_cons.1 hdigits).2
    by_cases hend : ds ++ power = []
    · rw [hend]
      exact Nat.zero_le _
    · rw [List.append_assoc, numberBody_of_head]
      · exact length_whole_le hds hpower rest
      · rintro x hx
        cases ds with
        | cons d ds =>
          exact Option.some.inj hx ▸ ne_of_isDigit (hds d List.mem_cons_self)
        | nil =>
          cases hpower with
          | none => exact absurd rfl hend
          | some hletter hsign hdigits =>
            obtain rfl := Option.some.inj hx
            rcases hletter with rfl | rfl <;> decide
  | @fraction _ ds places power hdigits hplaces hpower =>
    have hds : Digits ds := (List.forall_mem_cons.1 hdigits).2
    rw [List.append_assoc, List.cons_append, List.append_assoc,
      numberBody_of_head]
    · exact length_fraction_le hds hplaces hpower rest
    · rintro x hx
      cases ds with
      | cons d ds =>
        exact Option.some.inj hx ▸ ne_of_isDigit (hds d List.mem_cons_self)
      | nil => exact Option.some.inj hx ▸ ⟨by decide, by decide⟩
  | point hplaces hpower => exact absurd hc (by decide)

/-- A point that a digit follows opens a numeral. -/
theorem point_of_isDigit {d : Char} (hd : d.isDigit = true) (cs : List Char) :
    point (d :: cs) =
      ⟨.number, (run Char.isDigit (d :: cs)).1 ++
          (exponent (run Char.isDigit (d :: cs)).2).1,
        (exponent (run Char.isDigit (d :: cs)).2).2⟩ :=
  if_pos hd

/-- The first character of a numeral is a digit, or a point with a
digit behind it. -/
theorem IsNumeral.head {c : Char} {p : List Char} (h : IsNumeral (c :: p)) :
    c.isDigit = true ∨
      c = '.' ∧
        ∃ d places power, p = d :: (places ++ power) ∧
          Digits (d :: places) ∧ IsPower power := by
  cases h with
  | hex => exact .inl rfl
  | whole hdigits hpower => exact .inl (hdigits c List.mem_cons_self)
  | fraction hdigits hplaces hpower => exact .inl (hdigits c List.mem_cons_self)
  | point hplaces hpower => exact .inr ⟨rfl, _, _, _, rfl, hplaces, hpower⟩

end Numerals

/-! ### The lexeme is the longest -/

theorem not_inClass_nil {kind : TokenKind} {rest : List Char} :
    ¬InClass kind [] rest := by
  intro h
  cases h with
  | number h => exact nomatch h

/-- What a single character in a class is. -/
theorem InClass.of_single {kind : TokenKind} {c : Char} {rest : List Char}
    (h : InClass kind [c] rest) :
    (c, kind) ∈ marks ∨ isLineTerminator c = true ∨ isBlank c = true ∨
      IsQuote c ∨ c.isDigit = true ∨ startsWord c = true := by
  generalize hpiece : [c] = piece at h
  cases h with
  | mark h =>
    obtain rfl := (List.cons.inj hpiece).1
    exact .inl h
  | lineEnd h => exact .inr (.inl ((List.cons.inj hpiece).1 ▸ h))
  | blanks h =>
    exact .inr (.inr (.inl ((List.cons.inj hpiece).1 ▸ h _ List.mem_cons_self)))
  | string hq h => exact absurd (List.cons.inj hpiece).2 (by simp)
  | openString hq h hrest =>
    exact .inr (.inr (.inr (.inl ((List.cons.inj hpiece).1 ▸ hq))))
  | brokenString hq h => exact absurd (List.cons.inj hpiece).2 (by simp)
  | number h =>
    subst hpiece
    rcases h.head with hdigit | ⟨-, d, places, power, hp, -⟩
    · exact .inr (.inr (.inr (.inr (.inl hdigit))))
    · exact nomatch hp
  | word hstart h =>
    exact .inr (.inr (.inr (.inr (.inr ((List.cons.inj hpiece).1 ▸ hstart)))))
  | _ => exact nomatch hpiece

/-- A slash that opens no comment and a point that opens no number
are in no class. -/
theorem not_inClass_single {c : Char} (hc : c = '/' ∨ c = '.')
    (kind : TokenKind) (rest : List Char) : ¬InClass kind [c] rest := by
  intro h
  rcases h.of_single with hmark | hline | hblank | hquote | hdigit | hword
  · rcases hc with rfl | rfl <;> simp [marks] at hmark
  · rcases hc with rfl | rfl <;> exact absurd hline (by decide)
  · rcases hc with rfl | rfl <;> exact absurd hblank (by decide)
  · rcases hc with rfl | rfl <;> rcases hquote with h | h <;>
      exact absurd h (by decide)
  · rcases hc with rfl | rfl <;> exact absurd hdigit (by decide)
  · rcases hc with rfl | rfl <;> exact absurd hword (by decide)

theorem isLexeme_slash (cs : List Char) :
    IsLexeme (slash cs).kind ('/' :: (slash cs).body) (slash cs).rest := by
  fun_cases slash cs with
  | case1 cs r =>
    exact .inl (.lineComment fun c hc => by simpa using forall_run cs c hc)
  | case2 cs body rest h =>
    obtain ⟨ds, rfl, hds⟩ := endless_of_commentBody h
    exact .inl (.blockComment hds)
  | case3 cs h => exact .inl (.openComment (commentBody_eq_none.1 h))
  | case4 cs =>
    exact .inr ⟨rfl, rfl, fun kind => not_inClass_single (.inl rfl) kind cs⟩

theorem isLexeme_point (cs : List Char) :
    IsLexeme (point cs).kind ('.' :: (point cs).body) (point cs).rest := by
  cases cs with
  | nil => exact .inr ⟨rfl, rfl,
    fun kind => not_inClass_single (.inr rfl) kind []⟩
  | cons d cs =>
    by_cases hd : d.isDigit = true
    · have hpower := isPower_exponent (run Char.isDigit (d :: cs)).2
      have hdigits := forall_run (p := Char.isDigit) (d :: cs)
      rw [point_of_isDigit hd]
      rw [run, List.takeWhile_cons_of_pos hd] at hdigits ⊢
      exact .inl (.number (.point hdigits hpower))
    · have hpoint : point (d :: cs) = ⟨.unknown, [], d :: cs⟩ := if_neg hd
      rw [hpoint]
      exact .inr ⟨rfl, rfl, fun kind => not_inClass_single (.inr rfl) kind _⟩

theorem isLexeme_string {q : Char} (hq : IsQuote q) (cs : List Char) :
    IsLexeme (if (stringBody q cs).1 then .string else .unknown)
      (q :: (stringBody q cs).2.1) (stringBody q cs).2.2 := by
  obtain ⟨ds, last, hds, hbody, hend⟩ := exists_stringEnd q cs
  rw [hbody]
  generalize (stringBody q cs).1 = closed at hend ⊢
  generalize (stringBody q cs).2.2 = rest at hend ⊢
  cases hend with
  | closed => exact .inl (.string hq hds)
  | left hrest =>
    rw [List.append_nil]
    exact .inl (.openString hq hds hrest)
  | broken => exact .inl (.brokenString hq hds)

theorem isLexeme_carriageReturn (cs : List Char) :
    IsLexeme (carriageReturn cs).kind
      ('\r' :: (carriageReturn cs).body) (carriageReturn cs).rest := by
  fun_cases carriageReturn cs with
  | case1 cs => exact .inl .lineEndPair
  | case2 cs => exact .inl (.lineEnd rfl)

/-- What a text begins with is a token. -/
theorem isLexeme_lexeme (c : Char) (cs : List Char) :
    IsLexeme (lexeme c cs).kind (c :: (lexeme c cs).body)
      (lexeme c cs).rest := by
  fun_cases lexeme c cs
  case case1 h | case2 h | case3 h | case4 h | case5 h | case6 h =>
    obtain rfl := beq_iff_eq.1 h
    exact .inl (.mark (by simp [marks]))
  case case7 h =>
    obtain rfl := beq_iff_eq.1 h
    exact isLexeme_carriageReturn cs
  case case8 h => exact .inl (.lineEnd h)
  case case9 h =>
    obtain rfl := beq_iff_eq.1 h
    exact isLexeme_slash cs
  case case10 h _ => exact isLexeme_string (by simpa [IsQuote] using h) cs
  case case11 h _ => exact .inl (.number (isNumeral_numberBody h cs))
  case case12 h =>
    obtain rfl := beq_iff_eq.1 h
    exact isLexeme_point cs
  case case13 h _ =>
    exact .inl (.blanks (List.forall_mem_cons.2 ⟨h, forall_run cs⟩))
  case case14 h _ => exact .inl (.word h (forall_run cs))
  case case15 =>
    refine .inr ⟨rfl, rfl, fun kind h => ?_⟩
    rcases h.of_single with hmark | hline | hblank | hquote | hdigit | hword
    · simp_all [marks]
    · contradiction
    · contradiction
    · rcases hquote with rfl | rfl <;> contradiction
    · contradiction
    · contradiction

/-- A lexeme goes as far as a piece at least, and has its kind if it ends where
the piece does. -/
def Lexeme.Reaches (l : Lexeme) (kind : TokenKind) (p : List Char) : Prop :=
  p.length ≤ l.body.length ∧ (p.length = l.body.length → l.kind = kind)

theorem Lexeme.Reaches.of_eq {l : Lexeme} {kind : TokenKind} {p r : List Char}
    (h : l = ⟨kind, p, r⟩) : l.Reaches kind p := by
  subst h
  exact ⟨Nat.le_refl _, fun _ => rfl⟩

theorem reaches_run {pred : Char → Bool} {p : List Char}
    (h : ∀ d ∈ p, pred d = true) (kind : TokenKind) (rest rest' : List Char) :
    Lexeme.Reaches ⟨kind, (run pred (p ++ rest)).1, rest'⟩ kind p := by
  rw [run_of_forall h]
  exact ⟨by simp, fun _ => rfl⟩

theorem reaches_string {q : Char} (hq : IsQuote q) {cs : List Char}
    (h : Quotable q cs) (rest : List Char) :
    (lexeme q (cs ++ q :: rest)).Reaches .string (cs ++ [q]) := by
  apply Lexeme.Reaches.of_eq (r := rest)
  rw [lexeme_of_isQuote hq, stringBody_of_closed hq h]
  rfl

theorem reaches_openString {q : Char} (hq : IsQuote q) {cs rest : List Char}
    (h : Quotable q cs) (hrest : ∀ c ∈ rest.head?, isLineTerminator c = true) :
    (lexeme q (cs ++ rest)).Reaches .unknown cs := by
  obtain ⟨hlength, hopen⟩ := stringBody_of_open h hrest
  rw [lexeme_of_isQuote hq]
  refine ⟨hlength, fun he => ?_⟩
  rw [hopen he]
  rfl

theorem reaches_brokenString {q : Char} (hq : IsQuote q) {cs : List Char}
    (h : Quotable q cs) :
    (lexeme q (cs ++ ['\\'])).Reaches .unknown (cs ++ ['\\']) := by
  apply Lexeme.Reaches.of_eq (r := [])
  rw [lexeme_of_isQuote hq, stringBody_of_broken h]
  rfl

theorem reaches_number {c : Char} {p : List Char} (h : IsNumeral (c :: p))
    (rest : List Char) : (lexeme c (p ++ rest)).Reaches .number p := by
  rcases h.head with hc | ⟨rfl, d, places, power, rfl, hplaces, hpower⟩
  · rw [lexeme_of_isDigit hc]
    exact ⟨h.length_le hc rest, fun _ => rfl⟩
  · have hpoint : lexeme '.' (d :: (places ++ power) ++ rest) =
        point (d :: (places ++ (power ++ rest))) := by
      rw [List.cons_append, List.append_assoc]
      rfl
    have hlength := length_digits_power_le hplaces hpower rest
    rw [hpoint, point_of_isDigit (hplaces d List.mem_cons_self)]
    exact ⟨by simpa using hlength, fun _ => rfl⟩

theorem reaches_word {c : Char} {p : List Char} (hc : startsWord c = true)
    (hp : ∀ d ∈ p, continuesWord d = true) (rest : List Char) :
    (lexeme c (p ++ rest)).Reaches
      (TokenKind.ofWord (String.ofList (c :: p))) p := by
  rw [lexeme_of_startsWord hc, run_of_forall hp]
  refine ⟨by simp, fun he => ?_⟩
  have hnil : (run continuesWord rest).1 = [] := by simpa using he
  rw [hnil, List.append_nil]

/-- The lexeme at the front of a text goes as far as any piece in a class. -/
theorem InClass.reaches {kind : TokenKind} {c : Char} {p rest : List Char}
    (h : InClass kind (c :: p) rest) :
    (lexeme c (p ++ rest)).Reaches kind p := by
  cases h with
  | mark h => exact .of_eq (lexeme_of_mark h _)
  | lineEnd h =>
    by_cases hc : c = '\r'
    · subst hc
      change (carriageReturn rest).Reaches _ _
      fun_cases carriageReturn rest <;> exact ⟨Nat.zero_le _, fun _ => rfl⟩
    · exact .of_eq (lexeme_of_isLineTerminator h hc _)
  | lineEndPair => exact .of_eq (r := rest) rfl
  | blanks h =>
    obtain ⟨hc, hp⟩ := List.forall_mem_cons.1 h
    rw [lexeme_of_isBlank hc]
    exact reaches_run hp _ _ _
  | lineComment h =>
    rw [lexeme_slash, List.cons_append, slash, run_of_forall (by simpa using h)]
    exact ⟨by simp, fun _ => rfl⟩
  | blockComment h =>
    apply Lexeme.Reaches.of_eq (r := rest)
    simp only [lexeme_slash, List.cons_append, List.append_assoc,
      List.nil_append, slash, commentBody_of_endless h]
  | openComment h =>
    apply Lexeme.Reaches.of_eq (r := [])
    rw [lexeme_slash, List.append_nil, slash, commentBody_eq_none.2 h]
  | string hq h =>
    rw [List.append_assoc]
    exact reaches_string hq h rest
  | openString hq h hrest => exact reaches_openString hq h hrest
  | brokenString hq h =>
    rw [List.append_nil]
    exact reaches_brokenString hq h
  | number h => exact reaches_number h rest
  | word hstart h => exact reaches_word hstart h rest

/-- The lexeme at the front of a text is the longest token there. -/
theorem longest_lexeme (c : Char) (cs : List Char) :
    Longest (lexeme c cs).kind (c :: (lexeme c cs).body)
      (lexeme c cs).rest where
  isLexeme := isLexeme_lexeme c cs
  unique := by
    rintro kind (h | ⟨rfl, -, hother⟩)
    · have hreaches := h.reaches.2
      rw [lexeme_append] at hreaches
      exact (hreaches rfl).symm
    · rcases isLexeme_lexeme c cs with h | ⟨h, -⟩
      · exact absurd h (hother _)
      · exact h.symm
  length_le := by
    intro kind piece rest happend h
    rw [List.cons_append, lexeme_append] at happend
    rcases h with h | ⟨-, hlength, -⟩
    · cases piece with
      | nil => exact absurd h not_inClass_nil
      | cons d p =>
        obtain ⟨rfl, rfl⟩ := List.cons.inj happend
        exact Nat.succ_le_succ h.reaches.1
    · rw [hlength]
      exact Nat.succ_le_succ (Nat.zero_le _)

/-! ### Splitting a text -/

theorem IsLexeme.length_pos {kind : TokenKind} {piece rest : List Char}
    (h : IsLexeme kind piece rest) : 0 < piece.length := by
  rcases h with h | ⟨-, hlength, -⟩
  · cases piece with
    | nil => exact absurd h not_inClass_nil
    | cons c p => exact Nat.succ_pos _
  · rw [hlength]
    exact Nat.one_pos

/-- There is one longest token at the front of a text at most. -/
theorem Longest.eq {kind kind' : TokenKind}
    {piece piece' rest rest' : List Char} (h : Longest kind piece rest)
    (h' : Longest kind' piece' rest')
    (happend : piece' ++ rest' = piece ++ rest) :
    kind' = kind ∧ piece' = piece ∧ rest' = rest := by
  have hlength : piece'.length = piece.length :=
    Nat.le_antisymm (h.length_le _ _ _ happend h'.isLexeme)
      (h'.length_le _ _ _ happend.symm h.isLexeme)
  obtain ⟨rfl, rfl⟩ := List.append_inj happend hlength
  exact ⟨h.unique _ h'.isLexeme, rfl, rfl⟩

/-- A text is split into longest tokens in one way at most. -/
theorem Munched.eq {cs : List Char} {ps ps' : List (TokenKind × List Char)}
    (h : Munched cs ps) (h' : Munched cs ps') : ps' = ps := by
  induction h generalizing ps' with
  | nil =>
    generalize hcs : ([] : List Char) = cs at h'
    cases h' with
    | nil => rfl
    | cons h' _ =>
      rw [(List.append_eq_nil_iff.1 hcs.symm).1] at h'
      exact absurd h'.isLexeme.length_pos (Nat.lt_irrefl 0)
  | @cons kind piece rest pieces h hrest ih =>
    generalize hcs : piece ++ rest = cs at h'
    cases h' with
    | nil =>
      rw [(List.append_eq_nil_iff.1 hcs).1] at h
      exact absurd h.isLexeme.length_pos (Nat.lt_irrefl 0)
    | cons h' hrest' =>
      obtain ⟨rfl, rfl, rfl⟩ := h.eq h' hcs.symm
      rw [ih hrest']

end Lexer

/-- A token without its place. -/
def Token.piece (t : Token) : TokenKind × List Char := (t.kind, t.text.toList)

theorem Cursor.munched_tokens (s : Cursor) :
    Lexer.Munched s.rest (s.tokens.map Token.piece) := by
  by_cases hrest : s.rest = []
  · rw [tokens_of_end hrest, hrest]
    exact .nil
  · rw [tokens_of_not_end hrest, List.map_cons]
    have ih := munched_tokens s.next.2
    obtain ⟨mark, rest⟩ := s
    cases rest with
    | nil => exact absurd rfl hrest
    | cons c cs =>
      have hfirst := Lexer.Munched.cons (Lexer.longest_lexeme c cs) ih
      rw [List.cons_append, Lexer.lexeme_append] at hfirst
      have hpiece : (next ⟨mark, c :: cs⟩).1.piece =
          ((Lexer.lexeme c cs).kind, c :: (Lexer.lexeme c cs).body) :=
        congrArg (Prod.mk _) String.toList_ofList
      rw [hpiece]
      exact hfirst
termination_by s.rest.length
decreasing_by exact length_next_lt hrest

/-- The tokens of a text are the longest ones: at each place the text is split
behind the longest piece that is a token there, and the token has the kind of
this piece. No other way of splitting has this property. -/
theorem munched_iff (text : String) (pieces : List (TokenKind × List Char)) :
    Lexer.Munched text.toList pieces ↔
      pieces = (tokenize text).map Token.piece := by
  have h := (Cursor.ofText text).munched_tokens
  constructor
  · exact fun h' => h.eq h'
  · rintro rfl
    exact h

end Lossless
