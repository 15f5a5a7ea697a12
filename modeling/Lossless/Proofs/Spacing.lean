import Lossless.Proofs.Tokenizing

/-!
# Words with spaces between them

A word is a text that is a single token, and neither trivia nor unknown. What
stands behind a word may become a part of its token. A space and a semicolon
never do (`endures_lexeme`), so the tokens of words with single spaces between
them are these words and the spaces (`shows_tokenize`).
-/

namespace Lossless

namespace Lexer

/-- A text does not go on with what could become a part of the
token in front. -/
def Apart (rest : List Char) : Prop := ∀ c ∈ rest.head?, c = ' ' ∨ c = ';'

variable {rest : List Char}

/-- No character at the front of the text has a property. -/
theorem Apart.head_eq_false (hrest : Apart rest) {p : Char → Bool}
    (hspace : p ' ' = false) (hmark : p ';' = false) :
    ∀ c ∈ rest.head?, p c = false := by
  intro c hc
  rcases hrest c hc with rfl | rfl
  · exact hspace
  · exact hmark

theorem run_append_of_head {p : Char → Bool}
    (hrest : ∀ c ∈ rest.head?, p c = false) (cs : List Char) :
    run p (cs ++ rest) = ((run p cs).1, (run p cs).2 ++ rest) := by
  induction cs with
  | nil =>
    cases rest with
    | nil => rfl
    | cons c rest => simp [run, hrest c rfl]
  | cons c cs ih =>
    simp only [run, Prod.mk.injEq, List.cons_append, List.takeWhile_cons,
      List.dropWhile_cons] at ih ⊢
    cases p c with
    | true => simp [ih.1, ih.2]
    | false => simp

theorem sign_append_of_apart (hrest : Apart rest) (cs : List Char) :
    sign (cs ++ rest) = ((sign cs).1, (sign cs).2 ++ rest) := by
  cases cs with
  | nil =>
    cases rest with
    | nil => rfl
    | cons c rest =>
      have hc :=
        hrest.head_eq_false (p := fun c => c == '-' || c == '+') rfl rfl c rfl
      simp_all [sign]
  | cons c cs =>
    simp only [sign, List.cons_append]
    split <;> rfl

theorem exponent_append_of_apart (hrest : Apart rest) (cs : List Char) :
    exponent (cs ++ rest) = ((exponent cs).1, (exponent cs).2 ++ rest) := by
  have hdigits :=
    run_append_of_head (hrest.head_eq_false (p := Char.isDigit) rfl rfl)
  cases cs with
  | nil =>
    cases rest with
    | nil => rfl
    | cons c rest =>
      have hc :=
        hrest.head_eq_false (p := fun c => c == 'e' || c == 'E') rfl rfl c rfl
      simp_all [exponent]
  | cons c cs =>
    simp only [exponent, List.cons_append, sign_append_of_apart hrest, hdigits]
    split <;> rfl

theorem fraction_append_of_apart (hrest : Apart rest) (cs : List Char) :
    fraction (cs ++ rest) = ((fraction cs).1, (fraction cs).2 ++ rest) := by
  have hdigits :=
    run_append_of_head (hrest.head_eq_false (p := Char.isDigit) rfl rfl)
  fun_cases fraction cs with
  | case1 cs => simp +zetaDelta only [List.cons_append, fraction, hdigits]
  | case2 _ h =>
    rw [fraction.eq_2]
    intro cs' hcs
    rcases List.append_eq_cons_iff.1 hcs with ⟨-, rfl⟩ | ⟨cs'', rfl, -⟩
    · exact absurd (hrest '.' rfl) (by decide)
    · exact h _ rfl

theorem decimalBody_append_of_apart (hrest : Apart rest) (cs : List Char) :
    decimalBody (cs ++ rest) =
      ((decimalBody cs).1, (decimalBody cs).2 ++ rest) := by
  have hdigits :=
    run_append_of_head (hrest.head_eq_false (p := Char.isDigit) rfl rfl)
  simp only [decimalBody, hdigits, fraction_append_of_apart hrest,
    exponent_append_of_apart hrest]

theorem numberBody_append_of_apart (hrest : Apart rest) (first : Char)
    (cs : List Char) :
    numberBody first (cs ++ rest) =
      ((numberBody first cs).1, (numberBody first cs).2 ++ rest) := by
  have hdigits :=
    run_append_of_head (hrest.head_eq_false (p := isHexDigit) rfl rfl)
  cases cs with
  | nil =>
    have hnil : decimalBody rest = ([], rest) :=
      decimalBody_append_of_apart hrest []
    cases rest with
    | nil => rfl
    | cons c rest =>
      have hc :=
        hrest.head_eq_false (p := fun c => c == 'x' || c == 'X') rfl rfl c rfl
      simp_all [numberBody]
  | cons c cs =>
    simp only [List.cons_append, numberBody, hdigits]
    split
    · rfl
    · exact decimalBody_append_of_apart hrest (c :: cs)

/-- A character that is no backslash ends the line, closes the string,
or belongs to it. -/
theorem stringBody_cons {q c : Char} (hc : c ≠ '\\') (cs : List Char) :
    stringBody q (c :: cs) =
      if Text.isLineTerminator c then (false, [], c :: cs)
      else if c == q then (true, [c], cs)
      else ((stringBody q cs).1, c :: (stringBody q cs).2.1,
        (stringBody q cs).2.2) :=
  stringBody.eq_5 q c cs (fun h => absurd h hc) (fun _ h => absurd h hc)
    fun _ _ h => absurd h hc

/-- A string that is closed does not go on. -/
theorem stringBody_append_of_closed {q : Char} {cs : List Char}
    (h : (stringBody q cs).1 = true) :
    stringBody q (cs ++ rest) =
      (true, (stringBody q cs).2.1, (stringBody q cs).2.2 ++ rest) := by
  have hne {c : Char} {cs : List Char} (hnil : c = '\\' → cs = [] → False)
      (hcons : ∀ d ds, c = '\\' → cs = d :: ds → False) :
      c ≠ '\\' := fun hc => by
    cases cs with
    | nil => exact hnil hc rfl
    | cons d ds => exact hcons d ds hc rfl
  fun_induction stringBody q cs with
  | case1 => cases h
  | case2 => cases h
  | case3 cs r ih => simp [stringBody, ih h, r]
  | case4 c cs hc r ih =>
    rw [List.cons_append, List.cons_append, stringBody.eq_4, ih h]
    intro ds hr hds
    cases cs with
    | nil => cases h
    | cons d cs => exact hc cs hr (by rw [(List.cons.inj hds).1])
  | case5 => cases h
  | case6 c cs hnil _ hcons hline hclose =>
    rw [List.cons_append, stringBody_cons (hne hnil hcons), if_neg hline,
      if_pos hclose]
  | case7 c cs hnil _ hcons hline hclose r ih =>
    rw [List.cons_append, stringBody_cons (hne hnil hcons), if_neg hline,
      if_neg hclose, ih h]

theorem point_append_of_apart (hrest : Apart rest) {cs : List Char}
    (hknown : (point cs).kind ≠ .unknown) :
    point (cs ++ rest) =
      ⟨(point cs).kind, (point cs).body, (point cs).rest ++ rest⟩ := by
  have hdigits :=
    run_append_of_head (hrest.head_eq_false (p := Char.isDigit) rfl rfl)
  revert hknown
  fun_cases point cs with
  | case1 hcs =>
    intro _
    cases cs with
    | nil => cases hcs
    | cons c cs =>
      rw [point, if_pos (by exact hcs)]
      simp +zetaDelta only [hdigits, exponent_append_of_apart hrest]
  | case2 hcs => exact fun h => absurd rfl h

/-- A token that is neither trivia nor unknown stays the same in
front of some text. -/
def Lexeme.Endures (rest : List Char) (l l' : Lexeme) : Prop :=
  l.kind.isTrivia = false → l.kind ≠ .unknown →
    l' = ⟨l.kind, l.body, l.rest ++ rest⟩

theorem Lexeme.Endures.ite {p : Prop} [Decidable p] {l l' m m' : Lexeme}
    (hl : p → l.Endures rest l') (hm : m.Endures rest m') :
    (if p then l else m).Endures rest (if p then l' else m') := by
  split
  · exact hl ‹_›
  · exact hm

theorem isTrivia_carriageReturn (cs : List Char) :
    (carriageReturn cs).kind.isTrivia = true := by
  fun_cases carriageReturn cs <;> rfl

theorem isTrivia_slash {cs : List Char} (h : (slash cs).kind ≠ .unknown) :
    (slash cs).kind.isTrivia = true := by
  revert h
  fun_cases slash cs <;> simp [TokenKind.isTrivia]

/-- A space or a semicolon does not become a part of the token in front. -/
theorem endures_lexeme (hrest : Apart rest) (c : Char) (cs : List Char) :
    (lexeme c cs).Endures rest (lexeme c (cs ++ rest)) := by
  have hmark (kind : TokenKind) :
      Lexeme.Endures rest ⟨kind, [], cs⟩ ⟨kind, [], cs ++ rest⟩ :=
    fun _ _ => rfl
  unfold lexeme
  iterate 6 refine .ite (fun _ => hmark _) ?_
  refine .ite (fun _ htrivia _ => ?lineEnd) <|
    .ite (fun _ htrivia _ => nomatch htrivia) <|
    .ite (fun _ htrivia hknown => ?slash) <| .ite (fun _ _ hknown => ?string) <|
    .ite (fun _ _ _ => ?number) <| .ite (fun _ _ hknown => ?point) <|
    .ite (fun _ htrivia _ => nomatch htrivia) <|
    .ite (fun _ _ _ => ?word) fun _ hknown =>
      absurd rfl hknown
  case lineEnd =>
    exact absurd (isTrivia_carriageReturn cs) (Bool.eq_false_iff.1 htrivia)
  case slash =>
    exact absurd (isTrivia_slash hknown) (Bool.eq_false_iff.1 htrivia)
  case string =>
    cases hclosed : (stringBody c cs).1 with
    | true => simp [hclosed, stringBody_append_of_closed hclosed]
    | false => simp [hclosed] at hknown
  case number => simp only [numberBody_append_of_apart hrest]
  case point => exact point_append_of_apart hrest hknown
  case word =>
    simp only [run_append_of_head
      (hrest.head_eq_false (p := continuesWord) rfl rfl)]

theorem isBlank_of_isDigit {c : Char} (h : c.isDigit = true) :
    Text.isBlank c = false := by
  rw [Bool.eq_false_iff]
  intro hblank
  simp only [Text.isBlank, Bool.or_eq_true, Bool.and_eq_true, beq_iff_eq,
    decide_eq_true_eq] at hblank
  rcases hblank with
    ((((((((((rfl | rfl) | rfl) | rfl) | rfl) | rfl) | ⟨hlow, -⟩) | rfl) |
      rfl) | rfl) | rfl)
  case inl.inl.inl.inl.inr =>
    simp only [Char.isDigit, Bool.and_eq_true, decide_eq_true_eq] at h
    have hhigh := h.2
    simp only [Char.le_def, UInt32.le_iff_toNat_le] at hlow hhigh
    exact absurd (Nat.le_trans hlow hhigh) (by decide)
  all_goals exact absurd h (by decide)

/-- A blank begins a token of blanks. -/
theorem lexeme_of_isBlank {c : Char} (hc : Text.isBlank c = true)
    (cs : List Char) :
    lexeme c cs =
      ⟨.blank, (run Text.isBlank cs).1, (run Text.isBlank cs).2⟩ := by
  fun_cases lexeme c cs
  case case13 => rfl
  case case8 h =>
    exact absurd h (by simp [Text.isLineTerminator_eq_false_of_isBlank hc])
  case case10 h _ =>
    rcases (Bool.or_eq_true _ _).mp h with h | h
    · exact absurd (beq_iff_eq.1 h ▸ hc) (by decide)
    · exact absurd (beq_iff_eq.1 h ▸ hc) (by decide)
  case case11 h _ => exact absurd hc (by simp [isBlank_of_isDigit h])
  case case14 | case15 => contradiction
  all_goals
    rename_i h
    exact absurd (beq_iff_eq.1 h ▸ hc) (by decide)

end Lexer

/-! ### Words -/

/-- The kind of a text that is a single token. -/
def wordKind (w : String) : TokenKind :=
  match tokenize w with
  | [t] => t.kind
  | _ => .unknown

/-- A text that is a single token, and neither trivia nor unknown. -/
structure IsWord (w : String) : Prop where
  known : wordKind w ≠ .unknown
  notTrivia : (wordKind w).isTrivia = false

theorem wordKind_of_tokenize {w : String} {t : Token} (h : tokenize w = [t]) :
    wordKind w = t.kind := by
  rw [wordKind, h]

theorem exists_tokenize_of_wordKind {w : String} (h : wordKind w ≠ .unknown) :
    ∃ t, tokenize w = [t] ∧ t.kind = wordKind w := by
  rw [wordKind] at h ⊢
  split at h
  · exact ⟨_, ‹_›, by simp [*]⟩
  · exact absurd rfl h

/-- What a word is read as: its first character begins a token of
all the others. -/
theorem IsWord.exists_lexeme {w : String} (hw : IsWord w) :
    ∃ c cs, w.toList = c :: cs ∧
      (Lexer.lexeme c cs).kind = wordKind w ∧ (Lexer.lexeme c cs).body = cs ∧
      (Lexer.lexeme c cs).rest = [] := by
  obtain ⟨t, ht, hkind⟩ := exists_tokenize_of_wordKind hw.known
  rw [← hkind]
  cases hchars : w.toList with
  | nil =>
    rw [tokenize, Cursor.tokens_of_end (s := .ofText w) hchars] at ht
    cases ht
  | cons c cs =>
    have hof : Cursor.ofText w = ⟨.start, c :: cs⟩ := by
      rw [Cursor.ofText, hchars]
    rw [tokenize, hof, Cursor.tokens_of_not_end (List.cons_ne_nil c cs)] at ht
    obtain ⟨hfirst, hbehind⟩ := List.cons.inj ht
    have hrest : (Lexer.lexeme c cs).rest = [] := by
      by_contra h
      cases (Cursor.tokens_of_not_end h).symm.trans hbehind
    have hbody := Lexer.lexeme_append c cs
    rw [hrest, List.append_nil] at hbody
    exact ⟨c, cs, rfl, hfirst ▸ rfl, hbody, hrest⟩

namespace Cursor

/-- The next token of a position in front of a word that something apart
follows is that word. -/
theorem next_of_word {w : String} (hw : IsWord w) {rest : List Char}
    (hrest : Lexer.Apart rest) {s : Cursor} (hs : s.rest = w.toList ++ rest) :
    s.next.1.kind = wordKind w ∧ s.next.1.text = w ∧ s.next.2.rest = rest := by
  obtain ⟨c, cs, hchars, hkind, hbody, hend⟩ := hw.exists_lexeme
  obtain ⟨mark, rest'⟩ := s
  obtain rfl : rest' = c :: (cs ++ rest) :=
    hs.trans (by rw [hchars, List.cons_append])
  have hlexeme :=
    Lexer.endures_lexeme hrest c cs (hkind ▸ hw.notTrivia) (hkind ▸ hw.known)
  rw [hkind, hbody, hend, List.nil_append] at hlexeme
  simp only [next, hlexeme, true_and, and_true]
  rw [← hchars, String.ofList_toList]

/-- The next token of a position in front of a space is that space, if no
further blank follows. -/
theorem next_of_space {rest : List Char}
    (hrest : ∀ c ∈ rest.head?, Text.isBlank c = false) {s : Cursor}
    (hs : s.rest = ' ' :: rest) :
    s.next.1.kind = .blank ∧ s.next.2.rest = rest := by
  obtain ⟨mark, rest'⟩ := s
  obtain rfl : rest' = ' ' :: rest := hs
  have hrun : Lexer.run Text.isBlank rest = ([], rest) :=
    Lexer.run_append_of_head hrest []
  simp [next, Lexer.lexeme_of_isBlank (show Text.isBlank ' ' = true by decide),
    hrun]

end Cursor

/-- A word does not begin with a blank. -/
theorem IsWord.head_not_blank {w : String} (hw : IsWord w) (rest : List Char) :
    ∀ c ∈ (w.toList ++ rest).head?, Text.isBlank c = false := by
  obtain ⟨c, cs, hchars, hkind, -, -⟩ := hw.exists_lexeme
  rw [hchars]
  rintro d hd
  obtain rfl := Option.some.inj hd
  rw [Bool.eq_false_iff]
  intro hblank
  have htrivia := hw.notTrivia
  rw [← hkind, Lexer.lexeme_of_isBlank hblank] at htrivia
  exact nomatch htrivia

/-! ### Spaced words -/

/-- A text of words with single spaces between them. The space in front of a
semicolon may be missing. -/
inductive Spaced : List String → String → Prop where
  | nil : Spaced [] ""
  | one (w : String) : Spaced [w] w
  | space (w : String) {v : String} {ws : List String} {text : String}
      (h : Spaced (v :: ws) text) : Spaced (w :: v :: ws) (w ++ " " ++ text)
  | mark (w : String) {ws : List String} {text : String}
      (h : Spaced (";" :: ws) text) : Spaced (w :: ";" :: ws) (w ++ text)

theorem spaced_intercalate (ws : List String) :
    Spaced ws (" ".intercalate ws) := by
  induction ws with
  | nil => exact .nil
  | cons w ws ih =>
    cases ws with
    | nil => exact .one w
    | cons v ws =>
      rw [String.intercalate_cons_cons]
      exact .space w ih

/-- A text of words begins with the first of them, and goes on apart from it. -/
theorem Spaced.front {w : String} {ws : List String} {text : String}
    (h : Spaced (w :: ws) text) :
    ∃ rest, text.toList = w.toList ++ rest ∧ Lexer.Apart rest := by
  generalize hall : w :: ws = all at h
  induction h generalizing w ws with
  | nil => exact nomatch hall
  | one w' =>
    obtain ⟨rfl, -⟩ := List.cons.inj hall
    exact ⟨[], (List.append_nil _).symm, fun c hc => nomatch hc⟩
  | space w' h ih =>
    obtain ⟨rfl, -⟩ := List.cons.inj hall
    exact ⟨_, by rw [String.toList_append, String.toList_append,
      List.append_assoc], by simp [Lexer.Apart]⟩
  | mark w' h ih =>
    obtain ⟨rfl, -⟩ := List.cons.inj hall
    obtain ⟨rest, htext, -⟩ := ih rfl
    exact ⟨_, String.toList_append, by simp [htext, Lexer.Apart]⟩

/-- Some tokens are spelled as words: trivia apart, they are these words, and
the trivia are blanks. -/
inductive Shows : List Token → List String → Prop where
  | nil : Shows [] []
  | word {t : Token} {ts : List Token} {ws : List String}
      (hkind : t.kind = wordKind t.text) (hword : IsWord t.text)
      (h : Shows ts ws) : Shows (t :: ts) (t.text :: ws)
  | blank {t : Token} {ts : List Token} {ws : List String}
      (hkind : t.kind = .blank) (h : Shows ts ws) : Shows (t :: ts) ws

namespace Cursor

variable {s : Cursor} {w : String} {ws : List String} {rest : List Char}

theorem shows_word (hw : IsWord w) (hrest : Lexer.Apart rest)
    (hs : s.rest = w.toList ++ rest)
    (hnext : ∀ s' : Cursor, s'.rest = rest → Shows s'.tokens ws) :
    Shows s.tokens (w :: ws) := by
  obtain ⟨hkind, htext, hbehind⟩ := next_of_word hw hrest hs
  have hne : s.rest ≠ [] := by
    obtain ⟨c, cs, hchars, -⟩ := hw.exists_lexeme
    rw [hs, hchars]
    exact List.cons_ne_nil _ _
  rw [tokens_of_not_end hne, ← htext]
  exact .word (by rw [hkind, htext]) (htext ▸ hw) (hnext _ hbehind)

theorem shows_space (hrest : ∀ c ∈ rest.head?, Text.isBlank c = false)
    (hs : s.rest = ' ' :: rest)
    (hnext : ∀ s' : Cursor, s'.rest = rest → Shows s'.tokens ws) :
    Shows s.tokens ws := by
  obtain ⟨hkind, hbehind⟩ := next_of_space hrest hs
  rw [tokens_of_not_end (hs ▸ List.cons_ne_nil _ _)]
  exact .blank hkind (hnext _ hbehind)

/-- By induction on the words, wherever their text comes next the tokens are
spelled as these words. -/
theorem shows_tokens {text : String} (h : Spaced ws text)
    (hws : ∀ w ∈ ws, IsWord w) :
    ∀ s : Cursor, s.rest = text.toList → Shows s.tokens ws := by
  induction h with
  | nil =>
    intro s hs
    rw [tokens_of_end hs]
    exact .nil
  | one w =>
    intro s hs
    have hend : Lexer.Apart [] := fun c hc => nomatch hc
    refine shows_word (hws w List.mem_cons_self) hend
      (hs.trans (List.append_nil _).symm) fun s' hs' => ?_
    rw [tokens_of_end hs']
    exact .nil
  | @space w v ws text h ih =>
    intro s hs
    rw [String.toList_append, String.toList_append, List.append_assoc] at hs
    obtain ⟨hw, hws⟩ := List.forall_mem_cons.1 hws
    obtain ⟨rest, htext, -⟩ := h.front
    refine shows_word hw (by simp [Lexer.Apart]) hs fun s' hs' => ?_
    exact shows_space
      (htext ▸ (hws v List.mem_cons_self).head_not_blank rest) hs' (ih hws)
  | mark w h ih =>
    intro s hs
    rw [String.toList_append] at hs
    obtain ⟨hw, hws⟩ := List.forall_mem_cons.1 hws
    obtain ⟨rest, htext, -⟩ := h.front
    exact shows_word hw (by simp [htext, Lexer.Apart]) hs (ih hws)

end Cursor

/-- The tokens of a text of spaced words are spelled as these words. -/
theorem shows_tokenize {ws : List String} {text : String} (h : Spaced ws text)
    (hws : ∀ w ∈ ws, IsWord w) : Shows (tokenize text) ws :=
  Cursor.shows_tokens h hws _ rfl

end Lossless
