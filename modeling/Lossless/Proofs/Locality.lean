import Lossless.Proofs.Places
import Lossless.Proofs.Readings

/-!
# Where a syntax error comes from

A parser looks at one token at a time and never behind it. So what it makes of a
stream is settled by the tokens that it passes and the one behind them, which is
no trivia (`Reading.LocalAt`): it leaves each stream that starts with these
tokens at the same place, or fails there for the same cause. Readings that are
local follow each other (`LocalAt.bind`), and all parsers are made of such
readings. An error at a token of a text is therefore an error of each text that
has the same tokens up to this one (`Program.parse_error_local`).
-/

namespace Lossless

/-! ### What two streams have in common -/

namespace Token

/-- The trivia in front of a token are known once the tokens up
to it are known. -/
theorem front_eq_of_take {ts us : List Token}
    (h : us.take ((front ts).length + 1) = ts.take ((front ts).length + 1)) :
    front us = front ts := by
  induction ts generalizing us with
  | nil =>
    obtain rfl : us = [] := by simpa [front] using h
    rfl
  | cons t ts ih =>
    cases us with
    | nil => exact absurd h (by simp)
    | cons u us =>
      cases ht : t.kind.isTrivia with
      | true =>
        rw [front_cons_trivia ts ht] at h ⊢
        simp only [List.length_cons, List.take_succ_cons, List.cons.injEq] at h
        obtain ⟨rfl, h⟩ := h
        rw [front_cons_trivia us ht, ih h]
      | false =>
        rw [front_cons ts ht] at h ⊢
        simp only [List.length_nil, List.take_succ_cons, List.cons.injEq] at h
        obtain ⟨rfl, -⟩ := h
        rw [front_cons us ht]

theorem behindFront_eq_drop (ts : List Token) :
    behindFront ts = ts.drop (front ts).length := by
  have h : ts.drop (front ts).length =
      (front ts ++ behindFront ts).drop (front ts).length := by
    rw [front, behindFront, List.takeWhile_append_dropWhile]
  rw [h, List.drop_left]

/-- Behind the trivia at the front there is another token, or the end. -/
theorem notTrivia_of_front (ts : List Token) :
    ∀ t ∈ ts[(front ts).length]?, t.kind.isTrivia = false := by
  rw [← List.head?_drop, ← behindFront_eq_drop]
  exact notTrivia_behindFront ts

end Token

namespace Stream

variable {s s' next next' : Stream} {k j : Nat} {newline : Bool}

/-- The range of the token with an index; behind all tokens it is empty. -/
def rangeAt (s : Stream) (k : Nat) : Text.Range :=
  match s.ahead[k]? with
  | some t => t.span.range
  | none => .empty s.textEnd

theorem range_eq_rangeAt (s : Stream) : s.range = s.rangeAt 0 := by
  rw [range, rangeAt]
  cases s.ahead <;> rfl

/-- The token with an index is no trivia. -/
def TokenAt (s : Stream) (k : Nat) : Prop :=
  ∀ t ∈ s.ahead[k]?, t.kind.isTrivia = false

/-- Two streams are the same up to the token with an index,
which is included. -/
structure SameTo (k : Nat) (s s' : Stream) : Prop where
  newline : s'.newline = s.newline
  ahead : s'.ahead.take (k + 1) = s.ahead.take (k + 1)

/-- What is left of a stream behind some tokens. -/
structure Leaves (s : Stream) (k : Nat) (newline : Bool) (next : Stream) :
    Prop where
  ahead : next.ahead = s.ahead.drop k
  textEnd : next.textEnd = s.textEnd
  newline : next.newline = newline

namespace SameTo

theorem mono (h : SameTo (k + j) s s') : SameTo k s s' := by
  refine ⟨h.newline, ?_⟩
  have hahead := congrArg (List.take (k + 1)) h.ahead
  rwa [List.take_take, List.take_take, Nat.min_eq_left (by omega)] at hahead

theorem ahead_nil (h : SameTo k s s') (hahead : s.ahead = []) :
    s'.ahead = [] := by
  simpa [hahead] using h.ahead

theorem exists_cons (h : SameTo k s s') {t : Token} {ts : List Token}
    (hahead : s.ahead = t :: ts) :
    ∃ ts', s'.ahead = t :: ts' ∧ ts'.take k = ts.take k := by
  have htake := h.ahead
  rw [hahead, List.take_succ_cons] at htake
  cases hahead' : s'.ahead with
  | nil => simp [hahead'] at htake
  | cons u us =>
    rw [hahead', List.take_succ_cons] at htake
    obtain ⟨rfl, htail⟩ := List.cons.inj htake
    exact ⟨us, rfl, htail⟩

theorem kind_eq (h : SameTo k s s') : s'.kind = s.kind := by
  cases hahead : s.ahead with
  | nil => rw [kind, kind, hahead, h.ahead_nil hahead]
  | cons t ts =>
    obtain ⟨ts', hahead', -⟩ := h.exists_cons hahead
    rw [kind, kind, hahead, hahead']

/-- Streams that are the same beyond some tokens are the same behind these. -/
theorem leaves (h : SameTo (k + j) s s') (hnext : s.Leaves k newline next)
    (hnext' : s'.Leaves k newline next') : SameTo j next next' := by
  refine ⟨by rw [hnext.newline, hnext'.newline], ?_⟩
  rw [hnext.ahead, hnext'.ahead, List.take_drop, List.take_drop]
  rw [← Nat.add_assoc, h.ahead]

end SameTo

theorem Leaves.rangeAt_eq (h : s.Leaves k newline next) (j : Nat) :
    next.rangeAt j = s.rangeAt (k + j) := by
  simp [rangeAt, h.ahead, h.textEnd]

theorem Leaves.tokenAt_iff (h : s.Leaves k newline next) :
    next.TokenAt j ↔ s.TokenAt (k + j) := by
  simp [TokenAt, h.ahead]

theorem Leaves.trans {last : Stream} {newline' : Bool}
    (h : s.Leaves k newline next) (h' : next.Leaves j newline' last) :
    s.Leaves (k + j) newline' last :=
  ⟨by rw [h'.ahead, h.ahead, List.drop_drop],
    h'.textEnd.trans h.textEnd, h'.newline⟩

/-- Trivia are part of what is passed. -/
theorem leaves_skipTrivia {ts : List Token} (hahead : s.ahead.drop k = ts)
    (behind : List SourceToken) (newline : Bool) :
    s.Leaves (k + (Token.front ts).length) (newline ||
      (Token.front ts).any endsLine)
      (.skipTrivia behind newline s.textEnd ts) := by
  rw [skipTrivia_eq]
  exact ⟨by rw [Token.behindFront_eq_drop, ← hahead, List.drop_drop], rfl, rfl⟩

end Stream

/-! ### Readings that depend on no token behind those they read -/

/-- Some tokens and the one behind them, which is no trivia, settle what
a reading makes of a stream: it passes these tokens, or it fails at the
one behind them. -/
inductive Reading.LocalAt {α : Type} (m : Reading α) (s : Stream) : Prop
  | passes (k : Nat) (a : α) (newline : Bool) (atToken : s.TokenAt k)
      (run : ∀ s', s.SameTo k s' →
        ∃ next, m s' = .ok (a, next) ∧ s'.Leaves k newline next)
  | fails (k : Nat) (cause : SyntaxCause) (atToken : s.TokenAt k)
      (run : ∀ s', s.SameTo k s' → m s' = .error ⟨cause, s'.rangeAt k⟩)

/-- A reading that is local wherever a parser may stand. -/
def Reading.Local {α : Type} (m : Reading α) : Prop :=
  ∀ s, s.TokenAt 0 → m.LocalAt s

namespace Reading

open Lossless.Stream (SameTo Leaves)

variable {α β : Type} {m m' : Reading α} {f : α → Reading β} {s : Stream}

theorem LocalAt.bind (hm : m.LocalAt s)
    (hf : ∀ a next, m s = .ok (a, next) → next.TokenAt 0 → (f a).LocalAt next) :
    (m >>= f).LocalAt s := by
  cases hm with
  | fails k cause atToken run =>
    exact .fails k cause atToken fun s' h => by rw [bind_apply, run s' h]; rfl
  | passes k a newline atToken run =>
    obtain ⟨next, hnext, hleaves⟩ := run s ⟨rfl, rfl⟩
    cases hf a next hnext (hleaves.tokenAt_iff.2 atToken) with
    | passes j b newline' atToken' run' =>
      -- what settles both parts settles the first one, and
      -- behind it the second one
      refine .passes (k + j) b newline' (hleaves.tokenAt_iff.1 atToken')
        fun s' h => ?_
      obtain ⟨next', hnext', hleaves'⟩ := run s' h.mono
      obtain ⟨last, hlast, hleaves''⟩ := run' next' (h.leaves hleaves hleaves')
      exact ⟨last, by rw [bind_apply, hnext', Outcome.ok_bind, hlast],
        hleaves'.trans hleaves''⟩
    | fails j cause atToken' run' =>
      refine .fails (k + j) cause (hleaves.tokenAt_iff.1 atToken')
        fun s' h => ?_
      obtain ⟨next', hnext', hleaves'⟩ := run s' h.mono
      rw [bind_apply, hnext', Outcome.ok_bind,
        run' next' (h.leaves hleaves hleaves'), hleaves'.rangeAt_eq]

/-- Only the next token decides between readings. -/
theorem LocalAt.congr (h : ∀ s', s.SameTo 0 s' → m s' = m' s')
    (hm : m'.LocalAt s) : m.LocalAt s := by
  have hsame {k : Nat} {s' : Stream} (hs' : s.SameTo k s') : s.SameTo 0 s' :=
    SameTo.mono (k := 0) (j := k) (by rwa [Nat.zero_add])
  cases hm with
  | passes k a newline atToken run =>
    exact .passes k a newline atToken fun s' hs' => by
      rw [h s' (hsame hs')]; exact run s' hs'
  | fails k cause atToken run =>
    exact .fails k cause atToken fun s' hs' => by
      rw [h s' (hsame hs')]; exact run s' hs'

theorem Local.bind (hm : m.Local) (hf : ∀ a, (f a).Local) :
    (m >>= f).Local := fun s hs =>
  (hm s hs).bind fun a next _ hnext => hf a next hnext

theorem Local.ite {c : Prop} [Decidable c] (h : m.Local) (h' : m'.Local) :
    (if c then m else m').Local := by
  split
  · exact h
  · exact h'

theorem local_pure (a : α) : (pure a : Reading α).Local := fun s hs =>
  .passes 0 a s.newline hs fun s' h => ⟨s', rfl, rfl, rfl, h.newline⟩

theorem local_kind : kind.Local := fun s hs =>
  .passes 0 s.kind s.newline hs fun s' h =>
    ⟨s', by rw [kind_apply, h.kind_eq], rfl, rfl, h.newline⟩

/-- What follows a look at the kind of the next token may depend on it. -/
theorem LocalAt.kind_bind {f : TokenKind → Reading α} (hs : s.TokenAt 0)
    (h : (f s.kind).LocalAt s) : (kind >>= f).LocalAt s := by
  refine (local_kind s hs).bind fun a next hnext _ => ?_
  cases hnext
  exact h

theorem local_newline : newline.Local := fun s hs =>
  .passes 0 s.newline s.newline hs fun s' h =>
    ⟨s', by rw [newline_apply, h.newline], rfl, rfl, h.newline⟩

theorem local_fail (cause : SyntaxCause) :
    (fail cause : Reading α).Local := fun s hs =>
  .fails 0 cause hs fun s' _ => by
    rw [fail_apply, Stream.error, Stream.range_eq_rangeAt]

theorem local_unexpected (what : String) :
    (unexpected what : Reading α).Local := by
  intro s hs
  cases hahead : s.ahead with
  | nil =>
    refine .fails 0 (.expected what .endOfFile) hs fun s' h => ?_
    rw [unexpected_apply, Stream.unexpected, Stream.error,
      Stream.range_eq_rangeAt, h.ahead_nil hahead]
  | cons t ts =>
    refine .fails 0 (.expected what (.ofToken t)) hs fun s' h => ?_
    obtain ⟨ts', hahead', -⟩ := h.exists_cons hahead
    rw [unexpected_apply, Stream.unexpected, Stream.error,
      Stream.range_eq_rangeAt, hahead']

/-- The trivia at the front of a stream. -/
def skip : Reading Unit :=
  fun s => .ok ((), .skipTrivia s.behind s.newline s.textEnd s.ahead)

/-- Trivia are passed up to the next token wherever a stream is. -/
theorem localAt_skip (s : Stream) : skip.LocalAt s := by
  refine .passes (0 + (Token.front s.ahead).length) ()
    (s.newline || (Token.front s.ahead).any Stream.endsLine) ?_ fun s' h => ?_
  · rw [Nat.zero_add]
    exact Token.notTrivia_of_front s.ahead
  · have hfront : Token.front s'.ahead = Token.front s.ahead :=
      Token.front_eq_of_take (by simpa using h.ahead)
    rw [← hfront, ← h.newline]
    exact ⟨_, rfl, Stream.leaves_skipTrivia rfl s'.behind s'.newline⟩

end Reading

namespace Parser

open Reading
open Lossless.Stream (SameTo Leaves)

variable {α : Type} {s s' : Stream}

theorem size_of_reading {p : Parser α} {a : α} {next : Stream}
    (h : p.reading s = .ok (a, next)) : next.size < s.size := by
  obtain ⟨r, -, hr⟩ := Outcome.bind_eq_ok.1 h
  cases hr
  exact r.shorter

theorem local_expect (kind : TokenKind) (role : Role) :
    (expect kind role).reading.Local := by
  intro s hs
  cases hahead : s.ahead with
  | nil =>
    refine .congr (fun s' h => ?_) (local_unexpected kind.describe s hs)
    simp [expect, accept?_nil kind role (h.ahead_nil hahead)]
  | cons t ts =>
    by_cases ht : t.kind = kind
    · -- the token, the trivia behind it and the token behind these settle where
      -- the stream goes on
      refine .passes (1 + (Token.front ts).length) t
        (false || (Token.front ts).any Stream.endsLine) ?_ fun s' h => ?_
      · rw [Stream.TokenAt, hahead, Nat.add_comm, List.getElem?_cons_succ]
        exact Token.notTrivia_of_front ts
      · obtain ⟨ts', hahead', htake⟩ := h.exists_cons hahead
        have hfront : Token.front ts' = Token.front ts :=
          Token.front_eq_of_take (by rwa [Nat.add_comm] at htake)
        rw [← hfront]
        refine ⟨s'.pass role t ts', by simp [expect,
          accept?_cons kind role hahead', ht], ?_⟩
        exact Stream.leaves_skipTrivia (by rw [hahead']; rfl)
          (⟨role, t⟩ :: s'.behind) false
    · refine .congr (fun s' h => ?_) (local_unexpected kind.describe s hs)
      obtain ⟨ts', hahead', -⟩ := h.exists_cons hahead
      simp [expect, accept?_cons kind role hahead', ht]

theorem local_identifier : identifier.reading.Local := by
  intro s hs
  cases hahead : s.ahead with
  | nil =>
    refine .congr (fun s' h => ?_)
      (local_unexpected TokenKind.identifier.describe s hs)
    have hahead' := h.ahead_nil hahead
    simp [identifier, accept?_nil .identifier .semantic hahead', hahead']
  | cons t ts =>
    by_cases ht : t.kind = .identifier
    · have hname : (do return Ast.identifier (← (expect .identifier
        .semantic).reading).text).Local :=
        (local_expect _ _).bind fun _ => local_pure _
      refine .congr (fun s' h => ?_) (hname s hs)
      obtain ⟨ts', hahead', -⟩ := h.exists_cons hahead
      simp [identifier, expect, accept?_cons _ _ hahead', ht, Read.map]
    · by_cases hword : t.kind.isWord
      · refine .congr (fun s' h => ?_) (local_fail (.reservedName t.text) s hs)
        obtain ⟨ts', hahead', -⟩ := h.exists_cons hahead
        simp [identifier, accept?_cons _ _ hahead', ht, hahead', hword]
      · refine .congr (fun s' h => ?_)
          (local_unexpected TokenKind.identifier.describe s hs)
        obtain ⟨ts', hahead', -⟩ := h.exists_cons hahead
        simp [identifier, accept?_cons _ _ hahead', ht, hahead', hword]

/-- The value of a literal is worked out behind its token, but an error is still
one at the token. -/
theorem local_literal (kind : TokenKind) : (literal kind).reading.Local := by
  intro s hs
  have hexpect : (expect kind .semantic).reading.Local :=
    local_expect kind .semantic
  cases hahead : s.ahead with
  | nil =>
    refine .congr (fun s' h => ?_) (local_unexpected kind.describe s hs)
    simp [literal, expect, accept?_nil kind .semantic (h.ahead_nil hahead)]
  | cons t ts =>
    by_cases ht : t.kind = kind
    · cases hvalue : Literal.value kind t.text with
      | error e =>
        refine .congr (fun s' h => ?_) (local_fail (.literal e) s hs)
        obtain ⟨ts', hahead', -⟩ := h.exists_cons hahead
        simp [literal, expect, accept?_cons _ _ hahead', ht, hvalue]
      | ok value =>
        have hread : (do return Ast.literal value (← (expect kind
          .semantic).reading).text).Local :=
          hexpect.bind fun _ => local_pure _
        refine .congr (fun s' h => ?_) (hread s hs)
        obtain ⟨ts', hahead', -⟩ := h.exists_cons hahead
        simp [literal, expect, accept?_cons _ _ hahead', ht, hvalue, Read.map]
    · refine .congr (fun s' h => ?_) (local_unexpected kind.describe s hs)
      obtain ⟨ts', hahead', -⟩ := h.exists_cons hahead
      simp [literal, expect, accept?_cons _ _ hahead', ht]

theorem local_primary {expression : Parser Ast}
    (hexpression : expression.reading.Local) :
    (primary expression).reading.Local := by
  rw [reading_primary]
  refine local_kind.bind fun kind =>
    .ite local_identifier (.ite (local_literal kind) (.ite ?_ ?_))
  · exact (local_expect _ _).bind fun _ => hexpression.bind fun _ =>
      (local_expect _ _).bind fun _ => local_pure _
  · exact local_unexpected _

theorem local_itemsUntil {stop : TokenKind → Bool} {item : Parser α}
    (hitem : item.reading.Local) (s : Stream) (hs : s.TokenAt 0) :
    (itemsUntil stop item).reading.LocalAt s := by
  rw [reading_itemsUntil]
  refine LocalAt.kind_bind hs ?_
  split
  · exact local_pure _ s hs
  · refine (hitem s hs).bind fun first next hfirst hnext => ?_
    refine (local_itemsUntil hitem next hnext).bind
      fun others last _ hlast => ?_
    exact local_pure _ last hlast
termination_by s.size
decreasing_by exact size_of_reading hfirst

theorem local_separated {item : Parser α} (hitem : item.reading.Local)
    (s : Stream) (hs : s.TokenAt 0) : (separated item).reading.LocalAt s := by
  rw [reading_separated]
  refine (hitem s hs).bind fun first next hfirst hnext =>
    LocalAt.kind_bind hnext ?_
  split
  · refine (local_expect .comma .semantic next hnext).bind
      fun _ next' hcomma hnext' => ?_
    refine (local_separated hitem next' hnext').bind
      fun others last _ hlast => ?_
    exact local_pure _ last hlast
  · exact local_pure _ next hnext
termination_by s.size
decreasing_by
  exact Nat.lt_trans (size_of_reading hcomma) (size_of_reading hfirst)

theorem local_parenthesized {item : Parser α} (hitem : item.reading.Local) :
    (parenthesized item).reading.Local := by
  rw [reading_parenthesized]
  refine (local_expect _ _).bind fun _ => local_kind.bind fun kind => .ite ?_ ?_
  · exact (local_expect _ _).bind fun _ => local_pure _
  · exact Local.bind (local_separated hitem) fun _ =>
      (local_expect _ _).bind fun _ => local_pure _

theorem local_calls {argument : Parser Ast} (hargument : argument.reading.Local)
    (callee : Ast) (s : Stream) (hs : s.TokenAt 0) :
    (calls argument callee).reading.LocalAt s := by
  rw [reading_calls]
  refine LocalAt.kind_bind hs ?_
  split
  · refine (local_parenthesized hargument s hs).bind
      fun arguments next harguments hnext => ?_
    exact local_calls hargument _ next hnext
  · exact local_pure _ s hs
termination_by s.size
decreasing_by exact size_of_reading harguments

/-- By induction on the levels, an expression is read locally. -/
theorem local_expression (levels : Nat) :
    (expression levels).reading.Local := by
  induction levels with
  | zero => exact local_fail .tooDeep
  | succ levels ih =>
    rw [reading_expression]
    exact (local_primary ih).bind fun callee => local_calls ih callee

theorem local_terminator : terminator.reading.Local := by
  rw [reading_terminator]
  refine local_kind.bind fun kind =>
    .ite ?_ (local_newline.bind fun newline => .ite ?_ ?_)
  · exact (local_expect _ _).bind fun _ => local_pure _
  · exact local_pure _
  · exact local_unexpected _

theorem local_returnStatement (levels : Nat) :
    (returnStatement levels).reading.Local := by
  rw [reading_returnStatement]
  refine (local_expect _ _).bind fun _ => local_newline.bind fun newline =>
    local_kind.bind fun kind =>
    .ite ?_ ?_
  · exact local_terminator.bind fun _ => local_pure _
  · exact (local_expression levels).bind fun _ =>
      local_terminator.bind fun _ => local_pure _

theorem local_expressionStatement (levels : Nat) :
    (expressionStatement levels).reading.Local := by
  rw [reading_expressionStatement]
  exact (local_expression levels).bind fun _ =>
    local_terminator.bind fun _ => local_pure _

theorem local_functionDeclaration {body : Parser Ast}
    (hbody : body.reading.Local) :
    (functionDeclaration body).reading.Local := by
  rw [reading_functionDeclaration]
  exact (local_expect _ _).bind fun _ => local_identifier.bind fun _ =>
    (local_parenthesized local_identifier).bind fun _ =>
      hbody.bind fun _ => local_pure _

theorem local_statement (levels : Nat) {block : Bool → Parser Ast}
    (hblock : ∀ b, (block b).reading.Local) (inFunction : Bool) :
    (statement levels block inFunction).reading.Local := by
  rw [reading_statement]
  refine local_kind.bind fun kind => ?_
  split
  · exact local_functionDeclaration (hblock true)
  · exact .ite (local_returnStatement levels) (local_fail _)
  · exact hblock inFunction
  · exact (local_expect _ _).bind fun _ => local_pure _
  · exact local_expressionStatement levels

/-- By induction on the levels, a block is read locally. -/
theorem local_block (levels : Nat) (inFunction : Bool) :
    (block levels inFunction).reading.Local := by
  induction levels generalizing inFunction with
  | zero => exact local_fail .tooDeep
  | succ levels ih =>
    rw [reading_block]
    have hbody := local_statement levels ih inFunction
    exact (local_expect _ _).bind fun _ =>
      Local.bind (local_itemsUntil hbody) fun _ =>
      (local_expect _ _).bind fun _ => local_pure _

theorem local_program : program.reading.Local := by
  rw [reading_program]
  have hitem := local_statement maxNesting (local_block maxNesting) false
  exact Local.bind (local_itemsUntil hitem) fun _ => local_pure _

end Parser

/-! ### Errors of a text -/

namespace Cursor

theorem offset_lt_next {s : Cursor} (hrest : s.rest ≠ []) :
    s.mark.offset < s.next.2.mark.offset := by
  obtain ⟨hstart, hlength, hstop⟩ := s.next_spec
  have hpos : s.next.1.text.utf8ByteSize ≠ 0 := fun h =>
    text_next_ne hrest (String.utf8ByteSize_eq_zero_iff.1 h)
  rw [hlength, Text.Range.length] at hpos
  omega

/-- No token starts where another one does. -/
theorem pairwise_tokens (s : Cursor) :
    s.tokens.Pairwise fun t u => t.span.range.start < u.span.range.start := by
  by_cases hrest : s.rest = []
  · rw [tokens_of_end hrest]
    exact .nil
  · rw [tokens_of_not_end hrest, List.pairwise_cons]
    refine ⟨?_, pairwise_tokens s.next.2⟩
    refine forall_tokens_of_step (s.mark.offset < ·.mark.offset)
      (fun c hc hrest' => ?_) _ (offset_lt_next hrest)
    rw [s.next_spec.1, c.next_spec.1]
    exact ⟨hc, hc.trans (offset_lt_next hrest')⟩
termination_by s.rest.length
decreasing_by exact length_next_lt hrest

/-- The place and the spelling of a token say where the next one starts. -/
theorem next_of_spelled {s s' : Cursor} (hmark : s'.mark = s.mark)
    (hrest : s.rest ≠ []) (hrest' : s'.rest ≠ [])
    (h : s'.next.1.spelled = s.next.1.spelled) :
    s'.next.1 = s.next.1 ∧ s'.next.2.mark = s.next.2.mark := by
  obtain ⟨mark, rest⟩ := s
  obtain ⟨mark', rest'⟩ := s'
  obtain rfl : mark' = mark := hmark
  obtain ⟨c, cs, rfl⟩ := List.exists_cons_of_ne_nil hrest
  obtain ⟨d, ds, rfl⟩ := List.exists_cons_of_ne_nil hrest'
  obtain ⟨hkind, htext⟩ := Prod.mk.inj h
  change (Lexer.lexeme d ds).kind = (Lexer.lexeme c cs).kind at hkind
  have hbody : d :: (Lexer.lexeme d ds).body = c :: (Lexer.lexeme c cs).body :=
    String.ofList_injective htext
  simp only [next, hkind, hbody, and_self]

/-- Tokens that are spelled alike from the same place on are the same,
places included. -/
theorem take_tokens_eq {n : Nat} {s s' : Cursor} (hmark : s'.mark = s.mark)
    (h : (s'.tokens.take n).map Token.spelled =
      (s.tokens.take n).map Token.spelled) :
    s'.tokens.take n = s.tokens.take n := by
  induction n generalizing s s' with
  | zero => rfl
  | succ n ih =>
    by_cases hrest : s.rest = []
    · rw [tokens_of_end hrest] at h ⊢
      simpa using h
    · by_cases hrest' : s'.rest = []
      · rw [tokens_of_end hrest', tokens_of_not_end hrest] at h
        simp at h
      · rw [tokens_of_not_end hrest, tokens_of_not_end hrest'] at h ⊢
        simp only [List.take_succ_cons, List.map_cons, List.cons.injEq] at h ⊢
        obtain ⟨hnext, hmark'⟩ := next_of_spelled hmark hrest hrest' h.1
        exact ⟨hnext, ih hmark' h.2⟩

end Cursor

namespace Stream

/-- All tokens of a text, none of them passed. -/
def ofText (text : String) : Stream :=
  ⟨[], false, tokenize text, text.utf8ByteSize⟩

/-- No two tokens of a text have the same range, and the end of
the text is none. -/
theorem eq_of_rangeAt {text : String} {k i : Nat}
    (hi : i < (tokenize text).length)
    (h : (ofText text).rangeAt k = (tokenize text)[i].span.range) : k = i := by
  have hpairwise :=
    List.pairwise_iff_getElem.1 (Cursor.pairwise_tokens (.ofText text))
  rcases Nat.lt_or_ge k (tokenize text).length with hk | hk
  · have hstart : (tokenize text)[k].span.range.start =
        (tokenize text)[i].span.range.start := by
      rw [← h]
      simp [rangeAt, ofText, hk]
    rcases Nat.lt_trichotomy k i with hlt | heq | hlt
    · exact absurd hstart (hpairwise k i hk hi hlt).ne
    · exact heq
    · exact absurd hstart (hpairwise i k hi hk hlt).ne'
  · -- at the end the range is empty, and no token is
    have hplaced := placedIn_of_tokenize text _ (List.getElem_mem hi)
    have hempty : (tokenize text)[i].span.range.length = 0 := by
      rw [← h]
      simp [rangeAt, ofText, hk, Text.Range.empty, Text.Range.length]
    rw [hplaced.length] at hempty
    exact absurd (String.utf8ByteSize_eq_zero_iff.1 hempty) hplaced.nonempty

end Stream

namespace Program

theorem parse_eq_error_iff {text : String} {e : SyntaxError} :
    parse text = .error e ↔
      (Reading.skip >>= fun _ => Parser.program.reading) (.ofText text) =
        .error e := by
  simp [parse, Stream.ofTokens, Reading.skip, Stream.ofText,
    Outcome.bind_eq_error]

/-- A syntax error is at a token that is no trivia, or at the end of the text.
An error at a token depends on the tokens up to it only: each text with the same
tokens so far has the same error, whatever follows. -/
theorem parse_error_local {text : String} {e : SyntaxError}
    (he : parse text = .error e) :
    (e.range = .empty text.utf8ByteSize ∨ ∃ t ∈ tokenize text,
      t.kind.isTrivia = false ∧ e.range = t.span.range) ∧
      ∀ i (hi : i < (tokenize text).length),
        e.range = (tokenize text)[i].span.range →
        ∀ text', ((tokenize text').take (i + 1)).map Token.spelled =
            ((tokenize text).take (i + 1)).map Token.spelled →
          parse text' = .error e := by
  rw [parse_eq_error_iff] at he
  have hlocal : (Reading.skip >>= fun _ => Parser.program.reading).LocalAt
      (.ofText text) :=
    (Reading.localAt_skip _).bind fun _ next _ hnext =>
      Parser.local_program next hnext
  cases hlocal with
  | passes k a newline atToken run =>
    obtain ⟨next, hnext, -⟩ := run _ ⟨rfl, rfl⟩
    exact nomatch he.symm.trans hnext
  | fails k cause atToken run =>
    obtain rfl := Except.error.inj (he.symm.trans (run _ ⟨rfl, rfl⟩))
    refine ⟨?_, fun i hi hrange text' hsame => ?_⟩
    · rw [Stream.rangeAt]
      cases ht : (Stream.ofText text).ahead[k]? with
      | none => exact .inl rfl
      | some t => exact .inr ⟨t, List.mem_of_getElem? ht, atToken t ht, rfl⟩
    · obtain rfl := Stream.eq_of_rangeAt hi hrange
      have hahead :
          (tokenize text').take (k + 1) = (tokenize text).take (k + 1) :=
        Cursor.take_tokens_eq rfl hsame
      have hsameTo : Stream.SameTo k (.ofText text) (.ofText text') :=
        ⟨rfl, hahead⟩
      have hget : (tokenize text')[k]? = (tokenize text)[k]? := by
        simpa using congrArg (·[k]?) hahead
      have hrangeAt :
          (Stream.ofText text').rangeAt k = (Stream.ofText text).rangeAt k := by
        simp [Stream.rangeAt, Stream.ofText, hget, hi]
      rw [parse_eq_error_iff, run _ hsameTo, hrangeAt]

theorem parse_error_local_sample :
    parse "f(a b);" =
        .error ⟨.expected TokenKind.rightParen.describe (.token "b"), ⟨4, 5⟩⟩ ∧
      parse "f(a b, /* 1" =
        .error ⟨.expected TokenKind.rightParen.describe (.token "b"),
          ⟨4, 5⟩⟩ := by
  have herror : (parse "f(a b);").map (fun _ => ()) =
      .error ⟨.expected TokenKind.rightParen.describe (.token "b"),
        ⟨4, 5⟩⟩ := by decide +kernel
  cases he : parse "f(a b);" with
  | ok p =>
    rw [he] at herror
    cases herror
  | error e =>
    rw [he] at herror
    cases herror
    have hlt : 4 < (tokenize "f(a b);").length := by decide +kernel
    have hrange : ∀ h : 4 < (tokenize "f(a b);").length,
        ⟨4, 5⟩ = (tokenize "f(a b);")[4].span.range := by decide +kernel
    exact ⟨rfl,
      (parse_error_local he).2 4 hlt (hrange hlt) _ (by decide +kernel)⟩

end Program

end Lossless
