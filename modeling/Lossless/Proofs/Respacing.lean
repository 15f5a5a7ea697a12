import Lossless.Proofs.Grammatical

/-!
# Programs with other trivia

Two texts with the same tokens, trivia apart, are respaced (`Respaced`) when
every line that ends between two tokens of the first text ends there in the
second one as well, and between a return and what follows it lines end in both
or in neither. A parser that goes through both at once sees the same kinds
everywhere, and a line that is new can only end a statement that has come to its
end anyway (`Parser.Steady`). So where the first text is a program the second
one is, with the same tree and the same roles (`exists_parse_of_respaced`).
-/

namespace Lossless

/-! ### Tokens that are no trivia -/

namespace Token

/-- The tokens that are no trivia. -/
def significant (ts : List Token) : List Token := ts.filter (!·.kind.isTrivia)

/-- The runs of trivia in front of, between and behind the other tokens. -/
def gaps (ts : List Token) : List (List Token) := ts.splitOnP (!·.kind.isTrivia)

/-- Whether a line ends in the gap behind the token with an
index, trivia apart. -/
def breaksAfter (ts : List Token) (i : Nat) : Bool :=
  ((gaps ts)[i + 1]?.getD []).any Stream.endsLine

/-- What a token is and how it is spelled. -/
def spelled (t : Token) : TokenKind × String := (t.kind, t.text)

/-- Two lists hold the same tokens with other trivia. Lines that end between two
tokens of the first list do so in the second one, and behind a return also the
other way round. -/
structure Respaced (ts us : List Token) : Prop where
  same : (significant ts).map spelled = (significant us).map spelled
  breaks : ∀ i, i < (significant ts).length - 1 → breaksAfter ts i = true →
    breaksAfter us i = true
  returns : ∀ i, (h : i < (significant ts).length - 1) →
    (significant ts)[i].kind = .returnWord → breaksAfter us i = breaksAfter ts i

instance (ts us : List Token) : Decidable (Respaced ts us) :=
  decidable_of_iff
    ((significant ts).map spelled = (significant us).map spelled ∧
      (∀ i, i < (significant ts).length - 1 → breaksAfter ts i = true →
        breaksAfter us i = true) ∧ ∀ i, (h : i < (significant ts).length - 1) →
        (significant ts)[i].kind = .returnWord →
        breaksAfter us i = breaksAfter ts i)
    ⟨fun ⟨same, breaks, returns⟩ => ⟨same, breaks, returns⟩,
      fun ⟨same, breaks, returns⟩ => ⟨same, breaks, returns⟩⟩

/-- The trivia in front of the first other token. -/
def front (ts : List Token) : List Token := ts.takeWhile (·.kind.isTrivia)

/-- What follows the trivia in front of the first other token. -/
def behindFront (ts : List Token) : List Token := ts.dropWhile (·.kind.isTrivia)

section

variable {t : Token} (ts : List Token)

theorem front_cons (ht : t.kind.isTrivia = false) : front (t :: ts) = [] := by
  simp [front, ht]

theorem front_cons_trivia (ht : t.kind.isTrivia = true) :
    front (t :: ts) = t :: front ts := by
  simp [front, ht]

theorem behindFront_cons (ht : t.kind.isTrivia = false) :
    behindFront (t :: ts) = t :: ts := by
  simp [behindFront, ht]

theorem behindFront_cons_trivia (ht : t.kind.isTrivia = true) :
    behindFront (t :: ts) = behindFront ts := by
  simp [behindFront, ht]

theorem significant_cons (ht : t.kind.isTrivia = false) :
    significant (t :: ts) = t :: significant ts := by
  simp [significant, ht]

theorem significant_cons_trivia (ht : t.kind.isTrivia = true) :
    significant (t :: ts) = significant ts := by
  simp [significant, ht]

theorem gaps_cons (ht : t.kind.isTrivia = false) :
    gaps (t :: ts) = [] :: gaps ts := by
  simp [gaps, List.splitOnP_cons_eq_if_modifyHead, ht]

theorem gaps_cons_trivia (ht : t.kind.isTrivia = true) :
    gaps (t :: ts) = (gaps ts).modifyHead (t :: ·) := by
  simp [gaps, List.splitOnP_cons_eq_if_modifyHead, ht]

/-- The first gap is the one in front of all tokens. -/
theorem head?_gaps : (gaps ts).head? = some (front ts) := by
  induction ts with
  | nil => rfl
  | cons t ts ih =>
    cases ht : t.kind.isTrivia with
    | true => rw [gaps_cons_trivia ts ht, List.head?_modifyHead, ih,
      front_cons_trivia ts ht, Option.map_some]
    | false => rw [gaps_cons ts ht, front_cons ts ht, List.head?_cons]

theorem breaksAfter_cons_zero (ht : t.kind.isTrivia = false) :
    breaksAfter (t :: ts) 0 = (front ts).any Stream.endsLine := by
  rw [breaksAfter, gaps_cons ts ht, List.getElem?_cons_succ,
    ← List.head?_eq_getElem?, head?_gaps, Option.getD_some]

theorem breaksAfter_cons_succ (ht : t.kind.isTrivia = false) (i : Nat) :
    breaksAfter (t :: ts) (i + 1) = breaksAfter ts i := by
  rw [breaksAfter, gaps_cons ts ht, List.getElem?_cons_succ, breaksAfter]

theorem breaksAfter_cons_trivia (ht : t.kind.isTrivia = true) (i : Nat) :
    breaksAfter (t :: ts) i = breaksAfter ts i := by
  rw [breaksAfter, gaps_cons_trivia ts ht, List.getElem?_modifyHead,
    if_neg (Nat.succ_ne_zero i), breaksAfter]

/-- Trivia in front of all tokens lie in no gap between them. -/
theorem significant_behindFront :
    significant (behindFront ts) = significant ts := by
  induction ts with
  | nil => rfl
  | cons t ts ih =>
    cases ht : t.kind.isTrivia with
    | true => rw [behindFront_cons_trivia ts ht, ih,
      significant_cons_trivia ts ht]
    | false => rw [behindFront_cons ts ht]

theorem breaksAfter_behindFront (i : Nat) :
    breaksAfter (behindFront ts) i = breaksAfter ts i := by
  induction ts with
  | nil => rfl
  | cons t ts ih =>
    cases ht : t.kind.isTrivia with
    | true => rw [behindFront_cons_trivia ts ht, ih,
      breaksAfter_cons_trivia ts ht]
    | false => rw [behindFront_cons ts ht]

theorem notTrivia_behindFront :
    ∀ t ∈ (behindFront ts).head?, t.kind.isTrivia = false := by
  induction ts with
  | nil => exact nofun
  | cons t ts ih =>
    cases ht : t.kind.isTrivia with
    | true =>
      rw [behindFront_cons_trivia ts ht]
      exact ih
    | false =>
      rw [behindFront_cons ts ht]
      rintro _ ⟨⟩
      exact ht

end

namespace Respaced

variable {t u : Token} {ts us : List Token}

theorem behindFront (h : Respaced ts us) :
    Respaced (behindFront ts) (behindFront us) := by
  constructor <;> simp only [significant_behindFront, breaksAfter_behindFront]
  · exact h.same
  · exact h.breaks
  · exact h.returns

theorem spelled_eq (h : Respaced (t :: ts) (u :: us))
    (ht : t.kind.isTrivia = false) (hu : u.kind.isTrivia = false) :
    t.spelled = u.spelled := by
  have hsame := h.same
  rw [significant_cons ts ht, significant_cons us hu] at hsame
  exact (List.cons.inj hsame).1

theorem tail (h : Respaced (t :: ts) (u :: us)) (ht : t.kind.isTrivia = false)
    (hu : u.kind.isTrivia = false) : Respaced ts us := by
  obtain ⟨hsame, hbreaks, hreturns⟩ := h
  simp only [significant_cons ts ht, significant_cons us hu]
    at hsame hbreaks hreturns
  have hlength {i : Nat} (hi : i < (significant ts).length - 1) :
      i + 1 < (t :: significant ts).length - 1 := Nat.add_lt_of_lt_sub hi
  refine ⟨(List.cons.inj hsame).2, fun i hi => ?_, fun i hi => ?_⟩
  · have h := hbreaks (i + 1) (hlength hi)
    rwa [breaksAfter_cons_succ ts ht, breaksAfter_cons_succ us hu] at h
  · have h := hreturns (i + 1) (hlength hi)
    rwa [breaksAfter_cons_succ ts ht, breaksAfter_cons_succ us hu] at h

end Respaced

end Token

/-- What a parser makes of the tokens that are no trivia. -/
def SourceToken.marked (ts : List SourceToken) :
    List (Role × TokenKind × String) :=
  (ts.filter (!·.token.kind.isTrivia)).map fun t => (t.role, t.token.spelled)

namespace SourceToken

theorem marked_append (ts us : List SourceToken) :
    marked (ts ++ us) = marked ts ++ marked us := by
  rw [marked, List.filter_append, List.map_append, marked, marked]

theorem marked_reverse (ts : List SourceToken) :
    marked ts.reverse = (marked ts).reverse := by
  rw [marked, List.filter_reverse, List.map_reverse, marked]

theorem marked_cons {t : SourceToken} (ht : t.token.kind.isTrivia = false)
    (ts : List SourceToken) :
    marked (t :: ts) = (t.role, t.token.spelled) :: marked ts := by
  simp [marked, ht]

/-- Extras that are all no trivia or left out are known by how
they are spelled. -/
theorem marked_extras (ts : List Token) : marked (ts.map (⟨.extra, ·⟩)) =
    ((Token.significant ts).map Token.spelled).map (Role.extra, ·) := by
  rw [marked, List.filter_map, Token.significant, List.map_map, List.map_map]
  rfl

end SourceToken

/-! ### Two streams side by side -/

namespace Stream

open Token (Respaced)
open SourceToken (marked)

/-- Two parsers stand at the same token, trivia apart, and have given
the same roles. -/
structure Alike (s s' : Stream) : Prop where
  ahead : Respaced s.ahead s'.ahead
  atToken : ∀ t ∈ s.ahead.head?, t.kind.isTrivia = false
  atToken' : ∀ t ∈ s'.ahead.head?, t.kind.isTrivia = false
  behind : marked s.behind = marked s'.behind

/-- Two parsers stand behind the same token: where a line ends for the first
one, it does for the other. -/
structure InStep (s s' : Stream) : Prop extends Alike s s' where
  line : s.ahead ≠ [] → s.newline = true → s'.newline = true

theorem skipTrivia_eq (behind : List SourceToken) (newline : Bool)
    (textEnd : Nat) (ts : List Token) :
    skipTrivia behind newline textEnd ts =
      ⟨((Token.front ts).map (⟨.extra, ·⟩)).reverse ++ behind,
        newline || (Token.front ts).any endsLine,
        Token.behindFront ts, textEnd⟩ := by
  fun_induction skipTrivia behind newline textEnd ts with
  | case1 => simp [Token.front, Token.behindFront]
  | case2 behind newline t ts ht ih =>
    rw [ih, Token.front_cons_trivia ts ht, Token.behindFront_cons_trivia ts ht]
    simp [Bool.or_assoc]
  | case3 behind newline t ts ht =>
    have ht : t.kind.isTrivia = false := Bool.eq_false_iff.2 ht
    simp [Token.front_cons ts ht, Token.behindFront_cons ts ht]

theorem marked_front (ts : List Token) :
    marked ((Token.front ts).map (⟨.extra, ·⟩)).reverse = [] := by
  have hall : ∀ t ∈ Token.front ts, t.kind.isTrivia = true := fun t ht =>
    List.all_eq_true.1 List.all_takeWhile t ht
  rw [SourceToken.marked_reverse, SourceToken.marked_extras, Token.significant,
    List.filter_eq_nil_iff.2 fun t ht => by simp [hall t ht]]
  rfl

theorem alike_skipTrivia {ts us : List Token}
    {behind behind' : List SourceToken} (h : Respaced ts us)
    (hbehind : marked behind = marked behind') (newline newline' : Bool)
    (textEnd textEnd' : Nat) :
    Alike (skipTrivia behind newline textEnd ts)
      (skipTrivia behind' newline' textEnd' us) := by
  rw [skipTrivia_eq, skipTrivia_eq]
  refine ⟨h.behindFront, Token.notTrivia_behindFront ts,
    Token.notTrivia_behindFront us, ?_⟩
  rw [SourceToken.marked_append, SourceToken.marked_append, marked_front,
    marked_front, hbehind]

theorem Alike.exists_or {s s' : Stream} (h : Alike s s') :
    s.ahead = [] ∧ s'.ahead = [] ∨
      ∃ t ts u us, s.ahead = t :: ts ∧
        s'.ahead = u :: us ∧ t.spelled = u.spelled := by
  obtain ⟨hahead, ht, hu, -⟩ := h
  generalize s.ahead = ts at hahead ht
  generalize s'.ahead = us at hahead hu
  cases ts with
  | nil =>
    cases us with
    | nil => exact .inl ⟨rfl, rfl⟩
    | cons u us =>
      have hsame := hahead.same
      rw [Token.significant_cons us (hu u rfl)] at hsame
      exact nomatch hsame
  | cons t ts =>
    cases us with
    | nil =>
      have hsame := hahead.same
      rw [Token.significant_cons ts (ht t rfl)] at hsame
      exact nomatch hsame
    | cons u us => exact .inr ⟨t, ts, u, us, rfl, rfl,
      hahead.spelled_eq (ht t rfl) (hu u rfl)⟩

theorem Alike.kind_eq {s s' : Stream} (h : Alike s s') : s.kind = s'.kind := by
  rcases h.exists_or with ⟨hs, hs'⟩ | ⟨t, ts, u, us, hs, hs', hsame⟩
  · rw [kind, kind, hs, hs']
  · rw [kind, kind, hs, hs']
    exact congrArg Prod.fst hsame

section

variable {s s' : Stream} {t u : Token} {ts us : List Token}

theorem ahead_pass (s : Stream) (role : Role) (t : Token) (ts : List Token) :
    (s.pass role t ts).ahead = Token.behindFront ts := by
  rw [pass, skipTrivia_eq]

theorem newline_pass (ht : t.kind.isTrivia = false) (role : Role) :
    (s.pass role t ts).newline = Token.breaksAfter (t :: ts) 0 := by
  rw [pass, skipTrivia_eq, Token.breaksAfter_cons_zero ts ht]
  exact Bool.false_or _

/-- There is a gap behind a token that others follow. -/
theorem lt_length_of_pass (ht : t.kind.isTrivia = false) {role : Role}
    (h : (s.pass role t ts).ahead ≠ []) :
    0 < (Token.significant (t :: ts)).length - 1 := by
  rw [ahead_pass] at h
  rw [Token.significant_cons ts ht, List.length_cons,
    ← Token.significant_behindFront]
  obtain ⟨u, us, hu⟩ := List.exists_cons_of_ne_nil h
  have hfront : u.kind.isTrivia = false :=
    Token.notTrivia_behindFront ts u (by rw [hu]; rfl)
  rw [hu, Token.significant_cons us hfront]
  exact Nat.succ_pos _

variable (h : Alike s s') (hs : s.ahead = t :: ts) (hs' : s'.ahead = u :: us)
  (role : Role)

include h hs hs'

/-- Passing the same token in the same role leads behind it in both streams. -/
theorem Alike.inStep_pass : InStep (s.pass role t ts) (s'.pass role u us) := by
  obtain ⟨hahead, ht, hu, hbehind⟩ := h
  rw [hs] at hahead ht
  rw [hs'] at hahead hu
  have ht := ht t rfl
  have hu := hu u rfl
  have hmarked :
      marked (⟨role, t⟩ :: s.behind) = marked (⟨role, u⟩ :: s'.behind) := by
    rw [SourceToken.marked_cons ht, SourceToken.marked_cons hu,
      hahead.spelled_eq ht hu, hbehind]
  refine ⟨alike_skipTrivia (hahead.tail ht hu) hmarked _ _ _ _, fun hne => ?_⟩
  rw [newline_pass ht, newline_pass hu]
  exact hahead.breaks 0 (lt_length_of_pass ht hne)

/-- Behind a return a line ends in both streams or in neither. -/
theorem Alike.newline_pass (hreturn : t.kind = .returnWord)
    (hne : (s.pass role t ts).ahead ≠ []) :
    (s'.pass role u us).newline = (s.pass role t ts).newline := by
  obtain ⟨hahead, ht, hu, -⟩ := h
  rw [hs] at hahead ht
  rw [hs'] at hahead hu
  have ht := ht t rfl
  rw [Stream.newline_pass ht, Stream.newline_pass (hu u rfl)]
  refine hahead.returns 0 (lt_length_of_pass ht hne) ?_
  simp only [Token.significant_cons ts ht, List.getElem_cons_zero]
  exact hreturn

end

end Stream

/-! ### Two parsers side by side -/

section

variable {α : Type} {s s' : Stream}

/-- Two tokens that were read are the same, and so is what comes behind them. -/
structure Read.Matches (r : Read Token s) (r' : Read Token s') : Prop where
  spelled : r.value.spelled = r'.value.spelled
  next : r.next.InStep r'.next
  returns : r.value.kind = .returnWord → r.next.ahead ≠ [] →
    r'.next.newline = r.next.newline

theorem Read.Matches.text_eq {r : Read Token s} {r' : Read Token s'}
    (h : r.Matches r') : r.value.text = r'.value.text :=
  congrArg Prod.snd h.spelled

/-- Two parts that were read have the same value and end behind
the same token. -/
structure Read.Agrees (r : Read α s) (r' : Read α s') : Prop where
  value : r.value = r'.value
  next : r.next.InStep r'.next

/-- Two parts that may be empty have the same value and end behind
the same token. -/
structure Reach.Agrees (r : Reach α s) (r' : Reach α s') : Prop where
  value : r.value = r'.value
  next : r.next.InStep r'.next

end

namespace Parser

open Outcome (CarriesTo)
open Lossless.Stream (Alike InStep)

variable {α : Type} {s s' : Stream}

/-- A parser that reads a part of the first of two streams that are alike reads
the same of the other. -/
def Steady (p : Parser α) : Prop := ∀ s s', Alike s s' →
  CarriesTo (p s) (p s') Read.Agrees

theorem accept?_nil (kind : TokenKind) (role : Role) (hs : s.ahead = []) :
    accept? kind role s = none := by
  rw [accept?]
  split
  · rename_i hahead
    cases hahead.symm.trans hs
  · rfl

theorem accept?_cons (kind : TokenKind) (role : Role) {t : Token}
    {ts : List Token} (hs : s.ahead = t :: ts) :
    accept? kind role s =
      if t.kind = kind then some ⟨t, s.pass role t ts, s.size_pass_lt role hs⟩
        else none := by
  rw [accept?]
  split
  · rename_i hahead
    cases hahead.symm.trans hs
    rfl
  · rename_i hahead
    cases hahead.symm.trans hs

/-- A token is accepted in both of two streams that are alike or in neither. -/
theorem accept?_of_alike (h : Alike s s') (kind : TokenKind) (role : Role) :
    accept? kind role s = none ∧ accept? kind role s' = none ∨
      ∃ r r', accept? kind role s = some r ∧
        accept? kind role s' = some r' ∧ r.Matches r' := by
  rcases h.exists_or with ⟨hs, hs'⟩ | ⟨t, ts, u, us, hs, hs', hsame⟩
  · exact .inl ⟨accept?_nil kind role hs, accept?_nil kind role hs'⟩
  · rw [accept?_cons kind role hs, accept?_cons kind role hs']
    have hkind : t.kind = u.kind := congrArg Prod.fst hsame
    by_cases ht : t.kind = kind
    · rw [if_pos ht, if_pos (hkind.symm.trans ht)]
      exact .inr ⟨_, _, rfl, rfl, hsame, h.inStep_pass hs hs' role,
        h.newline_pass hs hs' role⟩
    · rw [if_neg ht, if_neg fun hu => ht (hkind.trans hu)]
      exact .inl ⟨rfl, rfl⟩

theorem expect_of_alike (h : Alike s s') (kind : TokenKind) (role : Role) :
    CarriesTo (expect kind role s) (expect kind role s') Read.Matches := by
  rcases accept?_of_alike h kind role with ⟨hs, -⟩ | ⟨r, r', hr, hr', hmatches⟩
  · rw [expect, hs]
    exact .of_error _
  · rw [expect, expect, hr, hr']
    exact .of_ok hmatches

theorem steady_identifier : Steady identifier := by
  intro s s' h
  rcases accept?_of_alike h .identifier .semantic with ⟨hs, -⟩ |
    ⟨r, r', hr, hr', hmatches⟩
  · rw [identifier, hs]
    dsimp only
    split
    · split <;> exact .of_error _
    · exact .of_error _
  · rw [identifier, identifier, hr, hr']
    exact .of_ok ⟨congrArg Ast.identifier hmatches.text_eq, hmatches.next⟩

theorem steady_literal (kind : TokenKind) : Steady (literal kind) := by
  intro s s' h
  refine (expect_of_alike h kind .semantic).bind fun r r' hmatches => ?_
  rw [← hmatches.text_eq]
  cases Literal.value kind r.value.text with
  | error e => exact .of_error _
  | ok value =>
    exact .of_ok ⟨congrArg (Ast.literal value) hmatches.text_eq, hmatches.next⟩

theorem steady_primary {expression : Parser Ast}
    (hexpression : Steady expression) : Steady (primary expression) := by
  intro s s' h
  rw [primary, primary, ← h.kind_eq]
  refine .ite Iff.rfl (fun _ => steady_identifier s s' h) fun _ =>
    .ite Iff.rfl (fun _ => steady_literal s.kind s s' h) fun _ =>
      .ite Iff.rfl (fun _ => ?_) fun _ => .of_error _
  refine (expect_of_alike h _ _).bind fun opening opening' hopening => ?_
  refine (hexpression _ _ hopening.next.toAlike).bind
    fun inner inner' hinner => ?_
  refine (expect_of_alike hinner.next.toAlike _ _).bind
    fun closing closing' hclosing => ?_
  exact .of_ok ⟨hinner.value, hclosing.next⟩

/-! ### Lists -/

theorem itemsUntil_of_alike {stop : TokenKind → Bool} {item : Parser α}
    (hitem : Steady item) (s s' : Stream) (h : Alike s s') :
    CarriesTo (itemsUntil stop item s) (itemsUntil stop item s')
      fun r r' => r.value = r'.value ∧ Alike r.next r'.next := by
  rw [itemsUntil, itemsUntil, ← h.kind_eq]
  refine .ite Iff.rfl (fun _ => .of_ok ⟨rfl, h⟩) fun _ => ?_
  refine (hitem s s' h).bind fun first first' hfirst => ?_
  refine (itemsUntil_of_alike hitem _ _ hfirst.next.toAlike).bind
    fun others others' hothers => ?_
  exact .of_ok ⟨congrArg₂ _ hfirst.value hothers.1, hothers.2⟩
termination_by s.size
decreasing_by exact first.shorter

theorem steady_separated {item : Parser α} (hitem : Steady item) (s s' : Stream)
    (h : Alike s s') :
    CarriesTo (separated item s) (separated item s') Read.Agrees := by
  rw [separated, separated]
  refine (hitem s s' h).bind fun first first' hfirst => ?_
  rcases accept?_of_alike hfirst.next.toAlike .comma .semantic with
    ⟨hnone, hnone'⟩ | ⟨comma, comma', hcomma, hcomma', hmatches⟩
  · rw [hnone, hnone']
    exact .of_ok ⟨congrArg (fun a => [a]) hfirst.value, hfirst.next⟩
  · rw [hcomma, hcomma']
    refine (steady_separated hitem _ _ hmatches.next.toAlike).bind
      fun others others' hothers => ?_
    exact .of_ok ⟨congrArg₂ _ hfirst.value hothers.value, hothers.next⟩
termination_by s.size
decreasing_by exact Nat.lt_trans comma.shorter first.shorter

theorem steady_parenthesized {item : Parser α} (hitem : Steady item) :
    Steady (parenthesized item) := by
  intro s s' h
  refine (expect_of_alike h _ _).bind fun opening opening' hopening => ?_
  rw [← hopening.next.kind_eq]
  refine .ite Iff.rfl (fun _ => ?_) fun _ => ?_
  · refine (expect_of_alike hopening.next.toAlike _ _).bind
      fun closing closing' hclosing => ?_
    exact .of_ok ⟨rfl, hclosing.next⟩
  · refine (steady_separated hitem _ _ hopening.next.toAlike).bind
      fun items items' hitems => ?_
    refine (expect_of_alike hitems.next.toAlike _ _).bind
      fun closing closing' hclosing => ?_
    exact .of_ok ⟨hitems.value, hclosing.next⟩

/-! ### Expressions and statements -/

theorem calls_of_inStep {argument : Parser Ast} (hargument : Steady argument)
    (callee : Ast) (s s' : Stream) (h : InStep s s') :
    CarriesTo (calls argument callee s)
      (calls argument callee s') Reach.Agrees := by
  rw [calls, calls, ← h.kind_eq]
  refine .ite Iff.rfl (fun _ => ?_) fun _ => .of_ok ⟨rfl, h⟩
  refine (steady_parenthesized hargument s s' h.toAlike).bind
    fun arguments arguments' harguments => ?_
  rw [← harguments.value]
  refine (calls_of_inStep hargument _ _ _ harguments.next).bind
    fun chain chain' hchain => ?_
  exact .of_ok ⟨hchain.value, hchain.next⟩
termination_by s.size
decreasing_by exact arguments.shorter

/-- By induction on the levels, an expression is read alike. -/
theorem steady_expression (levels : Nat) : Steady (expression levels) := by
  induction levels with
  | zero => exact fun s s' _ => .of_error _
  | succ levels ih =>
    intro s s' h
    refine (steady_primary ih s s' h).bind fun callee callee' hcallee => ?_
    rw [← hcallee.value]
    refine (calls_of_inStep ih _ _ _ hcallee.next).bind
      fun chain chain' hchain => ?_
    exact .of_ok ⟨hchain.value, hchain.next⟩

/-- A statement that may end in the first stream may end in the second one: new
lines only add places where it may. -/
theorem terminator_of_inStep (h : InStep s s') :
    CarriesTo (terminator s) (terminator s') Reach.Agrees := by
  rcases accept?_of_alike h.toAlike .semicolon .extra with ⟨hs, hs'⟩ |
    ⟨r, r', hr, hr', hmatches⟩
  · intro r hr
    rw [terminator, hs] at hr
    dsimp only at hr
    split at hr
    · rename_i hends
      have hends' :
          s'.kind = .rightBrace ∨ s'.kind = .endOfFile ∨ s'.newline = true := by
        rw [← h.kind_eq]
        rcases hends with hbrace | hend | hline
        · exact .inl hbrace
        · exact .inr (.inl hend)
        · -- at the end of the text no line is needed
          by_cases hahead : s.ahead = []
          · exact .inr (.inl (by rw [Stream.kind, hahead]))
          · exact .inr (.inr (h.line hahead hline))
      rw [terminator, hs', ← Except.ok.inj hr]
      dsimp only
      rw [if_pos hends']
      exact ⟨_, rfl, rfl, h⟩
    · cases hr
  · rw [terminator, terminator, hr, hr']
    exact .of_ok ⟨rfl, hmatches.next⟩

/-- A return finds its argument in both streams or in neither. -/
theorem steady_returnStatement (levels : Nat) :
    Steady (returnStatement levels) := by
  intro s s' h
  rw [returnStatement, returnStatement]
  intro r hr
  obtain ⟨word, hword, hr⟩ := Outcome.bind_eq_ok.1 hr
  obtain ⟨word', hword', hmatches⟩ :=
    expect_of_alike h .returnWord .semantic word hword
  have hkind : word.next.kind = word'.next.kind := hmatches.next.toAlike.kind_eq
  rw [hword', Outcome.ok_bind]
  -- at the end of the text there is no argument, wherever lines end
  have hbare :
      (word.next.newline = true ∨ (!word.next.kind.startsExpression) = true) ↔
        (word'.next.newline = true ∨
          (!word'.next.kind.startsExpression) = true) := by
    rw [← hkind]
    by_cases hahead : word.next.ahead = []
    · have hend : word.next.kind = .endOfFile := by rw [Stream.kind, hahead]
      rw [hend]
      exact iff_of_true (.inr rfl) (.inr rfl)
    · rw [hmatches.returns (expect_eq_ok hword).1 hahead]
  refine CarriesTo.ite hbare (fun _ => ?_) (fun _ => ?_) r hr
  · refine (terminator_of_inStep hmatches.next).bind
      fun ending ending' hending => ?_
    exact .of_ok ⟨rfl, hending.next⟩
  · refine (steady_expression levels _ _ hmatches.next.toAlike).bind
      fun argument argument' hargument => ?_
    refine (terminator_of_inStep hargument.next).bind
      fun ending ending' hending => ?_
    exact .of_ok ⟨congrArg
      (fun t => Ast.returnStatement (some t)) hargument.value, hending.next⟩

theorem steady_expressionStatement (levels : Nat) :
    Steady (expressionStatement levels) := by
  intro s s' h
  refine (steady_expression levels s s' h).bind fun value value' hvalue => ?_
  refine (terminator_of_inStep hvalue.next).bind
    fun ending ending' hending => ?_
  exact .of_ok ⟨congrArg Ast.expressionStatement hvalue.value, hending.next⟩

theorem steady_functionDeclaration {body : Parser Ast} (hbody : Steady body) :
    Steady (functionDeclaration body) := by
  intro s s' h
  refine (expect_of_alike h _ _).bind fun word word' hword => ?_
  refine (steady_identifier _ _ hword.next.toAlike).bind
    fun name name' hname => ?_
  refine (steady_parenthesized steady_identifier _ _ hname.next.toAlike).bind
    fun params params' hparams => ?_
  refine (hbody _ _ hparams.next.toAlike).bind fun block block' hblock => ?_
  refine .of_ok ⟨?_, hblock.next⟩
  change Ast.functionDeclaration name.value params.value block.value =
    .functionDeclaration name'.value params'.value block'.value
  rw [hname.value, hparams.value, hblock.value]

theorem steady_statement (levels : Nat) {block : Bool → Parser Ast}
    (hblock : ∀ b, Steady (block b)) (inFunction : Bool) :
    Steady (statement levels block inFunction) := by
  intro s s' h
  rw [statement, statement, ← h.kind_eq]
  split
  · exact steady_functionDeclaration (hblock true) s s' h
  · exact .ite Iff.rfl (fun _ => steady_returnStatement levels s s' h) fun _ =>
      .of_error _
  · exact hblock inFunction s s' h
  · refine (expect_of_alike h _ _).bind fun mark mark' hmark => ?_
    exact .of_ok ⟨rfl, hmark.next⟩
  · exact steady_expressionStatement levels s s' h

/-- By induction on the levels, a block is read alike. -/
theorem steady_block (levels : Nat) (inFunction : Bool) :
    Steady (block levels inFunction) := by
  induction levels generalizing inFunction with
  | zero => exact fun s s' _ => .of_error _
  | succ levels ih =>
    intro s s' h
    refine (expect_of_alike h _ _).bind fun opening opening' hopening => ?_
    refine (itemsUntil_of_alike
      (steady_statement levels ih inFunction) _ _ hopening.next.toAlike).bind
      fun body body' hbody => ?_
    refine (expect_of_alike hbody.2 _ _).bind
      fun closing closing' hclosing => ?_
    exact .of_ok ⟨congrArg Ast.blockStatement hbody.1, hclosing.next⟩

theorem program_of_alike (h : Alike s s') :
    CarriesTo (program s) (program s') fun r r' => r.value = r'.value ∧
      Alike r.next r'.next := by
  have hitem := steady_statement maxNesting (steady_block maxNesting) false
  refine (itemsUntil_of_alike hitem s s' h).bind fun body body' hbody => ?_
  exact .of_ok ⟨congrArg Ast.program hbody.1, hbody.2⟩

end Parser

/-! ### Programs -/

namespace Program

open SourceToken (marked)

theorem marked_tokens {s s' : Stream} (h : s.Alike s') :
    marked s.tokens = marked s'.tokens := by
  rw [Stream.tokens, Stream.tokens, SourceToken.marked_append,
    SourceToken.marked_append, SourceToken.marked_reverse,
    SourceToken.marked_reverse, h.behind, SourceToken.marked_extras,
    SourceToken.marked_extras, h.ahead.same]

/-- A program stays the same program when its tokens are respaced: the other
text is read as well, its tree is the same one, and each token that is no trivia
has the same role. -/
theorem exists_parse_of_respaced {text text' : String} {p : Program}
    (hp : parse text = .ok p)
    (h : Token.Respaced (tokenize text) (tokenize text')) :
    ∃ q, parse text' = .ok q ∧ q.ast = p.ast ∧ q.ast.equal p.ast = true ∧
      marked q.tokens = marked p.tokens := by
  have halike :=
    Stream.alike_skipTrivia h (@rfl _ (marked [])) false false text.utf8ByteSize
      text'.utf8ByteSize
  obtain ⟨body, hbody, hp'⟩ := Outcome.bind_eq_ok.1 hp
  obtain ⟨body', hbody', hvalue, hnext⟩ :=
    Parser.program_of_alike halike body hbody
  have hast : p.ast = body'.value := by rw [← Except.ok.inj hp', hvalue]
  refine ⟨⟨body'.value, body'.next.tokens⟩, ?_, hast.symm, ?_, ?_⟩
  · rw [parse, Stream.ofTokens, hbody', Outcome.ok_bind]
  · change body'.value.equal p.ast = true
    rw [← hast]
    exact equal_self_of_parse hp
  · rw [← Except.ok.inj hp']
    exact (marked_tokens hnext).symm

/-- Comments, lines and blanks change, also behind a return; the parentheses
around `a` and the semicolon stay. -/
theorem exists_parse_of_respaced_sample :
    ∃ p q, parse "function f(a) \x7b return (a)\n\x7d\nf(1) ;" = .ok p ∧
      Token.Respaced (tokenize "function f(a) \x7b return (a)\n\x7d\nf(1) ;")
        (tokenize
          "function\nf ( a )\x7breturn/* a */(a)/*\n*/\x7d // b\r\nf(\n1);") ∧
      parse "function\nf ( a )\x7breturn/* a */(a)/*\n*/\x7d // b\r\nf(\n1);" =
        .ok q ∧ q.ast = p.ast ∧
      q.ast.equal p.ast = true ∧ marked q.tokens = marked p.tokens := by
  have hok : (parse "function f(a) \x7b return (a)\n\x7d\nf(1) ;").isOk =
      true := by decide +kernel
  obtain ⟨p, hp⟩ := Outcome.exists_of_isOk hok
  have h : Token.Respaced
      (tokenize "function f(a) \x7b return (a)\n\x7d\nf(1) ;")
      (tokenize
        "function\nf ( a )\x7breturn/* a */(a)/*\n*/\x7d // b\r\nf(\n1);") := by
    decide +kernel
  obtain ⟨q, hq, hsame⟩ := exists_parse_of_respaced hp h
  exact ⟨p, q, hp, h, hq, hsame⟩

end Program

end Lossless
