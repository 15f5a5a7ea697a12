import Lossless.Proofs.Gauges
import Lossless.Proofs.Readings
import Mathlib.Data.List.Infix

/-!
# The counting parser reads the same

`Tracks` compares one run of the counting parser with what the parser of
programs reads: the results agree, the counters are back where they were,
however the run ends, and what has been logged stays within the levels that are
left. `Follows` says so of a step for every state it can be in; it holds of a
chain of steps where it holds of each (`Follows.bind`), and of a loop that has
as many turns as tokens that matter are ahead (`follows_whileLoop`), since each
turn passes one of them. So the counting parser returns for every text what
`Program.parse` returns (`parser_progress`).
-/

namespace Lossless

/-! ### Tokens that matter -/

namespace Stream

theorem significant_skipTrivia (behind : List SourceToken) (newline : Bool)
    (textEnd : Nat) (ts : List Token) :
    (skipTrivia behind newline textEnd ts).significant =
      ts.countP fun t => !t.kind.isTrivia := by
  fun_induction skipTrivia behind newline textEnd ts with
  | case1 => rfl
  | case2 _ _ t ts htrivia ih =>
    rw [ih, List.countP_cons_of_neg (by simp [htrivia])]
  | case3 => rfl

/-- Passing a token that matters leaves one less of them. -/
theorem significant_pass {s : Stream} {t : Token} {ts : List Token}
    (role : Role) (hahead : s.ahead = t :: ts) (ht : t.kind.isTrivia = false) :
    (s.pass role t ts).significant + 1 = s.significant := by
  rw [pass, significant_skipTrivia, significant, hahead,
    List.countP_cons_of_pos (by simp [ht])]

end Stream

theorem Parser.expect_of_ne {s : Stream} {expected : TokenKind}
    (h : s.kind ≠ expected) (role : Role) :
    Parser.expect expected role s =
      .error (s.unexpected expected.describe) := by
  rw [Parser.expect, Parser.accept?_eq_none h]

/-- The tokens ahead. -/
def Reading.ahead : Reading Stream := fun s => .ok (s, s)

namespace Counting

/-! ### Logs -/

namespace Event

def isOpened : Event → Bool
  | opened _ => true
  | _ => false

def isClosed : Event → Bool
  | closed _ => true
  | _ => false

end Event

/-- How many blocks and expressions have been opened. -/
def openedIn (log : List Event) : Nat := log.countP Event.isOpened

/-- How many blocks and expressions have been closed. -/
def closedIn (log : List Event) : Nat := log.countP Event.isClosed

section

variable (activation : Activation) (log log' : List Event)

@[simp] theorem openedIn_append :
    openedIn (log ++ log') = openedIn log + openedIn log' := List.countP_append

@[simp] theorem closedIn_append :
    closedIn (log ++ log') = closedIn log + closedIn log' := List.countP_append

@[simp] theorem openedIn_opened :
    openedIn (.opened activation :: log) = openedIn log + 1 :=
  List.countP_cons_of_pos rfl

@[simp] theorem closedIn_opened :
    closedIn (.opened activation :: log) = closedIn log :=
  List.countP_cons_of_neg Bool.false_ne_true

@[simp] theorem openedIn_closed :
    openedIn (.closed activation :: log) = openedIn log :=
  List.countP_cons_of_neg Bool.false_ne_true

@[simp] theorem closedIn_closed :
    closedIn (.closed activation :: log) = closedIn log + 1 :=
  List.countP_cons_of_pos rfl

@[simp] theorem openedIn_nil : openedIn [] = 0 := rfl

@[simp] theorem closedIn_nil : closedIn [] = 0 := rfl

end

/-- What is logged by a step that has some levels left. All that it opens it
closes, no more than the levels are open at any moment, and each turn of a loop
has passed a token that matters. -/
structure Within (levels : Nat) (events : List Event) : Prop where
  balanced : openedIn events = closedIn events
  moments : ∀ moment, moment <:+ events →
    closedIn moment ≤ openedIn moment ∧
      openedIn moment ≤ closedIn moment + levels
  progress : ∀ loop before after, .turn loop before after ∈ events →
    after < before

theorem suffix_append_cases {α : Type} {as bs cs : List α}
    (h : cs <:+ as ++ bs) : cs <:+ bs ∨ ∃ as', as' <:+ as ∧ cs = as' ++ bs := by
  induction as with
  | nil => exact .inl h
  | cons a as ih =>
    rcases List.suffix_cons_iff.1 h with rfl | h
    · exact .inr ⟨a :: as, List.suffix_refl _, rfl⟩
    · rcases ih h with h | ⟨as', has', rfl⟩
      · exact .inl h
      · exact .inr ⟨as', has'.trans (List.suffix_cons ..), rfl⟩

namespace Within

variable {levels : Nat} {events events' : List Event}

theorem nil (levels : Nat) : Within levels [] := by
  refine ⟨rfl, fun moment h => ?_, fun _ _ _ h => absurd h List.not_mem_nil⟩
  rw [List.suffix_nil.1 h]
  exact ⟨Nat.le_refl _, Nat.zero_le _⟩

/-- What one step logs behind another. -/
theorem append (h' : Within levels events') (h : Within levels events) :
    Within levels (events' ++ events) := by
  have hbalanced := h.balanced
  refine ⟨?_, fun moment hmoment => ?_, fun loop before after hmem => ?_⟩
  · rw [openedIn_append, closedIn_append, h'.balanced, hbalanced]
  · rcases suffix_append_cases hmoment with hmoment | ⟨moment', hmoment', rfl⟩
    · exact h.moments moment hmoment
    · have hlater := h'.moments moment' hmoment'
      simp only [openedIn_append, closedIn_append]
      omega
  · rcases List.mem_append.1 hmem with hmem | hmem
    · exact h'.progress loop before after hmem
    · exact h.progress loop before after hmem

theorem turn {before after : Nat} (levels : Nat) (loop : Loop)
    (h : after < before) : Within levels [.turn loop before after] := by
  refine ⟨rfl, fun moment hmoment => ?_, fun _ _ _ hmem => ?_⟩
  · rcases List.suffix_cons_iff.1 hmoment with rfl | hmoment
    · exact ⟨Nat.le_refl _, Nat.zero_le _⟩
    · exact (Within.nil levels).moments moment hmoment
  · cases List.mem_singleton.1 hmem
    exact h

/-- A level is taken, and given back. -/
theorem nested (activation : Activation) (h : Within levels events) :
    Within (levels + 1) (.closed activation ::
      (events ++ [.opened activation])) := by
  have hbalanced := h.balanced
  refine ⟨?_, fun moment hmoment => ?_, fun loop before after hmem => ?_⟩
  · simp [hbalanced]
  -- the moment is after all, between, just behind the
  -- opening, or in front of it
  · rcases List.suffix_cons_iff.1 hmoment with rfl | hmoment
    · simp [hbalanced]
    · rcases suffix_append_cases hmoment with hmoment | ⟨moment', hmoment', rfl⟩
      · rcases List.suffix_cons_iff.1 hmoment with rfl | hmoment
        · simp
        · simp [List.suffix_nil.1 hmoment]
      · have hlater := h.moments moment' hmoment'
        simp
        omega
  · simp only [List.mem_cons, List.mem_append, List.not_mem_nil, or_false,
      reduceCtorEq, false_or] at hmem
    exact h.progress loop before after hmem

end Within

/-! ### Runs -/

variable {α β γ : Type} {levels least least' : Nat} {g : Gauge}

/-- What a step leaves behind: the counters are where they were, and what has
been logged stays within the levels that were left. -/
structure Kept (levels : Nat) (g g' : Gauge) : Prop where
  nesting : g'.nesting = g.nesting
  functions : g'.functions = g.functions
  log : ∃ events, g'.log = events ++ g.log ∧ Within levels events

namespace Kept

variable {g g' g'' : Gauge}

theorem refl (levels : Nat) (g : Gauge) : Kept levels g g :=
  ⟨rfl, rfl, [], rfl, .nil levels⟩

theorem trans (h : Kept levels g g') (h' : Kept levels g' g'') :
    Kept levels g g'' := by
  obtain ⟨events, hlog, hwithin⟩ := h.log
  obtain ⟨events', hlog', hwithin'⟩ := h'.log
  refine ⟨h'.nesting.trans h.nesting, h'.functions.trans h.functions,
    events' ++ events, ?_, hwithin'.append hwithin⟩
  rw [hlog', hlog, List.append_assoc]

/-- Behind a start nothing else has been logged. -/
theorem within (h : Kept levels g g') (hstart : g.log = []) :
    Within levels g'.log := by
  obtain ⟨events, hlog, hwithin⟩ := h.log
  rwa [hlog, hstart, List.append_nil]

end Kept

/-- The counting parser does what a parser reads: it refuses the text where that
fails, with the same error, and otherwise it has the same value and is at the
same place, with at least so many tokens that matter passed. Either way the
counters are kept. -/
inductive Tracks (levels least : Nat) (g : Gauge) :
    Except Fault α × Gauge → Except SyntaxError (α × Stream) → Prop
  | ok (a : α) (g' : Gauge) (kept : Kept levels g g')
      (passed : g'.stream.significant + least ≤ g.stream.significant) :
      Tracks levels least g (.ok a, g') (.ok (a, g'.stream))
  | refused (e : SyntaxError) (g' : Gauge) (kept : Kept levels g g') :
      Tracks levels least g (.error (.refused e), g') (.error e)

namespace Tracks

variable {g g' : Gauge} {result : Except Fault α × Gauge}
  {reading : Except SyntaxError (α × Stream)}

/-- A step that changes nothing. -/
theorem stay (levels : Nat) (g : Gauge) (a : α) :
    Tracks levels 0 g (.ok a, g) (.ok (a, g.stream)) :=
  .ok a g (.refl levels g) (Nat.le_refl _)

theorem mono (h : Tracks levels least g result reading) (hle : least' ≤ least) :
    Tracks levels least' g result reading := by
  cases h with
  | ok a g' hkept hpassed => exact .ok a g' hkept (by omega)
  | refused e g' hkept => exact .refused e g' hkept

/-- What is behind a step may be counted with it. -/
theorem behind (h : Tracks levels least' g' result reading)
    (hkept : Kept levels g g')
    (hpassed : g'.stream.significant + least ≤ g.stream.significant) :
    Tracks levels (least + least') g result reading := by
  cases h with
  | ok a g'' hkept' hpassed' => exact .ok a g'' (hkept.trans hkept') (by omega)
  | refused e g'' hkept' => exact .refused e g'' (hkept.trans hkept')

/-- One step after another. -/
theorem bind {x : Gauged α} {y : Reading α} {k : α → Gauged β}
    {k' : α → Reading β} (h : Tracks levels least g (x g) (y g.stream))
    (hk : ∀ a g', Kept levels g g' →
      g'.stream.significant + least ≤ g.stream.significant →
      Tracks levels least' g' (k a g') (k' a g'.stream)) :
    Tracks levels (least + least') g ((x >>= k) g) ((y >>= k') g.stream) := by
  rw [Reading.bind_apply]
  generalize hx : x g = result at h
  generalize y g.stream = reading at h
  cases h with
  | ok a g' hkept hpassed =>
    rw [Stateful.bind_of_ok hx]
    exact (hk a g' hkept hpassed).behind hkept hpassed
  | refused e g' hkept =>
    rw [Stateful.bind_of_error hx]
    exact .refused e g' hkept

end Tracks

/-- What a step may rely on: an upper bound for the tokens that matter, the
levels that are left, and whether it is in a function. -/
structure Scope where
  turns : Nat
  levels : Nat
  inFunction : Bool

structure Scope.Fits (c : Scope) (g : Gauge) : Prop where
  turns : g.stream.significant < c.turns
  levels : g.nesting + c.levels = maxNesting
  functions : 0 < g.functions ↔ c.inFunction = true

/-- A scope still fits where the counters are kept. -/
theorem Scope.Fits.kept {c : Scope} {g' : Gauge} (hfits : c.Fits g)
    (hkept : Kept levels g g')
    (hpassed : g'.stream.significant ≤ g.stream.significant) : c.Fits g' :=
  ⟨Nat.lt_of_le_of_lt hpassed hfits.turns, hkept.nesting ▸ hfits.levels,
    hkept.functions ▸ hfits.functions⟩

/-- Nothing is known of the next token. -/
def anything : TokenKind → Prop := fun _ => True

/-- In a scope, with such a token next, a step of the counting parser does what
a parser reads. -/
def Follows (c : Scope) (next : TokenKind → Prop) (least : Nat) (x : Gauged α)
    (y : Reading α) : Prop :=
  ∀ g, c.Fits g → next g.stream.kind →
    Tracks c.levels least g (x g) (y g.stream)

variable {c : Scope} {next next' : TokenKind → Prop} {expected : TokenKind}
  {x : Gauged α} {y : Reading α}

namespace Follows

theorem pure (a : α) : Follows c next 0 (pure a) (pure a) :=
  fun g _ _ => .stay c.levels g a

theorem refuse (error : Stream → SyntaxError) :
    Follows (α := α) c next least (refuse error) fun s => .error (error s) :=
  fun g _ _ => .refused (error g.stream) g (.refl c.levels g)

theorem unexpected (what : String) :
    Follows (α := α) c next least (Counting.unexpected what)
      (Reading.unexpected what) := refuse _

/-- What is passed need not be counted. -/
theorem weaken (h : Follows c next least x y) : Follows c next 0 x y :=
  fun g hfits hnext => (h g hfits hnext).mono (Nat.zero_le _)

/-- One step after another. Of the tokens that are passed only those of the
first step are counted. -/
theorem bind {k : α → Gauged β} {k' : α → Reading β}
    (h : Follows c next least x y)
    (hk : ∀ a, Follows c anything 0 (k a) (k' a)) :
    Follows c next least (x >>= k) (y >>= k') :=
  fun g hfits hnext => (h g hfits hnext).bind fun a g' hkept hpassed =>
    hk a g' (hfits.kept hkept (by omega)) trivial

theorem ite {p : Prop} [Decidable p] {x' : Gauged α} {y' : Reading α}
    (h : p → Follows c next least x y) (h' : ¬p → Follows c next least x' y') :
    Follows c next least (if p then x else x') (if p then y else y') := by
  split
  · exact h ‹_›
  · exact h' ‹_›

/-- The counting parser looks at the kind of the next token. -/
theorem kind_left {k : TokenKind → Gauged β} {y : Reading β}
    (h : ∀ found, next found → Follows c (· = found) least (k found) y) :
    Follows c next least (kind >>= k) y := by
  intro g hfits hnext
  rw [Stateful.bind_of_ok (show kind g = (.ok g.stream.kind, g) from rfl)]
  exact h g.stream.kind hnext g hfits rfl

theorem kind_right {x : Gauged β} {k : TokenKind → Reading β}
    (h : ∀ found, next found → Follows c (· = found) least x (k found)) :
    Follows c next least x (Reading.kind >>= k) :=
  fun g hfits hnext => h g.stream.kind hnext g hfits rfl

/-- Both look at the kind of the next token. -/
theorem kind {k : TokenKind → Gauged β} {k' : TokenKind → Reading β}
    (h : ∀ found, next found →
      Follows c (· = found) least (k found) (k' found)) :
    Follows c next least (kind >>= k) (Reading.kind >>= k') := by
  refine kind_left fun found hfound => kind_right fun found' hfound' => ?_
  subst hfound'
  exact h found' hfound

theorem newline {k : Bool → Gauged β} {k' : Bool → Reading β}
    (h : ∀ found, Follows c next least (k found) (k' found)) :
    Follows c next least (newline >>= k) (Reading.newline >>= k') := by
  intro g hfits hnext
  rw [Stateful.bind_of_ok (show Counting.newline g =
    (.ok g.stream.newline, g) from rfl)]
  exact h g.stream.newline g hfits hnext

theorem inFunction {k : Bool → Gauged β} {y : Reading β}
    (h : Follows c next least (k c.inFunction) y) :
    Follows c next least (inFunction >>= k) y := by
  intro g hfits hnext
  have hdepth : decide (0 < g.functions) = c.inFunction := by
    rw [Bool.eq_iff_iff, decide_eq_true_iff, hfits.functions]
  rw [Stateful.bind_of_ok (show Counting.inFunction g =
    (.ok c.inFunction, g) by rw [Counting.inFunction, hdepth])]
  exact h g hfits hnext

/-- Both look at the tokens ahead. -/
theorem look {k : Stream → Gauged β} {k' : Stream → Reading β}
    (h : ∀ s, next s.kind → Follows c (· = s.kind) least (k s) (k' s)) :
    Follows c next least (look >>= k) (Reading.ahead >>= k') := by
  intro g hfits hnext
  rw [Stateful.bind_of_ok (show Counting.look g = (.ok g.stream, g) from rfl)]
  exact h g.stream hnext g hfits rfl

/-- A token that matters is passed. -/
theorem bump (expected : TokenKind) {role : Role} {k : String → Gauged β}
    {k' : Token → Reading β}
    (hmatters : expected.isTrivia = false ∧ expected ≠ .endOfFile)
    (h : ∀ t, Follows c anything 0 (k t.text) (k' t)) :
    Follows c (· = expected) 1 (bump role >>= k)
      ((Parser.expect expected role).reading >>= k') := by
  intro g hfits hnext
  obtain ⟨t, ts, hahead⟩ : ∃ t ts, g.stream.ahead = t :: ts := by
    refine List.exists_cons_of_ne_nil fun hahead => hmatters.2 ?_
    rw [← hnext, Stream.kind, hahead]
  have ht : t.kind = expected := by rw [← hnext, Stream.kind, hahead]
  let g' : Gauge := { g with stream := g.stream.pass role t ts }
  have hbump : Counting.bump role g = (.ok t.text, g') := by
    rw [Counting.bump, hahead]
  have hread : (Parser.expect expected role).reading g.stream =
      .ok (t, g.stream.pass role t ts) := by
    rw [Parser.reading_apply, Parser.expect,
      Parser.accept?_cons expected role hahead, if_pos ht]
    rfl
  have hpassed : g'.stream.significant + 1 = g.stream.significant :=
    Stream.significant_pass role hahead (ht ▸ hmatters.1)
  have hkept : Kept c.levels g g' := ⟨rfl, rfl, [], rfl, .nil c.levels⟩
  rw [Stateful.bind_of_ok hbump, Reading.bind_apply, hread]
  exact (h t g' (hfits.kept hkept (by omega)) trivial).behind hkept (by omega)

/-- A token of a kind must come next. -/
theorem expect (expected : TokenKind) {role : Role} {k : String → Gauged β}
    {k' : Token → Reading β}
    (hmatters : expected.isTrivia = false ∧ expected ≠ .endOfFile)
    (h : ∀ t, Follows c anything 0 (k t.text) (k' t)) :
    Follows c next 1 (expect expected role >>= k)
      ((Parser.expect expected role).reading >>= k') := by
  rw [Counting.expect, bind_assoc]
  refine kind_left fun found hfound => ?_
  by_cases hfound : found = expected
  · subst hfound
    rw [if_pos rfl]
    exact bump found hmatters h
  · rw [if_neg hfound]
    intro g hfits hnext
    have hkind : g.stream.kind ≠ expected := fun heq => hfound (hnext ▸ heq)
    rw [Stateful.bind_of_error (show Counting.unexpected expected.describe g =
      (.error (.refused (g.stream.unexpected expected.describe)), g) from rfl),
      Reading.bind_apply, Parser.reading_apply, Parser.expect_of_ne hkind]
    exact .refused _ g (.refl c.levels g)

end Follows

/-! ### Blocks, expressions and functions -/

/-- A step between entering and leaving something, which is left
however the step ends. -/
theorem tracks_guarded {enter leave : Gauged Unit} {g g' : Gauge}
    {levels' : Nat} {reading : Except SyntaxError (α × Stream)}
    (henter : enter g = (.ok (), g')) (hstream : g'.stream = g.stream)
    (h : Tracks levels least g' (x g') reading)
    (hleave : ∀ g₁, Kept levels g' g₁ → ∃ g₂, leave g₁ = (.ok (), g₂) ∧
      g₂.stream = g₁.stream ∧ Kept levels' g g₂) :
    Tracks levels' least g (guarded enter leave x g) reading := by
  rw [guarded, Stateful.bind_of_ok henter]
  generalize hx : x g' = result at h
  cases h with
  | ok a g₁ hkept hpassed =>
    obtain ⟨g₂, hleft, hsame, hkept'⟩ := hleave g₁ hkept
    have hcaught : caught x g' = (.ok (.ok a), g₁) := by rw [caught, hx]
    rw [Stateful.bind_of_ok hcaught, Stateful.bind_of_ok hleft, ← hsame]
    exact .ok a g₂ hkept' (by rwa [hsame, ← hstream])
  | refused e g₁ hkept =>
    obtain ⟨g₂, hleft, -, hkept'⟩ := hleave g₁ hkept
    have hcaught : caught x g' = (.ok (.error e), g₁) := by rw [caught, hx]
    rw [Stateful.bind_of_ok hcaught, Stateful.bind_of_ok hleft]
    exact .refused e g₂ hkept'

namespace Follows

variable {turns : Nat} {inFunction : Bool}

/-- A block or an expression takes one of the levels that are left. -/
theorem nested {activation : Activation}
    (h : Follows ⟨turns, levels, inFunction⟩ next least x y) :
    Follows ⟨turns, levels + 1, inFunction⟩ next least
      (nested activation x) y := by
  intro g hfits hnext
  have hlevels : g.nesting + (levels + 1) = maxNesting := hfits.levels
  let g' : Gauge :=
    { g with nesting := g.nesting + 1, log := .opened activation :: g.log }
  have henter : nest activation g = (.ok (), g') := by
    rw [nest, if_neg (by omega)]
  have hfits' : Scope.Fits ⟨turns, levels, inFunction⟩ g' :=
    ⟨hfits.turns, by rw [← hlevels]; exact Nat.add_right_comm ..,
      hfits.functions⟩
  refine tracks_guarded henter rfl (h g' hfits' hnext) fun g₁ hkept => ?_
  have hopen : g₁.nesting = g.nesting + 1 := hkept.nesting
  obtain ⟨events, hlog, hwithin⟩ := hkept.log
  refine ⟨{ g₁ with
    nesting := g.nesting,
    log := .closed activation :: g₁.log }, by rw [unnest, hopen], rfl, rfl,
    hkept.functions, .closed activation :: (events ++ [.opened activation]), ?_,
    hwithin.nested activation⟩
  simp [hlog, g']

/-- Where no level is left, nothing more is opened. -/
theorem nested_zero {activation : Activation} :
    Follows ⟨turns, 0, inFunction⟩ next least (Counting.nested activation x)
      fun s => .error (s.error .tooDeep) := by
  intro g hfits _
  have hfull : g.nesting = maxNesting := hfits.levels
  have henter :
      nest activation g = (.error (.refused (g.stream.error .tooDeep)), g) := by
    rw [nest, if_pos hfull]
  rw [Counting.nested, guarded, Stateful.bind_of_error henter]
  exact .refused _ g (.refl _ g)

/-- The body of a function is inside a function, and what follows it is where
the function is. -/
theorem inside (h : Follows ⟨turns, levels, true⟩ next least x y) :
    Follows ⟨turns, levels, inFunction⟩ next least (inside x) y := by
  intro g hfits hnext
  have hfits' : Scope.Fits ⟨turns, levels, true⟩ { g with
    functions := g.functions + 1 } :=
    ⟨hfits.turns, hfits.levels, iff_of_true (Nat.succ_pos _) rfl⟩
  refine tracks_guarded rfl rfl (h _ hfits' hnext) fun g₁ hkept => ?_
  have hopen : g₁.functions = g.functions + 1 := hkept.functions
  exact ⟨{ g₁ with functions := g.functions }, by rw [exitFunction, hopen], rfl,
    hkept.nesting, rfl, hkept.log⟩

/-! ### Loops -/

theorem turn (loop : Loop) (h : Follows c next (least + 1) x y) :
    Follows c next (least + 1) (turn loop x) y := by
  intro g hfits hnext
  have htracks := h g hfits hnext
  rw [Counting.turn,
    Stateful.bind_of_ok (show Counting.look g = (.ok g.stream, g) from rfl)]
  generalize hx : x g = result at htracks
  generalize y g.stream = reading at htracks
  cases htracks with
  | ok a g' hkept hpassed =>
    have hless : g'.stream.significant < g.stream.significant := by omega
    obtain ⟨events, hlog, hwithin⟩ := hkept.log
    rw [Stateful.bind_of_ok hx, Stateful.bind_of_ok (show Counting.look g' =
      (.ok g'.stream, g') from rfl)]
    let event : Event := .turn loop g.stream.significant g'.stream.significant
    exact .ok a { g' with log := event :: g'.log }
      ⟨hkept.nesting, hkept.functions, event :: events, congrArg _ hlog,
        (Within.turn c.levels loop hless).append hwithin⟩ hpassed
  | refused e g' hkept =>
    rw [Stateful.bind_of_error hx]
    exact .refused e g' hkept

end Follows

/-- A loop that passes a token in each turn follows what is read one turn at a
time, if there are as many turns as tokens. -/
theorem follows_whileLoop {loop : Loop} {test : TokenKind → Bool}
    {step : α → Gauged α} {after : α → Gauged β}
    (step' : α → Reading α) (exit whole : α → Reading β)
    (hwhole : ∀ a,
      whole a = do if test (← Reading.kind) then whole (← step' a) else exit a)
    (hstep : ∀ a found, test found = true →
      Follows c (· = found) 1 (step a) (step' a))
    (hexit : ∀ a found, test found = false →
      Follows c (· = found) 0 (after a) (exit a)) (a : α) {n : Nat} (g : Gauge)
    (hfits : c.Fits g) (hless : g.stream.significant < n) :
    Tracks c.levels 0 g ((whileLoop loop test step n a >>= after) g)
      (whole a g.stream) := by
  -- on the turns that are left: a turn passes a token that matters, so one less
  -- is enough behind it
  induction n generalizing a g with
  | zero => exact absurd hless (Nat.not_lt_zero _)
  | succ n ih =>
    rw [whileLoop, hwhole, bind_assoc,
      Stateful.bind_of_ok (show kind g = (.ok g.stream.kind, g) from rfl)]
    simp only [Reading.bind_apply, Reading.kind_apply, Outcome.ok_bind]
    cases htest : test g.stream.kind with
    | false =>
      simp only [Bool.false_eq_true, if_false, pure_bind]
      exact hexit a _ htest g hfits rfl
    | true =>
      simp only [if_true, bind_assoc]
      have hturn := (hstep a _ htest).turn loop g hfits rfl
      refine Tracks.mono (hturn.bind fun a' g' hkept hpassed =>
        (?_ : Tracks c.levels 0 g' _ _)) (Nat.zero_le _)
      exact ih a' g' (hfits.kept hkept (by omega)) (by omega)

/-- What is read of a comma, if it is there. -/
def comma : Reading Bool := do
  if (← Reading.kind) = .comma then
    let _ ← (Parser.expect .comma .semantic).reading
    return true
  else return false

theorem follows_comma : Follows c next 0 (eat .comma) comma := by
  rw [eat, comma]
  refine .kind fun found _ => .ite (fun hfound => ?_) fun _ => .pure false
  subst hfound
  exact (Follows.bump .comma (by decide) fun _ => .pure true).weaken

/-- Items with commas between them, behind those that have been read, one
turn at a time. -/
theorem map_separated (p : Parser α) (items : List α) :
    (items ++ ·) <$> (Parser.separated p).reading = (do
    let r ← (do
      let a ← p.reading
      let more ← comma
      return (items ++ [a], more) : Reading (List α × Bool))
    if r.2 then (r.1 ++ ·) <$> (Parser.separated p).reading
    else return r.1) := by
  conv_lhs => rw [Parser.reading_separated]
  rw [comma]
  simp only [map_eq_pure_bind, bind_assoc, pure_bind]
  refine bind_congr fun a => bind_congr fun found => ?_
  split
  · simp only [bind_assoc, pure_bind, if_true, List.append_assoc,
      List.cons_append, List.nil_append]
  · simp only [pure_bind, Bool.false_eq_true, if_false]

theorem follows_commaLoop (loop : Loop) {item : Gauged α} {p : Parser α}
    (hitem : Follows c anything 1 item p.reading) (items : List α) {n : Nat}
    (g : Gauge) (hfits : c.Fits g) (hless : g.stream.significant < n) :
    Tracks c.levels 1 g (commaLoop loop item n items g)
      (((items ++ ·) <$> (Parser.separated p).reading) g.stream) := by
  induction n generalizing items g with
  | zero => exact absurd hless (Nat.not_lt_zero _)
  | succ n ih =>
    rw [commaLoop, map_separated]
    have hstep : Follows c anything 1 (turn loop (do
        let a ← item
        let more ← eat .comma
        return (items ++ [a], more))) (do
          let a ← p.reading
          let more ← comma
          return (items ++ [a], more)) :=
      (hitem.bind fun a => follows_comma.bind fun more =>
        .pure (items ++ [a], more)).turn loop
    refine Tracks.mono ((hstep g hfits trivial).bind fun r g' hkept hpassed =>
      (?_ : Tracks c.levels 0 g' _ _)) (Nat.le_refl _)
    obtain ⟨items', more⟩ := r
    cases more with
    | false => exact .stay c.levels g' items'
    | true =>
      exact (ih items' g' (hfits.kept hkept (by omega)) (by omega)).mono
        (Nat.zero_le _)

theorem parenthesized_bind (p : Parser α) (k : List α → Reading β) :
    ((Parser.parenthesized p).reading >>= k) = (do
    let _ ← (Parser.expect .leftParen .semantic).reading
    if (← Reading.kind) = .rightParen then
      let _ ← (Parser.expect .rightParen .semantic).reading
      k []
    else
      let items ← (Parser.separated p).reading
      let _ ← (Parser.expect .rightParen .semantic).reading
      k items) := by
  rw [Parser.reading_parenthesized]
  simp only [bind_assoc]
  refine bind_congr fun _ => bind_congr fun found => ?_
  by_cases hfound : found = .rightParen <;> simp [hfound]

/-- A list in front of a closing parenthesis, and what stands behind that. -/
theorem follows_commaList {loop : Loop} {item : Gauged α} {p : Parser α}
    {k : List α → Gauged β}
    {k' : List α → Reading β} (hitem : Follows c anything 1 item p.reading)
    (hk : ∀ items, Follows c anything 0 (k items) (k' items)) :
    Follows c next 0 (do
        let items ← commaList loop item c.turns
        let _ ← expect .rightParen .semantic
        k items)
      (do
        if (← Reading.kind) = .rightParen then
          let _ ← (Parser.expect .rightParen .semantic).reading
          k' []
        else
          let items ← (Parser.separated p).reading
          let _ ← (Parser.expect .rightParen .semantic).reading
          k' items) := by
  rw [commaList, bind_assoc]
  refine .kind fun found _ => ?_
  by_cases hfound : found = .rightParen
  · subst hfound
    simp only [if_true, pure_bind]
    exact (Follows.expect .rightParen (by decide) fun _ => hk []).weaken
  · rw [if_neg hfound, if_neg hfound]
    have hitems : Follows c (· = found) 1 (commaLoop loop item c.turns [])
        (Parser.separated p).reading := by
      intro g hfits _
      have hloop := follows_commaLoop loop hitem [] g hfits hfits.turns
      simpa using hloop
    exact (hitems.bind fun items =>
      (Follows.expect .rightParen (by decide) fun _ => hk items).weaken).weaken

/-! ### Expressions -/

theorem reading_identifier : Parser.identifier.reading = (do
    let found ← Reading.kind
    if found = .identifier then
      let t ← (Parser.expect .identifier .semantic).reading
      return .identifier t.text
    else if found.isWord then
      fun s => .error (s.error (.reservedName (match s.ahead with
      | t :: _ => t.text
      | [] => "")))
    else Reading.unexpected TokenKind.identifier.describe) := by
  funext s
  simp only [Parser.reading_apply, Parser.identifier, Reading.bind_apply,
    Reading.kind_apply, Outcome.ok_bind]
  obtain ⟨r, h, haccept, hexpect⟩ | ⟨h, haccept⟩ :=
    Parser.accept?_or .identifier (by decide) .semantic s
  · simp [h, haccept, hexpect, Read.map]
  · simp only [haccept, if_neg h]
    cases hahead : s.ahead with
    | nil =>
      have hkind : s.kind = .endOfFile := by rw [Stream.kind, hahead]
      simp [hkind, TokenKind.isWord]
    | cons t ts =>
      have hkind : s.kind = t.kind := by rw [Stream.kind, hahead]
      by_cases hword : t.kind.isWord = true <;> simp [hkind, hword, hahead]

theorem reading_literal (k : TokenKind) : (Parser.literal k).reading = (do
    let s ← Reading.ahead
    let t ← (Parser.expect k .semantic).reading
    match Literal.value k t.text with
    | .ok value => return .literal value t.text
    | .error error => fun _ => .error (s.error (.literal error))) := by
  funext s
  simp only [Parser.reading_apply, Parser.literal, Reading.bind_apply,
    Reading.ahead, Outcome.ok_bind, bind_assoc]
  refine bind_congr fun r => ?_
  cases Literal.value k r.value.text <;> simp [Read.map]

theorem follows_identifier :
    Follows c next 1 identifier Parser.identifier.reading := by
  rw [identifier, reading_identifier]
  refine .kind fun found _ => .ite (fun hfound => ?_) fun _ =>
    .ite (fun _ => .refuse _) fun _ => .unexpected _
  subst hfound
  exact Follows.bump .identifier (by decide) fun t => .pure _

theorem follows_literal {k : TokenKind} (hk : k.isLiteral = true) :
    Follows c (· = k) 1 (literal k) (Parser.literal k).reading := by
  have hmatters : k.isTrivia = false ∧ k ≠ .endOfFile := by
    revert hk
    cases k <;> decide
  rw [literal, reading_literal]
  refine .look fun s hs => ?_
  rw [hs]
  refine Follows.bump k hmatters fun t => ?_
  cases Literal.value k t.text with
  | ok value => exact .pure _
  | error error => exact .refuse fun _ => s.error (.literal error)

theorem follows_primary {e : Gauged Ast} {p : Parser Ast}
    (he : Follows c anything 1 e p.reading) :
    Follows c next 1 (primary e) (Parser.primary p).reading := by
  rw [primary, Parser.reading_primary]
  refine .kind fun found _ => .ite (fun _ => follows_identifier) fun _ =>
    .ite follows_literal fun _ =>
    .ite (fun hparen => ?_) fun _ => .unexpected _
  subst hparen
  exact Follows.bump .leftParen (by decide) fun _ => (he.bind fun inner =>
    (Follows.expect .rightParen (by decide) fun _ => .pure inner).weaken).weaken

theorem follows_calls {e : Gauged Ast} {p : Parser Ast}
    (he : Follows c anything 1 e p.reading) (callee : Ast) :
    Follows c next 0 (calls e c.turns callee)
      (Parser.calls p callee).reading := by
  intro g hfits _
  rw [calls, ← bind_pure (whileLoop _ _ _ _ _)]
  refine follows_whileLoop (fun callee => do
      let arguments ← (Parser.parenthesized p).reading
      return .callExpression callee arguments)
    pure (fun callee => (Parser.calls p callee).reading) ?_ ?_ ?_ callee g
      hfits hfits.turns
  · intro callee
    rw [Parser.reading_calls]
    refine bind_congr fun found => ?_
    by_cases hfound : found = .leftParen <;> simp [hfound]
  · intro callee found hfound
    obtain rfl : found = .leftParen := of_decide_eq_true hfound
    rw [parenthesized_bind]
    exact Follows.bump .leftParen (by decide) fun _ =>
      follows_commaList he fun arguments => .pure _
  · exact fun callee found _ => .pure callee

theorem follows_expression (turns : Nat) {levels room : Nat}
    (hroom : levels < room) (inFunction : Bool) :
    Follows ⟨turns, levels, inFunction⟩ next 1 (expression turns room)
      (Parser.expression levels).reading := by
  -- on the levels that are left; the room beyond them is for the
  -- expression that is refused
  induction levels generalizing room next with
  | zero =>
    obtain ⟨room, rfl⟩ := Nat.exists_eq_add_of_lt hroom
    exact Follows.nested_zero
  | succ levels ih =>
    obtain ⟨room, rfl⟩ : ∃ room', room = room' + 1 := ⟨room - 1, by omega⟩
    rw [expression, Parser.reading_expression]
    have hinner :
        Follows ⟨turns, levels, inFunction⟩ anything 1 (expression turns room)
          (Parser.expression levels).reading :=
      ih (Nat.lt_of_succ_lt_succ hroom)
    exact ((follows_primary hinner).bind fun callee =>
      follows_calls hinner callee).nested

/-! ### Statements -/

theorem follows_terminator :
    Follows c next 0 terminator Parser.terminator.reading := by
  rw [terminator, Parser.reading_terminator]
  refine .kind fun found _ => .ite (fun hfound => ?_) fun _ =>
    .newline fun newline => .ite (fun _ => .pure ()) fun _ => .unexpected _
  subst hfound
  exact (Follows.bump .semicolon (by decide) fun _ => .pure ()).weaken

theorem follows_returnStatement {e : Gauged Ast} {levels : Nat}
    (he : ∀ next, Follows c next 1 e (Parser.expression levels).reading) :
    Follows c (· = .returnWord) 1 (returnStatement e)
      (Parser.returnStatement levels).reading := by
  rw [returnStatement, Parser.reading_returnStatement]
  refine Follows.bump .returnWord (by decide) fun _ => .newline fun newline =>
    .kind fun found _ =>
    .ite (fun _ => ?_) fun _ => ?_
  · exact follows_terminator.bind fun _ => .pure _
  · exact ((he _).bind fun argument => follows_terminator.bind fun _ =>
      .pure _).weaken

theorem follows_expressionStatement {e : Gauged Ast} {levels : Nat}
    (he : Follows c next 1 e (Parser.expression levels).reading) :
    Follows c next 1 (expressionStatement e)
      (Parser.expressionStatement levels).reading := by
  rw [expressionStatement, Parser.reading_expressionStatement]
  exact he.bind fun value => follows_terminator.bind fun _ => .pure _

theorem follows_functionDeclaration {b : Gauged Ast} {p : Parser Ast}
    (hb : Follows ⟨c.turns, c.levels, true⟩ anything 1 b p.reading) :
    Follows c (· = .functionWord) 1 (functionDeclaration c.turns b)
      (Parser.functionDeclaration p).reading := by
  rw [functionDeclaration, Parser.reading_functionDeclaration]
  refine Follows.bump .functionWord (by decide) fun _ =>
    (follows_identifier.bind fun name => ?_).weaken
  rw [parenthesized_bind]
  refine (Follows.expect .leftParen (by decide) fun _ => ?_).weaken
  refine follows_commaList follows_identifier fun params => ?_
  exact (hb.inside.bind fun body => .pure _).weaken

theorem follows_statement {e b : Gauged Ast} {levels : Nat}
    {p : Bool → Parser Ast}
    (he : ∀ next, Follows c next 1 e (Parser.expression levels).reading)
    (hb : ∀ inFunction next,
      Follows ⟨c.turns, c.levels, inFunction⟩ next 1 b (p inFunction).reading) :
    Follows c next 1 (statement c.turns e b)
      (Parser.statement levels p c.inFunction).reading := by
  rw [statement, Parser.reading_statement]
  refine .kind fun found _ => ?_
  cases found with
  | functionWord => exact follows_functionDeclaration (hb true anything)
  | returnWord =>
    refine .inFunction ?_
    exact .ite (fun _ => follows_returnStatement he) fun _ => .refuse _
  | leftBrace => exact hb c.inFunction _
  | semicolon => exact Follows.bump .semicolon (by decide) fun _ => .pure _
  | _ => exact follows_expressionStatement (he _)

/-- What is read of the statements of a block, behind those that have been read,
and of its closing brace. -/
def blockRest (p : Parser Ast) (body : List Ast) : Reading Ast := do
  let others ← (Parser.itemsUntil
    (fun k => k = .rightBrace || k = .endOfFile) p).reading
  let _ ← (Parser.expect .rightBrace .semantic).reading
  return .blockStatement (body ++ others)

theorem blockRest_eq (p : Parser Ast) (body : List Ast) : blockRest p body = (do
    if decide ((← Reading.kind) ≠ .rightBrace) then
      let body ← (do
        if (← Reading.kind) = .endOfFile then
          Reading.unexpected TokenKind.rightBrace.describe
        else
          let first ← p.reading
          return body ++ [first] : Reading (List Ast))
      blockRest p body
    else
      let _ ← (Parser.expect .rightBrace .semantic).reading
      return .blockStatement body) := by
  funext s
  rw [blockRest, Parser.reading_itemsUntil]
  simp only [Reading.bind_apply, Reading.kind_apply, Outcome.ok_bind,
    Reading.ite_apply]
  by_cases hbrace : s.kind = .rightBrace
  · simp [hbrace]
  · by_cases hend : s.kind = .endOfFile
    · simp [hend, Parser.expect_of_ne hbrace]
    · simp [hbrace, hend, blockRest]

theorem follows_blockBody {statement : Gauged Ast} {p : Parser Ast}
    (hstatement : ∀ next, Follows c next 1 statement p.reading) :
    Follows c next 1 (blockBody c.turns statement) (do
      let _ ← (Parser.expect .leftBrace .semantic).reading
      let body ← (Parser.itemsUntil
        (fun k => k = .rightBrace || k = .endOfFile) p).reading
      let _ ← (Parser.expect .rightBrace .semantic).reading
      return .blockStatement body) := by
  rw [blockBody]
  refine Follows.expect .leftBrace (by decide) fun _ => fun g hfits _ => ?_
  refine follows_whileLoop (fun body => do
      if (← Reading.kind) = .endOfFile then
        Reading.unexpected TokenKind.rightBrace.describe
      else
        let first ← p.reading
        return body ++ [first])
    (fun body => do
      let _ ← (Parser.expect .rightBrace .semantic).reading
      return .blockStatement body)
    (blockRest p) (blockRest_eq p) ?_ ?_ [] g hfits hfits.turns
  · intro body found _
    exact .kind fun found _ => .ite (fun _ => .unexpected _) fun _ =>
      (hstatement _).bind fun first => .pure _
  · intro body found hfound
    obtain rfl : found = .rightBrace := by simpa using hfound
    exact (Follows.bump .rightBrace (by decide) fun _ =>
      .pure (Ast.blockStatement body)).weaken

theorem follows_block (turns : Nat) {levels room : Nat} (hroom : levels < room)
    (inFunction : Bool) :
    Follows ⟨turns, levels, inFunction⟩ next 1 (block turns room)
      (Parser.block levels inFunction).reading := by
  induction levels generalizing room next inFunction with
  | zero =>
    obtain ⟨room, rfl⟩ := Nat.exists_eq_add_of_lt hroom
    exact Follows.nested_zero
  | succ levels ih =>
    obtain ⟨room, rfl⟩ : ∃ room', room = room' + 1 := ⟨room - 1, by omega⟩
    have hless : levels < room := Nat.lt_of_succ_lt_succ hroom
    rw [block, Parser.reading_block]
    refine Follows.nested (follows_blockBody (c := ⟨turns, levels, inFunction⟩)
      fun next => ?_)
    exact follows_statement (c := ⟨turns, levels, inFunction⟩)
      (fun next => follows_expression turns hless inFunction)
      fun inFunction' next => ih hless inFunction'

/-- What is read of the statements of a program, behind those that
have been read. -/
def programRest (p : Parser Ast) (body : List Ast) : Reading Ast := do
  let others ← (Parser.itemsUntil (· = .endOfFile) p).reading
  return .program (body ++ others)

theorem programRest_eq (p : Parser Ast) (body : List Ast) :
    programRest p body = (do
    if decide ((← Reading.kind) ≠ .endOfFile) then
      let body ← (do
        let first ← p.reading
        return body ++ [first] : Reading (List Ast))
      programRest p body
    else return .program body) := by
  rw [programRest, Parser.reading_itemsUntil, bind_assoc]
  refine bind_congr fun found => ?_
  by_cases hend : found = .endOfFile <;> simp [hend, programRest]

theorem follows_program (turns room : Nat) (hroom : maxNesting < room) :
    Follows ⟨turns, maxNesting, false⟩ anything 0
      (program turns room) Parser.program.reading := by
  intro g hfits _
  rw [program, Parser.reading_program]
  refine follows_whileLoop (c := ⟨turns, maxNesting, false⟩)
    (fun body => do
      let first ← (Parser.statement maxNesting
        (Parser.block maxNesting) false).reading
      return body ++ [first])
    (fun body => pure (.program body))
    (programRest (Parser.statement maxNesting (Parser.block maxNesting) false))
      (programRest_eq _) ?_ ?_ [] g hfits
    hfits.turns
  · intro body found _
    refine (follows_statement (c := ⟨turns, maxNesting, false⟩)
      (fun next => follows_expression turns hroom false)
      fun inFunction next => follows_block turns hroom inFunction).bind
      fun first => .pure _
  · exact fun body found _ => .pure _

theorem parse_eq (text : String) :
    Program.parse text =
        Parser.program.reading (.ofTokens (tokenize text) text.utf8ByteSize) >>=
      fun r => .ok ⟨r.1, r.2.tokens⟩ := by
  rw [Program.parse, OptionalParser.reading_apply, bind_assoc]
  rfl

/-- The counting parser returns for every text what `Program.parse` returns, if
it gets as many turns as the text has tokens and room for all levels. So no
counter goes below zero, and no loop or recursion goes on for longer. However
the parser ends, both counters are back at zero; each turn that a loop has taken
has passed a token that matters; and at any moment at most as many blocks and
expressions are open as there are levels. -/
theorem parser_progress (text : String) (moreTurns moreRoom : Nat) :
    let (result, g) := run ((tokenize text).length + 1 + moreTurns)
      (maxNesting + 1 + moreRoom) text
    (match Program.parse text with
      | .ok p => result = .ok p.ast ∧ g.stream.tokens = p.tokens
      | .error e => result = .error (.refused e)) ∧
    g.nesting = 0 ∧ g.functions = 0 ∧
    (∀ loop before after, .turn loop before after ∈ g.log → after < before) ∧
    ∀ moment, moment <:+ g.log →
      closedIn moment ≤ openedIn moment ∧
        openedIn moment ≤ closedIn moment + maxNesting := by
  have hstart :
      Scope.Fits ⟨(tokenize text).length + 1 + moreTurns, maxNesting, false⟩
        ⟨.ofTokens (tokenize text) text.utf8ByteSize, 0, 0, []⟩ := by
    refine ⟨?_, Nat.zero_add _, by simp⟩
    have hcount :
        (Stream.ofTokens (tokenize text) text.utf8ByteSize).significant ≤
          (tokenize text).length := by
      rw [Stream.ofTokens, Stream.significant_skipTrivia]
      exact List.countP_le_length
    change (Stream.ofTokens (tokenize text) text.utf8ByteSize).significant <
      (tokenize text).length + 1 + moreTurns
    omega
  have htracks : Tracks maxNesting 0
      ⟨.ofTokens (tokenize text) text.utf8ByteSize, 0, 0, []⟩
      (run ((tokenize text).length + 1 + moreTurns)
        (maxNesting + 1 + moreRoom) text)
      (Parser.program.reading (.ofTokens (tokenize text) text.utf8ByteSize)) :=
    follows_program _ _ (by omega) _ hstart trivial
  rw [parse_eq]
  generalize run ((tokenize text).length + 1 + moreTurns)
    (maxNesting + 1 + moreRoom) text = result at htracks ⊢
  generalize Parser.program.reading
    (.ofTokens (tokenize text) text.utf8ByteSize) = reading at htracks ⊢
  cases htracks with
  | ok a g hkept _ =>
    have hwithin := hkept.within rfl
    exact ⟨⟨rfl, rfl⟩, hkept.nesting, hkept.functions, hwithin.progress,
      hwithin.moments⟩
  | refused e g hkept =>
    have hwithin := hkept.within rfl
    exact ⟨rfl, hkept.nesting, hkept.functions, hwithin.progress,
      hwithin.moments⟩

example :
    (run 5 257 "f(a)").2.log =
      [.turn .statements 4 0, .closed .expression, .turn .calls 3 0,
        .turn .arguments 2 1, .closed .expression, .opened .expression,
        .opened .expression] := by
  decide +kernel

end Counting

end Lossless
