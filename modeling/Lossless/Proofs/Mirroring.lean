import Lossless.Proofs.Loop
import Lossless.Proofs.Shell

/-!
# The loop beside the recursion

Where a recursion builds a child, the loop pushes a frame, and comes back to the
frame around it some turns later. `Mirrors` says of a moment of the loop and a
step of the recursion that the loop gets to where the step leads, or fails as
the step fails, and which frames it opens on the way. It is put together as the
steps are (`Mirrors.bind`), also within a turn, where the loop and the recursion
have the gaps and the tokens in common.
-/

namespace Lossless

namespace Cst

namespace Loop

open Build (Context Frame Handed Child Parts VirtualBuilder)

variable {i : Input} {α ρ σ : Type}

/-! ### What filling leaves alone -/

/-- What stays as it is while a frame is filled. -/
def base (f : Frame) : Owner × Schedule := (f.owner, f.schedule)

theorem schedule_of_base {f f' : Frame} (h : base f' = base f) :
    f'.schedule = f.schedule := congrArg Prod.snd h

theorem owner_of_base {f f' : Frame} (h : base f' = base f) :
    f'.owner = f.owner := congrArg Prod.fst h

theorem base_gap {c : Context} {f f' : Frame} {right : Element}
    {handed : Option Handed} {tokens rest : List SourceToken}
    (h : Build.gap c f right tokens = .ok (f', handed, rest)) :
    base f' = base f := by
  have hstored := (Build.gap_eq_ok h).2
  rw [base, hstored.owner_eq, hstored.schedule_eq, base]

theorem base_token {c : Context} {f f' : Frame} {e : Element} {text : String}
    {tokens rest : List SourceToken}
    (h : Build.token c f e text tokens = .ok (f', rest)) :
    base f' = base f := by
  obtain ⟨f₁, handed, t, hgap, -, rfl⟩ := Build.token_eq_ok h
  exact (base_gap hgap :)

theorem base_fillItems {c : Context} {f f' : Frame} {slot index : Nat}
    {field : String} {separator : Option String} {children : List Child}
    {tokens rest : List SourceToken}
    (h : Build.fillItems c slot field separator index f tokens children =
      .ok (f', rest)) : base f' = base f := by
  induction children generalizing index f tokens with
  | nil =>
    cases Except.ok.inj h
    rfl
  | cons child children ih =>
    obtain ⟨f₁, tokens₁, f₂, handed, tokens₂, item, tokens₃, hseparated, hgap,
      -, hitems⟩ :=
      Build.fillItems_cons_eq_ok h
    have hfirst : base f₁ = base f := by
      cases hseparated with
      | nothing => rfl
      | token _ _ pass => exact base_token pass
    have hothers : base f' = base f₂ := (ih hitems :)
    rw [hothers, base_gap hgap, hfirst]

theorem base_fills {c : Context} {p : Parts} {virtual : VirtualBuilder}
    {index : Nat} {slot : Slot} {f f' : Frame} {tokens rest : List SourceToken}
    (h : Build.Fills c p virtual index f tokens slot f' rest) :
    base f' = base f := by
  cases h with
  | extras | implied | absent => rfl
  | token pass => exact base_token pass
  | scalar _ pass => exact (base_token pass :)
  | child _ _ before => exact (base_gap before :)
  | list _ items => exact (base_fillItems items :)
  | virtual before => exact (base_gap before :)

theorem base_fillSlots {c : Context} {p : Parts} {virtual : VirtualBuilder}
    {index : Nat} {slots : Schedule} {f f' : Frame}
    {tokens rest : List SourceToken}
    (h : Build.fillSlots c p virtual index f tokens slots = .ok (f', rest)) :
    base f' = base f := by
  induction slots generalizing index f tokens with
  | nil =>
    cases Except.ok.inj h
    rfl
  | cons slot slots ih =>
    obtain ⟨f₁, tokens₁, hslot, hslots⟩ := Build.fillSlots_cons_eq_ok h
    rw [ih hslots, base_fills hslot]

/-! ### Moments and steps -/

/-- The loop gets from one moment to another. -/
def Reaches (i : Input) (moment moment' : Moment) : Prop :=
  ∃ turns, (next i)^[turns] moment = moment'

theorem Reaches.refl (moment : Moment) : Reaches i moment moment := ⟨0, rfl⟩

theorem Reaches.turn {moment moment' : Moment}
    (h : Reaches i (next i moment) moment') : Reaches i moment moment' := by
  obtain ⟨turns, h⟩ := h
  exact ⟨turns + 1, h⟩

theorem Reaches.trans {moment moment' moment'' : Moment}
    (h : Reaches i moment moment') (h' : Reaches i moment' moment'') :
    Reaches i moment moment'' := by
  obtain ⟨turns, rfl⟩ := h
  obtain ⟨turns', rfl⟩ := h'
  exact ⟨turns' + turns, Function.iterate_add_apply ..⟩

/-- What a step of the recursion leads to, as the loop has it: where it goes on,
and the tokens ahead. -/
abbrev Landing (ρ : Type) := ρ → (State ⊕ Cst) × List SourceToken

/-- From a moment on, with some frames opened before, the loop does what a
step does. If the step succeeds, the loop gets to where it leads and opens the
given frames; if it fails, the loop fails with the same error and opens some
of them at most. -/
def Mirrors (i : Input) (opened : List (Owner × Ast)) (moment : Moment)
    (step : Except CstError ρ) (lands : Landing ρ)
    (fs : List (Owner × Ast)) : Prop :=
  match step with
  | .ok a =>
    ∃ meter, Reaches i moment (.ok (lands a).1, meter) ∧
      i.tokens.drop meter.position = (lands a).2 ∧
      meter.opened.Perm (fs ++ opened)
  | .error e =>
    ∃ meter, Reaches i moment (.error e, meter) ∧
      meter.opened.Subperm (fs ++ opened)

namespace Mirrors

variable {opened fs fs' : List (Owner × Ast)} {moment : Moment} {meter : Meter}
  {step : Except CstError ρ} {lands : Landing ρ} {lands' : Landing σ}

/-- The loop is where the step leads. -/
theorem here {a : ρ} {reached : State ⊕ Cst} (hstate : reached = (lands a).1)
    (hrest : i.tokens.drop meter.position = (lands a).2) :
    Mirrors i meter.opened (.ok reached, meter) (.ok a) lands [] :=
  ⟨meter, hstate ▸ .refl _, hrest, .refl _⟩

/-- The loop fails as the step does. -/
theorem failed (meter : Meter) (e : CstError) (lands : Landing ρ)
    (fs : List (Owner × Ast)) :
    Mirrors i meter.opened (.error e, meter) (.error e) lands fs :=
  ⟨meter, .refl _, (List.sublist_append_right ..).subperm⟩

/-- What holds of a moment that the loop gets to holds of the moments before. -/
theorem of_reaches {moment' : Moment} (hreach : Reaches i moment moment')
    (h : Mirrors i opened moment' step lands fs) :
    Mirrors i opened moment step lands fs := by
  cases step with
  | ok a =>
    obtain ⟨meter, hreach', hrest⟩ := h
    exact ⟨meter, hreach.trans hreach', hrest⟩
  | error e =>
    obtain ⟨meter, hreach', hopened⟩ := h
    exact ⟨meter, hreach.trans hreach', hopened⟩

theorem turn (h : Mirrors i opened (next i moment) step lands fs) :
    Mirrors i opened moment step lands fs :=
  h.of_reaches (Reaches.refl _).turn

/-- Frames may be counted with those opened before. -/
theorem rebase {opened' : List (Owner × Ast)}
    (h : Mirrors i opened' moment step lands fs')
    (hcount : (fs' ++ opened').Perm (fs ++ opened)) :
    Mirrors i opened moment step lands fs := by
  cases step with
  | ok a =>
    obtain ⟨meter, hreach, hrest, hopened⟩ := h
    exact ⟨meter, hreach, hrest, hopened.trans hcount⟩
  | error e =>
    obtain ⟨meter, hreach, hopened⟩ := h
    exact ⟨meter, hreach, hopened.trans hcount.subperm⟩

/-- The frames of a step may be counted otherwise; where it fails, there may
be more of them. -/
theorem recount (h : Mirrors i opened moment step lands fs)
    (hsub : fs.Subperm fs') (hperm : ∀ a, step = .ok a → fs.Perm fs') :
    Mirrors i opened moment step lands fs' := by
  cases step with
  | ok a =>
    obtain ⟨meter, hreach, hrest, hopened⟩ := h
    exact ⟨meter, hreach, hrest, hopened.trans ((hperm a rfl).append_right _)⟩
  | error e =>
    obtain ⟨meter, hreach, hopened⟩ := h
    exact ⟨meter, hreach, hopened.trans ((List.subperm_append_right _).2 hsub)⟩

/-- One step after another. -/
theorem bind {k : ρ → Except CstError σ}
    (h : Mirrors i opened moment step lands fs)
    (hk : ∀ a meter, step = .ok a → i.tokens.drop meter.position = (lands a).2 →
      Mirrors i meter.opened (.ok (lands a).1, meter) (k a) lands' fs') :
    Mirrors i opened moment (step >>= k) lands' (fs ++ fs') := by
  cases step with
  | error e =>
    obtain ⟨meter, hreach, hopened⟩ := h
    exact ⟨meter, hreach, hopened.trans
      ((List.subperm_append_right _).2 (List.sublist_append_left ..).subperm)⟩
  | ok a =>
    obtain ⟨meter, hreach, hrest, hopened⟩ := h
    refine ((hk a meter rfl hrest).rebase ?_).of_reaches hreach
    rw [List.append_assoc]
    refine (hopened.append_left fs').trans ?_
    rw [← List.append_assoc, ← List.append_assoc]
    exact List.perm_append_comm.append_right _

end Mirrors

/-! ### Within a turn -/

section Within

variable {meter : Meter} {lands : Landing ρ} {fs : List (Owner × Ast)}

theorem mirrors_lift {x : Except CstError α} {k : α → Metered (State ⊕ Cst)}
    {k' : α → Except CstError ρ}
    (hk : ∀ a, x = .ok a → Mirrors i meter.opened (k a meter) (k' a) lands fs) :
    Mirrors i meter.opened ((Metered.lift x >>= k) meter)
      (x >>= k') lands fs := by
  cases x with
  | error e =>
    rw [Stateful.bind_of_error (Metered.lift_apply ..)]
    exact .failed _ e lands fs
  | ok a =>
    rw [Stateful.bind_of_ok (Metered.lift_apply ..)]
    exact hk a rfl

theorem mirrors_gap {f : Frame} {right : Element}
    {k : Frame × Option Handed → Metered (State ⊕ Cst)}
    {k' : Frame × Option Handed × List SourceToken → Except CstError ρ}
    (hk : ∀ f' handed meter', base f' = base f →
      Mirrors i meter'.opened (k (f', handed) meter') (k' (f', handed,
        i.tokens.drop meter'.position)) lands fs) :
    Mirrors i meter.opened ((gap i f right >>= k) meter)
      (Build.gap i.context f right (i.tokens.drop meter.position) >>=
        k') lands fs := by
  let meter' : Meter :=
    { meter with position := behindExtras i.tokens meter.position }
  cases hgap : Build.gap i.context f right (i.tokens.drop meter.position) with
  | error e =>
    have hmoves : gap i f right meter = (.error e, meter') := by
      rw [gap, hgap]; rfl
    rw [Stateful.bind_of_error hmoves]
    exact .failed meter' e lands fs
  | ok stored =>
    obtain ⟨f', handed, rest⟩ := stored
    have hrest := (Build.gap_eq_ok hgap).1
    have hmoves : gap i f right meter = (.ok (f', handed), meter') := by
      rw [gap, hgap]; rfl
    rw [Stateful.bind_of_ok hmoves, Outcome.ok_bind, hrest, ← drop_behindExtras]
    exact hk f' handed meter' (base_gap hgap)

theorem mirrors_token {f : Frame} {e : Element} {text : String}
    {k : Frame → Metered (State ⊕ Cst)}
    {k' : Frame × List SourceToken → Except CstError ρ}
    (hk : ∀ f' meter', base f' = base f → Mirrors i meter'.opened (k f' meter')
      (k' (f', i.tokens.drop meter'.position)) lands fs) :
    Mirrors i meter.opened ((token i f e text >>= k) meter)
      (Build.token i.context f e text (i.tokens.drop meter.position) >>=
        k') lands fs := by
  rw [token, Build.token]
  simp only [bind_assoc, pure_bind]
  refine mirrors_gap fun f' handed meter' hbase => ?_
  cases ht : i.tokens[meter'.position]? with
  | none =>
    have hrest : i.tokens.drop meter'.position = [] :=
      List.drop_eq_nil_of_le (List.getElem?_eq_none_iff.1 ht)
    have htake : take i text meter' =
        (.error (Build.mismatch i.context.streamEnd (.text text) []),
          meter') := by
      rw [take, ht, hrest]
    rw [Stateful.bind_of_error htake, hrest]
    exact .failed _ _ lands fs
  | some t =>
    obtain ⟨hlt, rfl⟩ := List.getElem?_eq_some_iff.1 ht
    have hrest := List.drop_eq_getElem_cons hlt
    by_cases htext : i.tokens[meter'.position].text = text
    · have htake : take i text meter' =
          (.ok (), { meter' with position := meter'.position + 1 }) := by
        rw [take, ht]
        simp only [if_pos htext]
      rw [Stateful.bind_of_ok htake, hrest]
      simp only [if_pos htext, Outcome.ok_bind]
      exact hk (f'.pass e) { meter' with position := meter'.position + 1 } hbase
    · have htake : take i text meter' =
          (.error (Build.mismatch i.context.streamEnd (.text text)
            (i.tokens.drop meter'.position)), meter') := by
        rw [take, ht]
        simp only [if_neg htext]
      rw [Stateful.bind_of_error htake, hrest]
      simp only [if_neg htext, Outcome.error_bind]
      exact .failed _ _ lands fs

theorem mirrors_start {owner : Owner} {node : Ast}
    {handed : Option Handed} {root : Bool}
    {k : Open → Metered (State ⊕ Cst)} {k' : Frame → Except CstError ρ}
    (hk : ∀ f meter', Build.Opened i.context owner handed root f →
      meter'.position = meter.position → Mirrors i meter'.opened (k ⟨f, node,
        root, 0, 0, none⟩ meter') (k' f) lands fs) :
    Mirrors i meter.opened ((start i owner node handed root >>= k) meter)
      (Build.openFrame i.context owner handed root >>= k') lands
      ((owner, node) :: fs) := by
  let meter' : Meter := { meter with opened := (owner, node) :: meter.opened }
  cases hopen : Build.openFrame i.context owner handed root with
  | error e =>
    have hstart : start i owner node handed root meter = (.error e, meter) := by
      rw [start, hopen]
    rw [Stateful.bind_of_error hstart]
    exact .failed _ e lands _
  | ok f =>
    have hstart : start i owner node handed root meter =
        (.ok ⟨f, node, root, 0, 0, none⟩, meter') := by
      rw [start, hopen]
    rw [Stateful.bind_of_ok hstart, Outcome.ok_bind]
    exact (hk f meter' (Build.openFrame_eq_ok hopen) rfl).rebase
      List.perm_middle

end Within

end Loop

end Cst

end Lossless
