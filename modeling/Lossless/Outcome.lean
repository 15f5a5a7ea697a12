/-!
# Steps that may fail

A chain of steps succeeds exactly when each of them does. The lemmas here take a
success apart, step by step.
-/

namespace Lossless.Outcome

variable {ε α β : Type}

@[simp] theorem ok_bind (a : α) (f : α → Except ε β) :
    (Except.ok a >>= f) = f a := rfl

@[simp] theorem error_bind (e : ε) (f : α → Except ε β) :
    (Except.error e >>= f) = .error e := rfl

theorem bind_ok (x : Except ε α) : (x >>= Except.ok) = x := by
  cases x <;> rfl

theorem bind_eq_ok {x : Except ε α} {f : α → Except ε β} {b : β} :
    (x >>= f) = .ok b ↔ ∃ a, x = .ok a ∧ f a = .ok b := by
  cases x with
  | error e => exact ⟨(nomatch ·), fun ⟨_, h, _⟩ => nomatch h⟩
  | ok a =>
    exact ⟨fun h => ⟨a, rfl, h⟩,
      fun ⟨a', h, h'⟩ => by rw [Except.ok.inj h]; exact h'⟩

theorem bind_eq_error {x : Except ε α} {f : α → Except ε β} {e : ε} :
    (x >>= f) = .error e ↔ x = .error e ∨ ∃ a, x = .ok a ∧ f a = .error e := by
  cases x with
  | error e' =>
    rw [error_bind]
    constructor
    · exact fun h => .inl (by rw [Except.error.inj h])
    · rintro (h | ⟨_, h, _⟩)
      · rw [Except.error.inj h]
      · cases h
  | ok a =>
    constructor
    · exact fun h => .inr ⟨a, rfl, h⟩
    · rintro (h | ⟨_, h, h'⟩)
      · cases h
      · cases h
        exact h'

theorem map_eq_ok {x : Except ε α} {f : α → β} {b : β} :
    x.map f = .ok b ↔ ∃ a, x = .ok a ∧ f a = b := by
  cases x with
  | error e => exact ⟨(nomatch ·), fun ⟨_, h, _⟩ => nomatch h⟩
  | ok a =>
    exact ⟨fun h => ⟨a, rfl, Except.ok.inj h⟩,
      fun ⟨a', h, h'⟩ => by rw [Except.ok.inj h, ← h']; rfl⟩

theorem exists_of_isOk {x : Except ε α} (h : x.isOk = true) :
    ∃ a, x = .ok a := by
  cases x with
  | error e => exact nomatch h
  | ok a => exact ⟨a, rfl⟩

/-- Where a whole list can be gone through, each of its members can. -/
theorem exists_of_mapM {f : α → Except ε β} {as : List α} {bs : List β}
    (h : as.mapM f = .ok bs) {a : α} (ha : a ∈ as) : ∃ b, f a = .ok b := by
  induction as generalizing bs with
  | nil => exact absurd ha List.not_mem_nil
  | cons a' as ih =>
    rw [List.mapM_cons] at h
    rcases bind_eq_ok.1 h with ⟨b, hb, h⟩
    rcases bind_eq_ok.1 h with ⟨bs', hbs', -⟩
    rcases List.mem_cons.1 ha with rfl | ha
    · exact ⟨b, hb⟩
    · exact ih hbs' ha

theorem length_of_mapM {f : α → Except ε β} {as : List α} {bs : List β}
    (h : as.mapM f = .ok bs) : bs.length = as.length := by
  induction as generalizing bs with
  | nil =>
    cases h
    rfl
  | cons a as ih =>
    rw [List.mapM_cons] at h
    obtain ⟨b, -, h⟩ := bind_eq_ok.1 h
    obtain ⟨bs', hbs', h⟩ := bind_eq_ok.1 h
    cases h
    rw [List.length_cons, List.length_cons, ih hbs']

/-- Where a whole list cannot be gone through, one of its
members is to blame. -/
theorem exists_error_of_mapM {f : α → Except ε β} {as : List α} {e : ε}
    (h : as.mapM f = .error e) : ∃ a ∈ as, f a = .error e := by
  induction as with
  | nil => cases h
  | cons a as ih =>
    rw [List.mapM_cons] at h
    rcases bind_eq_error.1 h with ha | ⟨b, -, h⟩
    · exact ⟨a, List.mem_cons_self, ha⟩
    · rcases bind_eq_error.1 h with has | ⟨bs, -, h⟩
      · obtain ⟨a', ha', herror⟩ := ih has
        exact ⟨a', List.mem_cons_of_mem _ ha', herror⟩
      · cases h

theorem mapM_congr {f f' : α → Except ε β} {as : List α}
    (h : ∀ a ∈ as, f a = f' a) : as.mapM f = as.mapM f' := by
  induction as with
  | nil => rfl
  | cons a as ih =>
    rw [List.mapM_cons, List.mapM_cons, h a List.mem_cons_self,
      ih fun a' ha' => h a' (List.mem_cons_of_mem _ ha')]

/-- One computation does what another does: it fails where the other fails,
with the same error, and succeeds where the other succeeds, with results
that are related. -/
def Yields (x : Except ε α) (y : Except ε β) (related : α → β → Prop) : Prop :=
  match y with
  | .error e => x = .error e
  | .ok b => ∃ a, x = .ok a ∧ related a b

namespace Yields

variable {γ δ : Type} {x : Except ε α} {y : Except ε β}
  {related related' : α → β → Prop}

theorem of_ok {a : α} {b : β} (h : related a b) :
    Yields (.ok a : Except ε α) (.ok b) related :=
  ⟨a, rfl, h⟩

theorem bind {k : α → Except ε γ} {k' : β → Except ε δ}
    {related' : γ → δ → Prop} (h : Yields x y related)
    (hk : ∀ a b, related a b → Yields (k a) (k' b) related') :
    Yields (x >>= k) (y >>= k') related' := by
  cases y with
  | error e =>
    have hx : x = .error e := h
    rw [hx]
    rfl
  | ok b =>
    rcases h with ⟨a, rfl, hab⟩
    exact hk a b hab

/-- What is known of a success may be used to relate its result. -/
theorem imp (h : Yields x y related)
    (himp : ∀ a b, x = .ok a → related a b → related' a b) :
    Yields x y related' := by
  cases y with
  | error e => exact h
  | ok b =>
    rcases h with ⟨a, ha, hab⟩
    exact ⟨a, ha, himp a b ha hab⟩

end Yields

/-- Whatever the first computation returns, the other one returns something that
is related to it. Where the first one fails, nothing is said of the other. -/
def CarriesTo (x : Except ε α) (y : Except ε β)
    (related : α → β → Prop) : Prop :=
  ∀ a, x = .ok a → ∃ b, y = .ok b ∧ related a b

namespace CarriesTo

variable {γ δ : Type} {x x' : Except ε α} {y y' : Except ε β}
  {related : α → β → Prop}

theorem of_ok {a : α} {b : β} (h : related a b) :
    CarriesTo (.ok a : Except ε α) (.ok b) related := by
  rintro _ ⟨⟩
  exact ⟨b, rfl, h⟩

theorem of_error (e : ε) : CarriesTo (.error e) y related :=
  fun _ h => nomatch h

theorem bind {k : α → Except ε γ} {k' : β → Except ε δ}
    {related' : γ → δ → Prop} (h : CarriesTo x y related)
    (hk : ∀ a b, related a b → CarriesTo (k a) (k' b) related') :
    CarriesTo (x >>= k) (y >>= k') related' := by
  intro c hc
  rcases bind_eq_ok.1 hc with ⟨a, ha, hc⟩
  rcases h a ha with ⟨b, rfl, hab⟩
  exact hk a b hab c hc

/-- Computations that branch alike are compared branch by branch. -/
theorem ite {p q : Prop} [Decidable p] [Decidable q] (hpq : p ↔ q)
    (hpos : p → CarriesTo x y related) (hneg : ¬p → CarriesTo x' y' related) :
    CarriesTo (if p then x else x') (if q then y else y') related := by
  by_cases hp : p
  · rw [if_pos hp, if_pos (hpq.1 hp)]
    exact hpos hp
  · rw [if_neg hp, if_neg fun hq => hp (hpq.2 hq)]
    exact hneg hp

end CarriesTo

end Lossless.Outcome
