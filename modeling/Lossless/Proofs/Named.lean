import Mathlib.Data.List.Nodup
import Mathlib.Data.List.Perm.Subperm

/-!
# Named values

Fields, types and roles are kept as lists of named values, of which the first
one with a name counts. These are the laws of looking such a value up that do
not depend on what the values are.
-/

namespace Lossless.Named

variable {κ α β : Type} [BEq κ]

theorem lookup_map (f : α → β) (l : List (κ × α)) (k : κ) :
    (l.map fun p => (p.1, f p.2)).lookup k = (l.lookup k).map f := by
  induction l with
  | nil => rfl
  | cons p l ih =>
    rw [List.map_cons, List.lookup_cons, List.lookup_cons, ih]
    cases k == p.1 <;> rfl

variable [LawfulBEq κ]

/-- A change of the values that looks at the names leaves each value
under its name. -/
theorem lookup_map_named (f : κ → α → β) (l : List (κ × α)) (k : κ) :
    (l.map fun p => (p.1, f p.1 p.2)).lookup k = (l.lookup k).map (f k) := by
  induction l with
  | nil => rfl
  | cons p l ih =>
    rw [List.map_cons, List.lookup_cons, List.lookup_cons, ih]
    by_cases hk : k = p.1
    · simp [hk]
    · have hbeq : (k == p.1) = false := by simpa using hk
      simp [hbeq]

theorem mem_of_lookup {l : List (κ × α)} {k : κ} {a : α}
    (h : l.lookup k = some a) : (k, a) ∈ l := by
  rcases List.lookup_eq_some_iff.1 h with ⟨l₁, l₂, rfl, -⟩
  exact List.mem_append_right _ List.mem_cons_self

theorem mem_keys_of_lookup {l : List (κ × α)} {k : κ} {a : α}
    (h : l.lookup k = some a) : k ∈ l.map Prod.fst :=
  List.mem_map.2 ⟨(k, a), mem_of_lookup h, rfl⟩

theorem lookup_eq_none {l : List (κ × α)} {k : κ} :
    l.lookup k = none ↔ k ∉ l.map Prod.fst := by
  rw [List.lookup_eq_none_iff]
  constructor
  · intro h hk
    rcases List.mem_map.1 hk with ⟨p, hp, rfl⟩
    exact absurd (h p hp) (by simp)
  · intro h p hp
    have hne : k ≠ p.1 := fun he => h (List.mem_map.2 ⟨p, hp, he.symm⟩)
    simpa using hne

theorem exists_lookup {l : List (κ × α)} {k : κ} (h : k ∈ l.map Prod.fst) :
    ∃ a, l.lookup k = some a := by
  cases ha : l.lookup k with
  | none => exact absurd h (lookup_eq_none.1 ha)
  | some a => exact ⟨a, rfl⟩

/-- Where no name stands twice, every value is found under its name. -/
theorem lookup_of_mem {l : List (κ × α)} (hl : (l.map Prod.fst).Nodup) {k : κ}
    {a : α} (h : (k, a) ∈ l) : l.lookup k = some a := by
  induction l with
  | nil => exact absurd h List.not_mem_nil
  | cons p l ih =>
    rw [List.map_cons, List.nodup_cons] at hl
    rw [List.lookup_cons]
    rcases List.mem_cons.1 h with rfl | h
    · simp
    · have hne : k ≠ p.1 :=
        fun he => hl.1 (he ▸ List.mem_map.2 ⟨(k, a), h, rfl⟩)
      have hbeq : (k == p.1) = false := by simpa using hne
      rw [hbeq]
      exact ih hl.2 h

/-- Two lists with the same names, each once, are the same if they
agree on every name. -/
theorem ext {l l' : List (κ × α)} (hnames : l.map Prod.fst = l'.map Prod.fst)
    (hl : (l.map Prod.fst).Nodup)
    (h : ∀ k ∈ l.map Prod.fst, l.lookup k = l'.lookup k) : l = l' := by
  induction l generalizing l' with
  | nil =>
    cases l' with
    | nil => rfl
    | cons p' l' => exact nomatch hnames
  | cons p l ih =>
    cases l' with
    | nil => exact nomatch hnames
    | cons p' l' =>
      rcases p with ⟨k, a⟩
      rcases p' with ⟨k', a'⟩
      simp only [List.map_cons, List.cons.injEq] at hnames
      rcases hnames with ⟨rfl, hnames⟩
      rw [List.map_cons, List.nodup_cons] at hl
      have hfirst := h k List.mem_cons_self
      simp only [List.lookup_cons_self, Option.some.injEq] at hfirst
      rw [hfirst, ih hnames hl.2 fun k' hk' => ?_]
      have hne : k' ≠ k := fun he => hl.1 (he ▸ hk')
      have hbeq : (k' == k) = false := by simpa using hne
      have hrest := h k' (List.mem_cons_of_mem _ hk')
      simpa only [List.lookup_cons, hbeq] using hrest

/-- Two lists with the same names in some order, each once, are the same up to
order if they agree on every name. -/
theorem perm {l l' : List (κ × α)} (hl : (l.map Prod.fst).Nodup)
    (hnames : (l.map Prod.fst).Perm (l'.map Prod.fst))
    (h : ∀ k ∈ l.map Prod.fst, l.lookup k = l'.lookup k) : l.Perm l' := by
  have hl' := hnames.nodup_iff.1 hl
  rw [List.perm_ext_iff_of_nodup (.of_map _ hl) (.of_map _ hl')]
  rintro ⟨k, a⟩
  constructor
  · intro hmem
    have hk : k ∈ l.map Prod.fst := List.mem_map.2 ⟨_, hmem, rfl⟩
    exact mem_of_lookup ((h k hk).symm.trans (lookup_of_mem hl hmem))
  · intro hmem
    have hk : k ∈ l.map Prod.fst :=
      hnames.mem_iff.2 (List.mem_map.2 ⟨_, hmem, rfl⟩)
    exact mem_of_lookup ((h k hk).trans (lookup_of_mem hl' hmem))

/-- Different names lead to values in different places. -/
theorem lookups_subperm (l : List (κ × α)) {ks : List κ} (hks : ks.Nodup) :
    (ks.filterMap (l.lookup ·)).Subperm (l.map Prod.snd) := by
  induction l generalizing ks with
  | nil =>
    have hnone : ks.filterMap (([] : List (κ × α)).lookup ·) = [] :=
      List.filterMap_eq_nil_iff.2 fun _ _ => rfl
    rw [hnone]
    exact (List.nil_sublist _).subperm
  | cons p l ih =>
    obtain ⟨k, a⟩ := p
    -- a name that is not the first one is looked up behind it
    have hbehind : ∀ ks : List κ, k ∉ ks →
        ks.filterMap (((k, a) :: l).lookup ·) = ks.filterMap (l.lookup ·) := by
      intro ks hk
      refine List.filterMap_congr fun k' hk' => ?_
      have hne : (k' == k) = false := by
        simp only [beq_eq_false_iff_ne]
        rintro rfl
        exact hk hk'
      rw [List.lookup_cons, hne]
    by_cases hk : k ∈ ks
    · have hfirst : ((k, a) :: l).lookup k = some a := List.lookup_cons_self
      have hperm := (List.perm_cons_erase hk).filterMap (((k, a) :: l).lookup ·)
      rw [List.filterMap_cons_some (f := (((k, a) :: l).lookup ·)) hfirst,
        hbehind _ (List.Nodup.not_mem_erase hks)] at hperm
      exact hperm.subperm.trans ((List.subperm_cons a).2 (ih (hks.erase k)))
    · rw [hbehind ks hk]
      exact List.Subperm.trans (ih hks) (List.sublist_cons_self ..).subperm

omit [BEq κ] [LawfulBEq κ] in
/-- Under one name stands one last entry. -/
theorem exists_getLast? {l : List (κ × α)} {k : κ} (h : l.map Prod.fst = [k]) :
    ∃ a, l.getLast? = some (k, a) := by
  obtain ⟨⟨k', a⟩, rfl, hk⟩ := List.map_eq_singleton_iff.1 h
  cases hk
  exact ⟨a, rfl⟩

/-- A name that stands in the first of two lists is looked up there. -/
theorem lookup_append_of_mem {l : List (κ × α)} (l' : List (κ × α)) {k : κ}
    (h : k ∈ l.map Prod.fst) : (l ++ l').lookup k = l.lookup k := by
  rcases exists_lookup h with ⟨a, ha⟩
  rw [List.lookup_append, ha]
  rfl

/-- A name that does not stand in the first of two lists is looked
up in the second. -/
theorem lookup_append_of_notMem {l : List (κ × α)} (l' : List (κ × α)) {k : κ}
    (h : k ∉ l.map Prod.fst) : (l ++ l').lookup k = l'.lookup k := by
  rw [List.lookup_append, lookup_eq_none.2 h]
  rfl

end Lossless.Named
