import Lossless.Proofs.Neighbours
import Lossless.Proofs.Pieces
import Mathlib.Data.List.Infix

/-!
# Exactly the pairs of neighbours are listed

A schedule leaves open whether its optional slots are filled and how long its
lists are. `Schedule.Allows` says which elements its slots may have, one slot
after another, with every such choice made freely. `Schedule.gaps` lists the
pairs of elements that stand side by side in some of these rows, and no other
pairs, if items and separators are counted from the left one of the two
(`Gap.canonical`). What a node is written with is such a row, and where a
schedule places nothing twice each row is that of some node.
-/

namespace Lossless

/-- A gap as it is listed: items and separators have the index zero, but the
right one of two neighbouring items of a list has the index one. -/
def Gap.canonical (g : Gap) : Gap :=
  ⟨g.left.ground, match g.right with
    | .item slot _ => .item slot (if g.left.slot? = some slot then 1 else 0)
    | e => e.ground⟩

/-! ### Rows of elements -/

/-- The elements of a list with some number of items. -/
def listElements (slot : Nat) (separator : Option String) : Nat → List Element
  | 0 => []
  | 1 => [.item slot 0]
  | count + 2 =>
    listElements slot separator (count + 1) ++
      ((if separator.isSome then [.separator slot count] else []) ++
        [.item slot (count + 1)])

/-- The elements that a slot may have. -/
inductive Slot.Allows (index : Nat) : Slot → List Element → Prop
  | extras (label : Label) : Allows index (.extras label) []
  | implied (field : String) : Allows index (.implied field) []
  | token (text : String) : Allows index (.token text) [.token index]
  | scalar (field : String) : Allows index (.scalar field) [.token index]
  | node (field : String) : Allows index (.node field) [.child index]
  | virtual (role : VirtualRole) : Allows index (.virtual role) [.child index]
  | present (field : String) : Allows index (.optional field) [.child index]
  | absent (field : String) : Allows index (.optional field) []
  | list (field : String) (separator : Option String) (count : Nat) :
    Allows index (.list field separator) (listElements index separator count)

/-- The elements that some slots may have, the first of which has an index. -/
inductive Schedule.Allows : Nat → Schedule → List Element → Prop
  | nil (index : Nat) : Allows index [] []
  | cons {index : Nat} {slot : Slot} {slots : Schedule}
      {here further : List Element} (first : slot.Allows index here)
      (others : Allows (index + 1) slots further) :
      Allows index (slot :: slots) (here ++ further)

/-- An end of the text, which is an element of the root. -/
def rootEnd (root : Bool) (e : Element) : List Element :=
  if root then [e] else []

/-- The rows of elements that a node of a schedule can have. The root stands
between the ends of the text. -/
def Schedule.Row (s : Schedule) (root : Bool) (row : List Element) : Prop :=
  ∃ inner, s.Allows 0 inner ∧
    row = rootEnd root .start ++ (inner ++ rootEnd root .stop)

/-! ### Neighbours in rows that are put together -/

section

variable {α : Type} {a b : α}

theorem infix_pair_cons {x : α} {xs : List α} :
    [a, b] <:+: x :: xs ↔ (a = x ∧ xs.head? = some b) ∨ [a, b] <:+: xs := by
  rw [List.infix_cons_iff, List.cons_prefix_cons]
  cases xs with
  | nil => simp
  | cons y ys =>
    have hfirst : b = y ↔ y = b := eq_comm
    simp only [List.cons_prefix_cons, List.nil_prefix, and_true,
      List.head?_cons, Option.some.injEq, hfirst]

/-- Neighbours in two rows stand in one of them or where they meet. -/
theorem infix_pair_append {xs ys : List α} :
    [a, b] <:+: xs ++ ys ↔
      [a, b] <:+: xs ∨ (xs.getLast? = some a ∧ ys.head? = some b) ∨
        [a, b] <:+: ys := by
  induction xs with
  | nil => simp
  | cons x xs ih =>
    rw [List.cons_append, infix_pair_cons, infix_pair_cons, ih]
    cases xs with
    | nil =>
      have hlast : a = x ↔ x = a := eq_comm
      simp [hlast]
    | cons y ys => simp [or_assoc]

end

/-! ### Lists -/

section

variable {slot : Nat} {separator : Option String} {l r : Element}

theorem head?_listElements (slot : Nat) (separator : Option String)
    (count : Nat) :
    (listElements slot separator (count + 1)).head? = some (.item slot 0) := by
  induction count with
  | zero => rfl
  | succ count ih => rw [listElements, List.head?_append, ih, Option.some_or]

theorem getLast?_listElements (slot : Nat) (separator : Option String)
    (count : Nat) :
    (listElements slot separator (count + 1)).getLast? =
      some (.item slot count) := by
  cases count with
  | zero => rfl
  | succ count => rw [listElements, ← List.append_assoc, List.getLast?_concat]

/-- In a list of any length two neighbours are a kind of pair that two
items already have. -/
theorem canonical_mem_of_listElements {field : String} {count : Nat}
    (h : [l, r] <:+: listElements slot separator count) :
    (⟨l, r⟩ : Gap).canonical ∈
      Schedule.gapsInSlot slot (.list field separator) := by
  match count with
  | 0 => simp [listElements] at h
  | 1 => simp [listElements, infix_pair_cons] at h
  | count + 2 =>
    rw [listElements, infix_pair_append, getLast?_listElements] at h
    rcases h with h | ⟨hleft, hright⟩ | h
    · exact canonical_mem_of_listElements h
    · cases Option.some.inj hleft
      cases separator with
      | none =>
        cases Option.some.inj hright
        simp [Gap.canonical, Element.ground, Element.slot?, Schedule.gapsInSlot]
      | some text =>
        cases Option.some.inj hright
        simp [Gap.canonical, Element.ground, Schedule.gapsInSlot]
    · cases separator with
      | none => simp [infix_pair_cons] at h
      | some text =>
        have hpair :
            l = .separator slot count ∧ r = .item slot (count + 1) := by
          simpa [infix_pair_cons, @eq_comm Element _ r] using h
        obtain ⟨rfl, rfl⟩ := hpair
        simp [Gap.canonical, Element.ground, Element.slot?, Schedule.gapsInSlot]

/-- The pairs that are listed for a list are neighbours in a list
with two items. -/
theorem infix_listElements_of_mem {field : String} {g : Gap}
    (h : g ∈ Schedule.gapsInSlot slot (.list field separator)) :
    [g.left, g.right] <:+: listElements slot separator 2 ∧ g.canonical = g := by
  cases separator with
  | none =>
    obtain rfl := List.mem_singleton.1 h
    simp [listElements, Gap.canonical, Element.ground, Element.slot?]
  | some text =>
    rcases List.mem_cons.1 h with rfl | h
    · simp [listElements, infix_pair_cons, Gap.canonical, Element.ground]
    · obtain rfl := List.mem_singleton.1 h
      simp [listElements, infix_pair_cons, Gap.canonical, Element.ground,
        Element.slot?]

end

/-! ### Slots -/

namespace Schedule

open Extent

variable {index : Nat} {slot : Slot} {slots s : Schedule}
  {here row : List Element} {x : Extent} {l r : Element}

/-- A slot without extent has no elements. -/
theorem eq_nil_of_allows (h : slot.Allows index here)
    (hx : ofSlot? index slot = none) : here = [] := by
  cases h with
  | extras | implied => rfl
  | _ => cases hx

/-- The elements of a slot begin and end as its extent says,
if there are any. -/
theorem ends_of_allows (h : slot.Allows index here)
    (hx : ofSlot? index slot = some x) :
    (here = [] ∧ x.mayBeEmpty = true) ∨
      here.head? = some x.first ∧
        ∃ last, here.getLast? = some last ∧
          last.ground = x.last ∧ last.slot? = some index := by
  cases h with
  | extras | implied => cases hx
  | token | scalar | node | virtual | present =>
    cases hx
    exact .inr ⟨rfl, _, rfl, rfl, rfl⟩
  | absent =>
    cases hx
    exact .inl ⟨rfl, rfl⟩
  | list field separator count =>
    cases hx
    cases count with
    | zero => exact .inl ⟨rfl, rfl⟩
    | succ count =>
      exact .inr ⟨head?_listElements .., _, getLast?_listElements .., rfl, rfl⟩

/-- A slot may have no elements, if its extent may be empty. -/
theorem allows_nil (h : mayPass index slot) : slot.Allows index [] := by
  cases slot with
  | extras label => exact .extras label
  | implied field => exact .implied field
  | optional field => exact .absent field
  | list field separator => exact .list field separator 0
  | token | scalar | node | virtual => cases h _ rfl

/-- A slot with an extent may have just one element. -/
theorem allows_one (hx : ofSlot? index slot = some x) :
    slot.Allows index [x.first] ∧ x.last = x.first ∧
      x.first.ground = x.first ∧ x.first.slot? = some index := by
  cases slot with
  | extras | implied => cases hx
  | token text =>
    cases hx
    exact ⟨.token text, rfl, rfl, rfl⟩
  | scalar field =>
    cases hx
    exact ⟨.scalar field, rfl, rfl, rfl⟩
  | node field =>
    cases hx
    exact ⟨.node field, rfl, rfl, rfl⟩
  | virtual role =>
    cases hx
    exact ⟨.virtual role, rfl, rfl, rfl⟩
  | optional field =>
    cases hx
    exact ⟨.present field, rfl, rfl, rfl⟩
  | list field separator =>
    cases hx
    exact ⟨.list field separator 1, rfl, rfl, rfl⟩

/-- Neighbours inside one slot are listed for it. -/
theorem canonical_mem_of_allows (h : slot.Allows index here)
    (hpair : [l, r] <:+: here) :
    (⟨l, r⟩ : Gap).canonical ∈ gapsInSlot index slot := by
  cases h with
  | list field separator count => exact canonical_mem_of_listElements hpair
  | _ => simp [infix_pair_cons] at hpair

/-- What is listed for a slot are neighbours in some of its rows. -/
theorem exists_allows_of_mem {g : Gap} (h : g ∈ gapsInSlot index slot) :
    ∃ here, slot.Allows index here ∧
      [g.left, g.right] <:+: here ∧ g.canonical = g := by
  cases slot with
  | list field separator =>
    obtain ⟨hpair, hcanonical⟩ := infix_listElements_of_mem h
    exact ⟨_, .list field separator 2, hpair, hcanonical⟩
  | _ => exact absurd h List.not_mem_nil

theorem exists_allows_slot (index : Nat) (slot : Slot) :
    ∃ here, slot.Allows index here := by
  cases hx : ofSlot? index slot with
  | none => exact ⟨[], allows_nil fun x hsome => nomatch hx.symm.trans hsome⟩
  | some x => exact ⟨_, (allows_one hx).1⟩

theorem exists_allows (index : Nat) (s : Schedule) :
    ∃ row, s.Allows index row := by
  induction s generalizing index with
  | nil => exact ⟨[], .nil index⟩
  | cons slot slots ih =>
    obtain ⟨here, hhere⟩ := exists_allows_slot index slot
    obtain ⟨further, hfurther⟩ := ih (index + 1)
    exact ⟨here ++ further, .cons hhere hfurther⟩

/-! ### Extents and rows -/

/-- An element can come first in some extents. -/
def First (e : Element) : List Extent → Prop
  | [] => False
  | x :: xs => x.first = e ∨ (x.mayBeEmpty = true ∧ First e xs)

theorem mem_gapsFrom_iff {g : Gap} {xs : List Extent} :
    g ∈ gapsFrom l xs ↔ g.left = l ∧ First g.right xs := by
  induction xs with
  | nil => simp [gapsFrom, First]
  | cons x xs ih =>
    rw [gapsFrom, List.mem_cons, First]
    cases hx : x.mayBeEmpty with
    | false =>
      simp only [Bool.false_eq_true, if_false, List.not_mem_nil,
        or_false, false_and]
      constructor
      · rintro rfl
        exact ⟨rfl, rfl⟩
      · rintro ⟨hl, hr⟩
        rw [← hl, hr]
    | true =>
      simp only [if_true, true_and, ih]
      constructor
      · rintro (rfl | ⟨hl, hr⟩)
        · exact ⟨rfl, .inl rfl⟩
        · exact ⟨hl, .inr hr⟩
      · rintro ⟨hl, hr | hr⟩
        · exact .inl (by rw [← hl, hr])
        · exact .inr ⟨hl, hr⟩

/-- The extents of some slots, and of the end of the text behind
those of the root. -/
def extents (root : Bool) (index : Nat) (s : Schedule) : List Extent :=
  ofSlots index s ++ (rootEnd root .stop).map one

/-- The rows of some slots, with the end of the text behind
those of the root. -/
def Ends (root : Bool) (index : Nat) (s : Schedule)
    (row : List Element) : Prop :=
  ∃ inner, s.Allows index inner ∧ row = inner ++ rootEnd root .stop

variable {root : Bool} {e : Element}

theorem extents_cons (root : Bool) (index : Nat) (slot : Slot)
    (slots : Schedule) :
    extents root index (slot :: slots) =
      (ofSlot? index slot).toList ++ extents root (index + 1) slots := by
  rw [extents, ofSlots, List.append_assoc, extents]

theorem exists_ends (root : Bool) (index : Nat) (s : Schedule) :
    ∃ row, Ends root index s row := by
  obtain ⟨inner, hinner⟩ := exists_allows index s
  exact ⟨_, inner, hinner, rfl⟩

theorem ends_cons_iff :
    Ends root index (slot :: slots) row ↔
      ∃ here further, slot.Allows index here ∧
        Ends root (index + 1) slots further ∧ row = here ++ further := by
  constructor
  · rintro ⟨_, hinner, rfl⟩
    cases hinner with
    | @cons _ _ _ here further hfirst hothers =>
      exact ⟨here, _, hfirst, ⟨further, hothers, rfl⟩, List.append_assoc ..⟩
  · rintro ⟨here, _, hhere, ⟨further, hfurther, rfl⟩, rfl⟩
    exact ⟨here ++ further, .cons hhere hfurther, (List.append_assoc ..).symm⟩

/-- An element that can come first is counted from zero and does not belong to
an earlier slot. -/
theorem ground_of_first (h : First e (extents root index s)) :
    e.ground = e ∧ ∀ k, e.slot? = some k → index ≤ k := by
  induction s generalizing index with
  | nil =>
    cases root with
    | false => exact h.elim
    | true =>
      rcases h with rfl | ⟨hempty, -⟩
      · exact ⟨rfl, fun k hk => nomatch hk⟩
      · cases hempty
  | cons slot slots ih =>
    have hlater : First e (extents root (index + 1) slots) →
        e.ground = e ∧ ∀ k, e.slot? = some k → index ≤ k :=
      fun hfirst => ⟨(ih hfirst).1,
        fun k hk => Nat.le_of_succ_le ((ih hfirst).2 k hk)⟩
    rw [extents_cons] at h
    cases hx : ofSlot? index slot with
    | none =>
      rw [hx] at h
      exact hlater h
    | some x =>
      rw [hx] at h
      rcases h with rfl | ⟨-, hfirst⟩
      · obtain ⟨-, -, hground, hslot⟩ := allows_one hx
        refine ⟨hground, fun k hk => ?_⟩
        rw [hslot] at hk
        exact Nat.le_of_eq (Option.some.inj hk)
      · exact hlater hfirst

/-- A slot that may have no elements may be left out in front of a row. -/
theorem ends_skip (hpass : mayPass index slot)
    (hrow : Ends root (index + 1) slots row) :
    Ends root index (slot :: slots) row :=
  ends_cons_iff.2 ⟨[], row, allows_nil hpass, hrow, rfl⟩

/-- An element that can come first begins some row. -/
theorem exists_ends_of_first (h : First e (extents root index s)) :
    ∃ row, Ends root index s row ∧ row.head? = some e := by
  induction s generalizing index with
  | nil =>
    cases root with
    | false => exact h.elim
    | true =>
      rcases h with rfl | ⟨hempty, -⟩
      · exact ⟨_, ⟨[], .nil index, rfl⟩, rfl⟩
      · cases hempty
  | cons slot slots ih =>
    rw [extents_cons] at h
    cases hx : ofSlot? index slot with
    | none =>
      rw [hx] at h
      obtain ⟨row, hrow, hhead⟩ := ih h
      exact ⟨row, ends_skip (fun y hy => by cases hx.symm.trans hy) hrow, hhead⟩
    | some x =>
      rw [hx] at h
      rcases h with rfl | ⟨hempty, hfirst⟩
      · obtain ⟨row, hrow⟩ := exists_ends root (index + 1) slots
        exact ⟨_, ends_cons_iff.2 ⟨_, row, (allows_one hx).1, hrow, rfl⟩, rfl⟩
      · obtain ⟨row, hrow, hhead⟩ := ih hfirst
        have hpass : mayPass index slot := by
          intro y hy
          cases hx.symm.trans hy
          exact hempty
        exact ⟨row, ends_skip hpass hrow, hhead⟩

/-- What begins a row can come first. -/
theorem first_of_head? (hrow : Ends root index s row)
    (hhead : row.head? = some e) : First e (extents root index s) := by
  induction s generalizing index row with
  | nil =>
    obtain ⟨_, ⟨⟩, rfl⟩ := hrow
    cases root with
    | false => cases hhead
    | true =>
      cases hhead
      exact .inl rfl
  | cons slot slots ih =>
    obtain ⟨here, further, hhere, hfurther, rfl⟩ := ends_cons_iff.1 hrow
    rw [extents_cons]
    cases hx : ofSlot? index slot with
    | none =>
      obtain rfl := eq_nil_of_allows hhere hx
      exact ih hfurther hhead
    | some x =>
      rcases ends_of_allows hhere hx with ⟨rfl, hempty⟩ | ⟨hfirst, -⟩
      · exact .inr ⟨hempty, ih hfurther hhead⟩
      · rw [List.head?_append, hfirst] at hhead
        exact .inl (Option.some.inj hhead)

/-- Where an element meets one of a later slot, the gap is listed under the
first index on its right. -/
theorem canonical_of_first (hslot : ∀ k, l.slot? = some k → k < index)
    (hfirst : First r (extents root index s)) :
    (⟨l, r⟩ : Gap).canonical = ⟨l.ground, r⟩ := by
  obtain ⟨hground, hlater⟩ := ground_of_first hfirst
  rw [Gap.canonical]
  cases r with
  | item slot i =>
    have hne : l.slot? ≠ some slot :=
      fun hsame => Nat.not_lt.2 (hlater slot rfl) (hslot slot hsame)
    cases hground
    simp only [if_neg hne]
  | _ => exact congrArg (Gap.mk l.ground) hground

theorem lt_succ_of_slot? (h : l.slot? = some index) :
    ∀ k, l.slot? = some k → k < index + 1 := by
  intro k hk
  cases h.symm.trans hk
  exact Nat.lt_succ_self _

/-- The listed gaps of a slot with an extent and of the slots behind it. -/
theorem mem_gaps_cons_iff {g : Gap} (hx : ofSlot? index slot = some x) :
    g ∈ gapsInLists index (slot :: slots) ++
        gapsBetween (extents root index (slot :: slots)) ↔
      g ∈ gapsInSlot index slot ∨
        (g.left = x.last ∧ First g.right (extents root (index + 1) slots)) ∨
        g ∈ gapsInLists (index + 1) slots ++
          gapsBetween (extents root (index + 1) slots) := by
  rw [extents_cons, hx, gapsInLists, Option.toList_some,
    List.singleton_append, gapsBetween]
  simp only [List.mem_append, mem_gapsFrom_iff]
  tauto

theorem gapsInSlot_of_none (hx : ofSlot? index slot = none) :
    gapsInSlot index slot = [] := by
  cases slot with
  | list => cases hx
  | _ => rfl

/-- A listed gap is between neighbours in some row. -/
theorem exists_ends_of_mem {g : Gap}
    (h : g ∈ gapsInLists index s ++ gapsBetween (extents root index s)) :
    ∃ row l r, Ends root index s row ∧
      [l, r] <:+: row ∧ g = (⟨l, r⟩ : Gap).canonical := by
  induction s generalizing index with
  | nil =>
    cases root <;> simp [gapsInLists, extents, ofSlots, rootEnd, gapsBetween,
      gapsFrom] at h
  | cons slot slots ih =>
    have hbehind :
        g ∈ gapsInLists (index + 1) slots ++
            gapsBetween (extents root (index + 1) slots) →
          ∃ row l r, Ends root index (slot :: slots) row ∧ [l, r] <:+: row ∧
            g = (⟨l, r⟩ : Gap).canonical := by
      intro hmem
      obtain ⟨row, l, r, hrow, hpair, hg⟩ := ih hmem
      obtain ⟨here, hhere⟩ := exists_allows_slot index slot
      exact ⟨here ++ row, l, r, ends_cons_iff.2 ⟨here, row, hhere, hrow, rfl⟩,
        infix_pair_append.2 (.inr (.inr hpair)), hg⟩
    cases hx : ofSlot? index slot with
    | none =>
      rw [extents_cons, hx, gapsInLists, gapsInSlot_of_none hx] at h
      exact hbehind h
    | some x =>
      rcases (mem_gaps_cons_iff hx).1 h with hg | ⟨hleft, hright⟩ | hg
      · obtain ⟨here, hhere, hpair, hcanonical⟩ := exists_allows_of_mem hg
        obtain ⟨further, hfurther⟩ := exists_ends root (index + 1) slots
        exact ⟨here ++ further, g.left, g.right,
          ends_cons_iff.2 ⟨here, further, hhere, hfurther, rfl⟩,
          infix_pair_append.2 (.inl hpair), hcanonical.symm⟩
      · obtain ⟨hone, hlast, hground, hslot⟩ := allows_one hx
        obtain ⟨further, hfurther, hhead⟩ := exists_ends_of_first hright
        refine ⟨x.first :: further, x.first, g.right,
          ends_cons_iff.2 ⟨_, further, hone, hfurther, rfl⟩,
          infix_pair_cons.2 (.inl ⟨rfl, hhead⟩), ?_⟩
        rw [canonical_of_first (lt_succ_of_slot? hslot) hright, hground,
          ← hlast, ← hleft]
      · exact hbehind hg

/-- Neighbours in a row are listed. -/
theorem canonical_mem_of_ends (hrow : Ends root index s row)
    (hpair : [l, r] <:+: row) :
    (⟨l, r⟩ : Gap).canonical ∈
      gapsInLists index s ++ gapsBetween (extents root index s) := by
  induction s generalizing index row with
  | nil =>
    obtain ⟨_, ⟨⟩, rfl⟩ := hrow
    cases root <;> simp [rootEnd, infix_pair_cons] at hpair
  | cons slot slots ih =>
    obtain ⟨here, further, hhere, hfurther, rfl⟩ := ends_cons_iff.1 hrow
    cases hx : ofSlot? index slot with
    | none =>
      obtain rfl := eq_nil_of_allows hhere hx
      rw [extents_cons, hx, gapsInLists, gapsInSlot_of_none hx]
      exact ih hfurther hpair
    | some x =>
      rw [mem_gaps_cons_iff hx]
      rcases infix_pair_append.1 hpair with hpair | ⟨hlast, hhead⟩ | hpair
      · exact .inl (canonical_mem_of_allows hhere hpair)
      · have hfirst : First r (extents root (index + 1) slots) :=
          first_of_head? hfurther hhead
        rcases ends_of_allows hhere hx with ⟨rfl, -⟩ |
          ⟨-, last, hlast', hground, hslot⟩
        · cases hlast
        · cases hlast.symm.trans hlast'
          rw [canonical_of_first (lt_succ_of_slot? hslot) hfirst]
          exact .inr (.inl ⟨hground, hfirst⟩)
      · exact .inr (.inr (ih hfurther hpair))

/-- The listed gaps of some slots are the neighbours in their rows. -/
theorem mem_gaps_iff_of_ends {g : Gap} :
    g ∈ gapsInLists index s ++ gapsBetween (extents root index s) ↔
      ∃ row l r, Ends root index s row ∧
        [l, r] <:+: row ∧ g = (⟨l, r⟩ : Gap).canonical := by
  constructor
  · exact exists_ends_of_mem
  · rintro ⟨row, l, r, hrow, hpair, rfl⟩
    exact canonical_mem_of_ends hrow hpair

/-- The listed gaps of a schedule are the neighbours in the
rows of its nodes. -/
theorem mem_gaps_iff_of_row {g : Gap} :
    g ∈ s.gaps root ↔
      ∃ row l r, s.Row root row ∧
        [l, r] <:+: row ∧ g = (⟨l, r⟩ : Gap).canonical := by
  cases root with
  | false =>
    have hgaps :
        s.gaps false = gapsInLists 0 s ++ gapsBetween (extents false 0 s) := by
      simp [gaps, extents, rootEnd]
    rw [hgaps, mem_gaps_iff_of_ends]
    rfl
  | true =>
    have hgaps : g ∈ s.gaps true ↔
        (g.left = .start ∧ First g.right (extents true 0 s)) ∨
          g ∈ gapsInLists 0 s ++ gapsBetween (extents true 0 s) := by
      have heq : s.gaps true =
          gapsInLists 0 s ++ (gapsFrom .start (extents true 0 s) ++
            gapsBetween (extents true 0 s)) := by
        simp [gaps, extents, rootEnd, gapsBetween, one]
      rw [heq]
      simp only [List.mem_append, mem_gapsFrom_iff]
      tauto
    have hstart : ∀ k, Element.start.slot? = some k → k < 0 := by
      intro k hk
      cases hk
    rw [hgaps, mem_gaps_iff_of_ends]
    constructor
    · rintro (⟨hleft, hright⟩ | ⟨_, l, r, ⟨inner, hinner, rfl⟩, hpair, hg⟩)
      · obtain ⟨_, ⟨inner, hinner, rfl⟩, hhead⟩ := exists_ends_of_first hright
        refine ⟨_, .start, g.right, ⟨inner, hinner, rfl⟩,
          infix_pair_cons.2 (.inl ⟨rfl, hhead⟩), ?_⟩
        rw [canonical_of_first hstart hright]
        show g = ⟨.start, g.right⟩
        rw [← hleft]
      · exact ⟨_, l, r, ⟨inner, hinner, rfl⟩,
          infix_pair_cons.2 (.inr hpair), hg⟩
    · rintro ⟨_, l, r, ⟨inner, hinner, rfl⟩, hpair, rfl⟩
      rcases infix_pair_cons.1 hpair with ⟨rfl, hhead⟩ | hpair
      · have hright : First r (extents true 0 s) :=
          first_of_head? ⟨inner, hinner, rfl⟩ hhead
        rw [canonical_of_first hstart hright]
        exact .inl ⟨rfl, hright⟩
      · exact .inr ⟨_, l, r, ⟨inner, hinner, rfl⟩, hpair, rfl⟩

end Schedule

/-! ### Rows of written nodes -/

namespace Cst

namespace Write

variable {owner : Owner} {origin : Origin} {index : Nat} {slot : Slot}
  {slots : Schedule} {here row : List Element}

theorem map_fst_itemElements (slot : Nat) (separator : Option String)
    (items : List Inner) :
    (itemElements slot separator 0 items).map Prod.fst =
      listElements slot separator items.length := by
  induction items using List.reverseRecOn with
  | nil => rfl
  | append_singleton items item ih =>
    rw [itemElements_concat, List.map_append, ih, List.length_append,
      List.length_singleton, Nat.zero_add]
    cases items with
    | nil => rfl
    | cons first items => cases separator <;> rfl

/-- The elements that a slot is written with are some that it may have. -/
theorem allows_of_slotElements {es : List (Element × Content)}
    (h : slotElements owner origin index slot = .ok es) :
    slot.Allows index (es.map Prod.fst) := by
  cases slot with
  | extras | implied | token =>
    cases h
    constructor
  | scalar | node | virtual =>
    rw [slotElements] at h
    split at h
    · cases h
      constructor
    · cases h
  | optional field =>
    rw [slotElements] at h
    split at h
    · cases h
      exact .present field
    · cases h
      exact .absent field
    · cases h
  | list field separator =>
    rw [slotElements] at h
    split at h
    · cases h
      rw [map_fst_itemElements]
      exact .list field separator _
    · cases h

/-- The elements that a node is written with are a row of its schedule. -/
theorem allows_of_elements {es : List (Element × Content)}
    (h : elements owner origin index slots = .ok es) :
    slots.Allows index (es.map Prod.fst) := by
  induction slots generalizing index es with
  | nil =>
    cases h
    exact .nil index
  | cons slot slots ih =>
    rw [elements] at h
    obtain ⟨here, hhere, h⟩ := Outcome.bind_eq_ok.1 h
    obtain ⟨further, hfurther, h⟩ := Outcome.bind_eq_ok.1 h
    cases h
    rw [List.map_append]
    exact .cons (allows_of_slotElements hhere) (ih hfurther)

/-- The parts of a node have the given fields among them, and a virtual
node of every role. -/
structure Offers (s : Schema) (fields : List (String × Value))
    (parts : List (String × Part)) : Prop where
  field : ∀ name value, fields.lookup name = some value →
    parts.lookup name = some (part s value)
  virtual : ∀ role, ∃ inner, (Origin.fields parts).virtual? role = some inner

/-- No field holds a virtual node. -/
def NoVirtual (fields : List (String × Value)) : Prop :=
  ∀ field ∈ fields, ∀ role wrapped extras,
    field.2 ≠ .virtual role wrapped extras

/-- A row is written for every node that has certain fields, with
names out of a list. -/
def Fillable (s : Schema) (names : List String)
    (write : List (String × Part) → Except CstError (List (Element × Content)))
    (row : List Element) : Prop :=
  ∃ fields : List (String × Value), NoVirtual fields ∧
    (∀ name ∈ fields.map Prod.fst, name ∈ names) ∧
    ∀ parts, Offers s fields parts →
      ∃ es, write parts = .ok es ∧ es.map Prod.fst = row

namespace Fillable

variable {s : Schema} {names names' : List String}
  {write write' : List (String × Part) →
    Except CstError (List (Element × Content))} {row' : List Element}

theorem of_none (h : ∀ parts, Offers s [] parts →
  ∃ es, write parts = .ok es ∧ es.map Prod.fst = row) :
    Fillable s names write row :=
  ⟨[], fun _ hf => absurd hf List.not_mem_nil,
    fun _ hf => absurd hf List.not_mem_nil, h⟩

theorem of_field {name : String} (value : Value) (hname : name ∈ names)
    (hvalue : ∀ role wrapped extras, value ≠ .virtual role wrapped extras)
    (h : ∀ parts : List (String × Part),
      parts.lookup name = some (part s value) →
      ∃ es, write parts = .ok es ∧ es.map Prod.fst = row) :
    Fillable s names write row := by
  refine ⟨[(name, value)], fun f hf => ?_, fun k hk => ?_,
    fun parts hoffers => ?_⟩
  · rw [List.mem_singleton.1 hf]
    exact hvalue
  · rw [List.mem_singleton.1 hk]
    exact hname
  · exact h parts (hoffers.field name value List.lookup_cons_self)

/-- Fields with different names do not get in each other's way. -/
theorem append (h : Fillable s names write row)
    (h' : Fillable s names' write' row')
    (hdisjoint : ∀ name ∈ names, name ∉ names') :
    Fillable s (names ++ names') (fun parts => do
      let es ← write parts
      let es' ← write' parts
      .ok (es ++ es')) (row ++ row') := by
  obtain ⟨fields, hnoVirtual, hnames, hwrite⟩ := h
  obtain ⟨fields', hnoVirtual', hnames', hwrite'⟩ := h'
  refine ⟨fields ++ fields', fun f hf => ?_, fun name hname => ?_,
    fun parts hoffers => ?_⟩
  · exact (List.mem_append.1 hf).elim (hnoVirtual f) (hnoVirtual' f)
  · rw [List.map_append] at hname
    exact List.mem_append.2
      ((List.mem_append.1 hname).imp (hnames name) (hnames' name))
  · have hfront : Offers s fields parts := by
      refine ⟨fun name value hvalue => hoffers.field name value ?_,
        hoffers.virtual⟩
      rw [Named.lookup_append_of_mem _ (Named.mem_keys_of_lookup hvalue),
        hvalue]
    have hbehind : Offers s fields' parts := by
      refine ⟨fun name value hvalue => hoffers.field name value ?_,
        hoffers.virtual⟩
      have hname := hnames' name (Named.mem_keys_of_lookup hvalue)
      rw [Named.lookup_append_of_notMem _ fun hmem =>
        hdisjoint name (hnames name hmem) hname, hvalue]
    obtain ⟨es, hes, hrow⟩ := hwrite parts hfront
    obtain ⟨es', hes', hrow'⟩ := hwrite' parts hbehind
    exact ⟨es ++ es', by simp only [hes, hes',
      Outcome.ok_bind], by rw [List.map_append, hrow, hrow']⟩

end Fillable

/-- Every choice of elements for a slot is that of some field. -/
theorem fillable_slot (s : Schema) (owner : Owner)
    (h : slot.Allows index here) :
    Fillable s (slot.field?.toList.map FieldDef.name)
      (fun parts => slotElements owner (.fields parts) index slot) here := by
  cases h with
  | extras | implied | token => exact .of_none fun parts _ => ⟨_, rfl, rfl⟩
  | virtual role =>
    refine .of_none fun parts hoffers => ?_
    obtain ⟨inner, hinner⟩ := hoffers.virtual role
    exact ⟨[(.child index, .inner inner)], by rw [slotElements, hinner], rfl⟩
  | scalar field =>
    refine .of_field (.scalar (.string "")) (List.mem_singleton_self field)
      (fun _ _ _ h => by cases h) fun parts hfield => ?_
    exact ⟨[(.token index, .text "")], by simp only [slotElements, Origin.part?,
      hfield, part], rfl⟩
  | node field | present field =>
    refine .of_field (.node default) (List.mem_singleton_self field)
      (fun _ _ _ h => by cases h) fun parts hfield => ?_
    exact ⟨[(.child index,
      .inner _)], by simp only [slotElements, Origin.part?, hfield, part]; rfl,
      rfl⟩
  | absent field =>
    refine .of_field .absent (List.mem_singleton_self field)
      (fun _ _ _ h => by cases h) fun parts hfield => ?_
    exact ⟨[], by simp only [slotElements, Origin.part?, hfield, part], rfl⟩
  | list field separator count =>
    refine .of_field (.list (List.replicate count default))
      (List.mem_singleton_self field)
      (fun _ _ _ h => by cases h) fun parts hfield => ?_
    refine ⟨itemElements index separator 0
      (inners s (List.replicate count default)), ?_, ?_⟩
    · simp only [slotElements, Origin.items?, Origin.part?, hfield, part]
    · rw [map_fst_itemElements, inners_eq_map, List.length_map,
        List.length_replicate]

theorem fillable_slots (s : Schema) (owner : Owner)
    (hnames : ((slots.filterMap Slot.field?).map FieldDef.name).Nodup)
    (h : slots.Allows index row) :
    Fillable s ((slots.filterMap Slot.field?).map FieldDef.name)
      (fun parts => elements owner (.fields parts) index slots) row := by
  induction h with
  | nil index => exact .of_none fun parts _ => ⟨[], rfl, rfl⟩
  | @cons index slot slots here further hfirst _ ih =>
    have hplaced :
        ((slot :: slots).filterMap Slot.field?).map FieldDef.name =
          slot.field?.toList.map FieldDef.name ++
            (slots.filterMap Slot.field?).map FieldDef.name := by
      rw [List.filterMap_cons]
      cases slot.field? <;> rfl
    rw [hplaced] at hnames ⊢
    obtain ⟨-, hnames', hdisjoint⟩ := List.nodup_append.1 hnames
    exact (fillable_slot s owner hfirst).append (ih hnames') fun name
      hname hname' =>
      hdisjoint name hname name hname' rfl

/-- Where no name is placed twice, every row of a schedule is
that of some node. -/
theorem exists_elements (s : Schema) (owner : Owner)
    (hnames : ((slots.filterMap Slot.field?).map FieldDef.name).Nodup)
    (h : slots.Allows 0 row) :
    ∃ (fields : List (String × Value)) (es : List (Element × Content)),
      elements owner (.fields (parts s fields)) 0 slots = .ok es ∧
      es.map Prod.fst = row := by
  obtain ⟨fields, hnoVirtual, -, hwrite⟩ := fillable_slots s owner hnames h
  let virtuals :=
    VirtualRole.all.map fun role => ("", Value.virtual role none .empty)
  refine ⟨fields ++ virtuals,
    hwrite _ ⟨fun name value hvalue => ?_, fun role => ?_⟩⟩
  · rw [lookup_parts,
      Named.lookup_append_of_mem _ (Named.mem_keys_of_lookup hvalue), hvalue,
      Option.map_some]
  · -- the virtual nodes stand behind the fields, none of which hides them
    have hfields : (Origin.fields (parts s fields)).virtual? role = none := by
      rw [Origin.virtual?, List.findSome?_eq_none_iff, parts_eq_map]
      intro p hp
      obtain ⟨⟨name, value⟩, hfield, rfl⟩ := List.mem_map.1 hp
      cases value with
      | virtual role' wrapped extras =>
        exact absurd rfl (hnoVirtual _ hfield role' wrapped extras)
      | _ => rfl
    rw [Origin.virtual?] at hfields ⊢
    rw [parts_eq_map, List.map_append, ← parts_eq_map, List.findSome?_append,
      hfields, Option.none_or]
    cases role <;> exact ⟨_, rfl⟩

end Write

/-- The gaps that are listed for a schedule are the pairs of neighbours in its
rows, for every choice of optional slots and of the lengths of lists. The
elements that a node is written with are such a row, and every row is that of
some node unless the schedule places a name twice. -/
theorem gaps_exact (schedule : Schedule) (root : Bool) :
    (∀ g, g ∈ schedule.gaps root ↔
      ∃ row l r, schedule.Row root row ∧
        [l, r] <:+: row ∧ g = (⟨l, r⟩ : Gap).canonical) ∧
      (∀ owner origin es, Write.elements owner origin 0 schedule = .ok es →
        schedule.Allows 0 (es.map Prod.fst)) ∧
      (((schedule.filterMap Slot.field?).map FieldDef.name).Nodup →
        ∀ s owner row, schedule.Allows 0 row →
          ∃ fields es, Write.elements owner
              (.fields (Write.parts s fields)) 0 schedule = .ok es ∧
            es.map Prod.fst = row) :=
  ⟨fun _ => Schedule.mem_gaps_iff_of_row,
    fun _ _ _ h => Write.allows_of_elements h,
    fun hnames s owner _ h => Write.exists_elements s owner hnames h⟩

/-- The schedule of a call with its labels. -/
def callSlots : Schedule :=
  [.node "callee", .extras "afterCallee", .token "(", .extras "insideArguments",
    .list "arguments" (some ","), .token ")"]

/-- The elements of a call with three arguments. -/
def callRow : List Element :=
  [.child 0, .token 2, .item 4 0, .separator 4 0, .item 4 1, .separator 4 1,
    .item 4 2, .token 5]

theorem gaps_exact_sample :
    callSlots.Allows 0 callRow ∧
      ((callSlots.filterMap Slot.field?).map FieldDef.name).Nodup ∧
      (⟨.separator 4 0, .item 4 1⟩ : Gap) ∈ callSlots.gaps false ∧
      (⟨.child 0, .item 4 0⟩ : Gap) ∉ callSlots.gaps false ∧ ∃ fields es,
        Write.elements (.node "CallExpression") (.fields (Write.parts
          ⟨.functions, .extendedLabels, [], []⟩ fields)) 0 callSlots = .ok es ∧
        es.map Prod.fst = callRow := by
  have hrow : callSlots.Allows 0 callRow :=
    .cons (.node _) (.cons (.extras _) (.cons (.token _)
      (.cons (.extras _) (.cons (.list _ _ 3) (.cons (.token _) (.nil 6))))))
  have hnames :
      ((callSlots.filterMap Slot.field?).map FieldDef.name).Nodup := by decide
  obtain ⟨hgaps, -, hfields⟩ := gaps_exact callSlots false
  -- the gap in front of the third argument is listed as the one in
  -- front of the second
  have hthird : [Element.separator 4 1, .item 4 2] <:+: callRow :=
    ⟨[.child 0, .token 2, .item 4 0, .separator 4 0, .item 4 1],
      [.token 5], rfl⟩
  exact ⟨hrow, hnames,
    (hgaps _).2 ⟨callRow, _, _, ⟨callRow, hrow, rfl⟩, hthird, rfl⟩, by decide,
    hfields hnames _ _ _ hrow⟩

end Cst

end Lossless
