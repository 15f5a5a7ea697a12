import Lossless.Proofs.Progress
import Mathlib.Data.Prod.Lex
import Mathlib.Order.WithBot

/-!
# Gaps that share no place

A run is lost if a second one is stored in its place. Making a schema does not
rule this out: it looks at each gap alone. `Schema.Separates` says what is
missing, that no two gaps of a node lead to the same place and that a node's
parent uses other labels than the node itself. Where anchors lead to places at
their gaps, as those of the bundled strategies do, this follows from the labels
of a schedule being distinct.
-/

namespace Lossless

/-- Where an element stands among those of a node: its slot, and in a list
its place there. -/
def Element.rank : Element → WithTop (ℕ ×ₗ ℕ)
  | start => ↑(toLex (0, 0))
  | token slot | child slot => ↑(toLex (slot + 1, 0))
  | item slot index => ↑(toLex (slot + 1, 2 * index))
  | separator slot index => ↑(toLex (slot + 1, 2 * index + 1))
  | stop => ⊤

namespace Element

variable {e e' : Element} {slot slot' : Nat}

theorem exists_rank (h : e.slot? = some slot) :
    ∃ n : ℕ, e.rank = ↑(toLex (slot + 1, n)) := by
  cases e with
  | start | stop => exact nomatch h
  | _ =>
    cases Option.some.inj h
    exact ⟨_, rfl⟩

theorem rank_lt_rank (h : e.slot? = some slot) (h' : e'.slot? = some slot')
    (hlt : slot < slot') : e.rank < e'.rank := by
  obtain ⟨n, hn⟩ := exists_rank h
  obtain ⟨n', hn'⟩ := exists_rank h'
  rw [hn, hn', WithTop.coe_lt_coe, Prod.Lex.toLex_lt_toLex]
  exact .inl (Nat.succ_lt_succ hlt)

theorem slot_le_slot (h : e.slot? = some slot) (h' : e'.slot? = some slot')
    (hle : e.rank ≤ e'.rank) : slot ≤ slot' :=
  Nat.le_of_not_lt fun hlt => absurd (rank_lt_rank h' h hlt) (not_lt_of_ge hle)

theorem rank_start_lt (h : e.slot? = some slot) : start.rank < e.rank := by
  obtain ⟨n, hn⟩ := exists_rank h
  rw [hn, rank, WithTop.coe_lt_coe, Prod.Lex.toLex_lt_toLex]
  exact .inl (Nat.succ_pos slot)

theorem rank_start_le (e : Element) : start.rank ≤ e.rank := by
  cases he : e.slot? with
  | some slot => exact le_of_lt (rank_start_lt he)
  | none =>
    cases e with
    | start => exact le_refl _
    | stop => exact le_top
    | _ => exact nomatch he

theorem rank_item_lt_separator (slot index : Nat) :
    (item slot index).rank < (separator slot index).rank := by
  simp [rank, Prod.Lex.toLex_lt_toLex]

theorem rank_separator_lt_item (slot index : Nat) :
    (separator slot index).rank < (item slot (index + 1)).rank := by
  have hlt : 2 * index + 1 < 2 * (index + 1) := by omega
  simp [rank, Prod.Lex.toLex_lt_toLex, hlt]

/-- An element with further ones in front of it and behind it
belongs to a slot. -/
theorem exists_slot {l r : Element} (hleft : l.rank < e.rank)
    (hright : e.rank < r.rank) : ∃ slot, e.slot? = some slot := by
  cases e with
  | start => exact absurd hleft (not_lt_of_ge (rank_start_le l))
  | stop => exact absurd hright not_top_lt
  | _ => exact ⟨_, rfl⟩

end Element

/-- A gap lies in front of another one of the same node. -/
structure Gap.Ahead (g g' : Gap) : Prop where
  forward : g.left.rank < g.right.rank
  ahead : g.right.rank ≤ g'.left.rank
  forward' : g'.left.rank < g'.right.rank

/-- The labels of a gap lie in front of those of a later gap. -/
theorem Gap.Ahead.high_le_low {g g' : Gap} (h : g.Ahead g')
    (schedule : Schedule) : g.high schedule ≤ g'.low := by
  obtain ⟨k, hk⟩ :=
    Element.exists_slot h.forward (lt_of_le_of_lt h.ahead h.forward')
  obtain ⟨k', hk'⟩ :=
    Element.exists_slot (lt_of_lt_of_le h.forward h.ahead) h.forward'
  have hkk' : k ≤ k' := Element.slot_le_slot hk hk' h.ahead
  have hlow : g.low ≤ k + 1 := by
    rw [low]
    cases hl : g.left.slot? with
    | none => exact Nat.zero_le _
    | some l =>
      exact Nat.succ_le_succ (Element.slot_le_slot hl hk (le_of_lt h.forward))
  have hlow' : g'.low = k' + 1 := by rw [low, hk']
  rw [high, hk, Option.getD_some, hlow']
  omega

/-! ### The order of elements along a schedule -/

namespace Schedule

theorem Extent.exists_slot {x : Extent} {index : Nat} {s : Schedule}
    (h : x ∈ ofSlots index s) :
    ∃ slot, x.last.slot? = some slot ∧ slot < index + s.length := by
  induction s generalizing index with
  | nil => exact absurd h List.not_mem_nil
  | cons slot s ih =>
    rw [ofSlots] at h
    rcases List.mem_append.1 h with h | h
    · refine ⟨index, ?_, by simp⟩
      cases slot <;> simp [ofSlot?] at h <;> subst h <;> rfl
    · obtain ⟨k, hk, hlt⟩ := ih h
      refine ⟨k, hk, ?_⟩
      rw [List.length_cons]
      omega

variable {s : Schedule} {root : Bool} {index : Nat} {l e : Element}

/-- What can come last in front of a slot is the start of the text, or belongs
to an earlier slot. -/
theorem Last.start_or_slot (h : s.Last root index l) :
    l = .start ∨ ∃ slot, l.slot? = some slot ∧ slot < index := by
  obtain ⟨before, x, between, hfront, hlast, -⟩ := h
  have hx : x ∈ s.front root index := by simp [hfront]
  rw [front] at hx
  rcases List.mem_append.1 hx with hx | hx
  · left
    have hstart : x = .one .start := by
      cases root with
      | false => simp at hx
      | true => simpa using hx
    rw [hstart] at hlast
    cases l with
    | start => rfl
    | _ => cases hlast
  · right
    obtain ⟨slot, hslot, hlt⟩ := Extent.exists_slot hx
    rw [hlast, Element.slot?_ground] at hslot
    have hlength := List.length_take_le index s
    exact ⟨slot, hslot, by omega⟩

theorem Last.rank_lt (h : s.Last root index l) (he : e.slot? = some index) :
    l.rank < e.rank := by
  rcases h.start_or_slot with rfl | ⟨slot, hslot, hlt⟩
  · exact Element.rank_start_lt he
  · exact Element.rank_lt_rank hslot he hlt

theorem Last.rank_lt_stop (h : s.Last root index l) :
    l.rank < Element.stop.rank := by
  rcases h.start_or_slot with rfl | ⟨slot, hslot, -⟩
  · exact WithTop.coe_lt_top _
  · obtain ⟨n, hn⟩ := Element.exists_rank hslot
    rw [hn]
    exact WithTop.coe_lt_top _

end Schedule

/-! ### Places -/

/-- The place that an anchor leads to: a label of the owner, or one of the child
beside the gap. -/
def Anchor.place (a : Anchor) (g : Gap) : Option Element × Label :=
  match a.target with
  | .owner => (none, a.label)
  | .left => (some g.left, a.label)
  | .right => (some g.right, a.label)

namespace Schema

/-- A gap that can occur in the nodes of an owner has an anchor. -/
def Leads (s : Schema) (owner : Owner) (g : Gap) (a : Anchor) : Prop :=
  ∃ e, s.entry? owner = some e ∧
    e.schedule.Occurs (owner = .node s.grammar.root) g ∧
    s.strategy.anchor owner e.schedule g = .ok a

/-- No place is led to twice: neither by two gaps of one node, nor by a node
and its parent. -/
structure Separates (s : Schema) : Prop where
  apart : ∀ owner g g' a a', s.Leads owner g a → s.Leads owner g' a' →
    g.Ahead g' → a.place g ≠ a'.place g'
  own : ∀ owner owner' g g' a a', s.Leads owner g a → s.Leads owner' g' a' →
    a.target = .owner → a'.target ≠ .owner → a.label ≠ a'.label

/-- Anchors that lead to places at their gaps do not lead to the same place. -/
theorem Sound.separates {s : Schema} (hs : s.Sound)
    (hlocal : s.strategy.Local) : s.Separates := by
  constructor
  · rintro owner g g' ⟨target, label⟩ ⟨target', label'⟩ ⟨e, he, -, ha⟩
      ⟨e', he', -, ha'⟩ hahead hplace
    cases he.symm.trans he'
    have hlies := hlocal owner e.schedule g _ ha
    have hlies' := hlocal owner e.schedule g' _ ha'
    have hleft : g.left.rank < g'.left.rank :=
      lt_of_lt_of_le hahead.forward hahead.ahead
    have hright : g.right.rank < g'.right.rank :=
      lt_of_le_of_lt hahead.ahead hahead.forward'
    cases target <;> cases target' <;> simp only [Anchor.place, Prod.mk.injEq,
      reduceCtorEq, Option.some.injEq, false_and, true_and] at hplace
    case owner.owner =>
      obtain ⟨flag, hfits⟩ := hs.entryFits he
      have hlabel : label ∈ Schedule.labels (e.schedule.take g'.low) :=
        Gap.mem_labels_take (hahead.high_le_low e.schedule) hlies
      rw [hplace] at hlabel
      exact Gap.notMem_labels_take hfits.nodup hlies' hlabel
    case left.left => exact hleft.ne (congrArg Element.rank hplace.1)
    case left.right =>
      exact (hleft.trans hahead.forward').ne (congrArg Element.rank hplace.1)
    case right.left =>
      have hbefore : label = .before := hlies
      have hafter : label' = .after := hlies'
      exact absurd (hbefore.symm.trans (hplace.2.trans hafter)) (by decide)
    case right.right => exact hright.ne (congrArg Element.rank hplace.1)
  · rintro owner owner' g g' ⟨target, label⟩ ⟨target', label'⟩ ⟨e, he, -, ha⟩
      ⟨e', he', -, ha'⟩ htarget htarget' hsame
    simp only at htarget htarget' hsame
    subst htarget
    obtain ⟨flag, hfits⟩ := hs.entryFits he
    have hmem : label ∈ e.schedule.labels :=
      Schedule.mem_labels_of_sublist
        ((List.drop_sublist _ _).trans (List.take_sublist _ _))
        (hlocal owner e.schedule g _ ha)
    obtain ⟨hbefore, hafter, -⟩ := hfits.own label hmem
    have hlies' := hlocal owner' e'.schedule g' _ ha'
    cases target' with
    | owner => exact htarget' rfl
    | left => exact hafter (hsame.trans hlies')
    | right => exact hbefore (hsame.trans hlies')

end Schema

end Lossless
