import Lossless.Proofs.Coverage
import Lossless.Proofs.Filling
import Lossless.Proofs.Neighbours

/-!
# Anchors in front of an element

A schema has checked the anchors of its listed gaps. Along the slots of a
schedule a frame only comes upon such gaps: `Near` says what its last element
can be, `Facing` that the gap to the next element is a listed one. Under a
schema whose anchors can be followed (`Schema.Resolves`), that gap has a fitting
anchor (`Facing.exists_anchor`).
-/

namespace Lossless

/-- The anchors of a schema can be followed: they do not depend on how long a
list is, and a label that one owner shares is known to all. -/
structure Schema.Resolves (s : Schema) : Prop where
  sound : s.Sound
  indexFree : ∀ owner schedule g g' a, Gap.ground g = g'.ground →
    s.strategy.anchor owner schedule g = .ok a →
    s.strategy.anchor owner schedule g' = .ok a
  shares : ∀ owner owner' e e', s.entry? owner = some e →
    s.entry? owner' = some e' →
    ∀ label, (s.strategy.vocabulary owner []).contains label = true →
      e'.vocabulary.contains label = true

/-- The place that an anchor leads to lies at its gap: a label of the owner
between the elements, or behind the child on the left, or in front of the
child on the right. -/
def Anchor.Lies (a : Anchor) (g : Gap) (schedule : Schedule) : Prop :=
  match a.target with
  | .owner => a.label ∈ g.labels schedule
  | .left => a.label = .after
  | .right => a.label = .before

/-- The anchors of a strategy lead to places at their gaps, so that no two
gaps share a place. -/
def Strategy.Local (strategy : Strategy) : Prop :=
  ∀ owner schedule g a, strategy.anchor owner schedule g = .ok a →
    a.Lies g schedule

namespace Cst

namespace Build

variable {c : Context} {owner : Owner} {entry : SchemaEntry} {flag : Bool}
  {f f' : Frame} {index : Nat} {slot : Slot} {e l : Element}
  {x : Schedule.Extent} {tokens : List SourceToken}

/-- The last element of a frame is one that can stand in front of the
slot with an index. -/
def Near (entry : SchemaEntry) (flag : Bool) (index : Nat) (f : Frame) : Prop :=
  ∀ l, f.left = some l → entry.schedule.Last flag index l

/-- The gap in front of an element is one that the schema has checked. -/
def Facing (entry : SchemaEntry) (flag : Bool) (f : Frame)
    (e : Element) : Prop :=
  ∀ l, f.left = some l → entry.schedule.Occurs flag ⟨l, e⟩

/-- The gap in front of a slot's first element is a checked one. -/
theorem Near.facing (h : Near entry flag index f)
    (hslot : entry.schedule[index]? = some slot)
    (hx : Schedule.Extent.ofSlot? index slot = some x)
    (he : x.first = e.ground) : Facing entry flag f e :=
  fun l hl => (h l hl).occurs hslot hx he

theorem Near.facing_stop (h : Near entry true entry.schedule.length f) :
    Facing entry true f .stop :=
  fun l hl => (h l hl).occurs_stop

/-- A slot that may have no element can be passed. -/
theorem Near.skip (h : Near entry flag index f)
    (hslot : entry.schedule[index]? = some slot)
    (hpass : Schedule.mayPass index slot) (hleft : f'.left = f.left) :
    Near entry flag (index + 1) f' :=
  fun l hl => (h l (hleft ▸ hl)).skip hslot hpass

theorem facing_of_left (hleft : f.left = some l)
    (h : entry.schedule.Occurs flag ⟨l, e⟩) : Facing entry flag f e := by
  intro l' hl
  rw [hleft] at hl
  cases hl
  exact h

/-- Behind a slot's last element a frame stands in front of the next slot. -/
theorem near_of_left (hslot : entry.schedule[index]? = some slot)
    (hx : Schedule.Extent.ofSlot? index slot = some x) (he : x.last = e.ground)
    (hleft : f.left = some e) : Near entry flag (index + 1) f := by
  intro l hl
  rw [hleft] at hl
  cases hl
  exact .of_slot hslot hx he

/-- Behind the items of a list a frame stands in front of the next slot. -/
theorem near_of_items {field : String} {separator : Option String} {count : Nat}
    (hslot : entry.schedule[index]? = some (.list field separator))
    (hfirst : count = 0 → Near entry flag index f)
    (hnext : ∀ i, count = i + 1 → f.left = some (.item index i)) :
    Near entry flag (index + 1) f := by
  cases count with
  | zero =>
    refine (hfirst rfl).skip hslot (fun x hx => ?_) rfl
    cases Option.some.inj hx
    rfl
  | succ i => exact near_of_left hslot rfl rfl (hnext i rfl)

/-- The root begins in front of its first slot. -/
theorem near_start (hleft : f.left = some .start) : Near entry true 0 f := by
  intro l hl
  rw [hleft] at hl
  cases hl
  exact .start entry.schedule

/-- A frame that has just been opened stands in front of its first slot. -/
theorem Opened.near {handed : Option Handed} {root : Bool}
    (hopen : Opened c owner handed root f) (hflag : root = true → flag = true) :
    Near entry flag 0 f := by
  cases root with
  | false =>
    intro l hl
    rw [hopen.left] at hl
    exact nomatch hl
  | true =>
    rw [hflag rfl]
    exact near_start hopen.left

/-- The gap in front of an element has a fitting anchor. -/
theorem Facing.exists_anchor (hs : c.schema.Resolves)
    (hfits : Schema.EntryFits c.schema.strategy owner flag entry)
    (howner : f.owner = owner) (hschedule : f.schedule = entry.schedule)
    (hfacing : Facing entry flag f e) (hleft : f.left = some l) :
    ∃ a, c.schema.resolve f.owner f.schedule ⟨l, e⟩ = .ok a ∧
      a.Fits ⟨l, e⟩ entry.vocabulary
        (c.schema.strategy.vocabulary owner []) := by
  -- the gap is checked up to the indices of items, on which the
  -- anchor does not depend
  rcases hfacing l hleft with ⟨g, hg, hground⟩
  rcases hfits.anchors g hg with ⟨a, ha, hfit⟩
  have hleftChild : g.left.isChild = l.isChild := by
    rw [← Element.isChild_ground g.left, ← Element.isChild_ground l]
    exact congrArg (fun x : Gap => x.left.isChild) hground
  have hrightChild : g.right.isChild = e.isChild := by
    rw [← Element.isChild_ground g.right, ← Element.isChild_ground e]
    exact congrArg (fun x : Gap => x.right.isChild) hground
  refine ⟨a, ?_, ?_⟩
  · rw [Schema.resolve, howner, hschedule]
    exact hs.indexFree owner entry.schedule g ⟨l, e⟩ a hground ha
  · rw [Anchor.Fits, hleftChild, hrightChild] at hfit
    exact hfit

end Build

end Cst

end Lossless
