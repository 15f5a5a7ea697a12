import Lossless.Schedule.Neighbours

/-!
# Every pair of neighbours is listed

`Schedule.gaps` looks at lists with at most two items. Up to the indices of
items and separators, which `ground` forgets, it nevertheless lists every pair
of elements that can be neighbours in a node: `Schedule.Last` says which
elements can come last in front of a slot, and the gap from such an element to
the first element of the slot occurs among the listed ones
(`Schedule.Last.occurs`).
-/

namespace Lossless

/-- An element without the index of its item or separator. -/
def Element.ground : Element → Element
  | item slot _ => item slot 0
  | separator slot _ => separator slot 0
  | e => e

/-- A gap without the indices of items and separators. -/
def Gap.ground (g : Gap) : Gap := ⟨g.left.ground, g.right.ground⟩

@[simp] theorem Element.isChild_ground (e : Element) :
    e.ground.isChild = e.isChild := by
  cases e <;> rfl

@[simp] theorem Element.isItem_ground (e : Element) :
    e.ground.isItem = e.isItem := by
  cases e <;> rfl

@[simp] theorem Element.slot?_ground (e : Element) :
    e.ground.slot? = e.slot? := by
  cases e <;> rfl

namespace Schedule

namespace Extent

theorem ofSlots_append (index : Nat) (s s' : Schedule) :
    ofSlots index (s ++ s') =
      ofSlots index s ++ ofSlots (index + s.length) s' := by
  induction s generalizing index with
  | nil => rfl
  | cons slot s ih =>
    have hindex : index + 1 + s.length = index + (slot :: s).length := by
      rw [List.length_cons]
      omega
    rw [List.cons_append, ofSlots, ofSlots, ih, hindex, List.append_assoc]

theorem mem_gapsFrom {left : Element} {y : Extent}
    {between behind : List Extent} (h : ∀ x ∈ between, x.mayBeEmpty = true) :
    ⟨left, y.first⟩ ∈ gapsFrom left (between ++ y :: behind) := by
  induction between with
  | nil => exact List.mem_cons_self
  | cons x between ih =>
    rw [List.cons_append, gapsFrom, if_pos (h x List.mem_cons_self)]
    exact List.mem_cons_of_mem _ (ih fun z hz =>
      h z (List.mem_cons_of_mem _ hz))

/-- Two extents are neighbours where all extents between them may be empty. -/
theorem mem_gapsBetween {x y : Extent}
    (before : List Extent) {between : List Extent} (behind : List Extent)
    (h : ∀ z ∈ between, z.mayBeEmpty = true) :
    ⟨x.last, y.first⟩ ∈
      gapsBetween (before ++ x :: (between ++ y :: behind)) := by
  induction before with
  | nil => exact List.mem_append_left _ (mem_gapsFrom h)
  | cons z before ih => exact List.mem_append_right _ ih

end Extent

/-- The extent that a slot gives to a node which may be empty in a slot
without elements. -/
def mayPass (index : Nat) (slot : Slot) : Prop :=
  ∀ x, Extent.ofSlot? index slot = some x → x.mayBeEmpty = true

/-- The extents in front of the slot with an index, with the start of the
text for the root. -/
def front (s : Schedule) (root : Bool) (index : Nat) : List Extent :=
  (if root then [.one .start] else []) ++ Extent.ofSlots 0 (s.take index)

/-- An element can be the last one in front of the slot with an index. -/
def Last (s : Schedule) (root : Bool) (index : Nat) (e : Element) : Prop :=
  ∃ before x between, s.front root index = before ++ x :: between ∧
    x.last = e.ground ∧ ∀ z ∈ between, z.mayBeEmpty = true

/-- A gap is listed, up to the indices of items and separators. -/
def Occurs (s : Schedule) (root : Bool) (g : Gap) : Prop :=
  ∃ g' ∈ s.gaps root, g'.ground = g.ground

variable {s : Schedule} {root : Bool} {index : Nat} {slot : Slot}

theorem take_succ_of_getElem? (h : s[index]? = some slot) :
    s.take (index + 1) = s.take index ++ [slot] := by
  rw [List.take_add_one, h]
  rfl

theorem length_take_of_getElem? (h : s[index]? = some slot) :
    (s.take index).length = index := by
  rcases List.getElem?_eq_some_iff.1 h with ⟨hlt, -⟩
  rw [List.length_take]
  omega

/-- The first slot from an index on, and those behind it. -/
theorem getElem?_of_drop {slots : Schedule} (h : s.drop index = slot :: slots) :
    s[index]? = some slot ∧ s.drop (index + 1) = slots := by
  constructor
  · have hdrop : (s.drop index)[0]? = some slot := by
      rw [h]
      rfl
    rwa [List.getElem?_drop] at hdrop
  · rw [← List.tail_drop, h]
    rfl

theorem front_succ (root : Bool) (h : s[index]? = some slot) :
    s.front root (index + 1) =
      s.front root index ++ (Extent.ofSlot? index slot).toList := by
  rw [front, take_succ_of_getElem? h, Extent.ofSlots_append,
    length_take_of_getElem? h]
  simp [front, Extent.ofSlots]

/-- The extents of a schedule are those in front of a slot, its own and
those behind it. -/
theorem exists_extents (root : Bool) (h : s[index]? = some slot) :
    ∃ behind, (if root then [Extent.one .start] else []) ++
        Extent.ofSlots 0 s ++ (if root then [Extent.one .stop] else []) =
      s.front root index ++ ((Extent.ofSlot? index slot).toList ++ behind) := by
  have hs :
      Extent.ofSlots 0 s =
        Extent.ofSlots 0 (s.take (index + 1)) ++
          Extent.ofSlots (0 + (s.take (index + 1)).length)
            (s.drop (index + 1)) := by
    rw [← Extent.ofSlots_append, List.take_append_drop]
  refine ⟨Extent.ofSlots (0 + (s.take (index + 1)).length)
    (s.drop (index + 1)) ++ (if root then [Extent.one .stop] else []), ?_⟩
  rw [hs, ← List.append_assoc (s.front root index), ← front_succ root h, front]
  simp only [List.append_assoc]

namespace Last

theorem start (s : Schedule) : s.Last true 0 .start :=
  ⟨[], .one .start, [], by simp [front, Extent.ofSlots], rfl, by simp⟩

/-- Passing a slot without element. -/
theorem skip {e : Element} (h : s.Last root index e)
    (hslot : s[index]? = some slot) (hpass : mayPass index slot) :
    s.Last root (index + 1) e := by
  rcases h with ⟨before, x, between, hf, hx, hb⟩
  refine ⟨before, x, between ++ (Extent.ofSlot? index slot).toList, ?_, hx, ?_⟩
  · rw [front_succ root hslot, hf]
    simp
  · intro z hz
    rcases List.mem_append.1 hz with hz | hz
    · exact hb z hz
    · exact hpass z (Option.mem_toList.1 hz)

/-- Passing a slot with its last element. -/
theorem of_slot {e : Element} {x : Extent} (hslot : s[index]? = some slot)
    (hx : Extent.ofSlot? index slot = some x) (he : x.last = e.ground) :
    s.Last root (index + 1) e :=
  ⟨s.front root index, x, [], by rw [front_succ root hslot, hx]; rfl,
    he, by simp⟩

/-- The gap between an element that can come last in front of a slot and the
slot's first element. -/
theorem occurs {l e : Element} {x : Extent} (h : s.Last root index l)
    (hslot : s[index]? = some slot) (hx : Extent.ofSlot? index slot = some x)
    (he : x.first = e.ground) : s.Occurs root ⟨l, e⟩ := by
  rcases h with ⟨before, y, between, hf, hy, hb⟩
  rcases exists_extents root hslot with ⟨behind, hall⟩
  refine ⟨⟨y.last, x.first⟩, ?_, ?_⟩
  · rw [gaps]
    refine List.mem_append_right _ ?_
    simp only
    rw [hall, hf, hx]
    simpa using Extent.mem_gapsBetween before behind hb
  · rw [Gap.ground, hy, he]
    cases l <;> cases e <;> rfl

/-- The gap between the last element of the root and the end of the text. -/
theorem occurs_stop {l : Element} (h : s.Last true s.length l) :
    s.Occurs true ⟨l, .stop⟩ := by
  rcases h with ⟨before, y, between, hf, hy, hb⟩
  refine ⟨⟨y.last, .stop⟩, ?_, ?_⟩
  · rw [gaps]
    refine List.mem_append_right _ ?_
    rw [front, List.take_length, if_pos rfl] at hf
    simp only [↓reduceIte]
    rw [hf, List.append_assoc, List.cons_append]
    exact Extent.mem_gapsBetween (y := .one .stop) before [] hb
  · rw [Gap.ground, hy]
    cases l <;> rfl

end Last

/-! ### Inside a list -/

theorem gapsInLists_append (index : Nat) (s s' : Schedule) :
    gapsInLists index (s ++ s') =
      gapsInLists index s ++ gapsInLists (index + s.length) s' := by
  induction s generalizing index with
  | nil => rfl
  | cons slot s ih =>
    have hindex : index + 1 + s.length = index + (slot :: s).length := by
      rw [List.length_cons]
      omega
    rw [List.cons_append, gapsInLists, gapsInLists, ih, hindex,
      List.append_assoc]

theorem mem_gaps_of_mem_gapsInSlot {g : Gap} (h : s[index]? = some slot)
    (hg : g ∈ gapsInSlot index slot) : g ∈ s.gaps root := by
  have hs : s = s.take index ++ slot :: s.drop (index + 1) := by
    rw [← List.singleton_append, ← List.append_assoc, ← take_succ_of_getElem? h,
      List.take_append_drop]
  rw [gaps]
  refine List.mem_append_left _ ?_
  rw [hs, gapsInLists_append, length_take_of_getElem? h, gapsInLists,
    Nat.zero_add]
  exact List.mem_append_right _ (List.mem_append_left _ hg)

variable {field text : String}

theorem occurs_item_separator (h : s[index]? = some (.list field (some text)))
    (i j : Nat) : s.Occurs root ⟨.item index i, .separator index j⟩ :=
  ⟨⟨.item index 0, .separator index 0⟩,
    mem_gaps_of_mem_gapsInSlot h (by simp [gapsInSlot]), rfl⟩

theorem occurs_separator_item (h : s[index]? = some (.list field (some text)))
    (i j : Nat) : s.Occurs root ⟨.separator index i, .item index j⟩ :=
  ⟨⟨.separator index 0, .item index 1⟩,
    mem_gaps_of_mem_gapsInSlot h (by simp [gapsInSlot]), rfl⟩

theorem occurs_item_item (h : s[index]? = some (.list field none)) (i j : Nat) :
    s.Occurs root ⟨.item index i, .item index j⟩ :=
  ⟨⟨.item index 0, .item index 1⟩,
    mem_gaps_of_mem_gapsInSlot h (by simp [gapsInSlot]), rfl⟩

end Schedule

end Lossless
