import Lossless.Proofs.Anchoring
import Lossless.Proofs.Members
import Lossless.Proofs.Progress
import Lossless.Proofs.Signs
import Lossless.Cst.Records

/-!
# What writing reads

Between two elements writing reads at most one place: a label of the node
itself, the label behind the child on the left, or the one in front of the child
on the right. So no more runs are written than there are labels
(`countP_along_le`). Where as many are written, every label is read, and then
two nodes of one shape that tell the same signs have the same in all these
places (`along_rigid`).
-/

namespace Lossless

/-- The number of runs in a record, empty ones aside. -/
def Extras.runCount (x : Extras) : Nat :=
  x.entries.countP fun entry => !entry.2.isEmpty

namespace Cst

/-! ### Runs in places -/

section

variable {α : Type} {run run' : α → List Token} {places : List α}

/-- How many of some places hold a run. -/
def filled (run : α → List Token) (places : List α) : Nat :=
  places.countP fun a => !(run a).isEmpty

/-- Runs of the same extras in one place, wherever these stand
in their texts. -/
def Agree (run run' : α → List Token) (a : α) : Prop :=
  (run a).map Token.sign = (run' a).map Token.sign

theorem agree_of_nil {a : α} (h : run a = []) (h' : run' a = []) :
    Agree run run' a := by
  rw [Agree, h, h']

theorem filled_cons (run : α → List Token) (a : α) (places : List α) :
    filled run (a :: places) = filled run [a] + filled run places := by
  rw [← List.singleton_append]
  exact List.countP_append

theorem filled_append (run : α → List Token) (places places' : List α) :
    filled run (places ++ places') = filled run places + filled run places' :=
  List.countP_append

theorem eq_nil_of_filled (h : filled run places = 0) {a : α} (ha : a ∈ places) :
    run a = [] := by
  have hempty := List.countP_eq_zero.1 h a ha
  simpa using hempty

theorem filled_singleton {a : α} (h : run a ≠ []) : filled run [a] = 1 := by
  simp [filled, h]

/-- A place that is read is among those that may be read. -/
theorem filled_toList_le (run : α → List Token) {read : Option α}
    (hread : ∀ a ∈ read, a ∈ places) :
    filled run read.toList ≤ filled run places := by
  cases read with
  | none => exact Nat.zero_le _
  | some a => exact (List.singleton_sublist.2 (hread a rfl)).countP_le

/-- If all runs are in the one place that is read, the others are empty. -/
theorem eq_nil_of_unread [DecidableEq α] {read : Option α}
    (hread : ∀ a ∈ read, a ∈ places)
    (h : filled run places = filled run read.toList) {a : α} (ha : a ∈ places)
    (hne : read ≠ some a) : run a = [] := by
  cases read with
  | none => exact eq_nil_of_filled h ha
  | some b =>
    have hperm :=
      (List.perm_cons_erase (hread b rfl)).countP_eq fun a => !(run a).isEmpty
    change filled run places = filled run (b :: places.erase b) at hperm
    rw [filled_cons] at hperm
    change filled run places = filled run [b] at h
    have hrest : filled run (places.erase b) = 0 := by omega
    exact eq_nil_of_filled hrest
      ((List.mem_erase_of_ne fun he => hne (congrArg some he.symm)).2 ha)

theorem agree_of_filled [DecidableEq α] {read : Option α}
    (hread : ∀ a ∈ read, a ∈ places) (hsame : ∀ a ∈ read, Agree run run' a)
    (h : filled run places = filled run read.toList)
    (h' : filled run' places = filled run' read.toList) :
    ∀ a ∈ places, Agree run run' a := by
  intro a ha
  by_cases hne : read = some a
  · exact hsame a hne
  · exact agree_of_nil (eq_nil_of_unread hread h ha hne)
      (eq_nil_of_unread hread h' ha hne)

end

/-! ### Records -/

section

variable {x x' : Extras} {labels : List Label}

theorem mem_names_of_get {label : Label} (h : x.get label ≠ []) :
    label ∈ x.entries.map Prod.fst := by
  by_contra hnot
  rw [Extras.get, Named.lookup_eq_none.2 hnot] at h
  exact h rfl

/-- Under labels that differ a record tells no more runs than it has,
empty ones aside. -/
theorem filled_le_runCount (x : Extras) (hlabels : labels.Nodup) :
    filled x.get labels ≤ x.runCount := by
  have hsub : (labels.filter fun label => !(x.get label).isEmpty) ⊆
      (x.entries.filter fun entry => !entry.2.isEmpty).map Prod.fst := by
    intro label hlabel
    obtain ⟨-, hget⟩ := List.mem_filter.1 hlabel
    rw [Extras.get] at hget
    cases hlookup : x.entries.lookup label with
    | none => simp [hlookup] at hget
    | some run =>
      rw [hlookup] at hget
      exact List.mem_map.2 ⟨(label, run),
        List.mem_filter.2 ⟨Named.mem_of_lookup hlookup, hget⟩, rfl⟩
  have hlength := ((hlabels.filter _).subperm hsub).length_le
  rw [List.length_map] at hlength
  rw [filled, Extras.runCount, List.countP_eq_length_filter,
    List.countP_eq_length_filter]
  exact hlength

/-- A record holds no more runs than it has labels. -/
theorem filled_le_size (x : Extras) (hlabels : labels.Nodup) :
    filled x.get labels ≤ x.size :=
  Nat.le_trans (filled_le_runCount x hlabels) List.countP_le_length

/-- Records that hold as many runs under some labels as they have labels
hold no others. -/
theorem agree_of_size (hlabels : labels.Nodup)
    (hfull : filled x.get labels = x.size)
    (hfull' : filled x'.get labels = x'.size)
    (h : ∀ label ∈ labels, Agree x.get x'.get label) (label : Label) :
    Agree x.get x'.get label := by
  by_cases hlabel : label ∈ labels
  · exact h label hlabel
  · have hnil :
        ∀ y : Extras, filled y.get labels = y.size → y.get label = [] := by
      intro y hy
      by_contra hget
      have hle := filled_le_size y (List.nodup_cons.2 ⟨hlabel, hlabels⟩)
      rw [filled_cons, filled_singleton hget, hy] at hle
      omega
    exact agree_of_nil (hnil x hfull) (hnil x' hfull')

/-- What is kept under a label of a record, if there is one. -/
def under (x : Option Extras) (label : Label) : List Token :=
  (x.map (·.get label)).getD []

@[simp] theorem filled_under_none (labels : List Label) :
    filled (under none) labels = 0 :=
  List.countP_eq_zero.2 fun _ _ => Bool.false_ne_true

end

/-! ### The place that a gap reads -/

section

variable {s : Schema} {owner : Owner} {schedule : Schedule} {own own' : Extras}
  {root : Bool}

/-- What an anchor leads to, in the record of a node or in those of the children
beside the gap. -/
def view (own : Extras) (left right : Option Extras) (a : Anchor) :
    List Token :=
  match a.target with
  | .owner => own.get a.label
  | .left => under left a.label
  | .right => under right a.label

/-- The places that a gap may read: some labels of the node, and those of the
children beside it. -/
def readable (labels : List Label) : List Anchor :=
  labels.map (Anchor.mk .owner) ++ [⟨.left, .after⟩, ⟨.right, .before⟩]

theorem filled_readable (own : Extras) (left right : Option Extras)
    (labels : List Label) :
    filled (view own left right) (readable labels) =
      filled own.get labels + filled (under left) [.after] +
        filled (under right) [.before] := by
  rw [readable, filled_append, filled_cons, Nat.add_assoc]
  congr 1
  rw [filled, List.countP_map]
  rfl

/-- The place that the gap in front of an element reads. -/
def placeOf (s : Schema) (owner : Owner) (schedule : Schedule)
    (left : Option Element) (e : Element) : Option Anchor :=
  left.bind fun l => (s.resolve owner schedule ⟨l, e⟩).toOption

/-- The first slot behind the left element of a gap. -/
def lowOf : Option Element → Nat
  | some l => (⟨l, .stop⟩ : Gap).low
  | none => 0

theorem Write.between_eq_ok {left : Option Write.Left} {here : Write.Left}
    {ps : List Piece}
    (h : Write.between s owner schedule own left here = .ok ps) :
    ps = Piece.ofRun
      (((placeOf s owner schedule (left.map Left.element) here.element).map
        (view own (left.bind Left.extras?) here.extras?)).getD []) := by
  cases left with
  | none => exact (Except.ok.inj h).symm
  | some left =>
    change Write.gap s owner schedule own left here = .ok ps at h
    cases ha : s.resolve owner schedule ⟨left.element, here.element⟩ with
    | error e =>
      rw [Write.gap, ha] at h
      cases h
    | ok a =>
      rw [gap_of_anchor ha] at h
      simp only [placeOf, Option.map_some, Option.bind_some, ha,
        Except.toOption, Option.getD_some]
      rw [← Except.ok.inj h]
      congr 1

/-- A gap reads a place beside it, if the anchors lead to such places. -/
theorem mem_readable (hlocal : s.strategy.Local) {left : Option Element}
    {e : Element} {high : Nat} (hlow : lowOf left ≤ high)
    (he : e.slot?.getD schedule.length ≤ high) {a : Anchor}
    (ha : a ∈ placeOf s owner schedule left e) :
    a ∈ readable
      (Schedule.labels ((schedule.take high).drop (lowOf left))) := by
  obtain ⟨l, rfl, hplace⟩ := Option.bind_eq_some_iff.1 ha
  cases hresolve : s.resolve owner schedule ⟨l, e⟩ with
  | error _ =>
    rw [hresolve] at hplace
    exact nomatch hplace
  | ok a' =>
    rw [hresolve] at hplace
    cases Option.some.inj hplace
    have hlies := hlocal owner schedule ⟨l, e⟩ a hresolve
    obtain ⟨target, label⟩ := a
    rw [readable]
    cases target with
    | owner =>
      refine List.mem_append_left _ (List.mem_map.2 ⟨label, ?_, rfl⟩)
      have hhigh : (⟨l, e⟩ : Gap).high schedule ≤ high :=
        Nat.max_le.2 ⟨hlow, he⟩
      exact Schedule.mem_labels_of_sublist
        ((List.take_prefix_take_left hhigh).sublist.drop _) hlies
    | left =>
      have hlabel : label = .after := hlies
      simp [hlabel]
    | right =>
      have hlabel : label = .before := hlies
      simp [hlabel]

/-- The place that is read behind the last element: the root reads one, up to
the end of the text. -/
def closing (s : Schema) (owner : Owner) (schedule : Schedule) (root : Bool)
    (left : Option Element) : Option Anchor :=
  if root then placeOf s owner schedule left .stop else none

theorem mem_readable_of_closing (hlocal : s.strategy.Local) (owner : Owner)
    (schedule : Schedule) (root : Bool) (left : Option Element) :
    ∀ a ∈ closing s owner schedule root left,
      a ∈ readable (Schedule.labels (schedule.drop (lowOf left))) := by
  intro a ha
  cases root with
  | false => exact nomatch ha
  | true =>
    have hread := mem_readable (e := .stop) hlocal (Nat.le_max_left ..)
      (Nat.le_max_right (lowOf left) schedule.length) ha
    rwa [List.take_of_length_le (Nat.le_max_right ..)] at hread

/-- The labels from a slot on are those up to a later slot and
those from there on. -/
theorem labels_drop {low high : Nat} (h : low ≤ high) :
    Schedule.labels (schedule.drop low) =
      Schedule.labels ((schedule.take high).drop low) ++
        Schedule.labels (schedule.drop high) := by
  rw [← Schedule.labels_append]
  congr 1
  conv_lhs => rw [← List.take_append_drop high schedule]
  rw [List.drop_append, List.length_take]
  by_cases hlength : high ≤ schedule.length
  · have hzero : low - min high schedule.length = 0 := by omega
    rw [hzero, List.drop_zero]
  · rw [List.drop_eq_nil_of_le (Nat.le_of_not_le hlength), List.drop_nil]

theorem filled_drop (own : Extras) {low high : Nat} (h : low ≤ high) :
    filled own.get (Schedule.labels (schedule.drop low)) =
      filled own.get (Schedule.labels ((schedule.take high).drop low)) +
        filled own.get (Schedule.labels (schedule.drop high)) := by
  rw [labels_drop h, filled_append]

variable {left left' right right' : Option Extras} {read : Option Anchor}
  {labels : List Label}

theorem countP_ofRun_view (run : Anchor → List Token) (read : Option Anchor) :
    (Piece.ofRun ((read.map run).getD [])).countP Piece.isExtras =
      filled run read.toList := by
  cases read with
  | none => rfl
  | some a =>
    change (Piece.ofRun (run a)).countP Piece.isExtras = filled run [a]
    by_cases ha : run a = []
    · simp [filled, ha, Piece.ofRun]
    · rw [Piece.countP_ofRun ha, filled_singleton ha]

/-- If a gap reads all that there is in the places it may read, the runs it
tells settle these places. -/
theorem agree_of_gap (hread : ∀ a ∈ read, a ∈ readable labels)
    (hsigns : ((read.map (view own left right)).getD []).map Token.sign =
      ((read.map (view own' left' right')).getD []).map Token.sign)
    (h : filled own.get labels + filled (under left) [.after] + filled
      (under right) [.before] = filled (view own left right) read.toList)
    (h' : filled own'.get labels + filled (under left') [.after] + filled
      (under right') [.before] = filled (view own' left' right') read.toList) :
    (∀ label ∈ labels, Agree own.get own'.get label) ∧
      Agree (under left) (under left') .after ∧
      Agree (under right) (under right') .before := by
  have hsame :
      ∀ a ∈ read, Agree (view own left right) (view own' left' right') a := by
    rintro a rfl
    exact hsigns
  rw [← filled_readable] at h h'
  have hall := agree_of_filled hread hsame h h'
  refine ⟨fun label hlabel => ?_, ?_, ?_⟩
  · exact hall ⟨.owner, label⟩ (List.mem_append_left _ (List.mem_map.2 ⟨label,
      hlabel, rfl⟩))
  · exact hall ⟨.left, .after⟩ (List.mem_append_right _ List.mem_cons_self)
  · exact hall ⟨.right, .before⟩
      (List.mem_append_right _ (List.mem_cons_of_mem _ List.mem_cons_self))

end

/-! ### Members in a row -/

section

variable {s : Schema} {owner : Owner} {schedule : Schedule} {own own' : Extras}
  {root : Bool}

/-- The record of a member, if it is a child. -/
def Member.record? : Member → Option Extras
  | .word _ => none
  | .child value => some value.record

theorem Member.extras?_content (s : Schema) (m : Member) :
    (m.content s).extras? = m.record? := by
  cases m with
  | word text => rfl
  | child value => exact congrArg Option.some (value.inner_extras s)

/-- The records of a member. -/
def Member.records : Member → List (Owner × Extras)
  | .word _ => []
  | .child value => valueRecords value

/-- A row of signs begins and ends with a leaf. -/
structure Enclosed (signs : List Sign) : Prop where
  opens : ∃ text, signs.head? = some (.leaf text)
  closes : ∃ text, signs.getLast? = some (.leaf text)

/-- A member begins and ends with a leaf, and writes no more runs than it has
labels, apart from those that its parent reads. -/
def Member.Fair (s : Schema) (m : Member) : Prop :=
  ∀ ps, (m.content s).pieces = .ok ps →
    Enclosed (Piece.row ps) ∧
      ps.countP Piece.isExtras + filled (under m.record?) [.before] +
          filled (under m.record?) [.after] ≤
        m.labelCount

/-- A member writes all runs that it has labels for, apart from those that
its parent reads. -/
def Member.Full (m : Member) (ps : List Piece) : Prop :=
  ps.countP Piece.isExtras + filled (under m.record?) [.before] +
      filled (under m.record?) [.after] =
    m.labelCount

/-- Records of the same owners keep runs of the same extras. -/
def SameRecords (rs rs' : List (Owner × Extras)) : Prop :=
  List.Forall₂ (fun r r' => r.1 = r'.1 ∧
    ∀ label, Agree r.2.get r'.2.get label) rs rs'

/-- Two members write the same leaves; and if they write the same signs and all
their runs, then what the parent reads settles what their records keep. -/
def Member.Rigid (s : Schema) (m m' : Member) : Prop :=
  ∀ ps ps', (m.content s).pieces = .ok ps → (m'.content s).pieces = .ok ps' →
    Sign.words (Piece.row ps) = Sign.words (Piece.row ps') ∧
      (Piece.row ps = Piece.row ps' → m.Full ps → m'.Full ps' →
        Agree (under m.record?) (under m'.record?) .before →
        Agree (under m.record?) (under m'.record?) .after →
        SameRecords m.records m'.records)

/-- Elements stand in the order of their slots, the first not far in
front of a slot. -/
def Rising (low : Nat) : List Element → Prop
  | [] => True
  | e :: es =>
    ∃ slot, e.slot? = some slot ∧ low ≤ slot + 1 ∧ Rising (slot + 1) es

/-- The labels that members have for the runs written along them,
from an element on. -/
def allowance (schedule : Schedule) (own : Extras) (left : Option Write.Left)
    (ms : List (Element × Member)) : Nat :=
  filled own.get
      (Schedule.labels (schedule.drop (lowOf (left.map Write.Left.element)))) +
    filled (under (left.bind Write.Left.extras?)) [.after] +
    total (fun m => m.2.labelCount) ms

/-- A member as what stands in front of the next one. -/
def leftOf (m : Element × Member) : Write.Left := ⟨m.1, m.2.record?⟩

theorem contents_cons (s : Schema) (m : Element × Member)
    (ms : List (Element × Member)) :
    contents s (m :: ms) = (m.1, m.2.content s) :: contents s ms := rfl

/-- A first member writes the run in front of it, itself, and
what is behind it. -/
theorem along_cons_eq_ok {left : Option Write.Left} {m : Element × Member}
    {ms : List (Element × Member)} {ps : List Piece}
    (h : Write.along s owner schedule own root left (contents s (m :: ms)) =
      .ok ps) :
    ∃ inside rest, (m.2.content s).pieces = .ok inside ∧
      Write.along s owner schedule own root (some (leftOf m)) (contents s ms) =
        .ok rest ∧
      ps =
        Piece.ofRun
            (((placeOf s owner schedule (left.map Write.Left.element) m.1).map
              (view own (left.bind Write.Left.extras?) m.2.record?)).getD []) ++
          (inside ++ rest) := by
  rw [contents_cons, Write.along_cons] at h
  obtain ⟨between, hbetween, h⟩ := Outcome.bind_eq_ok.1 h
  obtain ⟨inside, hinside, h⟩ := Outcome.bind_eq_ok.1 h
  obtain ⟨rest, hrest, h⟩ := Outcome.bind_eq_ok.1 h
  rw [Write.between_eq_ok hbetween] at h
  rw [m.2.extras?_content] at h hrest
  exact ⟨inside, rest, hinside, hrest, (Except.ok.inj h).symm⟩

/-- Behind the last member the root writes one more run. -/
theorem along_nil_eq_ok {left : Option Write.Left} {ps : List Piece}
    (h : Write.along s owner schedule own root left (contents s []) = .ok ps) :
    ps = Piece.ofRun
      (((closing s owner schedule root (left.map Write.Left.element)).map
        (view own (left.bind Write.Left.extras?) none)).getD []) := by
  cases root with
  | false => cases left <;> exact (Except.ok.inj h).symm
  | true =>
    cases left with
    | none => exact (Except.ok.inj h).symm
    | some left =>
      have hgap : Write.between s owner schedule own (some left) ⟨.stop, none⟩ =
          .ok ps := h
      exact Write.between_eq_ok hgap

theorem lowOf_some {e : Element} {slot : Nat} (h : e.slot? = some slot) :
    lowOf (some e) = slot + 1 := by
  rw [lowOf, Gap.low, h]

section

variable {left left' : Option Write.Left}
  {m m' : Element × Member} {ms ms' : List (Element × Member)}
  {ps ps' inside rest : List Piece} {slot : Nat}

/-- In a gap no more runs are read than there are in the places
that it may read. -/
theorem filled_placeOf_le (hlocal : s.strategy.Local) (owner : Owner)
    (schedule : Schedule) (own : Extras) (hslot : m.1.slot? = some slot)
    (hle : lowOf (left.map Write.Left.element) ≤ slot + 1) :
    filled (view own (left.bind Write.Left.extras?) m.2.record?)
        (placeOf s owner schedule (left.map Write.Left.element) m.1).toList ≤
      filled own.get (Schedule.labels ((schedule.take (slot + 1)).drop
        (lowOf (left.map Write.Left.element)))) +
        filled (under (left.bind Write.Left.extras?)) [.after] +
        filled (under m.2.record?) [.before] := by
  rw [← filled_readable]
  exact filled_toList_le _ fun a =>
    mem_readable hlocal hle (by rw [hslot]; exact Nat.le_succ slot)

theorem filled_closing_le (hlocal : s.strategy.Local) (own : Extras) :
    filled (view own (left.bind Write.Left.extras?) none)
        (closing s owner schedule root (left.map Write.Left.element)).toList ≤
      filled own.get (Schedule.labels
        (schedule.drop (lowOf (left.map Write.Left.element)))) +
        filled (under (left.bind Write.Left.extras?)) [.after] := by
  have hread :=
    mem_readable_of_closing hlocal owner schedule root
      (left.map Write.Left.element)
  have hgap :=
    filled_toList_le (view own (left.bind Write.Left.extras?) none) hread
  rwa [filled_readable, filled_under_none] at hgap

/-- What the members behind one may have is what is left for them. -/
theorem allowance_cons (schedule : Schedule) (own : Extras)
    (ms : List (Element × Member)) (hslot : m.1.slot? = some slot)
    (hle : lowOf (left.map Write.Left.element) ≤ slot + 1) :
    allowance schedule own left (m :: ms) +
        filled (under m.2.record?) [.after] =
      filled own.get (Schedule.labels ((schedule.take (slot + 1)).drop
        (lowOf (left.map Write.Left.element)))) +
        filled (under (left.bind Write.Left.extras?)) [.after] +
        m.2.labelCount + allowance schedule own (some (leftOf m)) ms := by
  rw [allowance, allowance, filled_drop own hle, total_cons]
  simp only [Option.map_some, Option.bind_some, leftOf, lowOf_some hslot]
  omega

/-- What is written along members that keep within limits of their own,
apart from what their parent reads, keeps within these limits and the runs
that the parent has. -/
theorem countP_along_le_total (weight : Member → Nat)
    (hlocal : s.strategy.Local)
    (hrising : Rising (lowOf (left.map Write.Left.element)) (ms.map Prod.fst))
    (hwithin : ∀ m ∈ ms, ∀ ps, (m.2.content s).pieces = .ok ps →
      ps.countP Piece.isExtras + filled (under m.2.record?)
        [.before] + filled (under m.2.record?) [.after] ≤ weight m.2)
    (h : Write.along s owner schedule own root left (contents s ms) = .ok ps) :
    ps.countP Piece.isExtras ≤
      filled own.get (Schedule.labels
        (schedule.drop (lowOf (left.map Write.Left.element)))) +
        filled (under (left.bind Write.Left.extras?)) [.after] +
        total (fun m => weight m.2) ms := by
  induction ms generalizing left ps with
  | nil =>
    rw [along_nil_eq_ok h, countP_ofRun_view]
    exact filled_closing_le hlocal own
  | cons m ms ih =>
    obtain ⟨slot, hslot, hle, hbehind⟩ := hrising
    obtain ⟨inside, rest, hinside, hrest, rfl⟩ := along_cons_eq_ok h
    have hgap := filled_placeOf_le hlocal owner schedule own hslot hle
    have hmember := hwithin m List.mem_cons_self inside hinside
    have hlater := ih (by rwa [Option.map_some, leftOf, lowOf_some hslot])
      (fun m' hm' => hwithin m' (List.mem_cons_of_mem _ hm')) hrest
    simp only [Option.map_some, Option.bind_some, leftOf,
      lowOf_some hslot] at hlater
    rw [List.countP_append, List.countP_append, countP_ofRun_view,
      filled_drop own hle, total_cons]
    omega

/-- What is written along members has no more runs than they have labels. -/
theorem countP_along_le (hlocal : s.strategy.Local)
    (hrising : Rising (lowOf (left.map Write.Left.element)) (ms.map Prod.fst))
    (hfair : ∀ m ∈ ms, m.2.Fair s)
    (h : Write.along s owner schedule own root left (contents s ms) = .ok ps) :
    ps.countP Piece.isExtras ≤ allowance schedule own left ms :=
  countP_along_le_total Member.labelCount hlocal hrising
    (fun m hm inside hinside => (hfair m hm inside hinside).2) h

/-- Where as many runs are written as members have labels, none is
missing anywhere. -/
theorem full_of_along (hlocal : s.strategy.Local)
    (hslot : m.1.slot? = some slot)
    (hle : lowOf (left.map Write.Left.element) ≤ slot + 1)
    (hbehind : Rising (slot + 1) (ms.map Prod.fst))
    (hfair : ∀ m' ∈ m :: ms, m'.2.Fair s)
    (hinside : (m.2.content s).pieces = .ok inside)
    (hrest : Write.along s owner schedule own root
      (some (leftOf m)) (contents s ms) = .ok rest)
    (hfull :
      (Piece.ofRun
          (((placeOf s owner schedule (left.map Write.Left.element) m.1).map
            (view own (left.bind Write.Left.extras?) m.2.record?)).getD []) ++
        (inside ++ rest)).countP Piece.isExtras =
      allowance schedule own left (m :: ms)) :
    filled own.get (Schedule.labels
      ((schedule.take (slot + 1)).drop (lowOf (left.map Write.Left.element)))) +
          filled (under (left.bind Write.Left.extras?)) [.after] +
          filled (under m.2.record?) [.before] =
        filled (view own (left.bind Write.Left.extras?) m.2.record?)
          (placeOf s owner schedule (left.map Write.Left.element) m.1).toList ∧
      m.2.Full inside ∧ rest.countP Piece.isExtras =
        allowance schedule own (some (leftOf m)) ms := by
  have hgap := filled_placeOf_le hlocal owner schedule own hslot hle
  have hmember := (hfair m List.mem_cons_self inside hinside).2
  have hlater := countP_along_le hlocal
    (by rwa [Option.map_some, leftOf, lowOf_some hslot])
    (fun m' hm' => hfair m' (List.mem_cons_of_mem _ hm')) hrest
  have hall := allowance_cons schedule own ms hslot hle
  rw [List.countP_append, List.countP_append, countP_ofRun_view] at hfull
  rw [Member.Full]
  omega

theorem forall_isExtra {tokens : List Token} :
    ∀ g ∈ tokens.map Token.sign, g.isExtra = true := by
  intro g hg
  obtain ⟨t, -, rfl⟩ := List.mem_map.1 hg
  rfl

theorem head?_of_opens {signs behind : List Sign}
    (h : ∃ text, signs.head? = some (.leaf text)) :
    ∀ g, (signs ++ behind).head? = some g → g.isExtra = false := by
  obtain ⟨text, htext⟩ := h
  intro g hg
  rw [List.head?_append, htext] at hg
  cases Option.some.inj hg
  rfl

theorem getLast?_of_closes {signs : List Sign}
    (h : ∃ text, signs.getLast? = some (.leaf text)) :
    ∀ g, signs.getLast? = some g → g.isExtra = false := by
  obtain ⟨text, htext⟩ := h
  intro g hg
  cases htext.symm.trans hg
  rfl

/-- Two rows of members that tell the same signs, with all their runs, have the
same in all places. -/
theorem along_rigid (hlocal : s.strategy.Local)
    (helements : ms'.map Prod.fst = ms.map Prod.fst)
    (hleft : left'.map Write.Left.element = left.map Write.Left.element)
    (hrising : Rising (lowOf (left.map Write.Left.element)) (ms.map Prod.fst))
    (hfair : ∀ m ∈ ms, m.2.Fair s) (hfair' : ∀ m ∈ ms', m.2.Fair s)
    (hrigid : ∀ p ∈ ms.zip ms', p.1.2.Rigid s p.2.2)
    (h : Write.along s owner schedule own root left (contents s ms) = .ok ps)
    (h' : Write.along s owner schedule own' root left' (contents s ms') =
      .ok ps') (hsigns : Piece.row ps = Piece.row ps')
    (hfull : ps.countP Piece.isExtras = allowance schedule own left ms)
    (hfull' : ps'.countP Piece.isExtras = allowance schedule own' left' ms') :
    (∀ label ∈ Schedule.labels (schedule.drop
      (lowOf (left.map Write.Left.element))), Agree own.get own'.get label) ∧
      Agree (under (left.bind Write.Left.extras?))
        (under (left'.bind Write.Left.extras?)) .after ∧
      ∀ p ∈ ms.zip ms', SameRecords p.1.2.records p.2.2.records := by
  induction ms generalizing ms' left left' ps ps' with
  | nil =>
    cases List.map_eq_nil_iff.1 helements
    rw [along_nil_eq_ok h, along_nil_eq_ok h', hleft, Piece.row_ofRun,
      Piece.row_ofRun] at hsigns
    rw [along_nil_eq_ok h, countP_ofRun_view] at hfull
    rw [along_nil_eq_ok h', countP_ofRun_view, allowance, hleft] at hfull'
    obtain ⟨hown, hafter, -⟩ := agree_of_gap (mem_readable_of_closing
      hlocal owner schedule root (left.map Write.Left.element)) hsigns
      (by rw [filled_under_none]; exact hfull.symm)
      (by rw [filled_under_none]; exact hfull'.symm)
    exact ⟨hown, hafter, fun p hp => absurd hp List.not_mem_nil⟩
  | cons m ms ih =>
    cases ms' with
    | nil => exact nomatch helements
    | cons m' ms' =>
      obtain ⟨helement, helements⟩ := List.cons.inj helements
      obtain ⟨slot, hslot, hle, hbehind⟩ := hrising
      have hslot' : m'.1.slot? = some slot := helement ▸ hslot
      have hle' : lowOf (left'.map Write.Left.element) ≤ slot + 1 := hleft ▸ hle
      obtain ⟨inside, rest, hinside, hrest, rfl⟩ := along_cons_eq_ok h
      obtain ⟨inside', rest', hinside', hrest', rfl⟩ := along_cons_eq_ok h'
      obtain ⟨hgap, hmember, hlater⟩ :=
        full_of_along hlocal hslot hle hbehind hfair hinside hrest hfull
      obtain ⟨hgap', hmember', hlater'⟩ :=
        full_of_along hlocal hslot' hle'
          (helements ▸ hbehind) hfair' hinside' hrest' hfull'
      obtain ⟨hopens, hcloses⟩ := (hfair m List.mem_cons_self inside hinside).1
      obtain ⟨hopens', hcloses'⟩ :=
        (hfair' m' List.mem_cons_self inside' hinside').1
      obtain ⟨hwords, hsame⟩ :=
        hrigid (m, m') List.mem_cons_self inside inside' hinside hinside'
      rw [hleft, helement] at hsigns hgap'
      simp only [Piece.row_append, Piece.row_ofRun] at hsigns
      -- the run in front reaches up to the first leaf of the member
      obtain ⟨hrun, hsigns⟩ :=
        Sign.extras_append_inj forall_isExtra forall_isExtra
          (head?_of_opens hopens) (head?_of_opens hopens') hsigns
      obtain ⟨hrow, hsigns⟩ :=
        Sign.leaves_append_inj (getLast?_of_closes hcloses)
          (getLast?_of_closes hcloses') hwords hsigns
      obtain ⟨hown, hafter, hbefore⟩ := agree_of_gap (fun a =>
        mem_readable hlocal hle (by rw [hslot]; exact Nat.le_succ slot))
        hrun hgap (hleft ▸ hgap')
      obtain ⟨hlabels, hafter', hzip⟩ := ih helements
        (by rw [Option.map_some, Option.map_some, leftOf, leftOf, helement])
        (by rwa [Option.map_some, leftOf, lowOf_some hslot])
        (fun m' hm' => hfair m' (List.mem_cons_of_mem _ hm'))
        (fun m' hm' => hfair' m' (List.mem_cons_of_mem _ hm'))
        (fun p hp => hrigid p (List.mem_cons_of_mem _ hp)) hrest hrest' hsigns
        hlater hlater'
      rw [Option.map_some, leftOf, lowOf_some hslot] at hlabels
      refine ⟨fun label hlabel => ?_, hafter, fun p hp => ?_⟩
      · rw [labels_drop hle] at hlabel
        rcases List.mem_append.1 hlabel with hlabel | hlabel
        · exact hown label hlabel
        · exact hlabels label hlabel
      · rcases List.mem_cons.1 hp with rfl | hp
        · exact hsame hrow hmember hmember' hbefore hafter'
        · exact hzip p hp

end

end

end Cst

end Lossless
