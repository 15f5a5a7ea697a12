import Lossless.Proofs.Anchoring
import Lossless.Proofs.Pieces
import Lossless.Proofs.Placing

/-!
# Writing while building

What a frame has read so far is what its elements so far are written as.
`Site.Progress` says this of a frame between two elements, and `Site.Poised` of
one in front of an element, when the extras there have been stored. Both hold
for any record that agrees with the frame's where it is settled: the labels up
to the last element for the frame itself, and all labels but the one behind it
for its last child. The anchors of later gaps lead elsewhere, so nothing that
has been read is written differently in the end.
-/

namespace Lossless

/-! ### Labels of a schedule -/

theorem Schedule.labels_append (s s' : Schedule) :
    labels (s ++ s') = labels s ++ labels s' :=
  List.filterMap_append

theorem Schedule.mem_labels_of_sublist {s s' : Schedule} {label : Label}
    (hs : s.Sublist s') (h : label ∈ labels s) : label ∈ labels s' :=
  (hs.filterMap Slot.label?).subset h

theorem Schedule.mem_labels_take {s : Schedule} {label : Label} {n n' : Nat}
    (hn : n ≤ n') (h : label ∈ labels (s.take n)) :
    label ∈ labels (s.take n') :=
  mem_labels_of_sublist (List.take_prefix_take_left hn).sublist h

/-- The labels of a gap stand in front of its right element. -/
theorem Gap.mem_labels_take {g : Gap} {s : Schedule} {label : Label} {n : Nat}
    (hn : g.high s ≤ n) (h : label ∈ g.labels s) :
    label ∈ Schedule.labels (s.take n) :=
  Schedule.mem_labels_take hn
    (Schedule.mem_labels_of_sublist (List.drop_sublist _ _) h)

/-- The labels of a gap stand behind its left element. -/
theorem Gap.notMem_labels_take {g : Gap} {s : Schedule} {label : Label}
    (hnodup : (Schedule.labels s).Nodup) (h : label ∈ g.labels s) :
    label ∉ Schedule.labels (s.take g.low) := by
  intro hlow
  have hdrop : label ∈ Schedule.labels (s.drop g.low) := by
    rw [labels, List.drop_take] at h
    exact Schedule.mem_labels_of_sublist (List.take_sublist _ _) h
  rw [← List.take_append_drop g.low s, Schedule.labels_append] at hnodup
  exact (List.nodup_append.1 hnodup).2.2 _ hlow _ hdrop rfl

/-- Two records keep the same under the labels of a kind. -/
def Extras.AgreeOn (on : Label → Prop) (x y : Extras) : Prop :=
  ∀ label, on label → x.get label = y.get label

namespace Cst

namespace Build

variable {c : Context} {f f' : Frame} {e l : Element}
  {tokens rest : List SourceToken} {handed : Option Handed}

/-! ### What a frame shows -/

/-- The number of slots up to the last element. -/
def Frame.reach (f : Frame) : Nat :=
  match f.left.bind Element.slot? with
  | some slot => slot + 1
  | none => 0

theorem low_eq_reach (hleft : f.left = some l) (e : Element) :
    (⟨l, e⟩ : Gap).low = f.reach := by
  have hslot : f.left.bind Element.slot? = l.slot? := by
    rw [hleft, Option.bind_some]
  rw [Frame.reach, hslot]
  rfl

/-- The record of the child that is the last element. -/
def Frame.record? (f : Frame) : Option Extras :=
  f.child.bind fun name =>
    ((f.fields.lookup name).bind lastRecord?).map Prod.snd

/-- What a field is written as. -/
def Frame.shown (s : Schema) (f : Frame) (name : String) : Option Write.Part :=
  (f.fields.lookup name).map (Write.part s)

/-- What a field is written as when the last child has some record. -/
def Frame.look (s : Schema) (f : Frame) (y : Extras) (name : String) :
    Option Write.Part :=
  (f.fields.lookup name).map fun value =>
    Write.part s (if f.child = some name then withLastRecord y value else value)

theorem withLastRecord_self {value : Value} {x : Extras}
    (h : ∀ r, lastRecord? value = some r → r.2 = x) :
    withLastRecord x value = value := by
  match value with
  | .node (.node type fields extras) =>
    rw [← h _ rfl]
    rfl
  | .list items =>
    rcases List.eq_nil_or_concat items with rfl | ⟨front, last, rfl⟩
    · rfl
    · rw [List.concat_eq_append] at h ⊢
      have hlast : withExtras x last = last := by
        cases last
        rw [← h _ (by rw [lastRecord?, List.getLast?_append]; rfl)]
        rfl
      rw [withLastRecord_concat, hlast]
  | .virtual role wrapped extras =>
    rw [← h _ rfl]
    rfl
  | .absent | .scalar _ => rfl

/-- With its own record, the last child is written as it is. -/
theorem Frame.look_self (s : Schema) (f : Frame) (name : String) :
    f.look s (f.record?.getD .empty) name = f.shown s name := by
  rw [look, shown]
  cases hvalue : f.fields.lookup name with
  | none => rfl
  | some value =>
    rw [Option.map_some, Option.map_some]
    by_cases hchild : f.child = some name
    · rw [if_pos hchild, withLastRecord_self]
      intro r hr
      simp [record?, hchild, hvalue, hr]
    · rw [if_neg hchild]

theorem Frame.agreeOn_record (f : Frame) :
    ∀ r, f.record? = some r →
      (f.record?.getD .empty).AgreeOn (· ≠ .after) r := by
  intro r hr label _
  rw [hr]
  rfl

/-- A frame whose last element is no child is written as it is. -/
theorem Frame.look_of_none (s : Schema) {f : Frame} (hchild : f.child = none)
    (y : Extras) (name : String) : f.look s y name = f.shown s name := by
  rw [look, shown, hchild]
  rfl

/-- A run that is stored with the last child becomes part of the
child's record. -/
theorem Frame.look_update (s : Schema) {f : Frame} {name : String} {x : Extras}
    (hchild : f.child = some name) (k : String) :
    f.look s x k = (f.update name (withLastRecord x)).shown s k := by
  rw [look, shown, lookup_update, Option.map_map]
  cases f.fields.lookup k with
  | none => rfl
  | some value =>
    rw [Option.map_some, Option.map_some, Function.comp_apply, hchild]
    by_cases hk : k = name
    · subst hk
      simp
    · have hne : ¬ some name = some k := fun he => hk (Option.some.inj he).symm
      rw [if_neg hk, if_neg hne]

/-! ### What new fields show -/

section Fields

variable {name k : String} {value : Value} {o : Owner} {record : Extras}
  {items : List Cst} {item : Cst}

theorem Frame.shown_fill_of_mem (s : Schema) (h : k ∈ f.fields.map Prod.fst) :
    (f.fill name value).shown s k = f.shown s k := by
  rw [shown, shown, fill, Named.lookup_append_of_mem _ h]

theorem Frame.shown_fill_self (s : Schema)
    (hfresh : name ∉ f.fields.map Prod.fst) :
    (f.fill name value).shown s name = some (Write.part s value) := by
  rw [shown, lookup_fill hfresh]
  rfl

theorem Frame.look_fill_of_mem (s : Schema) (y : Extras)
    (h : k ∈ f.fields.map Prod.fst) :
    (f.fill name value).look s y k = f.look s y k := by
  rw [look, look, fill, Named.lookup_append_of_mem _ h]

theorem Frame.look_fill_self (s : Schema) (y : Extras)
    (hfresh : name ∉ f.fields.map Prod.fst) (hchild : f.child ≠ some name) :
    (f.fill name value).look s y name = some (Write.part s value) := by
  rw [look, lookup_fill hfresh, Option.map_some]
  exact congrArg _ (congrArg _ (if_neg hchild))

theorem Frame.record?_fill (name : String) (value : Value)
    (h : ∀ child, f.child = some child → child ∈ f.fields.map Prod.fst) :
    (f.fill name value).record? = f.record? := by
  rw [record?, record?]
  change f.child.bind _ = _
  cases hchild : f.child with
  | none => rfl
  | some child =>
    rw [Option.bind_some, Option.bind_some, fill,
      Named.lookup_append_of_mem _ (h child hchild)]

theorem Frame.look_addChild_of_mem (s : Schema) (y : Extras)
    (hfresh : name ∉ f.fields.map Prod.fst) (h : k ∈ f.fields.map Prod.fst) :
    (f.addChild e name value).look s y k = f.shown s k := by
  have hne : ¬ some name = some k := fun he => hfresh (Option.some.inj he ▸ h)
  rw [shown, look, addChild, fill, Named.lookup_append_of_mem _ h]
  exact congrArg (fun g => (f.fields.lookup k).map g) (funext fun v =>
    congrArg _ (if_neg hne))

theorem Frame.look_addChild_self (s : Schema) (y : Extras)
    (hfresh : name ∉ f.fields.map Prod.fst) :
    (f.addChild e name value).look s y name =
      some (Write.part s (withLastRecord y value)) := by
  rw [look, addChild, lookup_fill hfresh, Option.map_some]
  exact congrArg _ (congrArg _ (if_pos rfl))

theorem Frame.record?_addChild (hfresh : name ∉ f.fields.map Prod.fst)
    (hlast : lastRecord? value = some (o, record)) :
    (f.addChild e name value).record? = some record := by
  rw [record?, addChild]
  change (((f.fill name value).fields.lookup name).bind lastRecord?).map
    Prod.snd = _
  rw [lookup_fill hfresh, Option.bind_some, hlast]
  rfl

theorem Frame.look_addItem_of_ne (s : Schema) (y : Extras) (hne : k ≠ name) :
    (f.addItem e name item).look s y k = f.shown s k := by
  have hne' : ¬ some name = some k := fun he => hne (Option.some.inj he).symm
  rw [shown, look, addItem, lookup_update, Option.map_map]
  simp [hne, hne', Function.comp_def]

theorem Frame.look_addItem_self (s : Schema) (y : Extras)
    (hitems : f.fields.lookup name = some (.list items)) :
    (f.addItem e name item).look s y name = some (.list (Write.inners s items ++
      [⟨y, Write.node s false (withExtras y item)⟩])) := by
  have hitem : withExtras y item = .node item.type item.fields y := by
    cases item
    rfl
  rw [look, lookup_addItem item hitems, Option.map_some]
  refine congrArg _ ((congrArg _ (if_pos rfl)).trans ?_)
  rw [withLastRecord_concat, Write.part, Write.inners_eq_map,
    Write.inners_eq_map, List.map_append, hitem]
  rfl

theorem Frame.record?_addItem
    (hitems : f.fields.lookup name = some (.list items)) :
    (f.addItem e name item).record? = some item.extras := by
  have hlookup := lookup_addItem (e := e) item hitems
  rw [record?]
  change (((f.addItem e name item).fields.lookup name).bind lastRecord?).map
    Prod.snd = _
  rw [hlookup, Option.bind_some, lastRecord?, List.getLast?_append]
  rfl

end Fields

/-! ### What has been read -/

/-- The extras that are handed to a child. -/
def handedRun (handed : Option Handed) : List Token :=
  match handed with
  | some h => h.tokens
  | none => []

/-- The number of runs that are handed to a child. -/
def handedCount (handed : Option Handed) : Nat :=
  (Piece.ofRun (handedRun handed)).countP Piece.isExtras

/-- What is handed to a child are extras in front of it. -/
def Given (handed : Option Handed) : Prop :=
  ∀ h, handed = some h → h.label = .before ∧ h.tokens ≠ []

theorem given_none : Given none := fun _ h => nomatch h

/-- A node or virtual node that is being built: what was handed to it, and the
tokens in front of it. -/
structure Site where
  context : Context
  owner : Owner
  entry : SchemaEntry
  /-- Whether the entry has been checked for the root. -/
  flag : Bool
  root : Bool
  handed : Option Handed
  tokens : List SourceToken

namespace Site

variable {site : Site} {n bound : Nat} {ahead : List (Element × Write.Content)}

abbrev schema (site : Site) : Schema := site.context.schema

abbrev schedule (site : Site) : Schedule := site.entry.schedule

/-- The names of the fields that the first slots place. -/
def names (site : Site) (n : Nat) : List String :=
  Schema.placedNames site.schema.roles (site.schedule.take n)

/-- The labels among the first slots. -/
def labels (site : Site) (n : Nat) :
    List Label := Schedule.labels (site.schedule.take n)

/-- What stands in front of the first element. -/
def left (site : Site) :
    Option Write.Left := if site.root then some ⟨.start, none⟩ else none

/-- The elements of the first slots. -/
def draw (site : Site) (look : String → Option Write.Part) (n : Nat) :
    Option (List (Element × Write.Content)) :=
  Write.draw site.schema.roles look 0 (site.schedule.take n)

/-- What some elements from the first one on are written as. -/
def along (site : Site) (own : Extras) (es : List (Element × Write.Content)) :
    Except CstError (List Piece) :=
  Write.along site.schema site.owner site.schedule own false site.left es

/-- What the schema guarantees where the node is built. -/
structure Sound (site : Site) : Prop where
  resolves : site.schema.Resolves
  keeps : site.schema.strategy.Local
  entry : site.schema.entry? site.owner = some site.entry
  fits : Schema.EntryFits site.schema.strategy site.owner site.flag site.entry
  nodup : (Schema.placedNames site.schema.roles site.schedule).Nodup

/-- A frame between two elements. The first `n` slots have been filled, and the
elements `ahead` of them have been passed; what was read on the way is what
these elements are written as. -/
structure Progress (site : Site) (n : Nat)
    (ahead : List (Element × Write.Content)) (f : Frame)
    (tokens : List SourceToken) : Prop where
  owner_eq : f.owner = site.owner
  schedule_eq : f.schedule = site.schedule
  names : f.fields.map Prod.fst = site.names n
  reach : f.reach ≤ n
  child : ∀ l, f.left = some l → l.isChild = true →
    ∃ r, f.record? = some r ∧ r.Lacks .after
  noChild : (∀ l, f.left = some l → l.isChild = false) → f.child = none
  before : f.extras.get .before = handedRun site.handed
  lacks : ∀ label, label ≠ .before → label ∉ site.labels f.reach →
    f.extras.Lacks label
  written : ∃ read, Piece.ofTokens site.tokens = read ++ Piece.ofTokens tokens ∧
    read.countP Piece.isExtras + handedCount site.handed =
      f.extras.size + fieldsLabelCount f.fields ∧
    ∀ own y, own.AgreeOn (· ∈ site.labels f.reach) f.extras →
      (∀ r, f.record? = some r → y.AgreeOn (· ≠ .after) r) →
      ∃ es, site.draw (f.look site.schema y) n = some es ∧
        site.along own (es ++ ahead) = .ok read ∧
        Write.lastLeft site.left (es ++ ahead) =
          f.left.map fun l => ⟨l, f.child.map fun _ => y⟩

/-- A frame in front of an element, with the extras that are handed to the
element. The labels in front of slot `bound` are settled. -/
structure Poised (site : Site) (n : Nat)
    (ahead : List (Element × Write.Content)) (e : Element) (bound : Nat)
    (f : Frame) (handed : Option Handed) (tokens : List SourceToken) :
    Prop where
  owner_eq : f.owner = site.owner
  schedule_eq : f.schedule = site.schedule
  names : f.fields.map Prod.fst = site.names n
  before : f.extras.get .before = handedRun site.handed
  lacks : ∀ label, label ≠ .before → label ∉ site.labels bound →
    f.extras.Lacks label
  given : Given handed
  passive : e.isChild = false → handed = none
  written :
    ∃ read, Piece.ofTokens site.tokens = read ++ Piece.ofTokens tokens ∧
      read.countP Piece.isExtras + handedCount site.handed =
        f.extras.size + fieldsLabelCount f.fields + handedCount handed ∧
      ∀ own z?, own.AgreeOn (· ∈ site.labels bound) f.extras →
        (∀ z, z? = some z → z.get .before = handedRun handed) →
        (e.isChild = true → z?.isSome) →
        ∃ es front gap, site.draw (f.shown site.schema) n = some es ∧
          site.along own (es ++ ahead) = .ok front ∧
          Write.between site.schema site.owner site.schedule own
            (Write.lastLeft site.left (es ++ ahead)) ⟨e, z?⟩ = .ok gap ∧
          read = front ++ gap

/-- The run in front of an element, read from where it has been stored. -/
theorem Progress.written_gap {run : List Token}
    (h : site.Progress n ahead f tokens)
    (htokens : Piece.ofTokens tokens = Piece.ofRun run ++ Piece.ofTokens rest)
    (hcount : f'.extras.size + fieldsLabelCount f'.fields + handedCount handed =
      f.extras.size + fieldsLabelCount f.fields +
        (Piece.ofRun run).countP Piece.isExtras) {y : Extras}
    (hrecord : ∀ r, f.record? = some r → y.AgreeOn (· ≠ .after) r)
    (hlook : ∀ k, f.look site.schema y k = f'.shown site.schema k)
    (hgap : ∀ own z?, own.AgreeOn (· ∈ site.labels bound) f'.extras →
      (∀ z, z? = some z → z.get .before = handedRun handed) →
      (e.isChild = true → z?.isSome) →
      own.AgreeOn (· ∈ site.labels f.reach) f.extras ∧
        Write.between site.schema site.owner site.schedule own
            (f.left.map fun l => ⟨l, f.child.map fun _ => y⟩) ⟨e, z?⟩ =
          .ok (Piece.ofRun run)) :
    ∃ read, Piece.ofTokens site.tokens = read ++ Piece.ofTokens rest ∧
      read.countP Piece.isExtras + handedCount site.handed =
        f'.extras.size + fieldsLabelCount f'.fields + handedCount handed ∧
      ∀ own z?, own.AgreeOn (· ∈ site.labels bound) f'.extras →
        (∀ z, z? = some z → z.get .before = handedRun handed) →
        (e.isChild = true → z?.isSome) →
        ∃ es front gap, site.draw (f'.shown site.schema) n = some es ∧
          site.along own (es ++ ahead) = .ok front ∧
          Write.between site.schema site.owner site.schedule own
            (Write.lastLeft site.left (es ++ ahead)) ⟨e, z?⟩ = .ok gap ∧
          read = front ++ gap := by
  rcases h.written with ⟨read, hread, hlabels, hwritten⟩
  refine ⟨read ++ Piece.ofRun run, ?_, ?_, fun own z? hown hz hchild => ?_⟩
  · rw [hread, htokens, List.append_assoc]
  · rw [List.countP_append]
    omega
  · rcases hgap own z? hown hz hchild with ⟨hown', hbetween⟩
    -- the record of the last child is already the one that the frame
    -- behind the gap has
    rcases hwritten own y hown' hrecord with ⟨es, hes, halong, hlast⟩
    have hshown : f.look site.schema y = f'.shown site.schema := funext hlook
    refine ⟨es, read, Piece.ofRun run, hshown ▸ hes, halong, ?_, rfl⟩
    rw [hlast]
    exact hbetween

theorem AgreeOn.of_take {own x : Extras} {n n' : Nat} (hn : n ≤ n')
    (h : own.AgreeOn (· ∈ site.labels n') x) :
    own.AgreeOn (· ∈ site.labels n) x :=
  fun label hlabel => h label (Schedule.mem_labels_take hn hlabel)

theorem Sound.nodup_names (hsite : site.Sound) (n : Nat) :
    (site.names n).Nodup :=
  (((List.take_sublist n site.schedule).filterMap _).map _).nodup hsite.nodup

theorem Progress.lacks_of_le (h : site.Progress n ahead f tokens)
    (hreach : f.reach ≤ bound) :
    ∀ label, label ≠ .before →
      label ∉ site.labels bound → f.extras.Lacks label :=
  fun label hne hout => h.lacks label hne fun hin =>
    hout (Schedule.mem_labels_take hreach hin)

/-- A label in the gap to the next element has not been used yet. -/
theorem Progress.fresh (hsite : site.Sound) (h : site.Progress n ahead f tokens)
    {label : Label} (hleft : f.left = some l) (hreach : f.reach ≤ bound)
    (hslot : e.slot?.getD site.schedule.length ≤ bound)
    (hlabel : label ∈ (⟨l, e⟩ : Gap).labels site.schedule) :
    label ≠ .before ∧ label ∈ site.labels bound ∧ label ∉ site.labels f.reach ∧
      f.extras.Lacks label := by
  have hhigh : (⟨l, e⟩ : Gap).high site.schedule ≤ bound := by
    rw [Gap.high, low_eq_reach hleft]
    exact Nat.max_le.2 ⟨hreach, hslot⟩
  have hin : label ∈ site.labels bound := Gap.mem_labels_take hhigh hlabel
  have hout : label ∉ site.labels f.reach := by
    rw [← low_eq_reach hleft e]
    exact Gap.notMem_labels_take hsite.fits.nodup hlabel
  have hown : label ∈ Schedule.labels site.schedule :=
    Schedule.mem_labels_of_sublist (List.take_sublist _ _) hin
  have hne := (hsite.fits.own label hown).1
  exact ⟨hne, hin, hout, h.lacks label hne hout⟩

/-- The child in front of a gap, and its record. -/
theorem Progress.exists_record (h : site.Progress n ahead f tokens)
    (hleft : f.left = some l) (hchild : l.isChild = true) :
    ∃ name r, f.child = some name ∧ f.record? = some r ∧ r.Lacks .after := by
  rcases h.child l hleft hchild with ⟨r, hr, hlacks⟩
  cases hname : f.child with
  | none => simp [Frame.record?, hname] at hr
  | some name => exact ⟨name, r, rfl, hr, hlacks⟩

/-- Where no extras stand in front of an element, none are found there. -/
theorem Progress.runAt_eq_nil (hsite : site.Sound)
    (h : site.Progress n ahead f tokens) {a : Anchor} {own : Extras}
    {z? : Option Extras} (hleft : f.left = some l) (hreach : f.reach ≤ bound)
    (hslot : e.slot?.getD site.schedule.length ≤ bound)
    (hlies : a.Lies ⟨l, e⟩ site.schedule)
    (hfits : a.Fits ⟨l, e⟩ site.entry.vocabulary
      (site.schema.strategy.vocabulary site.owner []))
    (hown : own.AgreeOn (· ∈ site.labels bound) f.extras)
    (hz : ∀ z, z? = some z → z.get .before = []) :
    Write.runAt own ⟨l, f.child.map fun _ => f.record?.getD .empty⟩ ⟨e, z?⟩ a =
      [] := by
  rcases a with ⟨target, label⟩
  cases target with
  | owner =>
    rcases h.fresh hsite hleft hreach hslot hlies with ⟨-, hin, -, hlacks⟩
    change own.get label = []
    rw [hown label hin, Extras.get_of_lacks hlacks]
  | left =>
    have hlabel : label = .after := hlies
    rcases h.exists_record hleft hfits.1 with ⟨name, r, hname, hr, hlacks⟩
    rw [Write.runAt, hname, hr, hlabel]
    exact Extras.get_of_lacks hlacks
  | right =>
    have hlabel : label = .before := hlies
    rw [Write.runAt, hlabel]
    cases z? with
    | none => rfl
    | some z => exact hz z rfl

/-- Where nothing has to be stored, nothing is found. -/
theorem Progress.gap_nothing (hsite : site.Sound)
    (h : site.Progress n ahead f tokens)
    (hfacing : Facing site.entry site.flag f e) (hreach : f.reach ≤ bound)
    (hslot : e.slot?.getD site.schedule.length ≤ bound)
    (htokens : Piece.ofTokens tokens = Piece.ofTokens rest) :
    site.Poised n ahead e bound f none rest := by
  refine ⟨h.owner_eq, h.schedule_eq, h.names, h.before, h.lacks_of_le hreach,
    given_none, fun _ => rfl, ?_⟩
  have hempty : Piece.ofTokens tokens = Piece.ofRun [] ++ Piece.ofTokens rest :=
    htokens
  refine h.written_gap hempty rfl f.agreeOn_record (f.look_self site.schema)
    fun own z? hown hz hchild => ⟨AgreeOn.of_take hreach hown, ?_⟩
  cases hleft : f.left with
  | none => rfl
  | some l =>
    rcases hfacing.exists_anchor hsite.resolves hsite.fits h.owner_eq
      h.schedule_eq hleft with ⟨a, ha, hfits⟩
    rw [h.owner_eq, h.schedule_eq] at ha
    have hlies := hsite.keeps _ _ _ _ ha
    rw [Option.map_some, Write.between, Write.gap_of_anchor ha,
      h.runAt_eq_nil hsite hleft hreach hslot hlies hfits hown hz]

section Run

variable {run : List Token} {label : Label} (hrun : run ≠ [])
  (htokens : Piece.ofTokens tokens = Piece.ofRun run ++ Piece.ofTokens rest)

include hrun htokens

/-- A run that is kept with the node itself is found there. -/
theorem Progress.gap_owner (hsite : site.Sound)
    (h : site.Progress n ahead f tokens) (hleft : f.left = some l)
    (hreach : f.reach ≤ bound)
    (hslot : e.slot?.getD site.schedule.length ≤ bound)
    (hanchor : site.schema.resolve site.owner site.schedule ⟨l, e⟩ =
      .ok ⟨.owner, label⟩) :
    site.Poised n ahead e bound
      { f with extras := f.extras.insert label run } none rest := by
  have hlies := hsite.keeps _ _ _ _ hanchor
  rcases h.fresh hsite hleft hreach hslot hlies with ⟨hne, hin, hout, hfresh⟩
  refine ⟨h.owner_eq, h.schedule_eq, h.names, ?_, fun label' hne' hout' => ?_,
    given_none, fun _ => rfl, ?_⟩
  · exact (Extras.get_insert_of_ne hfresh fun he => hne he.symm).trans h.before
  · exact Extras.lacks_insert hfresh (fun he => hout' (he ▸ hin))
      (h.lacks_of_le hreach label' hne' hout')
  refine h.written_gap htokens ?_ f.agreeOn_record (f.look_self site.schema)
    fun own z? hown hz hchild => ⟨fun label' hlabel' => ?_, ?_⟩
  · rw [Piece.countP_ofRun hrun]
    simp only [Extras.size_insert hfresh]
    exact Nat.add_right_comm _ 1 _
  · rw [hown label' (Schedule.mem_labels_take hreach hlabel')]
    exact Extras.get_insert_of_ne hfresh fun he => hout (he ▸ hlabel')
  · rw [hleft, Option.map_some, Write.between,
      Write.gap_of_anchor hanchor, Write.runAt]
    simp only
    rw [hown label hin, Extras.get_insert_self hfresh]

/-- A run that is handed to the next child is found in front of it. -/
theorem Progress.gap_right (hsite : site.Sound)
    (h : site.Progress n ahead f tokens) (hleft : f.left = some l)
    (hreach : f.reach ≤ bound) (he : e.isChild = true)
    (hanchor : site.schema.resolve site.owner site.schedule ⟨l, e⟩ =
      .ok ⟨.right, label⟩) :
    site.Poised n ahead e bound f (some ⟨label, run⟩) rest := by
  have hlabel : label = .before := hsite.keeps _ _ _ _ hanchor
  subst hlabel
  refine ⟨h.owner_eq, h.schedule_eq, h.names, h.before, h.lacks_of_le hreach,
    fun x hx => ?_, fun hnot => ?_, ?_⟩
  · cases hx
    exact ⟨rfl, hrun⟩
  · rw [he] at hnot
    exact nomatch hnot
  refine h.written_gap htokens rfl f.agreeOn_record (f.look_self site.schema)
    fun own z? hown hz hchild => ⟨AgreeOn.of_take hreach hown, ?_⟩
  rcases Option.isSome_iff_exists.1 (hchild he) with ⟨z, rfl⟩
  rw [hleft, Option.map_some, Write.between,
    Write.gap_of_anchor hanchor, Write.runAt]
  simp only [Option.map_some, Option.getD_some]
  rw [hz z rfl]
  rfl

/-- A run that is kept with the last child is found behind it. -/
theorem Progress.gap_left (hsite : site.Sound)
    (h : site.Progress n ahead f tokens) {name : String}
    {value : Value} {o : Owner} {record : Extras}
    (hleft : f.left = some l) (hreach : f.reach ≤ bound) (hl : l.isChild = true)
    (hchild : f.child = some name) (hfield : f.fields.lookup name = some value)
    (hlast : lastRecord? value = some (o, record))
    (hanchor : site.schema.resolve site.owner site.schedule ⟨l, e⟩ =
      .ok ⟨.left, label⟩) :
    site.Poised n ahead e bound
      (f.update name (withLastRecord (record.insert label run))) none rest := by
  -- behind a child only `after` is used, which its record does not have yet
  have hlabel : label = .after := hsite.keeps _ _ _ _ hanchor
  subst hlabel
  have hrecord : f.record? = some record := by
    rw [Frame.record?, hchild, Option.bind_some, hfield,
      Option.bind_some, hlast]
    rfl
  have hlacks : record.Lacks .after := by
    rcases h.child l hleft hl with ⟨r, hr, hlacks⟩
    rw [hrecord] at hr
    cases hr
    exact hlacks
  refine ⟨h.owner_eq, h.schedule_eq, (f.names_update _ _).trans h.names,
    h.before, h.lacks_of_le hreach, given_none, fun _ => rfl, ?_⟩
  refine h.written_gap htokens ?_ (fun r hr label' hne => ?_)
    (Frame.look_update site.schema hchild)
    fun own z? hown hz _ => ⟨AgreeOn.of_take hreach hown, ?_⟩
  · have hnodup : (f.fields.map Prod.fst).Nodup := h.names ▸ hsite.nodup_names n
    have hfields := fieldsLabelCount_update
      (withLastRecord (record.insert .after run)) hnodup hfield
    have hvalue :=
      valueLabelCount_withLastRecord (record.insert .after run) hlast
    rw [Extras.size_insert hlacks] at hvalue
    rw [Piece.countP_ofRun hrun]
    change f.extras.size + _ + 0 = _
    omega
  · rw [hrecord] at hr
    cases hr
    exact Extras.get_insert_of_ne hlacks hne
  · rw [hleft, Option.map_some, hchild, Option.map_some, Write.between,
      Write.gap_of_anchor hanchor, Write.runAt]
    simp only [Option.map_some, Option.getD_some]
    rw [Extras.get_insert_self hlacks]

end Run

/-- The extras in front of an element are stored where they will be found. -/
theorem Progress.gap (hsite : site.Sound) (h : site.Progress n ahead f tokens)
    (hfacing : Facing site.entry site.flag f e) (hreach : f.reach ≤ bound)
    (hslot : e.slot?.getD site.schedule.length ≤ bound)
    (hgap : Build.gap site.context f e tokens = .ok (f', handed, rest)) :
    site.Poised n ahead e bound f' handed rest := by
  rcases gap_eq_ok hgap with ⟨hrest, hstored⟩
  have htokens : Piece.ofTokens tokens =
      Piece.ofRun (leadingRun tokens) ++ Piece.ofTokens rest := by
    rw [hrest, ← Piece.ofTokens_eq]
  -- the anchor that was followed when the run was stored is followed again
  have hsame :
      ∀ {l a}, site.context.schema.resolve f.owner f.schedule ⟨l, e⟩ = .ok a →
        site.schema.resolve site.owner site.schedule ⟨l, e⟩ = .ok a := by
    intro l a ha
    rw [h.owner_eq, h.schedule_eq] at ha
    exact ha
  cases hstored with
  | nothing empty =>
    rw [empty] at htokens
    exact h.gap_nothing hsite hfacing hreach hslot htokens
  | owner nonempty hleft anchor set =>
    rcases setExtras_eq_ok nonempty set with ⟨_, -, -, rfl⟩
    exact h.gap_owner nonempty htokens hsite hleft hreach hslot (hsame anchor)
  | right nonempty hleft anchor child =>
    exact h.gap_right nonempty htokens hsite hleft hreach child (hsame anchor)
  | left nonempty hleft anchor child hchild field last set =>
    rcases setExtras_eq_ok nonempty set with ⟨_, -, -, rfl⟩
    exact h.gap_left nonempty htokens hsite hleft hreach child hchild field last
      (hsame anchor)

/-! ### Going past an element -/

/-- Going past an element adds what it is written as. -/
theorem Poised.pass {slot n' : Nat} {ahead' : List (Element × Write.Content)}
    {child : Option String} {fields : List (String × Value)}
    (h : site.Poised n ahead e (slot + 1) f handed tokens)
    (content : Extras → Write.Content) (inside : List Piece)
    (hframe : f' = { f with fields := fields, left := some e, child := child })
    (hslot : e.slot? = some slot) (hn : slot < n')
    (hnames : fields.map Prod.fst = site.names n')
    (hchild : e.isChild = true → ∃ r, f'.record? = some r ∧
      r.Lacks .after ∧ r.get .before = handedRun handed)
    (hnone : e.isChild = false → child = none)
    (htokens : Piece.ofTokens tokens = inside ++ Piece.ofTokens rest)
    (hcount : inside.countP Piece.isExtras + handedCount handed +
      fieldsLabelCount f.fields = fieldsLabelCount fields)
    (hcontent : ∀ y, (∀ r, f'.record? = some r → y.AgreeOn (· ≠ .after) r) →
      (content y).pieces = .ok inside ∧
        (content y).extras? = child.map fun _ => y)
    (hdraw : ∀ y es, site.draw (f.shown site.schema) n = some es →
      ∃ es', site.draw (f'.look site.schema y) n' = some es' ∧
        es' ++ ahead' = es ++ ahead ++ [(e, content y)]) :
    site.Progress n' ahead' f' rest := by
  have hreach : f'.reach = slot + 1 := by
    rw [hframe, Frame.reach, Option.bind_some, hslot]
  subst hframe
  rcases h.written with ⟨read, hread, hlabels, hwritten⟩
  refine ⟨h.owner_eq, h.schedule_eq, hnames, ?_,
    fun l hl he => ?_, fun hnot => ?_, h.before,
    fun label hne hout => ?_, read ++ inside, ?_, ?_, fun own y hown hy => ?_⟩
  · rw [hreach]
    exact hn
  · cases hl
    rcases hchild he with ⟨r, hr, hlacks, -⟩
    exact ⟨r, hr, hlacks⟩
  · exact hnone (hnot e rfl)
  · rw [hreach] at hout
    exact h.lacks label hne hout
  · rw [hread, htokens, List.append_assoc]
  · rw [List.countP_append]
    simp only
    omega
  · rw [hreach] at hown
    rcases hcontent y hy with ⟨hinside, hextras⟩
    -- what was handed to the child stays in front of it, whatever is
    -- stored behind it later
    have hz : ∀ z, (content y).extras? = some z →
        z.get .before = handedRun handed := by
      intro z hz
      rw [hextras] at hz
      rcases Option.map_eq_some_iff.1 hz with ⟨name, hname, rfl⟩
      cases he : e.isChild with
      | false =>
        rw [hnone he] at hname
        exact nomatch hname
      | true =>
        rcases hchild he with ⟨r, hr, -, hbefore⟩
        rw [hy r hr .before (by decide), hbefore]
    have hsome : e.isChild = true → (content y).extras?.isSome := by
      intro he
      rcases hchild he with ⟨r, hr, -, -⟩
      cases hname : child with
      | none => simp [Frame.record?, hname] at hr
      | some name =>
        rw [hextras, hname]
        rfl
    rcases hwritten own _ hown hz hsome with
      ⟨es, front, gap, hes, halong, hgap, rfl⟩
    rcases hdraw y es hes with ⟨es', hes', happend⟩
    refine ⟨es', hes', ?_, ?_⟩
    · rw [happend, along, Write.along_concat halong hgap hinside,
        List.append_assoc]
    · rw [happend, Write.lastLeft_concat, hextras]
      rfl

/-- Going past a token, which may fill a field. -/
theorem Poised.passToken {slot n' : Nat} {t : SourceToken}
    {ahead' : List (Element × Write.Content)} {fields : List (String × Value)}
    (h : site.Poised n ahead e (slot + 1) f handed (t :: rest))
    (hframe : f' = { f with fields := fields, left := some e, child := none })
    (hslot : e.slot? = some slot) (hn : slot < n')
    (hnames : fields.map Prod.fst = site.names n') (he : e.isChild = false)
    (ht : t.isExtra = false)
    (hcount : fieldsLabelCount f.fields = fieldsLabelCount fields)
    (hdraw : ∀ es, site.draw (f.shown site.schema) n = some es →
      ∃ es', site.draw (f'.shown site.schema) n' = some es' ∧
        es' ++ ahead' = es ++ ahead ++ [(e, .text t.text)]) :
    site.Progress n' ahead' f' rest := by
  have hhanded := h.passive he
  subst hhanded
  refine h.pass (fun _ => .text t.text) [.leaf t.text] hframe hslot hn hnames
    (fun hchild => ?_) (fun _ => rfl) (Piece.ofTokens_cons_of_leaf ht rest) ?_
    (fun y _ => ⟨rfl, rfl⟩) fun y es hes => ?_
  · rw [he] at hchild
    exact nomatch hchild
  · exact (Nat.zero_add _).trans hcount
  · have hlook : f'.look site.schema y = f'.shown site.schema :=
      funext fun name => Frame.look_of_none site.schema (by rw [hframe]) y name
    rw [hlook]
    exact hdraw es hes

/-! ### Filling a slot -/

section Slot

variable {slot : Slot} {d : FieldDef} {value : Value}
  {es here : List (Element × Write.Content)}
  {look look' : String → Option Write.Part}

theorem names_succ (hslot : site.schedule[n]? = some slot) :
    site.names (n + 1) =
      site.names n ++
        (Schema.placed? site.schema.roles slot).toList.map FieldDef.name := by
  rw [names, names, Schedule.take_succ_of_getElem? hslot, Schema.placedNames,
    Schema.placedNames, List.filterMap_append, List.map_append,
    List.filterMap_cons]
  cases Schema.placed? site.schema.roles slot <;> rfl

/-- The field of a slot has not been placed before. -/
theorem Sound.notMem_names (hsite : site.Sound)
    (hslot : site.schedule[n]? = some slot)
    (hd : Schema.placed? site.schema.roles slot = some d) :
    d.name ∉ site.names n := by
  have hnodup := hsite.nodup_names (n + 1)
  rw [names_succ hslot, hd] at hnodup
  exact fun hmem =>
    (List.nodup_append.1 hnodup).2.2 _ hmem _ (List.mem_singleton_self _) rfl

/-- The elements of one more slot. -/
theorem draw_succ (hslot : site.schedule[n]? = some slot)
    (hfront : site.draw look n = some es)
    (hlook : ∀ name ∈ site.names n, look name = look' name)
    (hhere : Write.drawSlot site.schema.roles look' n slot = some here) :
    site.draw look' (n + 1) = some (es ++ here) := by
  rw [draw, Write.draw_congr hlook] at hfront
  rw [draw, Schedule.take_succ_of_getElem? hslot, Write.draw_concat, hfront,
    Nat.zero_add, Schedule.length_take_of_getElem? hslot, hhere]
  rfl

/-- A slot without field and element changes nothing. -/
theorem Progress.close (h : site.Progress n [] f tokens)
    (hslot : site.schedule[n]? = some slot)
    (hplaced : Schema.placed? site.schema.roles slot = none)
    (hdraw : ∀ look, Write.drawSlot site.schema.roles look n slot = some []) :
    site.Progress (n + 1) [] f tokens := by
  rcases h.written with ⟨read, hread, hlabels, hwritten⟩
  refine ⟨h.owner_eq, h.schedule_eq, ?_, Nat.le_succ_of_le h.reach, h.child,
    h.noChild, h.before, h.lacks, read, hread, hlabels, fun own y hown hy => ?_⟩
  · rw [names_succ hslot, hplaced, h.names]
    exact (List.append_nil _).symm
  · rcases hwritten own y hown hy with ⟨es, hes, halong, hlast⟩
    refine ⟨es, ?_, halong, hlast⟩
    rw [draw_succ hslot hes (fun _ _ => rfl) (hdraw _), List.append_nil]

/-- The last child is held by a field. -/
theorem Progress.mem_of_child (h : site.Progress n ahead f tokens)
    {name : String} (hname : f.child = some name) :
    name ∈ f.fields.map Prod.fst := by
  have hchild : ∃ l, f.left = some l ∧ l.isChild = true := by
    refine Classical.not_not.1 fun hnot => ?_
    rw [h.noChild fun l hl => Bool.eq_false_iff.2 fun he => hnot ⟨l, hl, he⟩]
      at hname
    exact nomatch hname
  rcases hchild with ⟨l, hl, he⟩
  rcases h.child l hl he with ⟨r, hr, -⟩
  rw [Frame.record?, hname, Option.bind_some] at hr
  cases hvalue : f.fields.lookup name with
  | none => simp [hvalue] at hr
  | some value => exact Named.mem_keys_of_lookup hvalue

/-- Filling a field without an element. -/
theorem Progress.fill (hsite : site.Sound) (h : site.Progress n [] f tokens)
    (hslot : site.schedule[n]? = some slot)
    (hd : Schema.placed? site.schema.roles slot = some d)
    (hvalue : valueLabelCount value = 0)
    (hdraw : ∀ look, look d.name = some (Write.part site.schema value) →
      Write.drawSlot site.schema.roles look n slot = some []) :
    site.Progress (n + 1) [] (f.fill d.name value) tokens := by
  have hfresh : d.name ∉ f.fields.map Prod.fst := by
    rw [h.names]
    exact hsite.notMem_names hslot hd
  have hrecord := f.record?_fill d.name value fun child => h.mem_of_child
  rcases h.written with ⟨read, hread, hlabels, hwritten⟩
  refine ⟨h.owner_eq, h.schedule_eq, ?_,
    Nat.le_succ_of_le h.reach, fun l hl he => ?_, h.noChild,
    h.before, h.lacks, read, hread, ?_, fun own y hown hy => ?_⟩
  · rw [names_succ hslot, hd, Frame.fill, List.map_append, h.names]
    rfl
  · rw [hrecord]
    exact h.child l hl he
  · rw [Frame.fill, fieldsLabelCount_append, fieldsLabelCount, hvalue]
    exact hlabels
  · rw [hrecord] at hy
    rcases hwritten own y hown hy with ⟨es, hes, halong, hlast⟩
    have hlook : ∀ name ∈ site.names n, f.look site.schema y name =
        (f.fill d.name value).look site.schema y name := by
      intro name hname
      rw [← h.names] at hname
      exact (Frame.look_fill_of_mem site.schema y hname).symm
    have hself : (f.fill d.name value).look site.schema y d.name =
        some (Write.part site.schema value) :=
      Frame.look_fill_self site.schema y hfresh fun he =>
        hfresh (h.mem_of_child he)
    have hes' := draw_succ hslot hes hlook (hdraw _ hself)
    rw [List.append_nil] at hes'
    exact ⟨es, hes', halong, hlast⟩

end Slot

end Site

end Build

end Cst

end Lossless
