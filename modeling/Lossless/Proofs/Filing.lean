import Lossless.Proofs.Runs
import Lossless.Proofs.Separation
import Lossless.Proofs.Written

/-!
# Every run is kept once

While a node is built, the runs that have been read are kept by the records
built so far, apart from the one that is being handed to a child (`Site.Filed`).
A run that is stored never meets another one in its place: the record of the
node has labels from earlier gaps and from its parent, that of the last child
has labels of its own and the one that was handed to it. So no run is lost under
a schema that separates its places, and a record has its labels in the order of
the text (`keeps_of_build`).
-/

namespace Lossless

namespace Schema

variable {s : Schema} {label : Label}

/-- A label that nodes use for runs of their own. -/
def Owns (s : Schema) (label : Label) : Prop :=
  ∃ owner g, s.Leads owner g ⟨.owner, label⟩

/-- A label that nodes use for runs that their children keep. -/
def Lends (s : Schema) (label : Label) : Prop :=
  ∃ owner g a, s.Leads owner g a ∧ a.target ≠ .owner ∧ a.label = label

theorem Separates.not_lends (hs : s.Separates) (howns : s.Owns label) :
    ¬s.Lends label := by
  rintro ⟨owner', g', a', hleads', htarget, rfl⟩
  obtain ⟨owner, g, hleads⟩ := howns
  exact hs.own owner owner' g g' _ a' hleads hleads' rfl htarget rfl

end Schema

namespace Cst

namespace Build

variable {c : Context} {f f' : Frame} {e l : Element}
  {tokens rest : List SourceToken} {handed : Option Handed}

/-! ### What is handed on -/

/-- The runs that are handed to a child: one or none. -/
def handedRuns (handed : Option Handed) : List (List Token) :=
  (handed.map Handed.tokens).toList

/-- What is handed to a child is a run under a label that nodes use for
their children. -/
def Lent (s : Schema) (handed : Option Handed) : Prop :=
  ∀ x, handed = some x → x.tokens ≠ [] ∧ s.Lends x.label

/-- What is handed to an element is a run from the gap in front of it. -/
def Offered (s : Schema) (owner : Owner) (e : Element)
    (handed : Option Handed) : Prop :=
  ∀ x, handed = some x → x.tokens ≠ [] ∧ e.isChild = true ∧
    ∃ l, s.Leads owner ⟨l, e⟩ ⟨.right, x.label⟩ ∧ l.rank < e.rank

theorem Offered.lent {s : Schema} {owner : Owner}
    (h : Offered s owner e handed) : Lent s handed := by
  intro x hx
  obtain ⟨hrun, -, l, hleads, -⟩ := h x hx
  exact ⟨hrun, owner, _, _, hleads, (nomatch ·), rfl⟩

theorem Offered.eq_none {s : Schema} {owner : Owner}
    (h : Offered s owner e handed) (he : e.isChild = false) :
    handed = none := by
  cases handed with
  | none => rfl
  | some x =>
    obtain ⟨-, hchild, -⟩ := h x rfl
    rw [he] at hchild
    exact nomatch hchild

/-- The next element lies behind the last one, and the gap between them
is a checked one. -/
def Next (entry : SchemaEntry) (flag : Bool) (f : Frame) (e : Element) : Prop :=
  ∀ l, f.left = some l → entry.schedule.Occurs flag ⟨l, e⟩ ∧ l.rank < e.rank

theorem next_of_left {entry : SchemaEntry} {flag : Bool} {l e : Element}
    (hleft : f.left = some l) (hoccurs : entry.schedule.Occurs flag ⟨l, e⟩)
    (hrank : l.rank < e.rank) : Next entry flag f e := by
  intro l' hl
  rw [hleft] at hl
  cases hl
  exact ⟨hoccurs, hrank⟩

theorem Near.next {entry : SchemaEntry} {flag : Bool} {index : Nat}
    {slot : Slot} {x : Schedule.Extent} (h : Near entry flag index f)
    (hslot : entry.schedule[index]? = some slot)
    (hx : Schedule.Extent.ofSlot? index slot = some x)
    (he : x.first = e.ground) : Next entry flag f e := by
  intro l hl
  have hindex : e.slot? = some index := by
    rw [← Element.slot?_ground, ← he]
    cases slot with
    | extras _ | implied _ => exact nomatch hx
    | _ =>
      cases Option.some.inj hx
      rfl
  exact ⟨h.facing hslot hx he l hl, (h l hl).rank_lt hindex⟩

/-- What is in a child's records when it has been built, and what of it is
in its own one. The numbers of the runs begin with the one of the run that
was handed to it. -/
structure FiledBelow (s : Schema) (handed : Option Handed)
    (tokens rest : List SourceToken) (record : Extras)
    (records : List (Owner × Extras)) : Prop where
  keeps : ∀ start, ∃ done, Keeps records (done.zipIdx start) ∧
    done ++ extraRuns rest = handedRuns handed ++ extraRuns tokens
  labels : ∀ label ∈ record.entries.map Prod.fst,
    s.Owns label ∨ ∃ x, handed = some x ∧ x.label = label

/-- A child files the runs that it takes. -/
def Child.Files (s : Schema) (ch : Child) : Prop :=
  ∀ handed tokens tree rest, Lent s handed →
    ch.build handed tokens = .ok (tree, rest) →
    FiledBelow s handed tokens rest tree.extras tree.records

/-- Virtual nodes file the runs that they take. -/
def RolesFile (s : Schema) (virtual : VirtualBuilder) : Prop :=
  ∀ role handed tokens name value rest, Lent s handed →
    virtual role handed tokens = .ok (name, value, rest) →
    ∃ wrapped extras, value = .virtual role wrapped extras ∧
      FiledBelow s handed tokens rest extras (valueRecords value)

namespace Site

variable {site : Site} {start : Nat} {reached : Option Element}

/-- What is assumed of the schema, and of what is handed to a node, where
the node is built. -/
structure Apart (site : Site) : Prop where
  separates : site.schema.Separates
  lent : Lent site.schema site.handed
  entry : site.schema.entry? site.owner = some site.entry
  flag : site.flag = decide (site.owner = .node site.schema.grammar.root)

/-- A label that the record of a node may have when an element has been
reached: the one under which its parent handed it a run, or that of a gap up
to the element. -/
def Taken (site : Site) (reached : Option Element) (label : Label) : Prop :=
  (∃ x, site.handed = some x ∧ x.label = label) ∨
    ∃ g l, site.schema.Leads site.owner g ⟨.owner, label⟩ ∧
      g.left.rank < g.right.rank ∧ reached = some l ∧ g.right.rank ≤ l.rank

/-- The runs up to some tokens are kept by the records of a frame, apart from
the one that is handed on. -/
structure Filed (site : Site) (start : Nat) (reached : Option Element)
    (f : Frame) (handed : Option Handed) (tokens : List SourceToken) :
    Prop where
  owner_eq : f.owner = site.owner
  schedule_eq : f.schedule = site.schedule
  keeps : ∃ done, Keeps ((site.owner, f.extras) :: fieldsRecords f.fields)
      (done.zipIdx start) ∧
    done ++ (handedRuns handed ++ extraRuns tokens) =
      handedRuns site.handed ++ extraRuns site.tokens
  own : ∀ label ∈ f.extras.entries.map Prod.fst, site.Taken reached label

/-- A frame between two elements. The labels of its last child are the child's
own, or come from the gap in front of the child. -/
structure Settled (site : Site) (start : Nat) (f : Frame)
    (tokens : List SourceToken) :
    Prop extends Filed site start f.left f none tokens where
  last : ∀ l record, f.left = some l → f.record? = some record →
    ∀ label ∈ record.entries.map Prod.fst, site.schema.Owns label ∨
      ∃ l', site.schema.Leads site.owner ⟨l', l⟩ ⟨.right, label⟩ ∧
        l'.rank < l.rank

/-! ### Runs in front of an element -/

theorem Apart.leads {a : Anchor} (hsite : site.Apart)
    (hnext : Next site.entry site.flag f e) (howner : f.owner = site.owner)
    (hschedule : f.schedule = site.schedule) (hleft : f.left = some l)
    (ha : site.context.schema.resolve f.owner f.schedule ⟨l, e⟩ = .ok a) :
    site.schema.Leads site.owner ⟨l, e⟩ a := by
  rw [howner, hschedule] at ha
  refine ⟨site.entry, hsite.entry, ?_, ha⟩
  rw [← hsite.flag]
  exact (hnext l hleft).1

/-- The record of a node has no run from a later gap. -/
theorem Settled.lacks {label : Label} (hsite : site.Apart)
    (h : site.Settled start f tokens) (hleft : f.left = some l)
    (hlt : l.rank < e.rank)
    (hleads : site.schema.Leads site.owner ⟨l, e⟩ ⟨.owner, label⟩) :
    f.extras.Lacks label := by
  refine Named.lookup_eq_none.2 fun hmem => ?_
  rcases h.own label hmem with ⟨x, hx, rfl⟩ | ⟨g, l', hg, hforward, hl', hle⟩
  · exact hsite.separates.not_lends ⟨_, _, hleads⟩ (hsite.lent x hx).2
  · rw [hleft] at hl'
    cases hl'
    exact hsite.separates.apart _ _ _ _ _ hg hleads ⟨hforward, hle, hlt⟩ rfl

/-- The record of the last child has no run from the gap behind it. -/
theorem Settled.last_lacks {label : Label} {record : Extras}
    (hsite : site.Apart) (h : site.Settled start f tokens)
    (hleft : f.left = some l)
    (hlt : l.rank < e.rank) (hrecord : f.record? = some record)
    (hleads : site.schema.Leads site.owner ⟨l, e⟩ ⟨.left, label⟩) :
    record.Lacks label := by
  refine Named.lookup_eq_none.2 fun hmem => ?_
  rcases h.last l record hleft hrecord label hmem with howns |
    ⟨l', hg, hforward⟩
  · exact hsite.separates.not_lends howns ⟨_, _, _, hleads, (nomatch ·), rfl⟩
  · exact hsite.separates.apart _ _ _ _ _ hg hleads
      ⟨hforward, le_refl _, hlt⟩ rfl

/-- A run is later than those in front of it. -/
theorem lt_of_mem_zipIdx {runs : List (List Token)} {r : List Token × Nat}
    (hr : r ∈ runs.zipIdx start) : r.2 < start + runs.length := by
  have hlt := List.snd_lt_of_mem_zipIdx hr
  omega

/-- A run that is stored is kept by the record that it is stored in. -/
theorem Filed.store {run : List Token} {o : Owner} {record : Extras}
    {label : Label} {others : List (Owner × Extras)}
    (h : site.Filed start reached f none tokens) (hrun : run ≠ [])
    (htokens : leadingRun tokens = run)
    (hold : ((site.owner, f.extras) :: fieldsRecords f.fields).Perm
      ((o, record) :: others)) (hlacks : record.Lacks label)
    (hnew : ((site.owner, f'.extras) :: fieldsRecords f'.fields).Perm
      ((o, record.insert label run) :: others)) :
    ∃ done, Keeps ((site.owner, f'.extras) ::
      fieldsRecords f'.fields) (done.zipIdx start) ∧
      done ++ (handedRuns none ++ extraRuns (behindRun tokens)) =
        handedRuns site.handed ++ extraRuns site.tokens := by
  obtain ⟨done, hkeeps, hdone⟩ := h.keeps
  have hstored : Keeps ((o, record.insert label run) :: others)
      (done.zipIdx start ++ [(run, start + done.length)]) :=
    (hkeeps.perm hold.symm).insert hlacks fun r => lt_of_mem_zipIdx
  refine ⟨done ++ [run], ?_, ?_⟩
  · rw [List.zipIdx_append]
    exact hstored.perm hnew
  · rw [← hdone, extraRuns_eq tokens, htokens]
    have hempty : run.isEmpty = false := List.isEmpty_eq_false_iff.2 hrun
    simp [handedRuns, hempty]

/-- The extras in front of an element are filed, or handed to it. -/
theorem Settled.gap (hsite : site.Apart) (h : site.Settled start f tokens)
    (hnodup : (f.fields.map Prod.fst).Nodup)
    (hnext : Next site.entry site.flag f e)
    (hgap : Build.gap site.context f e tokens = .ok (f', handed, rest)) :
    site.Filed start (some e) f' handed rest ∧
      Offered site.schema site.owner e handed := by
  obtain ⟨rfl, hstored⟩ := gap_eq_ok hgap
  -- what was stored up to the last element was stored up to this one
  have hreach :
      ∀ label ∈ f.extras.entries.map Prod.fst, site.Taken (some e) label := by
    intro label hlabel
    rcases h.own label hlabel with hparent | ⟨g, l, hg, hforward, hl, hle⟩
    · exact .inl hparent
    · exact .inr ⟨g, e, hg, hforward, rfl, hle.trans (le_of_lt (hnext l hl).2)⟩
  cases hstored with
  | nothing empty =>
    refine ⟨⟨h.owner_eq, h.schedule_eq, ?_, hreach⟩, fun x hx => nomatch hx⟩
    rw [behindRun_of_leadingRun empty]
    exact h.keeps
  | @owner l label extras nonempty hleft anchor set =>
    obtain ⟨-, -, -, rfl⟩ := setExtras_eq_ok nonempty set
    have hleads := hsite.leads hnext h.owner_eq h.schedule_eq hleft anchor
    have hlacks := h.lacks hsite hleft (hnext l hleft).2 hleads
    refine ⟨⟨h.owner_eq, h.schedule_eq, ?_, ?_⟩, fun x hx => nomatch hx⟩
    · exact h.store nonempty rfl .rfl hlacks .rfl
    · intro label' hlabel'
      simp only [Extras.insert_of_lacks hlacks, List.map_append, List.map_cons,
        List.map_nil] at hlabel'
      rcases List.mem_append.1 hlabel' with hlabel' | hlabel'
      · exact hreach label' hlabel'
      · rw [List.mem_singleton.1 hlabel']
        exact .inr ⟨_, e, hleads, (hnext l hleft).2, rfl, le_refl _⟩
  | @right l label nonempty hleft anchor child =>
    have hleads := hsite.leads hnext h.owner_eq h.schedule_eq hleft anchor
    refine ⟨⟨h.owner_eq, h.schedule_eq, ?_, hreach⟩, fun x hx => ?_⟩
    · obtain ⟨done, hkeeps, hdone⟩ := h.keeps
      refine ⟨done, hkeeps, ?_⟩
      have hempty : (leadingRun tokens).isEmpty = false :=
        List.isEmpty_eq_false_iff.2 nonempty
      rw [← hdone, extraRuns_eq tokens]
      simp [handedRuns, hempty]
    · cases hx
      exact ⟨nonempty, child, l, hleads, (hnext l hleft).2⟩
  | @left l label name value o record extras nonempty hleft anchor child hchild
    field last set =>
    obtain ⟨-, -, -, rfl⟩ := setExtras_eq_ok nonempty set
    have hleads := hsite.leads hnext h.owner_eq h.schedule_eq hleft anchor
    have hrecord : f.record? = some record := by
      rw [Frame.record?, hchild, Option.bind_some, field,
        Option.bind_some, last]
      rfl
    have hlacks := h.last_lacks hsite hleft (hnext l hleft).2 hrecord hleads
    refine ⟨⟨h.owner_eq, h.schedule_eq, ?_, hreach⟩, fun x hx => nomatch hx⟩
    obtain ⟨others, hold, hnew⟩ := fieldsRecords_update
      (withLastRecord (record.insert label (leadingRun tokens))) hnodup field
    obtain ⟨below, hbelow, hbelow'⟩ :=
      valueRecords_withLastRecord (record.insert label (leadingRun tokens)) last
    -- the record of the last child is brought to the front
    have hfront :
        ∀ {x : Extras} {fields : List (Owner × Extras)} {v : Value},
          fields.Perm (valueRecords v ++ others) →
          (valueRecords v).Perm ((o, x) :: below) →
          ((site.owner, f.extras) :: fields).Perm
            ((o, x) :: (site.owner, f.extras) :: (below ++ others)) := by
      intro x fields v hfields hv
      exact ((hfields.trans (hv.append_right others)).cons _).trans
        (.swap _ _ _)
    exact h.store nonempty rfl (hfront hold hbelow) hlacks (hfront hnew hbelow')

/-! ### Going past an element -/

/-- Going past a token. -/
theorem Settled.token {text : String} (hsite : site.Apart)
    (h : site.Settled start f tokens) (hnodup : (f.fields.map Prod.fst).Nodup)
    (hnext : Next site.entry site.flag f e) (he : e.isChild = false)
    (htoken : token site.context f e text tokens = .ok (f', rest)) :
    site.Settled start f' rest ∧ f'.left = some e := by
  obtain ⟨f₁, handed, t, hgap, -, rfl⟩ := token_eq_ok htoken
  obtain ⟨hfiled, hoffered⟩ := h.gap hsite hnodup hnext hgap
  have ht := isExtra_of_behindRun (gap_eq_ok hgap).1.symm
  obtain ⟨done, hkeeps, hdone⟩ := hfiled.keeps
  rw [hoffered.eq_none he, extraRuns_cons_of_leaf ht] at hdone
  exact ⟨⟨⟨hfiled.owner_eq, hfiled.schedule_eq, ⟨done, hkeeps, hdone⟩,
    hfiled.own⟩, fun l record hl hrecord => nomatch hrecord⟩, rfl⟩

/-- Going past a child, whose records come behind those of the frame. -/
theorem Filed.pass {record : Extras} {records : List (Owner × Extras)}
    {fields : List (String × Value)} {child : Option String}
    (h : site.Filed start (some e) f handed tokens)
    (hoffered : Offered site.schema site.owner e handed)
    (hbelow : FiledBelow site.schema handed tokens rest record records)
    (hframe : f' = { f with fields := fields, left := some e, child := child })
    (hfields : (fieldsRecords fields).Perm (fieldsRecords f.fields ++ records))
    (hrecord : f'.record? = some record) : site.Settled start f' rest := by
  subst hframe
  obtain ⟨done, hkeeps, hdone⟩ := h.keeps
  obtain ⟨more, hmore, hruns⟩ := hbelow.keeps (start + done.length)
  refine ⟨⟨h.owner_eq, h.schedule_eq, ⟨done ++ more, ?_, ?_⟩, h.own⟩,
    fun l r hl hr => ?_⟩
  · rw [List.zipIdx_append]
    exact (hkeeps.append hmore).perm (hfields.cons _)
  · rw [← hdone, ← hruns, List.append_assoc]
    rfl
  · cases hl
    rw [hrecord] at hr
    cases hr
    intro label hlabel
    rcases hbelow.labels label hlabel with howns | ⟨x, hx, rfl⟩
    · exact .inl howns
    · obtain ⟨-, -, l', hleads, hlt⟩ := hoffered x hx
      exact .inr ⟨l', hleads, hlt⟩

/-- Going past a child that fills a field. -/
theorem Filed.addChild {name : String} {value : Value} {o : Owner}
    {record : Extras} (h : site.Filed start (some e) f handed tokens)
    (hoffered : Offered site.schema site.owner e handed)
    (hfresh : name ∉ f.fields.map Prod.fst)
    (hlast : lastRecord? value = some (o, record))
    (hbelow : FiledBelow site.schema handed tokens rest record
      (valueRecords value)) :
    site.Settled start (f.addChild e name value) rest := by
  refine h.pass hoffered hbelow rfl ?_ (Frame.record?_addChild hfresh hlast)
  rw [Frame.fill, fieldsRecords_append, fieldsRecords, fieldsRecords,
    List.append_nil]

/-- Going past an item. -/
theorem Filed.addItem {name : String}
    {item : Cst} {count : Nat} (h : site.Filed start (some e) f handed tokens)
    (hoffered : Offered site.schema site.owner e handed)
    (hnodup : (f.fields.map Prod.fst).Nodup) (hlist : HoldsList f name count)
    (hbelow : FiledBelow site.schema handed tokens rest item.extras
      item.records) : site.Settled start (f.addItem e name item) rest := by
  obtain ⟨items, hitems, -⟩ := hlist
  refine h.pass hoffered hbelow rfl ?_ (Frame.record?_addItem hitems)
  obtain ⟨others, hold, hnew⟩ :=
    fieldsRecords_update (Frame.addItemTo item) hnodup hitems
  have hitem : valueRecords (Frame.addItemTo item (.list items)) =
      valueRecords (.list items) ++ item.records := by
    simp [Frame.addItemTo, valueRecords, itemsRecords_append, itemsRecords]
  rw [hitem, List.append_assoc] at hnew
  refine hnew.trans ?_
  refine .trans ?_ (hold.append_right _).symm
  rw [List.append_assoc]
  exact List.perm_append_comm.append_left _

/-- Filling a field without an element. -/
theorem Settled.fill {name : String} {value : Value}
    (h : site.Settled start f tokens) (hlast : lastRecord? value = none)
    (hvalue : valueRecords value = []) :
    site.Settled start (f.fill name value) tokens := by
  refine ⟨⟨h.owner_eq, h.schedule_eq, ?_, h.own⟩, fun l record hl hrecord => ?_⟩
  · rw [Frame.fill, fieldsRecords_append, fieldsRecords, fieldsRecords, hvalue,
      List.append_nil, List.append_nil]
    exact h.keeps
  · refine h.last l record hl ?_
    -- the new field is not the one of the last child, for it has no record
    rw [Frame.record?, Frame.fill] at hrecord
    rw [Frame.record?]
    cases hchild : f.child with
    | none => simp [hchild] at hrecord
    | some child =>
      simp only [hchild, Option.bind_some, List.lookup_append] at hrecord
      rw [Option.bind_some]
      cases hvalue : f.fields.lookup child with
      | some value' => simpa [hvalue] using hrecord
      | none =>
        rw [hvalue, Option.none_or, List.lookup_cons] at hrecord
        cases hname : child == name <;> simp [hname, hlast] at hrecord

/-! ### Slots -/

/-- The items of a list file their runs. -/
theorem Settled.items {slot index : Nat} {field : String}
    {separator : Option String} {children : List Child} (hsite : site.Apart)
    (h : site.Settled start f tokens)
    (hslot : site.schedule[slot]? = some (.list field separator))
    (hfiles : ∀ ch ∈ children, ch.Files site.schema)
    (hnodup : (f.fields.map Prod.fst).Nodup) (hlist : HoldsList f field index)
    (hfirst : index = 0 → Near site.entry site.flag slot f)
    (hnext : ∀ i, index = i + 1 → f.left = some (.item slot i))
    (hfill : fillItems site.context slot field separator index f tokens
      children = .ok (f', rest)) :
    site.Settled start f' rest ∧ Near site.entry site.flag (slot + 1) f' := by
  induction children generalizing index f tokens with
  | nil =>
    cases Except.ok.inj hfill
    exact ⟨h, near_of_items hslot hfirst hnext⟩
  | cons child children ih =>
    obtain ⟨f₁, tokens₁, f₂, handed, tokens₂, item, tokens₃, hseparated, hgap,
      hbuild, hitems⟩ := fillItems_cons_eq_ok hfill
    have hnames : f₁.fields.map Prod.fst = f.fields.map Prod.fst := by
      cases hseparated with
      | nothing => rfl
      | token _ _ pass => exact token_names pass
    have hitem : site.Settled start f₁ tokens₁ ∧
        Next site.entry site.flag f₁ (.item slot index) := by
      cases hseparated with
      | nothing first =>
        refine ⟨h, ?_⟩
        cases index with
        | zero => exact (hfirst rfl).next hslot rfl rfl
        | succ i =>
          rcases first with rfl | hindex
          · exact next_of_left (hnext i rfl)
              (Schedule.occurs_item_item hslot i (i + 1))
              ((Element.rank_item_lt_separator slot i).trans
                (Element.rank_separator_lt_item slot i))
          · exact nomatch hindex
      | @token text i _ _ hseparator hindex pass =>
        subst hseparator hindex
        have hseparator : Next site.entry site.flag f (.separator slot i) :=
          next_of_left (hnext i rfl) (Schedule.occurs_item_separator hslot i i)
            (Element.rank_item_lt_separator slot i)
        obtain ⟨hsettled, hleft⟩ := h.token hsite hnodup hseparator rfl pass
        exact ⟨hsettled,
          next_of_left hleft (Schedule.occurs_separator_item hslot i (i + 1))
            (Element.rank_separator_lt_item slot i)⟩
    obtain ⟨hsettled, hnext₁⟩ := hitem
    obtain ⟨hfiled, hoffered⟩ :=
      hsettled.gap hsite (hnames ▸ hnodup) hnext₁ hgap
    have hnames₂ : f₂.fields.map Prod.fst = f.fields.map Prod.fst :=
      (gap_eq_ok hgap).2.names_eq.trans hnames
    have hlist₂ := (hlist.of_separated hseparated).of_gap hgap
    have hbelow := hfiles child List.mem_cons_self handed tokens₂ item tokens₃
      hoffered.lent hbuild
    have hsettled₃ := hfiled.addItem hoffered (hnames₂ ▸ hnodup) hlist₂ hbelow
    have hnames₃ :
        (f₂.addItem (.item slot index) field item).fields.map Prod.fst =
          f.fields.map Prod.fst := (f₂.names_update ..).trans hnames₂
    refine ih hsettled₃ (fun ch hch => hfiles ch (List.mem_cons_of_mem _ hch))
      (hnames₃ ▸ hnodup)
      (hlist₂.addItem item) (nomatch ·) (fun i hi => ?_) hitems
    cases hi
    rfl

/-- Filling one slot. -/
theorem Settled.step {p : Parts} {virtual : VirtualBuilder} {index : Nat}
    {slot : Slot} (hsite : site.Apart) (h : site.Settled start f tokens)
    (hslot : site.schedule[index]? = some slot)
    (hparts : p.All (·.Files site.schema))
    (hroles : RolesFile site.schema virtual)
    (hplaced : Placed site.schema.roles p virtual)
    (hnodup : (f.fields.map Prod.fst ++
      (Schema.placed? site.schema.roles slot).toList.map FieldDef.name).Nodup)
    (hnear : Near site.entry site.flag index f)
    (hfills : Fills site.context p virtual index f tokens slot f' rest) :
    site.Settled start f' rest ∧ Near site.entry site.flag (index + 1) f' := by
  have hnames : (f.fields.map Prod.fst).Nodup := (List.nodup_append.1 hnodup).1
  have hfresh : ∀ d, Schema.placed? site.schema.roles slot = some d →
      d.name ∉ f.fields.map Prod.fst := by
    intro d hd hmem
    rw [hd] at hnodup
    exact (List.nodup_append.1 hnodup).2.2 _ hmem
      _ (List.mem_singleton_self _) rfl
  cases hfills with
  | extras label => exact ⟨h, hnear.skip hslot (fun x hx => by cases hx) rfl⟩
  | token pass =>
    obtain ⟨hsettled, hleft⟩ :=
      h.token hsite hnames (hnear.next hslot rfl rfl) rfl pass
    exact ⟨hsettled, near_of_left hslot rfl rfl hleft⟩
  | scalar part pass =>
    obtain ⟨hsettled, hleft⟩ :=
      h.token hsite hnames (hnear.next hslot rfl rfl) rfl pass
    exact ⟨hsettled.fill rfl rfl, near_of_left hslot rfl rfl hleft⟩
  | implied part =>
    exact ⟨h.fill rfl rfl, hnear.skip hslot (fun x hx => by cases hx) rfl⟩
  | @child slot field ch f₁ handed tokens₁ _ built hkind part before build =>
    -- a node that is required and one that may be missing are filled alike
    rcases hkind with rfl | rfl
    all_goals
      obtain ⟨hfiled, hoffered⟩ :=
        h.gap hsite hnames (hnear.next (e := .child index) hslot rfl rfl) before
      have hbelow :=
        hparts field _ part handed tokens₁ built rest hoffered.lent build
      have hfresh₁ : field ∉ f₁.fields.map Prod.fst := by
        rw [(gap_eq_ok before).2.names_eq]
        exact hfresh _ rfl
      exact ⟨hfiled.addChild hoffered hfresh₁ rfl hbelow,
        near_of_left hslot rfl rfl rfl⟩
  | absent part =>
    refine ⟨h.fill rfl rfl, hnear.skip hslot (fun x hx => ?_) rfl⟩
    cases Option.some.inj hx
    rfl
  | @list field separator children _ _ part items =>
    have hnodup' : ((f.fill field (.list [])).fields.map Prod.fst).Nodup := by
      rw [Frame.fill, List.map_append]
      exact hnodup
    exact (h.fill rfl rfl).items hsite hslot (hparts field _ part) hnodup'
      ⟨[], lookup_fill (hfresh ⟨field, .list⟩ rfl), rfl⟩ (fun _ => hnear)
      (fun _ hi => by cases hi) items
  | @virtual role f₁ handed tokens₁ _ field value before build =>
    obtain ⟨hfiled, hoffered⟩ :=
      h.gap hsite hnames (hnear.next (e := .child index) hslot rfl rfl) before
    obtain ⟨wrapped, extras, rfl, hbelow⟩ :=
      hroles role handed tokens₁ field value rest hoffered.lent build
    have hfresh₁ : field ∉ f₁.fields.map Prod.fst := by
      rw [(gap_eq_ok before).2.names_eq]
      exact hfresh _ (hplaced role handed tokens₁ field _ rest build).1
    exact ⟨hfiled.addChild hoffered hfresh₁ rfl hbelow,
      near_of_left hslot rfl rfl rfl⟩

/-- Filling the slots from an index on. -/
theorem Settled.steps {p : Parts} {virtual : VirtualBuilder} {index : Nat}
    {slots : Schedule} (hsite : site.Apart) (h : site.Settled start f tokens)
    (hslots : site.schedule.drop index = slots)
    (hindex : index ≤ site.schedule.length)
    (hparts : p.All (·.Files site.schema))
    (hroles : RolesFile site.schema virtual)
    (hplaced : Placed site.schema.roles p virtual)
    (hnodup : (f.fields.map Prod.fst ++ Schema.placedNames site.schema.roles
      slots).Nodup) (hnear : Near site.entry site.flag index f)
    (hfill : fillSlots site.context p virtual index f tokens slots =
      .ok (f', rest)) :
    site.Settled start f' rest ∧
      Near site.entry site.flag site.schedule.length f' := by
  induction slots generalizing index f tokens with
  | nil =>
    cases Except.ok.inj hfill
    have hlength : index = site.schedule.length :=
      Nat.le_antisymm hindex (List.drop_eq_nil_iff.1 hslots)
    exact hlength ▸ ⟨h, hnear⟩
  | cons slot slots ih =>
    obtain ⟨hslot, hfurther⟩ := Schedule.getElem?_of_drop hslots
    obtain ⟨f₁, tokens₁, hfirst, hothers⟩ := fillSlots_cons_eq_ok hfill
    rw [Schema.placedNames_cons, ← List.append_assoc] at hnodup
    have hhere := (List.nodup_append.1 hnodup).1
    obtain ⟨h₁, hnear₁⟩ :=
      h.step hsite hslot hparts hroles hplaced hhere hnear hfirst
    have hlt : index < site.schedule.length :=
      (List.getElem?_eq_some_iff.1 hslot).1
    refine ih h₁ hfurther hlt ?_ hnear₁ hothers
    rw [hfirst.names hplaced]
    exact hnodup

/-! ### Nodes -/

/-- A frame of which nothing has been built keeps what was handed to it. -/
theorem Apart.settled (hsite : site.Apart)
    (hopen : Opened site.context site.owner site.handed site.root f)
    (start : Nat) :
    site.Settled start f site.tokens ∧ f.schedule = site.schedule := by
  obtain ⟨entry, hentry, hschedule⟩ := hopen.entry
  cases Option.some.inj (hsite.entry.symm.trans hentry)
  have hextras := hopen.extras
  refine ⟨⟨⟨hopen.owner_eq, hschedule, ?_, ?_⟩, fun l record hl hrecord => ?_⟩,
    hschedule⟩
  · rw [hopen.fields, fieldsRecords]
    cases hhanded : site.handed with
    | none =>
      simp only [hhanded] at hextras
      rw [hextras]
      exact ⟨[], Keeps.empty site.owner, rfl⟩
    | some x =>
      simp only [hhanded] at hextras
      obtain ⟨-, -, -, hset⟩ := setExtras_eq_ok (hsite.lent x hhanded).1 hextras
      rw [hset]
      refine ⟨[x.tokens], ?_, rfl⟩
      exact (Keeps.empty site.owner).insert (Extras.lacks_empty _) fun r
        hr => by cases hr
  · intro label hlabel
    cases hhanded : site.handed with
    | none =>
      simp only [hhanded] at hextras
      rw [hextras] at hlabel
      cases hlabel
    | some x =>
      simp only [hhanded] at hextras
      obtain ⟨-, -, -, hset⟩ := setExtras_eq_ok (hsite.lent x hhanded).1 hextras
      rw [hset, Extras.insert_of_lacks (Extras.lacks_empty _)] at hlabel
      rw [List.mem_singleton.1 hlabel]
      exact .inl ⟨x, hhanded, rfl⟩
  · rw [Frame.record?, hopen.child] at hrecord
    cases hrecord

/-- What a frame keeps when all its slots have been filled. -/
theorem filedBelow {records : List (Owner × Extras)}
    (h : ∀ start, ∃ reached, site.Filed start reached f none rest)
    (hrecords : records.Perm ((site.owner, f.extras) ::
      fieldsRecords f.fields)) :
    FiledBelow site.schema site.handed site.tokens rest f.extras records := by
  refine ⟨fun start => ?_, fun label hlabel => ?_⟩
  · obtain ⟨reached, hfiled⟩ := h start
    obtain ⟨done, hkeeps, hdone⟩ := hfiled.keeps
    exact ⟨done, hkeeps.perm hrecords, hdone⟩
  · obtain ⟨reached, hfiled⟩ := h 0
    rcases hfiled.own label hlabel with hparent | ⟨g, l, hg, -⟩
    · exact .inr hparent
    · exact .inl ⟨site.owner, g, hg⟩

end Site

/-! ### Nodes -/

theorem rolesFile_refuse (s : Schema) (role : VirtualRole) :
    RolesFile s (refuse role) :=
  fun _ _ _ _ _ _ _ h => nomatch h

theorem valueRecords_wrapped (role : VirtualRole) (inner : Value) (x : Extras) :
    valueRecords (.virtual role (wrappedValue inner) x) =
      (.virtual role, x) :: valueRecords inner := by
  cases inner with
  | list items => cases items <;> rfl
  | _ => rfl

section Nodes

variable (hs : c.schema.Sound) (hseparates : c.schema.Separates) {p : Parts}
  (hparts : p.All (·.Files c.schema))

include hs hseparates hparts

/-- A virtual node files the runs that it takes. -/
theorem virtualNode_files : RolesFile c.schema (virtualNode c p) := by
  intro role handed tokens name value rest hlent h
  obtain ⟨entry, f, f', inner, children, hentry, hfits, hfield, hopen, -, hfill,
    hfields, rfl, -⟩ :=
    virtualNode_placed hs h
  let site : Site := ⟨c, .virtual role, entry, false, false, handed, tokens⟩
  have hsite : site.Apart := ⟨hseparates, hlent, hentry, by simp [site]⟩
  have hnear : Near entry false 0 f := hopen.near fun h => h
  have hnodup : (f.fields.map Prod.fst ++
      Schema.placedNames c.schema.roles entry.schedule).Nodup := by
    rw [hopen.fields, hfits.placedNames hfield]
    exact List.nodup_singleton name
  have hend : ∀ start, ∃ reached, site.Filed start reached f' none rest := by
    intro start
    obtain ⟨hsettled, -⟩ := hsite.settled hopen start
    obtain ⟨hsettled', -⟩ :=
      hsettled.steps hsite List.drop_zero (Nat.zero_le _) hparts
        (rolesFile_refuse c.schema role)
        (placed_refuse c.schema.roles p role) hnodup hnear hfill
    exact ⟨_, hsettled'.toFiled⟩
  refine ⟨wrappedValue inner, f'.extras, rfl, Site.filedBelow hend ?_⟩
  rw [valueRecords_wrapped, hfields, fieldsRecords, fieldsRecords,
    List.append_nil]

/-- A node, which may be the root, files the runs that it takes. -/
theorem node_files {root : Bool} {tree : Cst} {declared : List FieldDef}
    (hdeclared : c.schema.grammar.fields? p.type = some declared)
    (hnames : p.fields.map Prod.fst = declared.map FieldDef.name)
    (hroot : root = true → p.type = c.schema.grammar.root)
    (hlent : Lent c.schema handed)
    (h : node c p root handed tokens = .ok (tree, rest)) :
    FiledBelow c.schema handed tokens rest tree.extras tree.records := by
  obtain ⟨entry, f, f₁, f', tokens₁, ordered, hentry, hopen, hfill, hend, hf₁,
    harranged, rfl⟩ :=
    exists_arranged hs hdeclared hnames h
  have hnodup : (Schema.placedNames c.schema.roles entry.schedule).Nodup :=
    harranged.names ▸ harranged.nodup
  have hsite : (nodeSite c p.type entry root handed tokens).Apart :=
    ⟨hseparates, hlent, hentry, by simp [nodeSite, Site.schema]⟩
  have hnear : Near entry (p.type = c.schema.grammar.root) 0 f :=
    hopen.near fun h => decide_eq_true (hroot h)
  have hfiled :
      ∀ start, ∃ reached, (nodeSite c p.type entry root handed tokens).Filed
        start reached f' none rest := by
    intro start
    obtain ⟨hsettled, -⟩ := hsite.settled hopen start
    have hnodup₀ : (f.fields.map Prod.fst ++
        Schema.placedNames c.schema.roles entry.schedule).Nodup := by
      rw [hopen.fields]
      exact hnodup
    obtain ⟨hsettled₁, hnear₁⟩ :=
      hsettled.steps hsite List.drop_zero (Nat.zero_le _) hparts
        (virtualNode_files hs hseparates hparts)
        (placed_virtualNode hs p) hnodup₀ hnear hfill
    cases root with
    | false =>
      obtain ⟨rfl, rfl⟩ := hend
      exact ⟨_, hsettled₁.toFiled⟩
    | true =>
      -- behind the root's last element stand the extras at the end of the text
      obtain ⟨handed', hgap⟩ := hend
      have hnext : Next entry (p.type = c.schema.grammar.root) f₁ .stop := by
        intro l hl
        refine ⟨?_, (hnear₁ l hl).rank_lt_stop⟩
        have hflag : decide (p.type = c.schema.grammar.root) = true :=
          decide_eq_true (hroot rfl)
        have hlast := hnear₁ l hl
        simp only [nodeSite, hflag] at hlast ⊢
        exact hlast.occurs_stop
      obtain ⟨hstop, hoffered⟩ := hsettled₁.gap hsite (hf₁ ▸ hnodup) hnext hgap
      rw [hoffered.eq_none rfl] at hstop
      exact ⟨_, hstop⟩
  have hrecords : (Cst.node p.type ordered f'.extras).records.Perm
      ((.node p.type, f'.extras) :: fieldsRecords f'.fields) := by
    rw [records]
    have hfields :=
      Named.perm harranged.nodup harranged.namesPerm harranged.lookup
    exact (fieldsRecords_perm hfields).symm.cons _
  exact Site.filedBelow hfiled hrecords

end Nodes

/-- Every tree of the grammar files the runs that it takes. -/
theorem child_files (hs : c.schema.Sound) (hseparates : c.schema.Separates)
    (t : Ast) (ht : c.schema.grammar.Conforms t) :
    (child c t).Files c.schema := by
  induction t using Branching.induction with
  | step t ih =>
    cases ht with
    | node hdeclared hnames hshapes hbelow =>
      intro handed tokens tree rest hlent h
      rw [child_build] at h
      refine node_files hs hseparates (parts_all fun u hu =>
        ih u hu (hbelow u hu))
        hdeclared ((names_parts c _).trans hnames) (fun hroot => ?_) hlent h
      exact nomatch hroot

end Build

/-- Under a schema that separates its places every run of extras is kept,
whole and once. -/
theorem keeps_of_build {s : Schema} {t : Ast} {tokens : List SourceToken}
    {tree : Cst} (hs : s.Sound) (hseparates : s.Separates)
    (h : build s t tokens = .ok tree) :
    Keeps tree.records (extraRuns tokens).zipIdx := by
  obtain ⟨hcheck, hnode⟩ := build_eq_ok h
  have htype := Grammar.type_of_check hcheck
  cases Grammar.conforms_of_check hcheck with
  | node hdeclared hnames hshapes hbelow =>
    have hlent : Build.Lent s none := fun _ hx => nomatch hx
    have hfiled :=
      Build.node_files (c := ⟨s, Build.streamEnd tokens⟩) hs hseparates
        (Build.parts_all fun u hu =>
          Build.child_files hs hseparates u (hbelow u hu))
        hdeclared ((Build.names_parts _ _).trans hnames)
        (fun _ => htype) hlent hnode
    obtain ⟨done, hkeeps, hdone⟩ := hfiled.keeps 0
    have hall : done = extraRuns tokens := by
      simpa [extraRuns, Build.handedRuns] using hdone
    exact hall ▸ hkeeps

end Cst

end Lossless
