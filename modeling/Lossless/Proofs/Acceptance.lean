import Lossless.Proofs.Anchoring
import Lossless.Proofs.Conformance
import Lossless.Proofs.Leaves
import Lossless.Proofs.Placing
import Lossless.Proofs.Records

/-!
# What building accepts

Building compares the leaves of a tree with the tokens that carry meaning, and
nothing else decides whether it succeeds: wherever extras stand, they find a
place. `Ready` is what a frame needs for this, and every step keeps it. So under
a schema whose anchors can be followed (`Schema.Resolves`) each part of a tree
takes its leaves off the token stream, or fails as they do (`Child.Reads`).
-/

namespace Lossless

/-- The slots that stand in the place of a slot when virtual nodes are
looked through. -/
def Schema.inline (s : Schema) : Slot → Schedule
  | .virtual role =>
    match s.entry? (.virtual role) with
    | some e => e.schedule
    | none => []
  | slot => [slot]

/-- What the nodes of a type are spelled with under a schema. -/
def Schema.layout (s : Schema) : Layout := fun type =>
  match s.entry? (.node type) with
  | some e => e.schedule.flatMap s.inline
  | none => []

/-- A slot without a virtual node is spelled as it stands. -/
theorem Schema.ofSlots_inline (s : Schema) {slot : Slot}
    (hslot : slot.role? = none) (type : String)
    (fields : List (String × Spelling)) :
    Leaf.ofSlots type fields (s.inline slot) =
      Leaf.ofSlot type fields slot := by
  cases slot with
  | virtual role => exact nomatch hslot
  | _ => exact List.append_nil _

namespace Cst

namespace Build

open Leaf (consume)
open Outcome (Yields)

variable {c : Context} {owner : Owner} {entry : SchemaEntry} {flag : Bool}
  {f f' : Frame} {tokens rest stream : List SourceToken}

/-- The last element of a frame is a child whose record can be
found and changed. -/
def HasChild (c : Context) (f : Frame) : Prop :=
  ∃ name value o record e, f.child = some name ∧
    f.fields.lookup name = some value ∧
    lastRecord? value = some (o, record) ∧ c.schema.entry? o = some e

/-- A frame in which extras in front of the next element will find a place. -/
structure Ready (c : Context) (owner : Owner) (entry : SchemaEntry) (f : Frame)
    (tokens : List SourceToken) : Prop where
  owner_eq : f.owner = owner
  schedule_eq : f.schedule = entry.schedule
  first : f.left = none → leadingRun tokens = []
  child : ∀ l, f.left = some l → l.isChild = true → HasChild c f

/-- A run that any child can take. -/
def Handable (c : Context) (h : Handed) : Prop :=
  ∃ owner e, c.schema.entry? owner = some e ∧
    (c.schema.strategy.vocabulary owner []).contains h.label = true

/-- A frame and the rest of its token stream, beside what is left of a stream
from which the leaves have been taken: the two streams are the same up to
extras in front. -/
def Reached (c : Context) (owner : Owner) (entry : SchemaEntry)
    (also : Frame → Prop) (reached : Frame × List SourceToken)
    (stream : List SourceToken) : Prop :=
  behindRun reached.2 = behindRun stream ∧
    Ready c owner entry reached.1 reached.2 ∧ also reached.1

/-! ### Records -/

theorem HasChild.of_stored {right : Element} {run : List Token}
    {handed : Option Handed} (h : HasChild c f)
    (hstored : Stored c f right run f' handed) : HasChild c f' := by
  obtain ⟨name, value, o, record, e, hname, hvalue, hlast, he⟩ := h
  cases hstored with
  | nothing | owner | right =>
    exact ⟨name, value, o, record, e, hname, hvalue, hlast, he⟩
  | @left _ _ _ _ _ _ extras _ _ _ _ hchild field last set =>
    rw [hname] at hchild
    cases hchild
    refine ⟨name, withLastRecord extras value, o, extras, e, hname, ?_,
      lastRecord?_withLastRecord extras hlast, he⟩
    rw [lookup_update, hvalue, Option.map_some, if_pos rfl]

theorem setExtras_of_contains {s : Schema} {e : SchemaEntry} {label : Label}
    (extras : Extras) (run : List Token) (he : s.entry? owner = some e)
    (hlabel : e.vocabulary.contains label = true) :
    ∃ extras', setExtras s owner extras label run = .ok extras' := by
  rw [setExtras, Schema.vocabulary, Schema.entryOf, he]
  simp only [Except.map, Outcome.ok_bind, Extras.set, hlabel, if_true]
  exact ⟨_, rfl⟩

/-! ### What steps keep -/

theorem Ready.of_gap {e : Element} {handed : Option Handed}
    (hready : Ready c owner entry f tokens)
    (h : gap c f e tokens = .ok (f', handed, rest)) :
    Ready c owner entry f' rest := by
  obtain ⟨rfl, hstored⟩ := gap_eq_ok h
  refine ⟨?_, ?_, fun hleft => ?_, fun l hl hchild => ?_⟩
  · rw [hstored.owner_eq, hready.owner_eq]
  · rw [hstored.schedule_eq, hready.schedule_eq]
  · rw [hstored.left_eq] at hleft
    have hrun := hready.first hleft
    rw [behindRun_of_leadingRun hrun]
    exact hrun
  · rw [hstored.left_eq] at hl
    exact (hready.child l hl hchild).of_stored hstored

theorem Ready.pass {e : Element} (hready : Ready c owner entry f tokens)
    (he : e.isChild = false) : Ready c owner entry (f.pass e) rest := by
  refine ⟨hready.owner_eq, hready.schedule_eq, (nomatch ·),
    fun l hl hchild => ?_⟩
  cases hl
  rw [he] at hchild
  exact nomatch hchild

theorem Ready.addItem {slot index count : Nat} {field : String}
    {item : Cst} {e : SchemaEntry} (hready : Ready c owner entry f tokens)
    (hlist : HoldsList f field count)
    (he : c.schema.entry? (.node item.type) = some e) :
    Ready c owner entry (f.addItem (.item slot index) field item) rest := by
  obtain ⟨items, hitems, -⟩ := hlist
  refine ⟨hready.owner_eq, hready.schedule_eq, (nomatch ·),
    fun l hl hchild => ?_⟩
  refine ⟨field, _, .node item.type, item.extras, e, rfl,
    lookup_addItem item hitems, ?_, he⟩
  rw [lastRecord?, List.getLast?_append]
  rfl

theorem Ready.addChild {name : String} {value : Value} {e : Element} {o : Owner}
    {record : Extras} {entry' : SchemaEntry}
    (hready : Ready c owner entry f tokens)
    (hfresh : name ∉ f.fields.map Prod.fst)
    (hlast : lastRecord? value = some (o, record))
    (hentry' : c.schema.entry? o = some entry') :
    Ready c owner entry (f.addChild e name value) rest :=
  ⟨hready.owner_eq, hready.schedule_eq, (nomatch ·), fun _ _ _ =>
    ⟨name, value, o, record, entry', rfl, lookup_fill hfresh, hlast, hentry'⟩⟩

theorem Ready.fill {name : String} {value : Value}
    (hready : Ready c owner entry f tokens) :
    Ready c owner entry (f.fill name value) tokens := by
  refine ⟨hready.owner_eq, hready.schedule_eq, hready.first,
    fun l hl hchild => ?_⟩
  obtain ⟨name', value', o, record, e, hname, hvalue, hlast, he⟩ :=
    hready.child l hl hchild
  refine ⟨name', value', o, record, e, hname, ?_, hlast, he⟩
  rw [Frame.fill,
    Named.lookup_append_of_mem _ (Named.mem_keys_of_lookup hvalue)]
  exact hvalue

theorem get_parts (c : Context) (type : String)
    {fields : List (String × Ast.Value)} {name : String} {value : Ast.Value}
    (h : fields.lookup name = some value) :
    (⟨type, parts c fields⟩ : Parts).get name = .ok (part c value) := by
  rw [Parts.get, lookup_parts, h]
  rfl

/-! ### Gaps -/

section Steps

variable (hs : c.schema.Resolves) (hentry : c.schema.entry? owner = some entry)
  (hfits : Schema.EntryFits c.schema.strategy owner flag entry)

include hs hentry hfits

/-- Extras in front of an element find a place. -/
theorem exists_gap {e : Element} (hready : Ready c owner entry f tokens)
    (hfacing : Facing entry flag f e) :
    ∃ f' handed, gap c f e tokens = .ok (f', handed, behindRun tokens) ∧
      ∀ h, handed = some h → Handable c h := by
  by_cases hrun : leadingRun tokens = []
  · refine ⟨f, none, ?_, fun h hh => nomatch hh⟩
    rw [behindRun_of_leadingRun hrun]
    rw [leadingRun] at hrun
    rw [gap, hrun]
    rfl
  · cases hleft : f.left with
    | none => exact absurd (hready.first hleft) hrun
    | some l =>
      obtain ⟨a, hanchor, hfit⟩ :=
        hfacing.exists_anchor hs hfits hready.owner_eq hready.schedule_eq hleft
      have hempty : ((tokens.takeWhile SourceToken.isExtra).map
        SourceToken.token).isEmpty = false :=
        List.isEmpty_eq_false_iff.2 hrun
      rw [gap]
      simp only [hempty, Bool.false_eq_true, if_false, hleft, hanchor,
        Outcome.ok_bind]
      obtain ⟨target, label⟩ := a
      cases target with
      | owner =>
        obtain ⟨extras', hset⟩ :=
          setExtras_of_contains f.extras (leadingRun tokens) hentry hfit
        rw [leadingRun] at hset
        simp only [hready.owner_eq, hset, Outcome.ok_bind]
        exact ⟨_, none, rfl, fun h hh => nomatch hh⟩
      | right =>
        have hchild : e.isChild = true := hfit.1
        simp only [hchild, if_true]
        refine ⟨f, _, rfl, fun h hh => ?_⟩
        cases hh
        exact ⟨owner, entry, hentry, hfit.2⟩
      | left =>
        have hchild : l.isChild = true := hfit.1
        obtain ⟨name, value, o, record, e', hname, hvalue, hlast, he'⟩ :=
          hready.child l hleft hchild
        have hlabel := hs.shares owner o entry e' hentry he' label hfit.2
        obtain ⟨extras', hset⟩ :=
          setExtras_of_contains record (leadingRun tokens) he' hlabel
        rw [leadingRun] at hset
        simp only [hchild, if_true, storeLeft, hname, hvalue, Option.bind_some,
          hlast, hset, Outcome.ok_bind]
        exact ⟨_, none, rfl, fun h hh => nomatch hh⟩

/-- A token takes its own leaf. -/
theorem token_yields {e : Element} {text : String} (he : e.isChild = false)
    (hstream : behindRun tokens = behindRun stream)
    (hready : Ready c owner entry f tokens) (hfacing : Facing entry flag f e) :
    Yields (token c f e text tokens) (consume c.streamEnd [.text text] stream)
      (Reached c owner entry fun f => f.left = some e) := by
  obtain ⟨f₁, handed, hgap, -⟩ := exists_gap hs hentry hfits hready hfacing
  have hready₁ := hready.of_gap hgap
  rw [token, hgap, Outcome.ok_bind, consume]
  rw [hstream, behindRun] at hready₁ ⊢
  cases stream.dropWhile SourceToken.isExtra with
  | nil => rfl
  | cons t ts =>
    simp only
    by_cases htext : t.text = text
    · rw [if_pos htext, if_pos htext]
      exact Yields.of_ok ⟨rfl, hready₁.pass he, rfl⟩
    · rw [if_neg htext, if_neg htext]
      rfl

/-! ### Lists -/

/-- What stands in front of an item takes its leaves, and the gap to the item
is a checked one. -/
theorem separate_yields {slot index : Nat} {field : String}
    {separator : Option String}
    (hslot : entry.schedule[slot]? = some (.list field separator))
    (hstream : behindRun tokens = behindRun stream)
    (hready : Ready c owner entry f tokens)
    (hfirst : index = 0 → Near entry flag slot f)
    (hnext : ∀ i, index = i + 1 → f.left = some (.item slot i)) :
    Yields (separate c slot separator index f tokens)
      (consume c.streamEnd (Leaf.ofSeparator separator index) stream)
      (Reached c owner entry fun f =>
        Facing entry flag f (.item slot index)) := by
  cases index with
  | zero =>
    have hsame : separate c slot separator 0 f tokens = .ok (f, tokens) := by
      cases separator <;> rfl
    rw [hsame]
    exact Yields.of_ok ⟨hstream, hready, (hfirst rfl).facing hslot rfl rfl⟩
  | succ i =>
    have hleft := hnext i rfl
    cases separator with
    | none =>
      have hfacing : Facing entry flag f (.item slot (i + 1)) :=
        facing_of_left hleft (Schedule.occurs_item_item hslot i (i + 1))
      exact Yields.of_ok ⟨hstream, hready, hfacing⟩
    | some text =>
      have hfacing : Facing entry flag f (.separator slot i) :=
        facing_of_left hleft (Schedule.occurs_item_separator hslot i i)
      refine (token_yields hs hentry hfits rfl hstream hready hfacing).imp
        fun b rest _ hb => ?_
      exact ⟨hb.1, hb.2.1,
        facing_of_left hb.2.2 (Schedule.occurs_separator_item hslot i (i + 1))⟩

/-- A child of a type takes its leaves off the token stream, whatever run
is handed to it. -/
def Child.Reads (c : Context) (ch : Child) (type : String)
    (leaves : List Leaf) : Prop :=
  ∀ handed tokens stream, (∀ h, handed = some h → Handable c h) →
    leadingRun tokens = [] → behindRun tokens = behindRun stream →
    Yields (ch.build handed tokens) (consume c.streamEnd leaves stream)
      fun built stream => behindRun built.2 = behindRun stream ∧
        built.1.type = type

/-- The items of a list take their leaves one after another. -/
theorem fillItems_yields {slot index : Nat} {field : String}
    {separator : Option String} {layout : Layout} {ts : List Ast}
    (hslot : entry.schedule[slot]? = some (.list field separator))
    (hreads : ∀ t ∈ ts, (child c t).Reads c t.type (t.leaves layout) ∧
      ∃ e, c.schema.entry? (.node t.type) = some e)
    (hstream : behindRun tokens = behindRun stream)
    (hready : Ready c owner entry f tokens) (hlist : HoldsList f field index)
    (hfirst : index = 0 → Near entry flag slot f)
    (hnext : ∀ i, index = i + 1 → f.left = some (.item slot i)) :
    Yields (fillItems c slot field separator index f tokens (ts.map (child c)))
      (consume c.streamEnd
        (Leaf.ofItems separator index (ts.map (Ast.leaves layout))) stream)
      (Reached c owner entry (Near entry flag (slot + 1))) := by
  induction ts generalizing index f tokens stream with
  | nil =>
    exact Yields.of_ok ⟨hstream, hready, near_of_items hslot hfirst hnext⟩
  | cons t ts ih =>
    obtain ⟨ht, e, he⟩ := hreads t List.mem_cons_self
    rw [List.map_cons, List.map_cons, fillItems_cons, Leaf.ofItems,
      Leaf.consume_append]
    have hseparate :=
      separate_yields hs hentry hfits hslot hstream hready hfirst hnext
    refine (hseparate.imp fun b rest hb h =>
      And.intro h (hlist.of_separated (separate_eq_ok hb))).bind ?_
    rintro ⟨f₁, tokens₁⟩ stream₁ ⟨⟨hstream₁, hready₁, hfacing⟩, hlist₁⟩
    obtain ⟨f₂, handed, hgap, hhanded⟩ :=
      exists_gap hs hentry hfits hready₁ hfacing
    have hready₂ := hready₁.of_gap hgap
    rw [Leaf.consume_append]
    simp only
    rw [hgap, Outcome.ok_bind]
    refine (ht handed _ stream₁ hhanded (leadingRun_behindRun tokens₁) ?_).bind
      ?_
    · rw [behindRun_behindRun, hstream₁]
    rintro ⟨item, tokens₃⟩ stream₃ ⟨hstream₃, htype⟩
    simp only at htype
    rw [← htype] at he
    have hready₃ : Ready c owner entry
        (f₂.addItem (.item slot index) field item) tokens₃ :=
      hready₂.addItem (hlist₁.of_gap hgap) he
    have hlist₃ := (hlist₁.of_gap hgap).addItem (e := .item slot index) item
    -- the item that has just been added is the one that the next item faces
    refine ih (fun u hu => hreads u (List.mem_cons_of_mem _ hu)) hstream₃
      hready₃ hlist₃ (fun h => by cases h) ?_
    intro i hi
    cases hi
    rfl

/-! ### Slots -/

/-- A node takes its leaves, in front of the element that it becomes. -/
theorem fillChild_yields {e : Element} {field : String}
    {t : Ast} {leaves : List Leaf} {entry' : SchemaEntry}
    (ht : (child c t).Reads c t.type leaves)
    (hentry' : c.schema.entry? (.node t.type) = some entry')
    (hfresh : field ∉ f.fields.map Prod.fst)
    (hstream : behindRun tokens = behindRun stream)
    (hready : Ready c owner entry f tokens) (hfacing : Facing entry flag f e) :
    Yields (fillChild c e field f (child c t) tokens)
      (consume c.streamEnd leaves stream)
      (Reached c owner entry fun f => f.left = some e) := by
  obtain ⟨f₁, handed, hgap, hhanded⟩ :=
    exists_gap hs hentry hfits hready hfacing
  have hready₁ := hready.of_gap hgap
  rw [fillChild, hgap, Outcome.ok_bind]
  have hbuild :=
    ht handed (behindRun tokens) stream hhanded (leadingRun_behindRun tokens)
      ((behindRun_behindRun tokens).trans hstream)
  rw [← Outcome.bind_ok (consume c.streamEnd leaves stream)]
  refine hbuild.bind ?_
  rintro ⟨built, rest⟩ stream' ⟨hstream', htype⟩
  refine Yields.of_ok ⟨hstream', hready₁.addChild ?_ rfl (htype ▸ hentry'), rfl⟩
  rw [(gap_eq_ok hgap).2.names_eq]
  exact hfresh

/-- What a builder of virtual nodes takes off the token stream for the
nodes of a role. -/
def ReadsRole (c : Context) (virtual : VirtualBuilder) (role : VirtualRole)
    (leaves : List Leaf) : Prop :=
  ∀ handed tokens stream, (∀ h, handed = some h → Handable c h) →
    leadingRun tokens = [] → behindRun tokens = behindRun stream →
    Yields (virtual role handed tokens) (consume c.streamEnd leaves stream)
      fun built stream => behindRun built.2.2 = behindRun stream ∧
        ∃ wrapped extras, built.2.1 = .virtual role wrapped extras

/-- A field of a syntax tree holds what a slot needs. -/
def Finds (roles : List (VirtualRole × SchemaEntry))
    (fields : List (String × Ast.Value)) (slot : Slot) : Prop :=
  ∀ d, Schema.placed? roles slot = some d →
    ∃ value, fields.lookup d.name = some value ∧ d.shape.fits value = true

section Node

variable {type : String} {fields : List (String × Ast.Value)} {layout : Layout}
  {virtual : VirtualBuilder}

/-- A scalar takes the token that spells it, or has no text. -/
theorem scalar_yields {index : Nat} {field : String} {value : Scalar}
    (hslot : entry.schedule[index]? = some (.scalar field))
    (hvalue : fields.lookup field = some (.scalar value))
    (howner : owner = .node type)
    (hstream : behindRun tokens = behindRun stream)
    (hready : Ready c owner entry f tokens) (hnear : Near entry flag index f) :
    Yields (fillSlot c ⟨type, parts c fields⟩ virtual index
      (.scalar field) f tokens) (consume c.streamEnd
        (Leaf.ofSlot type (Ast.spellings layout fields) (.scalar field)) stream)
      (Reached c owner entry (Near entry flag (index + 1))) := by
  rw [fillSlot, Parts.scalar, get_parts c type hvalue, Leaf.ofSlot,
    Ast.lookup_spellings, hvalue]
  cases value with
  | string text =>
    change Yields _ (consume c.streamEnd [.text text] stream) _
    rw [← Outcome.bind_ok (consume c.streamEnd [.text text] stream)]
    refine (token_yields hs hentry hfits rfl hstream hready
      (hnear.facing hslot rfl rfl)).bind ?_
    rintro ⟨f₁, tokens₁⟩ stream₁ ⟨hstream₁, hready₁, hleft₁⟩
    exact Yields.of_ok ⟨hstream₁, hready₁.fill,
      near_of_left hslot rfl rfl hleft₁⟩
  | _ =>
    have hnode : f.owner = .node type := hready.owner_eq.trans howner
    rw [hnode]
    rfl

/-- A virtual node takes the leaves of its role, in front of the element
that it becomes. -/
theorem virtual_yields {index : Nat} {role : VirtualRole} {leaves : List Leaf}
    {entry' : SchemaEntry}
    (hslot : entry.schedule[index]? = some (.virtual role))
    (hrole : ReadsRole c virtual role leaves)
    (hentry' : c.schema.entry? (.virtual role) = some entry')
    (hplaced : Placed c.schema.roles ⟨type, parts c fields⟩ virtual)
    (hfresh : ∀ d, Schema.placed? c.schema.roles (.virtual role) = some d →
      d.name ∉ f.fields.map Prod.fst)
    (hstream : behindRun tokens = behindRun stream)
    (hready : Ready c owner entry f tokens) (hnear : Near entry flag index f) :
    Yields (fillSlot c ⟨type, parts c fields⟩ virtual index
      (.virtual role) f tokens) (consume c.streamEnd leaves stream)
      (Reached c owner entry (Near entry flag (index + 1))) := by
  obtain ⟨f₁, handed, hgap, hhanded⟩ :=
    exists_gap hs hentry hfits hready
      (hnear.facing (e := .child index) hslot rfl rfl)
  have hready₁ := hready.of_gap hgap
  have hbuild :=
    hrole handed (behindRun tokens) stream hhanded (leadingRun_behindRun tokens)
      ((behindRun_behindRun tokens).trans hstream)
  rw [fillSlot, hgap, Outcome.ok_bind, ← Outcome.bind_ok (consume ..)]
  refine (hbuild.imp fun b rest hb h => And.intro hb h).bind ?_
  rintro ⟨field, value, rest⟩ stream' ⟨hb, hstream', wrapped, extras, hvalue⟩
  simp only at hvalue
  subst hvalue
  have hname := (hplaced role handed _ field _ rest hb).1
  refine Yields.of_ok ⟨hstream', hready₁.addChild ?_ rfl hentry',
    near_of_left hslot rfl rfl rfl⟩
  rw [(gap_eq_ok hgap).2.names_eq]
  exact hfresh ⟨field, role.shape⟩ hname

/-- A slot takes its leaves off the token stream. -/
theorem fillSlot_yields {index : Nat} {slot : Slot}
    (hslot : entry.schedule[index]? = some slot)
    (hreads : ∀ t ∈ Branching.children (Ast.node type fields),
      (child c t).Reads c t.type (t.leaves layout) ∧
      ∃ e, c.schema.entry? (.node t.type) = some e)
    (hvirtual : ∀ role, slot = .virtual role →
      ReadsRole c virtual role (Leaf.ofSlots type (Ast.spellings layout fields)
        (c.schema.inline slot)) ∧ ∃ e, c.schema.entry? (.virtual role) = some e)
    (hplaced : Placed c.schema.roles ⟨type, parts c fields⟩ virtual)
    (hscalar : ∀ field, slot = .scalar field → owner = .node type)
    (hfinds : Finds c.schema.roles fields slot)
    (hfresh : ∀ d, Schema.placed? c.schema.roles slot = some d → d.name ∉
      f.fields.map Prod.fst) (hstream : behindRun tokens = behindRun stream)
    (hready : Ready c owner entry f tokens) (hnear : Near entry flag index f) :
    Yields (fillSlot c ⟨type, parts c fields⟩ virtual index slot f tokens)
      (consume c.streamEnd (Leaf.ofSlots type
        (Ast.spellings layout fields) (c.schema.inline slot)) stream)
      (Reached c owner entry (Near entry flag (index + 1))) := by
  -- a node in a field becomes the child with the slot's index
  have hchild :
      ∀ {field : String} {t : Ast} {x : Schedule.Extent},
        Schedule.Extent.ofSlot? index slot = some x →
        x.first = (Element.child index).ground →
        x.last = (Element.child index).ground →
        fields.lookup field = some (.node t) → field ∉ f.fields.map Prod.fst →
        Yields (fillChild c (.child index) field f (child c t) tokens)
          (consume c.streamEnd (t.leaves layout) stream)
          (Reached c owner entry (Near entry flag (index + 1))) := by
    intro field t x hx hfirst hlast hvalue hfield
    obtain ⟨ht, entry', hentry'⟩ :=
      hreads t (Ast.mem_children hvalue (List.mem_singleton_self t))
    refine (fillChild_yields hs hentry hfits ht hentry' hfield hstream hready
      (hnear.facing hslot hx hfirst)).imp ?_
    exact fun b rest _ hb => ⟨hb.1, hb.2.1, near_of_left hslot hx hlast hb.2.2⟩
  cases slot with
  | extras label =>
    exact Yields.of_ok ⟨hstream, hready,
      hnear.skip hslot (fun x hx => by cases hx) rfl⟩
  | token text =>
    refine (token_yields hs hentry hfits rfl hstream hready
      (hnear.facing hslot rfl rfl)).imp ?_
    exact fun b rest _ hb => ⟨hb.1, hb.2.1, near_of_left hslot rfl rfl hb.2.2⟩
  | scalar field =>
    obtain ⟨value, hvalue, hfit⟩ := hfinds ⟨field, .scalar⟩ rfl
    cases value with
    | scalar value =>
      rw [c.schema.ofSlots_inline rfl]
      exact scalar_yields hs hentry hfits hslot hvalue
        (hscalar field rfl) hstream hready hnear
    | _ => cases hfit
  | implied field =>
    obtain ⟨value, hvalue, hfit⟩ := hfinds ⟨field, .scalar⟩ rfl
    cases value with
    | scalar value =>
      rw [fillSlot, Parts.scalar, get_parts c type hvalue]
      exact Yields.of_ok ⟨hstream, hready.fill,
        hnear.skip hslot (fun x hx => by cases hx) rfl⟩
    | _ => cases hfit
  | node field =>
    obtain ⟨value, hvalue, hfit⟩ := hfinds ⟨field, .node⟩ rfl
    cases value with
    | node t =>
      rw [c.schema.ofSlots_inline rfl, Leaf.ofSlot, Ast.lookup_spellings,
        hvalue, fillSlot, get_parts c type hvalue]
      exact hchild rfl rfl rfl hvalue (hfresh _ rfl)
    | _ => cases hfit
  | optional field =>
    obtain ⟨value, hvalue, hfit⟩ := hfinds ⟨field, .optional⟩ rfl
    rw [c.schema.ofSlots_inline rfl, Leaf.ofSlot, Ast.lookup_spellings, hvalue,
      fillSlot, get_parts c type hvalue]
    cases value with
    | node t => exact hchild rfl rfl rfl hvalue (hfresh _ rfl)
    | absent =>
      refine Yields.of_ok ⟨hstream, hready.fill,
        hnear.skip hslot (fun x hx => ?_) rfl⟩
      cases Option.some.inj hx
      rfl
    | _ => cases hfit
  | list field separator =>
    obtain ⟨value, hvalue, hfit⟩ := hfinds ⟨field, .list⟩ rfl
    cases value with
    | list ts =>
      rw [c.schema.ofSlots_inline rfl, Leaf.ofSlot, Ast.lookup_spellings,
        hvalue, Option.map_some, Ast.spelling, Ast.itemLeaves_eq_map, fillSlot,
        get_parts c type hvalue, Outcome.ok_bind, part, children_eq_map]
      exact fillItems_yields hs hentry hfits hslot
        (fun t ht => hreads t (Ast.mem_children hvalue ht)) hstream hready.fill
        ⟨[], lookup_fill (hfresh _ rfl), rfl⟩ (fun _ => hnear)
        (fun i hi => by cases hi)
    | _ => cases hfit
  | virtual role =>
    obtain ⟨hrole, entry', hentry'⟩ := hvirtual role rfl
    exact virtual_yields hs hentry hfits hslot hrole hentry' hplaced hfresh
      hstream hready hnear

/-- The slots from an index on take their leaves off the token stream. -/
theorem fillSlots_yields {index : Nat} {slots : Schedule}
    (hslots : entry.schedule.drop index = slots)
    (hreads : ∀ t ∈ Branching.children (Ast.node type fields),
      (child c t).Reads c t.type (t.leaves layout) ∧
      ∃ e, c.schema.entry? (.node t.type) = some e)
    (hvirtual : ∀ role, .virtual role ∈ slots →
      ReadsRole c virtual role (Leaf.ofSlots type (Ast.spellings layout fields)
        (c.schema.inline (.virtual role))) ∧
        ∃ e, c.schema.entry? (.virtual role) = some e)
    (hplaced : Placed c.schema.roles ⟨type, parts c fields⟩ virtual)
    (hscalar : ∀ field, .scalar field ∈ slots → owner = .node type)
    (hfinds : ∀ slot ∈ slots, Finds c.schema.roles fields slot)
    (hnodup : (f.fields.map Prod.fst ++ Schema.placedNames c.schema.roles
      slots).Nodup) (hstream : behindRun tokens = behindRun stream)
    (hready : Ready c owner entry f tokens) (hnear : Near entry flag index f) :
    Yields (fillSlots c ⟨type, parts c fields⟩ virtual index f tokens slots)
      (consume c.streamEnd (Leaf.ofSlots type (Ast.spellings layout fields)
        (slots.flatMap c.schema.inline)) stream)
      (Reached c owner entry (Near entry flag entry.schedule.length)) := by
  induction slots generalizing index f tokens stream with
  | nil =>
    refine Yields.of_ok ⟨hstream, hready, fun l hl => ?_⟩
    have hlength : entry.schedule.length ≤ index :=
      List.drop_eq_nil_iff.1 hslots
    have hlast := hnear l hl
    rw [Schedule.Last, Schedule.front, List.take_of_length_le hlength] at hlast
    rw [Schedule.Last, Schedule.front, List.take_length]
    exact hlast
  | cons slot slots ih =>
    obtain ⟨hslot, hfurther⟩ := Schedule.getElem?_of_drop hslots
    rw [Schema.placedNames_cons, ← List.append_assoc] at hnodup
    have hfresh : ∀ d, Schema.placed? c.schema.roles slot = some d →
        d.name ∉ f.fields.map Prod.fst := by
      intro d hd hmem
      have hfirst := (List.nodup_append.1 hnodup).1
      rw [hd] at hfirst
      exact (List.nodup_append.1 hfirst).2.2 _ hmem
        _ (List.mem_singleton_self _) rfl
    have hhere := fillSlot_yields hs hentry hfits hslot hreads
      (fun role hrole => hrole ▸ hvirtual role (hrole ▸ List.mem_cons_self))
      hplaced (fun field hfield => hscalar field (hfield ▸ List.mem_cons_self))
      (hfinds slot List.mem_cons_self) hfresh hstream hready hnear
    rw [fillSlots, List.flatMap_cons, Leaf.ofSlots, List.flatMap_append,
      Leaf.consume_append]
    refine (hhere.imp fun b rest hb h => And.intro hb h).bind ?_
    rintro ⟨f₁, tokens₁⟩ stream₁ ⟨hb, hstream₁, hready₁, hnear₁⟩
    have hnames := (fillSlot_eq_ok hb).names hplaced
    rw [← hnames] at hnodup
    exact ih hfurther (fun role hrole =>
      hvirtual role (List.mem_cons_of_mem _ hrole))
      (fun field hfield => hscalar field (List.mem_cons_of_mem _ hfield))
      (fun slot hmem => hfinds slot (List.mem_cons_of_mem _ hmem)) hnodup
      hstream₁ hready₁ hnear₁

end Node

end Steps

/-! ### Nodes -/

section Nodes

variable {type : String} {fields : List (String × Ast.Value)} {layout : Layout}

theorem exists_openFrame (hs : c.schema.Resolves)
    (hentry : c.schema.entry? owner = some entry) {handed : Option Handed}
    (root : Bool) (hhanded : ∀ h, handed = some h → Handable c h) :
    ∃ f, openFrame c owner handed root = .ok f := by
  have hschedule : c.schema.schedule owner = .ok entry.schedule := by
    rw [Schema.schedule, Schema.entryOf, hentry]
    rfl
  rw [openFrame, hschedule, Outcome.ok_bind]
  cases handed with
  | none => exact ⟨_, rfl⟩
  | some h =>
    obtain ⟨owner', e, he, hlabel⟩ := hhanded h rfl
    have hcontains := hs.shares owner' owner e entry he hentry h.label hlabel
    obtain ⟨extras, hset⟩ :=
      setExtras_of_contains .empty h.tokens hentry hcontains
    simp only [hset, Outcome.ok_bind]
    exact ⟨_, rfl⟩

theorem Opened.ready {handed : Option Handed} {root : Bool}
    (hopen : Opened c owner handed root f)
    (hentry : c.schema.entry? owner = some entry)
    (hfirst : root = false → leadingRun tokens = []) :
    Ready c owner entry f tokens := by
  obtain ⟨e, he, hschedule⟩ := hopen.entry
  rw [hentry] at he
  cases he
  refine ⟨hopen.owner_eq, hschedule, fun hnone => ?_, fun l hl hchild => ?_⟩
  · cases root with
    | false => exact hfirst rfl
    | true =>
      rw [hopen.left] at hnone
      exact nomatch hnone
  · cases root with
    | false =>
      rw [hopen.left] at hl
      exact nomatch hl
    | true =>
      rw [hopen.left] at hl
      cases hl
      exact nomatch hchild

/-- Looking through a virtual node shows the slots of its own schedule. -/
theorem inline_virtual {s : Schema} {role : VirtualRole}
    (hentry : s.entry? (.virtual role) = some entry)
    (hrole : Schema.RoleFits s.strategy role entry) :
    s.inline (.virtual role) = entry.schedule.flatMap s.inline := by
  rw [Schema.inline, hentry]
  refine (List.flatMap_singleton' _).symm.trans (List.flatMap_congr
    fun slot hslot => ?_)
  cases slot with
  | virtual role' => exact absurd hslot (hrole.notMem_virtual role')
  | _ => rfl

/-- A virtual node takes the leaves of its role's schedule. -/
theorem virtualNode_yields (hs : c.schema.Resolves) {role : VirtualRole}
    (hreads : ∀ t ∈ Branching.children (Ast.node type fields),
      (child c t).Reads c t.type (t.leaves layout) ∧
      ∃ e, c.schema.entry? (.node t.type) = some e)
    (hentry : c.schema.entry? (.virtual role) = some entry)
    (hfinds : Finds c.schema.roles fields (.virtual role)) :
    ReadsRole c (virtualNode c ⟨type, parts c fields⟩) role (Leaf.ofSlots type
      (Ast.spellings layout fields) (c.schema.inline (.virtual role))) := by
  intro handed tokens stream hhanded hrun hstream
  have hrole := hs.sound.role role entry hentry
  obtain ⟨name, hname, hfield⟩ := hrole.wrappedField?
  -- whatever slot places a field, it is the one that the virtual node wraps
  have hplaced : ∀ slot ∈ entry.schedule, ∀ d,
      Schema.placed? c.schema.roles slot = some d → d = ⟨name, role.shape⟩ := by
    intro slot hslot d hd
    have hmem : d ∈ entry.schedule.filterMap (Schema.placed? c.schema.roles) :=
      List.mem_filterMap.2 ⟨slot, hslot, hd⟩
    rw [hrole.placed, hfield] at hmem
    exact List.mem_singleton.1 hmem
  have hwrapped : Schema.placed? c.schema.roles (.virtual role) =
      some ⟨name, role.shape⟩ := by
    have hlookup : c.schema.roles.lookup role = some entry := hentry
    rw [Schema.placed?, Schema.wrapped?, hlookup, Option.bind_some, hname]
    rfl
  have hscalar : ∀ field, .scalar field ∈ entry.schedule →
      Owner.virtual role = .node type := by
    intro field hmem
    have hd := hplaced _ hmem ⟨field, .scalar⟩ rfl
    rw [Schema.shape_eq_list] at hd
    cases hd
  have hnames := hrole.placedNames hfield c.schema.roles
  obtain ⟨f, hopen⟩ := exists_openFrame hs hentry false hhanded
  have hopened := openFrame_eq_ok hopen
  have hready : Ready c (.virtual role) entry f tokens :=
    hopened.ready hentry fun _ => hrun
  have hnear : Near entry false 0 f := hopened.near fun h => h
  have hnodup : (f.fields.map Prod.fst ++
      Schema.placedNames c.schema.roles entry.schedule).Nodup := by
    rw [hopened.fields, hnames]
    exact List.nodup_singleton name
  have hslots := fillSlots_yields hs hentry hrole.toEntryFits
    (List.drop_zero (l := entry.schedule)) hreads
    (fun role' hmem => absurd hmem (hrole.notMem_virtual role'))
    (placed_refuse c.schema.roles _ role) hscalar (fun slot hmem d hd =>
      hplaced slot hmem d hd ▸ hfinds _ hwrapped) hnodup hstream hready hnear
  rw [inline_virtual hentry hrole, virtualNode, hopen, Outcome.ok_bind,
    hready.schedule_eq, ← Outcome.bind_ok (consume ..)]
  refine (hslots.imp fun b rest hb h => And.intro hb h).bind ?_
  rintro ⟨f', rest⟩ stream' ⟨hb, hstream', -, -⟩
  have hfields := fillSlots_names (placed_refuse c.schema.roles _ role) hb
  rw [hopened.fields, hnames] at hfields
  obtain ⟨value, hlast⟩ := Named.exists_getLast? hfields
  simp only [hlast]
  cases value with
  | list items => cases items <;> exact Yields.of_ok ⟨hstream', _, _, rfl⟩
  | _ => exact Yields.of_ok ⟨hstream', _, _, rfl⟩

theorem exists_orderFields {g : Grammar} {declared : List FieldDef}
    {built : List (String × Value)} (hdeclared : g.fields? type = some declared)
    (h : ∀ d ∈ declared, d.name ∈ built.map Prod.fst) :
    ∃ ordered, orderFields g type built = .ok ordered := by
  rw [orderFields, hdeclared]
  simp only
  clear hdeclared
  induction declared with
  | nil => exact ⟨[], rfl⟩
  | cons d declared ih =>
    obtain ⟨ordered, hordered⟩ :=
      ih fun d' hd' => h d' (List.mem_cons_of_mem _ hd')
    obtain ⟨value, hvalue⟩ := Named.exists_lookup (h d List.mem_cons_self)
    rw [List.mapM_cons, hvalue, Outcome.ok_bind, hordered]
    exact ⟨_, rfl⟩

/-- A node, which may be the root, takes its leaves off the token stream; behind
those of the root no extras are left. -/
theorem node_yields (hs : c.schema.Resolves) (root : Bool)
    (handed : Option Handed) {declared : List FieldDef}
    (hreads : ∀ t ∈ Branching.children (Ast.node type fields),
      (child c t).Reads c t.type (t.leaves layout) ∧
      ∃ e, c.schema.entry? (.node t.type) = some e)
    (hdeclared : c.schema.grammar.fields? type = some declared)
    (hdistinct : (declared.map FieldDef.name).Nodup)
    (hfields : ∀ d ∈ declared, ∃ value, fields.lookup d.name = some value ∧
      d.shape.fits value = true)
    (hroot : root = true → type = c.schema.grammar.root)
    (hhanded : ∀ h, handed = some h → Handable c h)
    (hrun : root = false → leadingRun tokens = [])
    (hstream : behindRun tokens = behindRun stream) :
    Yields (node c ⟨type, parts c fields⟩ root handed tokens)
      (consume c.streamEnd (Leaf.ofSlots type
        (Ast.spellings layout fields) (c.schema.layout type)) stream)
      fun built stream => behindRun built.2 = behindRun stream ∧
        built.1.type = type ∧ (root = true → built.2 = behindRun built.2) := by
  obtain ⟨entry, hentry⟩ := hs.sound.covers type declared hdeclared
  obtain ⟨declared', hdeclared', hnode⟩ := hs.sound.node type entry hentry
  rw [hdeclared] at hdeclared'
  cases hdeclared'
  have hperm := hnode.perm_of_nodup hdistinct
  have hfinds : ∀ slot ∈ entry.schedule,
      Finds c.schema.roles fields slot := fun slot hslot d hd =>
    hfields d (hperm.mem_iff.1 (List.mem_filterMap.2 ⟨slot, hslot, hd⟩))
  obtain ⟨f, hopen⟩ := exists_openFrame hs hentry root hhanded
  have hopened := openFrame_eq_ok hopen
  have hready : Ready c (.node type) entry f tokens := hopened.ready hentry hrun
  have hnear : Near entry (type = c.schema.grammar.root) 0 f :=
    hopened.near fun h => decide_eq_true (hroot h)
  have hslots := fillSlots_yields hs hentry hnode.toEntryFits
    (List.drop_zero (l := entry.schedule)) hreads (fun role hmem => by
      have hsome := hnode.hasRoles role (List.mem_filterMap.2 ⟨_, hmem, rfl⟩)
      cases he : c.schema.roles.lookup role with
      | none => simp [Schema.wrapped?, he] at hsome
      | some e =>
        exact ⟨virtualNode_yields hs hreads he (hfinds _ hmem), e, he⟩)
    (placed_virtualNode hs.sound ⟨type, parts c fields⟩) (fun _ _ => rfl) hfinds
    (by
      rw [hopened.fields, Schema.placedNames]
      exact (hperm.map FieldDef.name).nodup_iff.2 hdistinct)
    hstream hready hnear
  have hlayout :
      c.schema.layout type = entry.schedule.flatMap c.schema.inline := by
    rw [Schema.layout, hentry]
  rw [hlayout, node, hopen, Outcome.ok_bind, hready.schedule_eq,
    ← Outcome.bind_ok (consume ..)]
  refine (hslots.imp fun b rest hb h => And.intro hb h).bind ?_
  rintro ⟨f₁, tokens₁⟩ stream₁ ⟨hb, hstream₁, hready₁, hnear₁⟩
  have hordered : ∀ d ∈ declared, d.name ∈ f₁.fields.map Prod.fst := by
    intro d hd
    rw [fillSlots_names (placed_virtualNode hs.sound _) hb, hopened.fields]
    exact List.mem_map.2 ⟨d, hperm.mem_iff.2 hd, rfl⟩
  -- the root has one more gap, in front of the end of the text
  cases root with
  | false =>
    obtain ⟨ordered, hok⟩ := exists_orderFields hdeclared hordered
    simp only [Bool.false_eq_true, if_false, Outcome.ok_bind, hok]
    exact Yields.of_ok ⟨hstream₁, rfl, (fun h => by cases h)⟩
  | true =>
    have hfacing :
        Facing entry (decide (type = c.schema.grammar.root)) f₁ .stop := by
      rw [decide_eq_true (hroot rfl)] at hnear₁ ⊢
      exact hnear₁.facing_stop
    obtain ⟨f₂, handed', hgap, -⟩ :=
      exists_gap hs hentry hnode.toEntryFits hready₁ hfacing
    have hnames : ∀ d ∈ declared, d.name ∈ f₂.fields.map Prod.fst := by
      rw [(gap_eq_ok hgap).2.names_eq]
      exact hordered
    obtain ⟨ordered, hok⟩ := exists_orderFields hdeclared hnames
    simp only [if_true, hgap, Outcome.ok_bind, pure, Except.pure, hok]
    refine Yields.of_ok ⟨?_, rfl, fun _ => (behindRun_behindRun tokens₁).symm⟩
    rw [behindRun_behindRun]
    exact hstream₁

/-- Every tree of the grammar takes its leaves off the token stream. -/
theorem child_reads (hs : c.schema.Resolves)
    (hdistinct : c.schema.grammar.Distinct) (t : Ast)
    (ht : c.schema.grammar.Conforms t) :
    (child c t).Reads c t.type (t.leaves c.schema.layout) ∧
      ∃ e, c.schema.entry? (.node t.type) = some e := by
  induction t using Branching.induction with
  | step t ih =>
    cases ht with
    | node hdeclared hnames hshapes hbelow =>
      refine ⟨fun handed tokens stream hhanded hrun hstream => ?_,
        hs.sound.covers _ _ hdeclared⟩
      rw [child_build]
      refine (node_yields hs false handed (fun u hu => ih u hu (hbelow u hu))
        hdeclared (hdistinct _ _ hdeclared) (fun d hd =>
          Grammar.exists_field (hdistinct _ _ hdeclared) hnames hshapes hd)
        (nomatch ·) hhanded (fun _ => hrun) hstream).imp ?_
      exact fun _ _ _ h => ⟨h.1, h.2.1⟩

end Nodes

/-! ### Whole trees -/

/-- A token stands at an offset and is as long as its text. -/
def Continues (offset : Nat) (t : SourceToken) : Prop :=
  t.range.start = offset ∧ t.text.utf8ByteSize = t.range.length

/-- Each token stands where the one before it ends, the first at an offset. -/
def Tiles (offset : Nat) : List SourceToken → Prop
  | [] => True
  | t :: ts => Continues offset t ∧ Tiles t.range.stop ts

theorem checkTiling_eq_ok {offset : Nat} {tokens : List SourceToken} :
    checkTiling offset tokens = .ok () ↔ Tiles offset tokens := by
  induction tokens generalizing offset with
  | nil => exact ⟨fun _ => trivial, fun _ => rfl⟩
  | cons t ts ih =>
    rw [checkTiling, Tiles, ← ih, Continues]
    by_cases ht : t.range.start = offset ∧ t.text.utf8ByteSize = t.range.length
    · rw [if_pos ht]
      exact ⟨fun h => ⟨ht, h⟩, fun h => h.2⟩
    · rw [if_neg ht]
      exact ⟨(nomatch ·), fun h => absurd h.1 ht⟩

/-- Where tokens end, the first of which stands at an offset. -/
def stopFrom (offset : Nat) : List SourceToken → Nat
  | [] => offset
  | t :: ts => stopFrom t.range.stop ts

theorem streamEnd_eq_stopFrom (tokens : List SourceToken) :
    streamEnd tokens = stopFrom 0 tokens := by
  have hlast : ∀ offset,
      stopFrom offset tokens = tokens.getLast?.elim offset (·.range.stop) := by
    induction tokens with
    | nil => exact fun _ => rfl
    | cons t ts ih =>
      intro offset
      rw [stopFrom, ih, List.getLast?_cons]
      cases ts.getLast? <;> rfl
  rw [hlast, streamEnd]
  cases tokens.getLast? <;> rfl

/-- A stream that does not tile has a first token that breaks the tiling. -/
theorem exists_break {offset : Nat} {tokens : List SourceToken}
    (h : ¬Tiles offset tokens) :
    ∃ front t behind, tokens = front ++ t :: behind ∧ Tiles offset front ∧
      ¬Continues (stopFrom offset front) t := by
  induction tokens generalizing offset with
  | nil => exact absurd trivial h
  | cons t ts ih =>
    by_cases ht : Continues offset t
    · obtain ⟨front, u, behind, rfl, hfront, hu⟩ := ih fun hts => h ⟨ht, hts⟩
      exact ⟨t :: front, u, behind, rfl, ⟨ht, hfront⟩, hu⟩
    · exact ⟨[], t, ts, rfl, trivial, ht⟩

/-- The first token that breaks the tiling is the one that is reported. -/
theorem checkTiling_of_break {offset : Nat} {front behind : List SourceToken}
    {t : SourceToken} (hfront : Tiles offset front)
    (ht : ¬Continues (stopFrom offset front) t) :
    checkTiling offset (front ++ t :: behind) =
      .error (.tokenMismatch (.startingAt (stopFrom offset front))
        (.tokenAt t.text t.token.span) t.range) := by
  induction front generalizing offset with
  | nil => exact if_neg ht
  | cons u front ih =>
    rw [List.cons_append, checkTiling]
    exact (if_pos hfront.1).trans (ih hfront.2 ht)

end Build

open Build

/-- A tree of the grammar and a tiling token stream: building succeeds
or fails as the comparison of the tree's leaves with the tokens that
carry meaning does. -/
theorem build_eq_verdict {s : Schema} {t : Ast} {tokens : List SourceToken}
    (hs : s.Resolves) (hdistinct : s.grammar.Distinct) (htiles : Tiles 0 tokens)
    (hcheck : s.grammar.check t = .ok ()) :
    match Leaf.verdict (streamEnd tokens) (t.leaves s.layout)
      (tokens.filter (!·.isExtra)) with
    | some e => build s t tokens = .error e
    | none => ∃ tree, build s t tokens = .ok tree := by
  have htype := Grammar.type_of_check hcheck
  rw [build, checkTiling_eq_ok.2 htiles, Outcome.ok_bind, hcheck,
    Leaf.verdict_eq]
  simp only
  cases Grammar.conforms_of_check hcheck with
  | @node type fields defs hdeclared hnames hshapes hbelow =>
    have hbuild := node_yields (c := ⟨s, streamEnd tokens⟩) hs true none
      (fun u hu => child_reads hs hdistinct u (hbelow u hu)) hdeclared
      (hdistinct _ _ hdeclared) (fun d hd =>
        Grammar.exists_field (hdistinct _ _ hdeclared) hnames hshapes hd)
      (fun _ => htype) (fun _ h => by cases h) (fun h => by cases h)
      (rfl : behindRun tokens = behindRun tokens)
    rw [← Ast.leaves] at hbuild
    simp only at hbuild
    cases hconsume : Leaf.consume (streamEnd tokens)
      ((Ast.node type fields).leaves s.layout) tokens with
    | error e =>
      rw [hconsume] at hbuild
      have herror : Build.node ⟨s, streamEnd tokens⟩
            ⟨type, parts ⟨s, streamEnd tokens⟩ fields⟩ true none tokens =
          .error e := hbuild
      simp only [Ast.type, Ast.fields, herror]
      rfl
    | ok stream =>
      rw [hconsume] at hbuild
      obtain ⟨⟨tree, rest⟩, hok, hrest, -, hbehind⟩ := hbuild
      simp only at hrest hbehind
      simp only [Ast.type, Ast.fields, hok, Outcome.ok_bind]
      rw [← behindRun, ← hrest, ← hbehind trivial]
      cases rest with
      | nil => exact ⟨tree, rfl⟩
      | cons u us => rfl

end Cst

end Lossless
