import Lossless.Proofs.Conformance
import Lossless.Proofs.Progress

/-!
# What is built is written as it was read

Along the slots of a schedule every step keeps `Site.Progress`, so a node or
virtual node is written as the tokens that it was built from (`Wrote`), whatever
is stored in its record under the labels of its parent. By induction on the
syntax tree this holds of all nodes (`child_writes`); at the root nothing is
left to store, and the source is the text of all tokens.
-/

namespace Lossless

namespace Cst

namespace Build

variable {c : Context} {f f' : Frame} {e l : Element}
  {tokens rest : List SourceToken} {handed : Option Handed}

/-- A node or virtual node with a record and some labels in it and below it
was built from the tokens that it is written as. Its parent may still store
extras behind it. -/
structure Wrote (handed : Option Handed) (tokens rest : List SourceToken)
    (record : Extras) (count : Nat)
    (write : Extras → Except CstError (List Piece)) : Prop where
  before : record.get .before = handedRun handed
  after : record.Lacks .after
  written : ∃ ps, Piece.ofTokens tokens = ps ++ Piece.ofTokens rest ∧
    ps.countP Piece.isExtras + handedCount handed = count ∧
    ∀ x, x.AgreeOn (fun label => label ≠ .before ∧ label ≠ .after) record →
      write x = .ok ps

/-- What a child is built from is what it is written as. -/
def Child.Writes (s : Schema) (ch : Child) : Prop :=
  ∀ handed tokens tree rest, Given handed →
    ch.build handed tokens = .ok (tree, rest) →
    Wrote handed tokens rest tree.extras tree.labelCount fun x =>
      Write.node s false (withExtras x tree)

/-- All children in a part are written as what they are built from. -/
def Part.Writes (s : Schema) : Part → Prop
  | .node ch => ch.Writes s
  | .list chs => ∀ ch ∈ chs, ch.Writes s
  | .absent | .scalar _ => True

/-- What virtual nodes are built from is what they are written as. -/
def WritesRoles (s : Schema) (virtual : VirtualBuilder) : Prop :=
  ∀ role handed tokens name value rest, Given handed →
    virtual role handed tokens = .ok (name, value, rest) →
    ∃ wrapped extras, value = .virtual role wrapped extras ∧
      Wrote handed tokens rest extras (valueLabelCount value) fun x =>
        Write.frame s (.virtual role) x false
          (.wrapped (wrapped.map (Write.part s)))

/-- The record of a frame that has just been opened holds what was handed to it,
and nothing else. -/
theorem Opened.holds {owner : Owner} {root : Bool}
    (hopen : Opened c owner handed root f) (hgiven : Given handed) :
    f.extras.get .before = handedRun handed ∧
      handedCount handed = f.extras.size ∧
      ∀ label, label ≠ .before → f.extras.Lacks label := by
  have hset := hopen.extras
  cases handed with
  | none =>
    simp only at hset
    rw [hset]
    exact ⟨rfl, rfl, fun label _ => Extras.lacks_empty label⟩
  | some given =>
    simp only at hset
    obtain ⟨hlabel, hrun⟩ := hgiven given rfl
    obtain ⟨_, -, -, hinsert⟩ := setExtras_eq_ok hrun hset
    rw [hinsert, hlabel]
    refine ⟨Extras.get_insert_self (Extras.lacks_empty _), ?_,
      fun label hne => ?_⟩
    · rw [Extras.size_insert (Extras.lacks_empty _)]
      exact Piece.countP_ofRun hrun
    · exact Extras.lacks_insert (Extras.lacks_empty _) hne
        (Extras.lacks_empty _)

namespace Site

variable {site : Site} {n bound : Nat} {ahead : List (Element × Write.Content)}
  {slot : Slot}

/-! ### Children -/

/-- Going past a child that fills a field. -/
theorem Poised.passChild {d : FieldDef} {value : Value} {o : Owner}
    {record : Extras} {write : Extras → Except CstError (List Piece)}
    (hsite : site.Sound)
    (h : site.Poised n [] (.child n) (n + 1) f handed tokens)
    (hslot : site.schedule[n]? = some slot)
    (hd : Schema.placed? site.schema.roles slot = some d)
    (hlast : lastRecord? value = some (o, record))
    (hwrote : Wrote handed tokens rest record (valueLabelCount value) write)
    (hdraw : ∀ look y, look d.name = some (Write.part site.schema
      (withLastRecord y value)) → Write.drawSlot site.schema.roles look n slot =
      some [(.child n, .inner ⟨y, write y⟩)]) :
    site.Progress (n + 1) [] (f.addChild (.child n) d.name value) rest := by
  have hfresh : d.name ∉ f.fields.map Prod.fst := by
    rw [h.names]
    exact hsite.notMem_names hslot hd
  have hrecord : (f.addChild (.child n) d.name value).record? = some record :=
    Frame.record?_addChild hfresh hlast
  obtain ⟨ps, htokens, hcount, hwritten⟩ := hwrote.written
  have hframe : f.addChild (.child n) d.name value =
      { f with
        fields := f.fields ++ [(d.name, value)]
        left := some (.child n)
        child := some d.name } := rfl
  refine h.pass (fun y => .inner ⟨y, write y⟩) ps hframe rfl
    (Nat.lt_succ_self n) ?_ (fun _ => ⟨record, hrecord, hwrote.after,
      hwrote.before⟩) (nomatch ·) htokens ?_ (fun y hy => ?_) fun y es hes => ?_
  · rw [names_succ hslot, hd, List.map_append, h.names]
    rfl
  · rw [fieldsLabelCount_append, fieldsLabelCount, fieldsLabelCount, hcount]
    omega
  · exact ⟨hwritten y fun label hlabel => hy record hrecord label hlabel.2, rfl⟩
  · have hlook : ∀ name ∈ site.names n, f.shown site.schema name =
        (f.addChild (.child n) d.name value).look site.schema y name := by
      intro name hname
      rw [← h.names] at hname
      exact (Frame.look_addChild_of_mem site.schema y hfresh hname).symm
    have hhere :=
      hdraw _ y (Frame.look_addChild_self (e := .child n) site.schema y hfresh)
    exact ⟨_, draw_succ hslot hes hlook hhere, by simp⟩

/-- What is drawn for some slots comes from the last of them and from those
in front of it. -/
theorem exists_draw {look : String → Option Write.Part}
    {es : List (Element × Write.Content)}
    (hslot : site.schedule[n]? = some slot)
    (h : site.draw look (n + 1) = some es) :
    ∃ front here, site.draw look n = some front ∧
      Write.drawSlot site.schema.roles look n slot = some here ∧
      es = front ++ here := by
  rw [draw, Schedule.take_succ_of_getElem? hslot, Write.draw_concat,
    Nat.zero_add, Schedule.length_take_of_getElem? hslot] at h
  obtain ⟨front, hfront, h⟩ := Option.bind_eq_some_iff.1 h
  obtain ⟨here, hhere, h⟩ := Option.bind_eq_some_iff.1 h
  exact ⟨front, here, hfront, hhere, (Option.some.inj h).symm⟩

/-- Going past an item, with the separator in front of it. -/
theorem Poised.passItem {field : String} {separator : Option String}
    {index : Nat} {item : Cst} (hsite : site.Sound)
    (h : site.Poised (n + 1) (Write.separatorElements n separator index)
      (.item n index) (n + 1) f handed tokens)
    (hslot : site.schedule[n]? = some (.list field separator))
    (hlist : HoldsList f field index)
    (hwrote : Wrote handed tokens rest item.extras item.labelCount fun x =>
      Write.node site.schema false (withExtras x item)) :
    site.Progress (n + 1) [] (f.addItem (.item n index) field item) rest := by
  obtain ⟨items, hitems, rfl⟩ := hlist
  have hrecord : (f.addItem (.item n items.length) field item).record? =
      some item.extras :=
    Frame.record?_addItem hitems
  have hnodup : (f.fields.map Prod.fst).Nodup := h.names ▸ hsite.nodup_names _
  obtain ⟨ps, htokens, hcount, hwritten⟩ := hwrote.written
  have hframe : f.addItem (.item n items.length) field item =
      { f with
        fields := (f.update field (Frame.addItemTo item)).fields
        left := some (.item n items.length)
        child := some field } := rfl
  refine h.pass (fun y =>
    .inner ⟨y, Write.node site.schema false (withExtras y item)⟩) ps hframe rfl
    (Nat.lt_succ_self n) ((f.names_update ..).trans h.names)
    (fun _ => ⟨item.extras, hrecord, hwrote.after, hwrote.before⟩)
    (nomatch ·) htokens ?_ (fun y hy => ?_) fun y es hes => ?_
  · have hfields := fieldsLabelCount_update (Frame.addItemTo item) hnodup hitems
    rw [Frame.addItemTo, valueLabelCount, valueLabelCount,
      itemsLabelCount_append] at hfields
    simp only [itemsLabelCount] at hfields
    omega
  · exact ⟨hwritten y fun label hlabel => hy item.extras hrecord label hlabel.2,
      rfl⟩
  · -- the slots in front of the list are drawn as before, the
    -- list has one item more
    obtain ⟨front, here, hfront, hhere, rfl⟩ := exists_draw hslot hes
    have hlook : ∀ name ∈ site.names n, f.shown site.schema name =
        (f.addItem (.item n items.length) field item).look
          site.schema y name := by
      intro name hname
      have hne : name ≠ field :=
        fun he => hsite.notMem_names hslot rfl (he ▸ hname)
      exact (Frame.look_addItem_of_ne site.schema y hne).symm
    have hold : here =
        Write.itemElements n separator 0 (Write.inners site.schema items) := by
      rw [Write.drawSlot, Frame.shown, hitems] at hhere
      exact (Option.some.inj hhere).symm
    have hnew :
        Write.drawSlot site.schema.roles
            ((f.addItem (.item n items.length) field item).look site.schema y) n
            (.list field separator) =
          some (here ++ (Write.separatorElements n separator items.length ++
            [(.item n items.length, .inner ⟨y,
              Write.node site.schema false (withExtras y item)⟩)])) := by
      rw [Write.drawSlot, Frame.look_addItem_self site.schema y hitems, hold]
      simp only
      rw [Write.itemElements_concat, Write.inners_eq_map, List.length_map,
        Nat.zero_add]
    exact ⟨_, draw_succ hslot hfront hlook hnew, by simp⟩

/-! ### Slots -/

/-- A frame in front of a token that is there. -/
theorem Progress.exists_token (hsite : site.Sound)
    (h : site.Progress n ahead f tokens) {index : Nat} {text : String}
    (hfacing : Facing site.entry site.flag f e) (hslot : e.slot? = some index)
    (hn : n ≤ index + 1)
    (htoken : token site.context f e text tokens = .ok (f', rest)) :
    ∃ f₁ handed t, site.Poised n ahead e (index + 1) f₁ handed (t :: rest) ∧
      t.text = text ∧ t.isExtra = false ∧ f' = f₁.pass e := by
  obtain ⟨f₁, handed, t, hgap, htext, rfl⟩ := token_eq_ok htoken
  have hbound : e.slot?.getD site.schedule.length ≤ index + 1 := by
    rw [hslot]
    exact Nat.le_succ index
  exact ⟨f₁, handed, t,
    h.gap hsite hfacing (Nat.le_trans h.reach hn) hbound hgap, htext,
    isExtra_of_behindRun (gap_eq_ok hgap).1.symm, rfl⟩

/-- Going in front of an item passes the separator, if there is one. -/
theorem Progress.separated {field : String} {separator : Option String}
    {index : Nat} (hsite : site.Sound) (h : site.Progress (n + 1) [] f tokens)
    (hslot : site.schedule[n]? = some (.list field separator))
    (hfirst : index = 0 → Near site.entry site.flag n f)
    (hnext : ∀ i, index = i + 1 → f.left = some (.item n i))
    (hseparated : Separated site.context n separator index f tokens f' rest) :
    site.Progress (n + 1) (Write.separatorElements n separator index) f' rest ∧
      Facing site.entry site.flag f' (.item n index) := by
  cases hseparated with
  | nothing first =>
    cases index with
    | zero => exact ⟨h, (hfirst rfl).facing hslot rfl rfl⟩
    | succ i =>
      rcases first with rfl | hindex
      · exact ⟨h, facing_of_left (hnext i rfl)
          (Schedule.occurs_item_item hslot i (i + 1))⟩
      · exact nomatch hindex
  | @token text i _ _ hseparator hindex pass =>
    subst hseparator hindex
    have hfacing : Facing site.entry site.flag f (.separator n i) :=
      facing_of_left (hnext i rfl) (Schedule.occurs_item_separator hslot i i)
    obtain ⟨f₁, handed, t, hpoised, rfl, ht, rfl⟩ :=
      h.exists_token hsite hfacing rfl (Nat.le_refl _) pass
    constructor
    · refine hpoised.passToken rfl rfl
        (Nat.lt_succ_self n) hpoised.names rfl ht rfl fun es hes => ?_
      exact ⟨es, hes, by simp [Write.separatorElements]⟩
    · exact facing_of_left rfl (Schedule.occurs_separator_item hslot i (i + 1))

/-- The items of a list are written as what they were built from. -/
theorem Progress.items {field : String} {separator : Option String}
    {index : Nat} {children : List Child} (hsite : site.Sound)
    (h : site.Progress (n + 1) [] f tokens)
    (hslot : site.schedule[n]? = some (.list field separator))
    (hwrites : ∀ ch ∈ children, ch.Writes site.schema)
    (hlist : HoldsList f field index)
    (hfirst : index = 0 → Near site.entry site.flag n f)
    (hnext : ∀ i, index = i + 1 → f.left = some (.item n i))
    (hfill : fillItems site.context n field separator index f tokens children =
      .ok (f', rest)) :
    site.Progress (n + 1) [] f' rest ∧
      Near site.entry site.flag (n + 1) f' := by
  induction children generalizing index f tokens with
  | nil =>
    cases Except.ok.inj hfill
    exact ⟨h, near_of_items hslot hfirst hnext⟩
  | cons child children ih =>
    obtain ⟨f₁, tokens₁, f₂, handed, tokens₂, item, tokens₃, hseparated, hgap,
      hbuild, hitems⟩ :=
      fillItems_cons_eq_ok hfill
    obtain ⟨h₁, hfacing⟩ := h.separated hsite hslot hfirst hnext hseparated
    have h₂ := h₁.gap hsite hfacing h₁.reach (Nat.le_succ n) hgap
    have hlist₂ := (hlist.of_separated hseparated).of_gap hgap
    have hwrote := hwrites child List.mem_cons_self handed tokens₂ item tokens₃
      h₂.given hbuild
    have h₃ := h₂.passItem hsite hslot hlist₂ hwrote
    refine ih h₃ (fun ch hch => hwrites ch (List.mem_cons_of_mem _ hch))
      (hlist₂.addItem item) (nomatch ·) (fun i hi => ?_) hitems
    cases hi
    rfl

/-- A frame in front of the child that a slot stands for. -/
theorem Progress.exists_child {x : Schedule.Extent} (hsite : site.Sound)
    (h : site.Progress n [] f tokens) (hslot : site.schedule[n]? = some slot)
    (hnear : Near site.entry site.flag n f)
    (hx : Schedule.Extent.ofSlot? n slot = some x) (hfirst : x.first = .child n)
    (hgap : Build.gap site.context f (.child n) tokens =
      .ok (f', handed, rest)) :
    site.Poised n [] (.child n) (n + 1) f' handed rest :=
  h.gap hsite (hnear.facing hslot hx hfirst) (Nat.le_succ_of_le h.reach)
    (Nat.le_succ n) hgap

/-- Going past the token that a scalar is spelled with. -/
theorem Poised.passScalar {field : String} {t : SourceToken}
    (hsite : site.Sound)
    (h : site.Poised n [] (.token n) (n + 1) f handed (t :: rest))
    (hslot : site.schedule[n]? = some (.scalar field))
    (ht : t.isExtra = false) :
    site.Progress (n + 1) []
      ((f.pass (.token n)).fill field (.scalar (.string t.text))) rest := by
  have hfresh : field ∉ f.fields.map Prod.fst := by
    rw [h.names]
    exact hsite.notMem_names hslot (d := ⟨field, .scalar⟩) rfl
  have hframe : (f.pass (.token n)).fill field (.scalar (.string t.text)) =
      { f with
        fields := f.fields ++ [(field, .scalar (.string t.text))]
        left := some (.token n)
        child := none } := rfl
  refine h.passToken hframe rfl (Nat.lt_succ_self n) ?_ rfl ht ?_
    fun es hes => ?_
  · rw [names_succ hslot, List.map_append, h.names]
    rfl
  · rw [fieldsLabelCount_append]
    rfl
  · have hlook : ∀ name ∈ site.names n, f.shown site.schema name =
        ((f.pass (.token n)).fill field (.scalar (.string t.text))).shown
          site.schema name := by
      intro name hname
      rw [← h.names] at hname
      exact (Frame.shown_fill_of_mem
        (f := f.pass (.token n)) site.schema hname).symm
    have hhere :
        Write.drawSlot site.schema.roles
            (((f.pass (.token n)).fill field (.scalar (.string t.text))).shown
              site.schema) n (.scalar field) =
          some [(.token n, .text t.text)] := by
      rw [Write.drawSlot,
        Frame.shown_fill_self (f := f.pass (.token n)) site.schema hfresh]
      rfl
    exact ⟨_, draw_succ hslot hes hlook hhere, by simp⟩

/-- Filling one slot. -/
theorem Progress.step {p : Parts} {virtual : VirtualBuilder} {slot : Slot}
    (hsite : site.Sound) (h : site.Progress n [] f tokens)
    (hslot : site.schedule[n]? = some slot)
    (hparts : ∀ name q, p.fields.lookup name = some q → q.Writes site.schema)
    (hroles : WritesRoles site.schema virtual)
    (hplaced : Placed site.schema.roles p virtual)
    (hnear : Near site.entry site.flag n f)
    (hfills : Fills site.context p virtual n f tokens slot f' rest) :
    site.Progress (n + 1) [] f' rest ∧
      Near site.entry site.flag (n + 1) f' := by
  cases hfills with
  | extras label =>
    exact ⟨h.close hslot rfl fun _ => rfl,
      hnear.skip hslot (fun x hx => by cases hx) rfl⟩
  | @token text _ _ pass =>
    obtain ⟨f₁, handed, t, hpoised, rfl, ht, rfl⟩ :=
      h.exists_token hsite (hnear.facing hslot rfl rfl) rfl (Nat.le_succ n) pass
    refine ⟨?_, near_of_left hslot rfl rfl rfl⟩
    refine hpoised.passToken rfl rfl (Nat.lt_succ_self n) ?_ rfl ht rfl
      fun es hes => ?_
    · rw [names_succ hslot]
      exact hpoised.names.trans (List.append_nil _).symm
    · exact ⟨_, draw_succ hslot hes (fun _ _ => rfl) rfl, by simp⟩
  | @scalar field text _ _ part pass =>
    obtain ⟨f₁, handed, t, hpoised, rfl, ht, rfl⟩ :=
      h.exists_token hsite (hnear.facing hslot rfl rfl) rfl (Nat.le_succ n) pass
    refine ⟨?_, near_of_left hslot rfl rfl rfl⟩
    exact hpoised.passScalar hsite hslot ht
  | @implied field value part =>
    refine ⟨?_, hnear.skip hslot (fun x hx => by cases hx) rfl⟩
    refine h.fill hsite hslot (d := ⟨field, .scalar⟩) rfl rfl
      fun look hlook => ?_
    rw [Write.drawSlot, hlook]
    rfl
  | @child slot field ch _ handed tokens₁ _ built hkind part before build =>
    have hpart : ∀ y, Write.part site.schema (withLastRecord y (.node built)) =
        .node ⟨y, Write.node site.schema false (withExtras y built)⟩ := by
      intro y
      cases built
      rfl
    -- a node that is required and one that may be missing are filled alike
    rcases hkind with rfl | rfl
    all_goals
      have hpoised := h.exists_child hsite hslot hnear rfl rfl before
      have hwrote :=
        hparts field _ part handed tokens₁ built rest hpoised.given build
      refine ⟨hpoised.passChild hsite hslot rfl rfl hwrote
          fun look y hlook => ?_,
        near_of_left hslot rfl rfl rfl⟩
      rw [hpart] at hlook
      rw [Write.drawSlot, hlook]
  | @absent field part =>
    refine ⟨?_, hnear.skip hslot (fun x hx => ?_) rfl⟩
    · refine h.fill hsite hslot (d := ⟨field, .optional⟩) rfl rfl
        fun look hlook => ?_
      rw [Write.drawSlot, hlook]
      rfl
    · cases Option.some.inj hx
      rfl
  | @list field separator children _ _ part items =>
    have hfilled :
        site.Progress (n + 1) [] (f.fill field (.list [])) tokens := by
      refine h.fill hsite hslot (d := ⟨field, .list⟩) rfl rfl
        fun look hlook => ?_
      rw [Write.drawSlot, hlook]
      rfl
    have hfresh : field ∉ f.fields.map Prod.fst := by
      rw [h.names]
      exact hsite.notMem_names hslot (d := ⟨field, .list⟩) rfl
    exact hfilled.items hsite hslot (hparts field _ part) ⟨[],
      lookup_fill hfresh, rfl⟩
      (fun _ => hnear) (fun _ hi => by cases hi) items
  | @virtual role _ handed tokens₁ _ field value before build =>
    have hd := (hplaced role handed tokens₁ field value rest build).1
    have hpoised := h.exists_child hsite hslot hnear rfl rfl before
    obtain ⟨wrapped, record, rfl, hwrote⟩ :=
      hroles role handed tokens₁ field value rest hpoised.given build
    refine ⟨hpoised.passChild hsite hslot hd rfl hwrote fun look y hlook => ?_,
      near_of_left hslot rfl rfl rfl⟩
    rw [Write.drawSlot, hd, Option.bind_some, hlook]
    cases wrapped <;> simp [withLastRecord, Write.part]

/-- Filling the slots from an index on. -/
theorem Progress.steps {p : Parts} {virtual : VirtualBuilder} {slots : Schedule}
    (hsite : site.Sound) (h : site.Progress n [] f tokens)
    (hslots : site.schedule.drop n = slots) (hn : n ≤ site.schedule.length)
    (hparts : ∀ name q, p.fields.lookup name = some q → q.Writes site.schema)
    (hroles : WritesRoles site.schema virtual)
    (hplaced : Placed site.schema.roles p virtual)
    (hnear : Near site.entry site.flag n f)
    (hfill : fillSlots site.context p virtual n f tokens slots =
      .ok (f', rest)) :
    site.Progress site.schedule.length [] f' rest ∧
      Near site.entry site.flag site.schedule.length f' := by
  induction slots generalizing n f tokens with
  | nil =>
    cases Except.ok.inj hfill
    have hlength : n = site.schedule.length :=
      Nat.le_antisymm hn (List.drop_eq_nil_iff.1 hslots)
    exact hlength ▸ ⟨h, hnear⟩
  | cons slot slots ih =>
    obtain ⟨hslot, hfurther⟩ := Schedule.getElem?_of_drop hslots
    obtain ⟨f₁, tokens₁, hfirst, hothers⟩ := fillSlots_cons_eq_ok hfill
    obtain ⟨h₁, hnear₁⟩ := h.step hsite hslot hparts hroles hplaced hnear hfirst
    have hlt : n < site.schedule.length := (List.getElem?_eq_some_iff.1 hslot).1
    exact ih h₁ hfurther hlt hnear₁ hothers

/-- A frame of which nothing has been built. -/
theorem Sound.progress (hsite : site.Sound) (hgiven : Given site.handed)
    (hopen : Opened site.context site.owner site.handed site.root f) :
    site.Progress 0 [] f site.tokens ∧ f.schedule = site.schedule := by
  obtain ⟨entry, hentry, hschedule⟩ := hopen.entry
  have he := hsite.entry.symm.trans hentry
  cases Option.some.inj he
  have hreach : f.reach = 0 := by
    rw [Frame.reach, hopen.left]
    cases site.root <;> rfl
  have hchild : ∀ l, f.left = some l → l.isChild = false := by
    intro l hl
    rw [hopen.left] at hl
    cases hroot : site.root with
    | false => simp [hroot] at hl
    | true =>
      simp only [hroot, if_true, Option.some.injEq] at hl
      rw [← hl]
      rfl
  obtain ⟨hbefore, hsize, hlacks⟩ := hopen.holds hgiven
  refine ⟨⟨hopen.owner_eq, hschedule, by rw [hopen.fields]; rfl,
    Nat.le_of_eq hreach, fun l hl he => ?_, fun _ => hopen.child,
    hbefore, fun label hne _ => hlacks label hne, [], rfl,
    ?_, fun own y _ _ => ⟨[], rfl, ?_, ?_⟩⟩,
    hschedule⟩
  · rw [hchild l hl] at he
    cases he
  · rw [hopen.fields, ← hsize]
    exact Nat.zero_add _
  · rw [along]
    cases site.left <;> rfl
  · rw [hopen.left, hopen.child, Site.left]
    cases site.root <;> rfl

/-! ### Whole frames -/

theorem frame_eq {own : Extras} {root : Bool} {o : Write.Origin}
    {es : List (Element × Write.Content)} (hsite : site.Sound)
    (h : Write.elements site.owner o 0 site.schedule = .ok es) :
    Write.frame site.schema site.owner own root o =
      Write.along site.schema site.owner site.schedule own root
        (if root then some ⟨.start, none⟩ else none) es := by
  have hschedule : site.schema.schedule site.owner = .ok site.schedule := by
    rw [Schema.schedule, Schema.entryOf, hsite.entry]
    rfl
  rw [Write.frame, hschedule, Outcome.ok_bind, h, Outcome.ok_bind]

/-- A frame whose slots have all been filled, below the root. -/
theorem Progress.wrote {o : Write.Origin} (hsite : site.Sound)
    (h : site.Progress site.schedule.length [] f rest)
    (hroot : site.root = false)
    (helements : ∀ es, site.draw (f.shown site.schema) site.schedule.length =
      some es → Write.elements site.owner o 0 site.schedule = .ok es) :
    Wrote site.handed site.tokens rest f.extras
      (f.extras.size + fieldsLabelCount f.fields) fun x =>
      Write.frame site.schema site.owner x false o := by
  -- a parent stores nothing under the labels of the schedule
  have hparent :
      ∀ label ∈ site.labels f.reach, label ≠ .before ∧ label ≠ .after := by
    intro label hlabel
    have hown := hsite.fits.own label
      (Schedule.mem_labels_of_sublist (List.take_sublist _ _) hlabel)
    exact ⟨hown.1, hown.2.1⟩
  obtain ⟨read, hread, hlabels, hwritten⟩ := h.written
  refine ⟨h.before, ?_, read, hread, hlabels, fun x hx => ?_⟩
  · exact h.lacks .after (by decide) fun hmem => (hparent _ hmem).2 rfl
  · rcases hwritten x (f.record?.getD .empty) (fun label hlabel =>
      hx label (hparent label hlabel))
      f.agreeOn_record with ⟨es, hes, halong, -⟩
    have hshown :
        f.look site.schema (f.record?.getD .empty) = f.shown site.schema :=
      funext (f.look_self site.schema)
    rw [hshown] at hes
    rw [frame_eq hsite (helements es hes)]
    rw [along, List.append_nil, left, hroot] at halong
    exact halong

/-- A frame at the end of the text. -/
theorem Poised.wroteRoot {o : Write.Origin} (hsite : site.Sound)
    (h : site.Poised site.schedule.length [] .stop bound f handed rest)
    (hroot : site.root = true)
    (helements : ∀ es, site.draw (f.shown site.schema) site.schedule.length =
      some es → Write.elements site.owner o 0 site.schedule = .ok es) :
    ∃ ps, Piece.ofTokens site.tokens = ps ++ Piece.ofTokens rest ∧
      ps.countP Piece.isExtras + handedCount site.handed =
        f.extras.size + fieldsLabelCount f.fields ∧
      Write.frame site.schema site.owner f.extras true o = .ok ps := by
  rw [h.passive rfl] at h
  obtain ⟨ps, hps, hlabels, hwritten⟩ := h.written
  obtain ⟨es, front, gap, hes, halong, hgap, rfl⟩ :=
    hwritten f.extras none (fun _ _ => rfl) (fun z hz => nomatch hz) (nomatch ·)
  refine ⟨front ++ gap, hps, hlabels, ?_⟩
  rw [List.append_nil] at halong hgap
  have hleft : site.left = some ⟨.start, none⟩ := by rw [left, hroot]; rfl
  rw [along, hleft] at halong
  rw [hleft] at hgap
  obtain ⟨last, hlast⟩ := Write.exists_lastLeft ⟨.start, none⟩ es
  rw [hlast] at hgap
  rw [frame_eq hsite (helements es hes)]
  exact Write.along_root halong hlast hgap

end Site

/-! ### Virtual nodes -/

theorem valueLabelCount_wrapped (role : VirtualRole) (inner : Value)
    (x : Extras) :
    valueLabelCount (.virtual role (wrappedValue inner) x) =
      x.size + valueLabelCount inner := by
  cases inner with
  | list items => cases items <;> rfl
  | _ => rfl

/-- What a virtual node wraps is the list that it was built with, or nothing
for an empty one. -/
theorem wrapped_of_part {s : Schema} {inner : Value} {list : List Write.Inner}
    (h : some (.list list) = some (Write.part s inner)) :
    (wrappedValue inner).map (Write.part s) = some (.list list) ∨
      (wrappedValue inner).map (Write.part s) = none ∧ list = [] := by
  have hpart := Option.some.inj h
  cases inner with
  | list items =>
    cases items with
    | nil =>
      cases hpart
      exact .inr ⟨rfl, rfl⟩
    | cons item items => exact .inl (congrArg some hpart.symm)
  | virtual role wrapped extras => cases wrapped <;> simp [Write.part] at hpart
  | _ => simp [Write.part] at hpart

theorem writesRoles_refuse (s : Schema) (role : VirtualRole) :
    WritesRoles s (refuse role) :=
  fun _ _ _ _ _ _ _ h => nomatch h

/-- A virtual node is written as what it was built from. -/
theorem virtualNode_writes (hs : c.schema.Resolves)
    (hkeeps : c.schema.strategy.Local) {p : Parts}
    (hparts : ∀ name q, p.fields.lookup name = some q → q.Writes c.schema) :
    WritesRoles c.schema (virtualNode c p) := by
  intro role handed tokens name value rest hgiven h
  obtain ⟨entry, f, f', inner, children, hentry, hfits, hfield, hopen,
    hschedule, hfill, hfields, rfl, -⟩ :=
    virtualNode_placed hs.sound h
  have hnames := hfits.placedNames hfield c.schema.roles
  let site : Site := ⟨c, .virtual role, entry, false, false, handed, tokens⟩
  have hsite : site.Sound :=
    ⟨hs, hkeeps, hentry, hfits.toEntryFits, hnames ▸ List.nodup_singleton name⟩
  obtain ⟨hstart, -⟩ := hsite.progress hgiven hopen
  have hnear : Near entry false 0 f := hopen.near fun h => h
  rcases hstart.steps hsite List.drop_zero
    (Nat.zero_le _) hparts (writesRoles_refuse c.schema role)
    (placed_refuse c.schema.roles p role) hnear hfill with ⟨hend, -⟩
  have hshown : f'.shown c.schema name = some (Write.part c.schema inner) := by
    rw [Frame.shown, hfields, List.lookup_cons_self]
    rfl
  have helements :
      ∀ es, site.draw (f'.shown c.schema) entry.schedule.length = some es →
        Write.elements (.virtual role)
            (.wrapped ((wrappedValue inner).map (Write.part c.schema)))
            0 entry.schedule =
          .ok es := by
    intro es hes
    rw [Site.draw, List.take_length] at hes
    have hplaces :
        (⟨name, .list⟩ : FieldDef) ∈ entry.schedule.filterMap Slot.field? := by
      rw [hfield, Schema.shape_eq_list]
      exact List.mem_singleton_self _
    obtain ⟨list, hlist⟩ := Write.exists_items hes hplaces
    rw [hlist] at hshown
    -- under any name a virtual node shows the list that it wraps
    have hany : ∀ k ∈ Schema.placedNames c.schema.roles entry.schedule,
        f'.shown c.schema k = some (.list list) := by
      intro k hk
      rw [hnames, List.mem_singleton] at hk
      rw [hk, hlist]
    rw [Write.draw_congr hany] at hes
    exact Write.elements_of_draw
      (Write.Origin.shows_wrapped (wrapped_of_part hshown)) hes
  have hwrote := hend.wrote hsite rfl helements
  rw [hfields, fieldsLabelCount, fieldsLabelCount, Nat.add_zero] at hwrote
  exact ⟨wrappedValue inner, f'.extras, rfl,
    valueLabelCount_wrapped role inner f'.extras ▸ hwrote⟩

/-! ### Nodes -/

/-- Fields in the order of a schedule, and the same fields in another order. -/
structure Arranged (s : Schema) (schedule : Schedule)
    (fields ordered : List (String × Value)) : Prop where
  names : fields.map Prod.fst = Schema.placedNames s.roles schedule
  nodup : (fields.map Prod.fst).Nodup
  namesPerm : (fields.map Prod.fst).Perm (ordered.map Prod.fst)
  lookup : ∀ name ∈ fields.map Prod.fst,
    fields.lookup name = ordered.lookup name

namespace Arranged

variable {s : Schema} {schedule : Schedule}
  {fields ordered : List (String × Value)}

theorem of_orderFields {g : Grammar} {type : String} {declared : List FieldDef}
    (hdeclared : g.fields? type = some declared)
    (h : orderFields g type fields = .ok ordered)
    (hnames : fields.map Prod.fst = Schema.placedNames s.roles schedule)
    (hnodup : (Schema.placedNames s.roles schedule).Nodup)
    (hperm : (Schema.placedNames s.roles schedule).Perm
      (declared.map FieldDef.name)) : Arranged s schedule fields ordered := by
  obtain ⟨hordered, hlookup⟩ := orderFields_eq_ok hdeclared h
  have hnamesPerm : (fields.map Prod.fst).Perm (ordered.map Prod.fst) := by
    rw [hnames, hordered]
    exact hperm
  refine ⟨hnames, hnames ▸ hnodup, hnamesPerm, fun name hname => ?_⟩
  obtain ⟨value, hvalue⟩ := Named.exists_lookup (hnamesPerm.mem_iff.1 hname)
  rw [hvalue]
  exact hlookup name value (Named.mem_of_lookup hvalue)

theorem count (h : Arranged s schedule fields ordered) :
    fieldsLabelCount fields = fieldsLabelCount ordered :=
  fieldsLabelCount_perm (Named.perm h.nodup h.namesPerm h.lookup)

/-- The elements of a node do not depend on the order of its fields. -/
theorem elements {owner : Owner} {es : List (Element × Write.Content)}
    (h : Arranged s schedule fields ordered)
    (hes : Write.draw s.roles (fun name =>
      (fields.lookup name).map (Write.part s)) 0 schedule = some es) :
    Write.elements owner (.fields (Write.parts s ordered)) 0 schedule =
      .ok es := by
  have hlook : ∀ name ∈ Schema.placedNames s.roles schedule,
      (fields.lookup name).map (Write.part s) =
      (Write.parts s ordered).lookup name := by
    intro name hname
    rw [← h.names] at hname
    rw [h.lookup name hname, Write.lookup_parts]
  have hparts :
      (Write.parts s ordered).map Prod.fst = ordered.map Prod.fst := by
    rw [Write.parts_eq_map, List.map_map]
    rfl
  rw [Write.draw_congr hlook] at hes
  refine Write.elements_of_draw
    (Write.Origin.shows_fields (Write.inPlace_of_draw hes ?_ ?_)) hes
  · rw [hparts]
    exact h.namesPerm.nodup_iff.1 h.nodup
  · intro name hname
    rw [hparts] at hname
    rw [← h.names]
    exact h.namesPerm.mem_iff.2 hname

end Arranged

/-- A node comes from a frame whose slots have been filled: the fields
have the places that the schedule gives them, and are put into the order
of the grammar. -/
theorem exists_arranged {p : Parts} {root : Bool} {tree : Cst}
    {declared : List FieldDef} (hs : c.schema.Sound)
    (hdeclared : c.schema.grammar.fields? p.type = some declared)
    (hnames : p.fields.map Prod.fst = declared.map FieldDef.name)
    (h : node c p root handed tokens = .ok (tree, rest)) :
    ∃ entry f f₁ f' tokens₁ ordered, c.schema.entry? (.node p.type) =
        some entry ∧ Opened c (.node p.type) handed root f ∧
      fillSlots c p (virtualNode c p) 0 f tokens entry.schedule =
        .ok (f₁, tokens₁) ∧
      (if root then ∃ handed', gap c f₁ .stop tokens₁ = .ok (f', handed', rest)
        else f' = f₁ ∧ rest = tokens₁) ∧
      f₁.fields.map Prod.fst =
        Schema.placedNames c.schema.roles entry.schedule ∧
      Arranged c.schema entry.schedule f'.fields ordered ∧
      tree = .node p.type ordered f'.extras := by
  obtain ⟨f, f₁, f', tokens₁, ordered, hopen, hfill, hend, hordered, htree⟩ :=
    node_eq_ok h
  obtain ⟨entry, hentry, hschedule⟩ := hopen.entry
  rw [hschedule] at hfill
  obtain ⟨hperm, hnodup⟩ := nodup_placedNames hs hentry hdeclared hnames hfill
  have hf₁ : f₁.fields.map Prod.fst =
      Schema.placedNames c.schema.roles entry.schedule := by
    rw [fillSlots_names (placed_virtualNode hs p) hfill, hopen.fields,
      List.map_nil, List.nil_append]
  have hf' : f'.fields.map Prod.fst = f₁.fields.map Prod.fst := by
    cases root with
    | false => rw [hend.1]
    | true =>
      obtain ⟨handed', hgap⟩ := hend
      exact (gap_eq_ok hgap).2.names_eq
  exact ⟨entry, f, f₁, f', tokens₁, ordered, hentry, hopen, hfill, hend, hf₁,
    .of_orderFields hdeclared hordered (hf'.trans hf₁) hnodup
      (hperm.map FieldDef.name), htree⟩

/-- The place where a node is built. -/
def nodeSite (c : Context) (type : String) (entry : SchemaEntry) (root : Bool)
    (handed : Option Handed) (tokens : List SourceToken) : Site :=
  ⟨c, .node type, entry, type = c.schema.grammar.root, root, handed, tokens⟩

/-- The frame of a node when its slots have been filled, and the node
that is made of it. -/
theorem exists_progress {p : Parts} {root : Bool} {tree : Cst}
    {declared : List FieldDef} (hs : c.schema.Resolves)
    (hkeeps : c.schema.strategy.Local)
    (hparts : ∀ name q, p.fields.lookup name = some q → q.Writes c.schema)
    (hdeclared : c.schema.grammar.fields? p.type = some declared)
    (hnames : p.fields.map Prod.fst = declared.map FieldDef.name)
    (hroot : root = true → p.type = c.schema.grammar.root)
    (hgiven : Given handed)
    (h : node c p root handed tokens = .ok (tree, rest)) :
    ∃ entry f₁ f' tokens₁ ordered,
      (nodeSite c p.type entry root handed tokens).Sound ∧
      (nodeSite c p.type entry root handed tokens).Progress
        entry.schedule.length [] f₁ tokens₁ ∧
      Near entry (p.type = c.schema.grammar.root) entry.schedule.length f₁ ∧
      (if root then ∃ handed', gap c f₁ .stop tokens₁ = .ok (f', handed', rest)
        else f' = f₁ ∧ rest = tokens₁) ∧
      Arranged c.schema entry.schedule f'.fields ordered ∧
      tree = .node p.type ordered f'.extras := by
  obtain ⟨entry, f, f₁, f', tokens₁, ordered, hentry, hopen, hfill, hend, -,
    harranged, htree⟩ :=
    exists_arranged hs.sound hdeclared hnames h
  obtain ⟨_, -, hfits⟩ := hs.sound.node p.type entry hentry
  have hsite : (nodeSite c p.type entry root handed tokens).Sound :=
    ⟨hs, hkeeps, hentry, hfits.toEntryFits, harranged.names ▸ harranged.nodup⟩
  obtain ⟨hstart, -⟩ := hsite.progress hgiven hopen
  have hnear : Near entry (p.type = c.schema.grammar.root) 0 f :=
    hopen.near fun h => decide_eq_true (hroot h)
  rcases hstart.steps hsite List.drop_zero (Nat.zero_le _) hparts
    (virtualNode_writes hs hkeeps hparts)
    (placed_virtualNode hs.sound p) hnear hfill with ⟨hprogress, hnear'⟩
  exact ⟨entry, f₁, f', tokens₁, ordered, hsite, hprogress, hnear', hend,
    harranged, htree⟩

/-- A node below the root is written as what it was built from. -/
theorem node_writes {p : Parts} {tree : Cst} {declared : List FieldDef}
    (hs : c.schema.Resolves) (hkeeps : c.schema.strategy.Local)
    (hparts : ∀ name q, p.fields.lookup name = some q → q.Writes c.schema)
    (hdeclared : c.schema.grammar.fields? p.type = some declared)
    (hnames : p.fields.map Prod.fst = declared.map FieldDef.name)
    (hgiven : Given handed)
    (h : node c p false handed tokens = .ok (tree, rest)) :
    Wrote handed tokens rest tree.extras tree.labelCount fun x =>
      Write.node c.schema false (withExtras x tree) := by
  have hroot : false = true → p.type = c.schema.grammar.root := (nomatch ·)
  obtain ⟨entry, f, _, _, ordered, hsite, hprogress, -, ⟨rfl, rfl⟩,
    harranged, rfl⟩ :=
    exists_progress hs hkeeps hparts hdeclared hnames hroot hgiven h
  have hwrote := hprogress.wrote hsite rfl fun es hes => by
    rw [Site.draw, List.take_length] at hes
    exact harranged.elements hes
  rw [harranged.count] at hwrote
  exact hwrote

/-- The root is written as the whole text, up to what is left of the tokens. -/
theorem root_writes {p : Parts} {tree : Cst} {declared : List FieldDef}
    (hs : c.schema.Resolves) (hkeeps : c.schema.strategy.Local)
    (hparts : ∀ name q, p.fields.lookup name = some q → q.Writes c.schema)
    (hdeclared : c.schema.grammar.fields? p.type = some declared)
    (hnames : p.fields.map Prod.fst = declared.map FieldDef.name)
    (hroot : p.type = c.schema.grammar.root)
    (h : node c p true none tokens = .ok (tree, rest)) :
    ∃ ps, Piece.ofTokens tokens = ps ++ Piece.ofTokens rest ∧
      ps.countP Piece.isExtras = tree.labelCount ∧
      tree.pieces c.schema = .ok ps := by
  obtain ⟨entry, f, f', _, ordered, hsite, hprogress, hnear, ⟨handed', hgap⟩,
    harranged, rfl⟩ :=
    exists_progress hs hkeeps hparts hdeclared hnames
      (fun _ => hroot) given_none h
  have hfacing : Facing entry (p.type = c.schema.grammar.root) f .stop := by
    rw [decide_eq_true hroot] at hnear ⊢
    exact hnear.facing_stop
  have hpoised :=
    hprogress.gap hsite hfacing hprogress.reach (Nat.le_refl _) hgap
  rcases hpoised.wroteRoot hsite rfl fun es hes => by
    rw [Site.draw, List.take_length] at hes
    exact harranged.elements hes with ⟨ps, hps, hcount, hwritten⟩
  rw [harranged.count] at hcount
  exact ⟨ps, hps, hcount, hwritten⟩

theorem parts_write {type : String} {fields : List (String × Ast.Value)}
    (h : ∀ t ∈ Branching.children (Ast.node type fields),
      (child c t).Writes c.schema) {name : String} {q : Part}
    (hq : (parts c fields).lookup name = some q) : q.Writes c.schema := by
  have hall := parts_all h name q hq
  cases q <;> exact hall

/-- What every tree of the grammar is built from is what it is written as. -/
theorem child_writes (hs : c.schema.Resolves) (hkeeps : c.schema.strategy.Local)
    (t : Ast) (ht : c.schema.grammar.Conforms t) :
    (child c t).Writes c.schema := by
  induction t using Branching.induction with
  | step t ih =>
    cases ht with
    | node hdeclared hnames hshapes hbelow =>
      intro handed tokens tree rest hgiven h
      rw [child_build] at h
      refine node_writes hs hkeeps (fun _ _ => parts_write fun u hu =>
        ih u hu (hbelow u hu)) hdeclared ?_ hgiven h
      rw [names_parts]
      exact hnames

end Build

/-- Whatever is built under anchors that can be followed and lead to their own
gaps is written as it was read, and every label in it is written. -/
theorem pieces_of_build {s : Schema} {t : Ast} {tokens : List SourceToken}
    {tree : Cst} (hs : s.Resolves) (hkeeps : s.strategy.Local)
    (h : build s t tokens = .ok tree) :
    tree.pieces s = .ok (Piece.ofTokens tokens) ∧
      (Piece.ofTokens tokens).countP Piece.isExtras = tree.labelCount := by
  obtain ⟨hcheck, hnode⟩ := build_eq_ok h
  have htype := Grammar.type_of_check hcheck
  cases Grammar.conforms_of_check hcheck with
  | node hdeclared hnames hshapes hbelow =>
    rw [← Build.names_parts ⟨s, Build.streamEnd tokens⟩] at hnames
    obtain ⟨ps, hps, hcount, hpieces⟩ := Build.root_writes hs hkeeps (fun _ _ =>
      Build.parts_write fun u hu =>
        Build.child_writes hs hkeeps u (hbelow u hu)) hdeclared hnames
      htype hnode
    have hps' : Piece.ofTokens tokens = ps := hps.trans (List.append_nil ps)
    rw [hps']
    exact ⟨hpieces, hcount⟩

/-- Its source is the text of all its tokens. -/
theorem source_eq_join {s : Schema} {t : Ast} {tokens : List SourceToken}
    {tree : Cst} (hs : s.Resolves) (hkeeps : s.strategy.Local)
    (h : build s t tokens = .ok tree) :
    tree.source s = .ok (String.join (tokens.map SourceToken.text)) := by
  obtain ⟨hpieces, hcount⟩ := pieces_of_build hs hkeeps h
  rw [source, hpieces, Outcome.ok_bind, if_pos hcount, Piece.join_ofTokens]

end Cst

end Lossless
