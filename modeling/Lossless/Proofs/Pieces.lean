import Lossless.Cst.Source
import Lossless.Proofs.Coverage
import Lossless.Proofs.Records

/-!
# What is written, piece by piece

A token stream falls into pieces as written text does: leaves, with whole runs
of extras between them (`Piece.ofTokens`). What a list of elements writes grows
element by element (`along_concat`). `draw` gives the elements of some slots
from the parts under their names, wherever these parts come from; the elements
that a node or a virtual node is written with are drawn in this way.
-/

namespace Lossless

namespace Cst

namespace Piece

open Build (leadingRun behindRun)

/-- The piece of a run of extras; an empty run writes nothing. -/
def ofRun (run : List Token) :
    List Piece := if run.isEmpty then [] else [.extras run]

/-- Puts an extra in front of pieces. It joins a run that stands first. -/
def addExtra (t : Token) : List Piece → List Piece
  | .extras run :: pieces => .extras (t :: run) :: pieces
  | pieces => .extras [t] :: pieces

/-- Puts a token in front of pieces. -/
def addToken (t : SourceToken) (pieces : List Piece) : List Piece :=
  if t.isExtra then addExtra t.token pieces else .leaf t.text :: pieces

/-- The pieces of a token stream. -/
def ofTokens (tokens : List SourceToken) : List Piece :=
  tokens.foldr addToken []

theorem ofTokens_cons_of_leaf {t : SourceToken} (h : t.isExtra = false)
    (ts : List SourceToken) :
    ofTokens (t :: ts) = .leaf t.text :: ofTokens ts := by
  rw [ofTokens, List.foldr_cons, addToken, h]
  rfl

/-- Pieces begin with the run at the front of the stream, whole. -/
theorem ofTokens_eq (tokens : List SourceToken) :
    ofTokens tokens =
      ofRun (leadingRun tokens) ++ ofTokens (behindRun tokens) := by
  induction tokens with
  | nil => rfl
  | cons t ts ih =>
    cases ht : t.isExtra with
    | false =>
      have hrun : leadingRun (t :: ts) = [] := by
        rw [leadingRun, List.takeWhile_cons, ht]; rfl
      rw [Build.behindRun_of_leadingRun hrun, hrun]
      rfl
    | true =>
      have hrun : leadingRun (t :: ts) = t.token :: leadingRun ts := by
        rw [leadingRun, List.takeWhile_cons, ht]
        rfl
      have hbehind : behindRun (t :: ts) = behindRun ts := by
        rw [behindRun, List.dropWhile_cons, ht]
        rfl
      rw [hrun, hbehind, ofTokens, List.foldr_cons]
      change addToken t (ofTokens ts) = _
      rw [ih, addToken, ht]
      cases hts : leadingRun ts with
      | cons u us => rfl
      | nil =>
        -- without a run, the stream goes on with a leaf or ends
        simp only [ofRun, List.isEmpty_nil, if_true, List.nil_append]
        cases hrest : behindRun ts with
        | nil => rfl
        | cons u us =>
          rw [ofTokens_cons_of_leaf (Build.isExtra_of_behindRun hrest)]
          rfl

/-- The pieces of a stream have the text of its tokens. -/
theorem join_ofTokens (tokens : List SourceToken) :
    String.join ((ofTokens tokens).map text) =
      String.join (tokens.map SourceToken.text) := by
  induction tokens with
  | nil => rfl
  | cons t ts ih =>
    rw [List.map_cons, String.join_cons, ← ih]
    cases ht : t.isExtra with
    | false =>
      rw [ofTokens_cons_of_leaf ht, List.map_cons, String.join_cons]; rfl
    | true =>
      rw [ofTokens, List.foldr_cons]
      change String.join ((addToken t (ofTokens ts)).map text) = _
      rw [addToken, ht]
      cases ofTokens ts with
      | nil => simp [addExtra, text, SourceToken.text]
      | cons p ps =>
        cases p <;> simp [addExtra, text, SourceToken.text, String.append_assoc]

theorem countP_ofRun {run : List Token} (h : run ≠ []) :
    (ofRun run).countP isExtras = 1 := by
  cases run with
  | nil => exact absurd rfl h
  | cons t ts => rfl

end Piece

namespace Write

variable {s : Schema} {owner : Owner} {schedule : Schedule} {own : Extras}

/-! ### Elements in a row -/

/-- What stands in front of the gap behind some elements. -/
def lastLeft (left : Option Left) (es : List (Element × Content)) :
    Option Left :=
  match es.getLast? with
  | some (e, content) => some ⟨e, content.extras?⟩
  | none => left

/-- What an element writes itself. -/
def Content.pieces : Content → Except CstError (List Piece)
  | .text word => .ok [.leaf word]
  | .inner i => i.pieces

/-- What is written in front of an element. -/
def between (s : Schema) (owner : Owner) (schedule : Schedule) (own : Extras)
    (left : Option Left) (here : Left) : Except CstError (List Piece) :=
  match left with
  | some left => gap s owner schedule own left here
  | none => .ok []

theorem along_cons (root : Bool) (left : Option Left) (e : Element)
    (content : Content)
    (es : List (Element × Content)) :
    along s owner schedule own root left ((e, content) :: es) = (do
      let between ← between s owner schedule own left ⟨e, content.extras?⟩
      let inside ← content.pieces
      let rest ← along s owner schedule own root (some ⟨e, content.extras?⟩) es
      .ok (between ++ (inside ++ rest))) := by
  cases left <;> cases content <;> simp only [along, between, Content.pieces,
    Outcome.ok_bind]

theorem lastLeft_cons (left : Option Left) (e : Element) (content : Content)
    (es : List (Element × Content)) :
    lastLeft left ((e, content) :: es) =
      lastLeft (some ⟨e, content.extras?⟩) es := by
  rw [lastLeft, lastLeft, List.getLast?_cons]
  cases es.getLast? <;> rfl

theorem lastLeft_concat (left : Option Left) (e : Element) (content : Content)
    (es : List (Element × Content)) :
    lastLeft left (es ++ [(e, content)]) = some ⟨e, content.extras?⟩ := by
  rw [lastLeft, List.getLast?_append]
  rfl

theorem exists_lastLeft (left : Left) (es : List (Element × Content)) :
    ∃ last, lastLeft (some left) es = some last := by
  rw [lastLeft]
  cases es.getLast? <;> exact ⟨_, rfl⟩

/-- One more element writes the gap in front of it and itself behind all
that was written. -/
theorem along_concat {left : Option Left} {es : List (Element × Content)}
    {e : Element} {content : Content} {front gap inside : List Piece}
    (hfront : along s owner schedule own false left es = .ok front)
    (hgap : between s owner schedule own (lastLeft left es)
      ⟨e, content.extras?⟩ = .ok gap)
    (hinside : content.pieces = .ok inside) :
    along s owner schedule own false left (es ++ [(e, content)]) =
      .ok (front ++ (gap ++ inside)) := by
  induction es generalizing left front with
  | nil =>
    cases Except.ok.inj hfront
    rw [List.nil_append, along_cons]
    change between s owner schedule own left _ = .ok gap at hgap
    rw [hgap, hinside]
    simp [along]
  | cons x es ih =>
    rcases x with ⟨e', content'⟩
    rw [along_cons] at hfront
    rcases Outcome.bind_eq_ok.1 hfront with ⟨gap', hgap', hfront⟩
    rcases Outcome.bind_eq_ok.1 hfront with ⟨inside', hinside', hfront⟩
    rcases Outcome.bind_eq_ok.1 hfront with ⟨rest, hrest, hfront⟩
    rw [← Except.ok.inj hfront]
    rw [lastLeft_cons] at hgap
    rw [List.cons_append, along_cons, hgap', hinside', ih hrest hgap]
    simp

/-- The run in a gap, read from the record that an anchor leads to. -/
def runAt (own : Extras) (left right : Left) (a : Anchor) : List Token :=
  match a.target with
  | .owner => own.get a.label
  | .left => (left.extras?.map (·.get a.label)).getD []
  | .right => (right.extras?.map (·.get a.label)).getD []

theorem gap_of_anchor {left right : Left} {a : Anchor}
    (h : s.resolve owner schedule ⟨left.element, right.element⟩ = .ok a) :
    gap s owner schedule own left right =
      .ok (Piece.ofRun (runAt own left right a)) := by
  rw [gap, h, Outcome.ok_bind, Piece.ofRun, runAt]
  cases a.target with
  | owner => rfl
  | left => cases left.extras? <;> rfl
  | right => cases right.extras? <;> rfl

/-- The root writes one more gap, up to the end of the text. -/
theorem along_root {left : Option Left} {last : Left}
    {es : List (Element × Content)} {front gap : List Piece}
    (hfront : along s owner schedule own false left es = .ok front)
    (hlast : lastLeft left es = some last)
    (hgap : Write.gap s owner schedule own last ⟨.stop, none⟩ = .ok gap) :
    along s owner schedule own true left es = .ok (front ++ gap) := by
  induction es generalizing left front with
  | nil =>
    cases Except.ok.inj hfront
    change left = some last at hlast
    rw [hlast]
    exact hgap
  | cons x es ih =>
    rcases x with ⟨e, content⟩
    rw [along_cons] at hfront
    rcases Outcome.bind_eq_ok.1 hfront with ⟨gap', hgap', hfront⟩
    rcases Outcome.bind_eq_ok.1 hfront with ⟨inside, hinside, hfront⟩
    rcases Outcome.bind_eq_ok.1 hfront with ⟨rest, hrest, hfront⟩
    rw [← Except.ok.inj hfront]
    rw [lastLeft_cons] at hlast
    rw [along_cons, hgap', hinside, ih hrest hlast]
    simp

/-! ### Drawing elements -/

/-- The elements of one slot, from the parts under their names. -/
def drawSlot (roles : List (VirtualRole × SchemaEntry))
    (look : String → Option Part) (index : Nat) :
    Slot → Option (List (Element × Content))
  | .extras _ => some []
  | .token text => some [(.token index, .text text)]
  | .implied field =>
    match look field with
    | some (.scalar _) => some []
    | _ => none
  | .scalar field =>
    match look field with
    | some (.scalar (.string text)) => some [(.token index, .text text)]
    | _ => none
  | .node field =>
    match look field with
    | some (.node inner) => some [(.child index, .inner inner)]
    | _ => none
  | .optional field =>
    match look field with
    | some (.node inner) => some [(.child index, .inner inner)]
    | some .absent => some []
    | _ => none
  | .list field separator =>
    match look field with
    | some (.list items) => some (itemElements index separator 0 items)
    | _ => none
  | .virtual role =>
    match (Schema.wrapped? roles role).bind fun d => look d.name with
    | some (.virtual role' inner) =>
      if role' = role then some [(.child index, .inner inner)] else none
    | _ => none

/-- The elements of a schedule whose first slot has an index, from the parts
under their names. -/
def draw (roles : List (VirtualRole × SchemaEntry))
    (look : String → Option Part) (index : Nat) :
    Schedule → Option (List (Element × Content))
  | [] => some []
  | slot :: slots => do
    let here ← drawSlot roles look index slot
    let further ← draw roles look (index + 1) slots
    some (here ++ further)

/-- The separator in front of the item of a list with an index, but
not for the first. -/
def separatorElements (slot : Nat) (separator : Option String) :
    Nat → List (Element × Content)
  | 0 => []
  | previous + 1 =>
    separator.toList.map fun text => (.separator slot previous, .text text)

theorem itemElements_cons (slot : Nat) (separator : Option String) (index : Nat)
    (item : Inner) (items : List Inner) :
    itemElements slot separator index (item :: items) =
      separatorElements slot separator index ++
        (.item slot index, .inner item) ::
        itemElements slot separator (index + 1) items := by
  cases separator <;> cases index <;> rfl

theorem itemElements_concat (slot : Nat) (separator : Option String)
    (index : Nat) (items : List Inner) (item : Inner) :
    itemElements slot separator index (items ++ [item]) =
      itemElements slot separator index items ++
        (separatorElements slot separator (index + items.length) ++
          [(.item slot (index + items.length), .inner item)]) := by
  induction items generalizing index with
  | nil =>
    rw [List.nil_append, itemElements_cons]
    rfl
  | cons first items ih =>
    have hlength :
        index + 1 + items.length = index + (first :: items).length := by
      rw [List.length_cons]
      omega
    rw [List.cons_append, itemElements_cons, itemElements_cons, ih, hlength,
      List.append_assoc, List.cons_append]

variable {roles : List (VirtualRole × SchemaEntry)}
  {look look' : String → Option Part}

theorem draw_concat (index : Nat) (slots : Schedule) (slot : Slot) :
    draw roles look index (slots ++ [slot]) = (do
      let front ← draw roles look index slots
      let here ← drawSlot roles look (index + slots.length) slot
      some (front ++ here)) := by
  induction slots generalizing index with
  | nil =>
    rw [List.nil_append, List.length_nil, Nat.add_zero, draw, draw]
    cases drawSlot roles look index slot <;> simp [draw]
  | cons first slots ih =>
    have hlength :
        index + 1 + slots.length = index + (first :: slots).length := by
      rw [List.length_cons]
      omega
    rw [List.cons_append, draw, draw, ih, hlength]
    cases drawSlot roles look index first <;> cases draw roles look
      (index + 1) slots <;>
      cases drawSlot roles look (index + (first :: slots).length) slot <;> simp

/-- Every slot of a schedule that elements are drawn for has
elements of its own. -/
theorem exists_drawSlot {index : Nat} {slots : Schedule} {slot : Slot}
    {es : List (Element × Content)} (h : draw roles look index slots = some es)
    (hslot : slot ∈ slots) :
    ∃ i here, drawSlot roles look i slot = some here := by
  induction slots generalizing index es with
  | nil => exact absurd hslot List.not_mem_nil
  | cons first slots ih =>
    rw [draw] at h
    rcases Option.bind_eq_some_iff.1 h with ⟨here, hhere, h⟩
    rcases Option.bind_eq_some_iff.1 h with ⟨further, hfurther, -⟩
    rcases List.mem_cons.1 hslot with rfl | hslot
    · exact ⟨index, here, hhere⟩
    · exact ih hfurther hslot

/-- Where a slot fills a list field, a list is found. -/
theorem exists_items {index : Nat} {slots : Schedule} {name : String}
    {es : List (Element × Content)} (h : draw roles look index slots = some es)
    (hlist : (⟨name, .list⟩ : FieldDef) ∈ slots.filterMap Slot.field?) :
    ∃ items, look name = some (.list items) := by
  rcases List.mem_filterMap.1 hlist with ⟨slot, hslot, hd⟩
  rcases exists_drawSlot h hslot with ⟨i, here, hhere⟩
  cases slot with
  | list field separator =>
    cases Option.some.inj hd
    rw [drawSlot] at hhere
    split at hhere
    · exact ⟨_, ‹_›⟩
    · exact nomatch hhere
  | _ => simp [Slot.field?] at hd

theorem drawSlot_congr {slot : Slot} (index : Nat)
    (h : ∀ d, Schema.placed? roles slot = some d → look d.name = look' d.name) :
    drawSlot roles look index slot = drawSlot roles look' index slot := by
  cases slot with
  | extras label | token text => rfl
  | scalar field | implied field | node field | optional field
  | list field separator =>
    rw [drawSlot, drawSlot, h ⟨field, _⟩ rfl]
  | virtual role =>
    rw [drawSlot, drawSlot]
    cases hd : Schema.wrapped? roles role with
    | none => rfl
    | some d => rw [Option.bind_some, Option.bind_some, h d hd]

theorem draw_congr {index : Nat} {slots : Schedule}
    (h : ∀ name ∈ Schema.placedNames roles slots, look name = look' name) :
    draw roles look index slots = draw roles look' index slots := by
  induction slots generalizing index with
  | nil => rfl
  | cons slot slots ih =>
    rw [Schema.placedNames_cons] at h
    rw [draw, draw, ih fun name hname => h name (List.mem_append_right _ hname)]
    rw [drawSlot_congr index fun d hd =>
      h d.name (List.mem_append_left _ (by simp [hd]))]

/-! ### The elements of nodes and virtual nodes -/

theorem lookup_parts (s : Schema) (fields : List (String × Value))
    (name : String) :
    (parts s fields).lookup name = (fields.lookup name).map (part s) := by
  induction fields with
  | nil => rfl
  | cons field fields ih =>
    rw [parts, List.lookup_cons, List.lookup_cons, ih]
    cases name == field.1 <;> rfl

theorem parts_eq_map (s : Schema) (fields : List (String × Value)) :
    parts s fields = fields.map fun field => (field.1, part s field.2) := by
  induction fields with
  | nil => rfl
  | cons field fields ih => rw [parts, ih, List.map_cons]

theorem inners_eq_map (s : Schema) (items : List Cst) :
    inners s items =
      items.map fun item => ⟨item.extras, node s false item⟩ := by
  induction items with
  | nil => rfl
  | cons item items ih => rw [inners, ih, List.map_cons]

/-- The virtual nodes of a role stand only where the role's field does. -/
def InPlace (roles : List (VirtualRole × SchemaEntry))
    (parts : List (String × Part)) : Prop :=
  ∀ name role inner, (name, Part.virtual role inner) ∈ parts →
    ∃ d, Schema.wrapped? roles role = some d ∧ d.name = name

/-- What is drawn for a schedule that places every name puts virtual nodes
in their place. -/
theorem inPlace_of_draw {parts : List (String × Part)} {index : Nat}
    {slots : Schedule} {es : List (Element × Content)}
    (h : draw roles (parts.lookup ·) index slots = some es)
    (hnodup : (parts.map Prod.fst).Nodup)
    (hnames : ∀ name ∈ parts.map Prod.fst,
      name ∈ Schema.placedNames roles slots) : InPlace roles parts := by
  intro name role inner hmem
  have hlookup := Named.lookup_of_mem hnodup hmem
  rcases List.mem_map.1 (hnames name (List.mem_map.2 ⟨_, hmem, rfl⟩)) with
    ⟨d, hd, rfl⟩
  rcases List.mem_filterMap.1 hd with ⟨slot, hslot, hplaced⟩
  rcases exists_drawSlot h hslot with ⟨i, here, hhere⟩
  cases slot with
  | extras label | token text => exact nomatch hplaced
  | virtual role' =>
    have hwrapped : Schema.wrapped? roles role' = some d := hplaced
    rw [drawSlot, hwrapped, Option.bind_some, hlookup] at hhere
    by_cases hrole : role = role'
    · exact ⟨d, hrole ▸ hwrapped, rfl⟩
    · simp [hrole] at hhere
  | scalar field | implied field | node field | optional field
  | list field separator =>
    cases Option.some.inj hplaced
    simp [drawSlot, hlookup] at hhere

/-- An origin shows the parts that elements are drawn from. -/
structure Origin.Shows (roles : List (VirtualRole × SchemaEntry))
    (look : String → Option Part) (o : Origin) : Prop where
  part : ∀ name q, look name = some q → (∀ items, q ≠ .list items) →
    o.part? name = some q
  items : ∀ name items, look name = some (.list items) →
    o.items? name = some items
  virtual : ∀ role d inner, Schema.wrapped? roles role = some d →
    look d.name = some (.virtual role inner) → o.virtual? role = some inner

theorem virtual?_of_lookup {parts : List (String × Part)} {role : VirtualRole}
    {d : FieldDef} {inner : Inner} (hplace : InPlace roles parts)
    (hd : Schema.wrapped? roles role = some d)
    (h : parts.lookup d.name = some (.virtual role inner)) :
    (Origin.fields parts).virtual? role = some inner := by
  rcases List.lookup_eq_some_iff.1 h with ⟨front, behind, rfl, hfront⟩
  rw [Origin.virtual?, List.findSome?_eq_some_iff]
  refine ⟨front, _, behind, rfl, if_pos rfl, ?_⟩
  rintro ⟨name, value⟩ hmem
  cases value with
  | virtual role' inner' =>
    -- another virtual node of the role would stand under the same name
    refine if_neg fun hrole => ?_
    subst hrole
    rcases hplace name role' inner' (List.mem_append_left _ hmem) with
      ⟨d', hd', hname⟩
    rw [hd] at hd'
    cases hd'
    have hne := hfront _ hmem
    simp [hname] at hne
  | _ => rfl

theorem Origin.shows_fields {parts : List (String × Part)}
    (hplace : InPlace roles parts) :
    (Origin.fields parts).Shows roles (parts.lookup ·) := by
  refine ⟨fun name q hq _ => hq, fun name items hitems => ?_,
    fun role d inner hd h => ?_⟩
  · simp only [items?, part?, hitems]
  · exact virtual?_of_lookup hplace hd h

/-- A virtual node shows the list that it wraps under any name. -/
theorem Origin.shows_wrapped {wrapped : Option Part} {list : List Inner}
    (h : wrapped = some (.list list) ∨ wrapped = none ∧ list = []) :
    (Origin.wrapped wrapped).Shows roles fun _ => some (.list list) := by
  refine ⟨fun name q hq hnot => ?_, fun name items hitems => ?_,
    fun role d inner _ hvirtual => ?_⟩
  · exact absurd (Option.some.inj hq).symm (hnot list)
  · cases hitems
    rcases h with rfl | ⟨rfl, rfl⟩ <;> rfl
  · exact nomatch hvirtual

theorem slotElements_of_drawSlot {o : Origin} {slot : Slot} {index : Nat}
    {es : List (Element × Content)} (hshows : o.Shows roles look)
    (h : drawSlot roles look index slot = some es) :
    slotElements owner o index slot = .ok es := by
  cases slot with
  | extras label | token text =>
    rw [← Option.some.inj h]
    rfl
  | implied field =>
    rw [drawSlot] at h
    split at h
    · rw [← Option.some.inj h]
      rfl
    · exact nomatch h
  | scalar field =>
    rw [drawSlot] at h
    split at h
    · rename_i text hlook
      rw [slotElements, hshows.part _ _ hlook (fun _ he => nomatch he),
        ← Option.some.inj h]
    · exact nomatch h
  | node field =>
    rw [drawSlot] at h
    split at h
    · rename_i inner hlook
      rw [slotElements, hshows.part _ _ hlook (fun _ he => nomatch he),
        ← Option.some.inj h]
    · exact nomatch h
  | optional field =>
    rw [drawSlot] at h
    split at h
    · rename_i inner hlook
      rw [slotElements, hshows.part _ _ hlook (fun _ he => nomatch he),
        ← Option.some.inj h]
    · rename_i hlook
      rw [slotElements, hshows.part _ _ hlook (fun _ he => nomatch he),
        ← Option.some.inj h]
    · exact nomatch h
  | list field separator =>
    rw [drawSlot] at h
    split at h
    · rename_i items hlook
      rw [slotElements, hshows.items _ _ hlook, ← Option.some.inj h]
    · exact nomatch h
  | virtual role =>
    rw [drawSlot] at h
    split at h
    · rename_i role' inner hlook
      rcases Option.bind_eq_some_iff.1 hlook with ⟨d, hd, hlookup⟩
      by_cases hrole : role' = role
      · subst hrole
        rw [if_pos rfl] at h
        rw [slotElements, hshows.virtual _ _ _ hd hlookup, ← Option.some.inj h]
      · rw [if_neg hrole] at h
        exact nomatch h
    · exact nomatch h

/-- The elements of a node or virtual node are those drawn from the
parts that it shows. -/
theorem elements_of_draw {o : Origin} {index : Nat} {slots : Schedule}
    {es : List (Element × Content)} (hshows : o.Shows roles look)
    (h : draw roles look index slots = some es) :
    elements owner o index slots = .ok es := by
  induction slots generalizing index es with
  | nil =>
    cases Option.some.inj h
    rfl
  | cons slot slots ih =>
    rw [draw] at h
    rcases Option.bind_eq_some_iff.1 h with ⟨here, hhere, h⟩
    rcases Option.bind_eq_some_iff.1 h with ⟨further, hfurther, h⟩
    rw [elements, slotElements_of_drawSlot hshows hhere, ih hfurther,
      ← Option.some.inj h]
    rfl

end Write

end Cst

end Lossless
