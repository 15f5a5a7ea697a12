import Lossless.Cst.Build
import Lossless.Outcome
import Lossless.Proofs.Conformance

/-!
# What a step of building does

A node is built slot by slot. `Stored` says what becomes of the extras in front
of an element, `Fills` what going through one slot does, `virtualNode_eq_ok` and
`node_eq_ok` how a whole node comes about. Every property of built trees is
proved from these, without opening the builder again.
-/

namespace Lossless

namespace Cst

namespace Build

variable {c : Context} {p : Parts} {f f' : Frame} {e right : Element}
  {tokens rest : List SourceToken} {handed : Option Handed}

/-! ### Tokens in front of an element -/

/-- The extras at the front of a token stream. -/
def leadingRun (tokens : List SourceToken) : List Token :=
  (tokens.takeWhile SourceToken.isExtra).map SourceToken.token

/-- The tokens behind the extras at the front of a token stream. -/
def behindRun (tokens : List SourceToken) : List SourceToken :=
  tokens.dropWhile SourceToken.isExtra

theorem behindRun_of_leadingRun (h : leadingRun tokens = []) :
    behindRun tokens = tokens := by
  cases tokens with
  | nil => rfl
  | cons t ts =>
    rw [behindRun, List.dropWhile_cons]
    cases ht : t.isExtra with
    | false => rfl
    | true => simp [leadingRun, ht] at h

theorem isExtra_of_behindRun {t : SourceToken}
    (h : behindRun tokens = t :: rest) : t.isExtra = false := by
  have hhead := List.head?_dropWhile_not SourceToken.isExtra tokens
  rw [← behindRun, h] at hhead
  simpa using hhead

theorem leadingRun_behindRun (tokens : List SourceToken) :
    leadingRun (behindRun tokens) = [] := by
  rw [leadingRun]
  cases h : behindRun tokens with
  | nil => rfl
  | cons t ts => rw [List.takeWhile_cons, isExtra_of_behindRun h]; rfl

theorem behindRun_behindRun (tokens : List SourceToken) :
    behindRun (behindRun tokens) = behindRun tokens :=
  behindRun_of_leadingRun (leadingRun_behindRun tokens)

theorem setExtras_eq_ok {s : Schema} {owner : Owner} {extras extras' : Extras}
    {label : Label} {run : List Token} (hrun : run ≠ [])
    (h : setExtras s owner extras label run = .ok extras') :
    ∃ entry, s.entry? owner = some entry ∧
      entry.vocabulary.contains label = true ∧
      extras' = extras.insert label run := by
  rw [setExtras] at h
  rcases Outcome.bind_eq_ok.1 h with ⟨v, hv, h⟩
  rw [Schema.vocabulary, Schema.entryOf] at hv
  cases hentry : s.entry? owner with
  | none => simp [hentry, Except.map] at hv
  | some entry =>
    simp only [hentry, Except.map, Except.ok.injEq] at hv
    subst hv
    rw [Extras.set] at h
    cases hlabel : entry.vocabulary.contains label with
    | false => simp [hlabel] at h
    | true =>
      have hempty : run.isEmpty = false := by
        cases run with
        | nil => exact absurd rfl hrun
        | cons t ts => rfl
      simp only [hlabel, hempty, if_true, Bool.false_eq_true, if_false,
        Except.ok.injEq] at h
      exact ⟨entry, rfl, hlabel, h.symm⟩

/-- What becomes of a run of extras in front of an element: the frame behind it,
and what is handed to the element. -/
inductive Stored (c : Context) (f : Frame) (right : Element)
    (run : List Token) : Frame → Option Handed → Prop
  | nothing (empty : run = []) : Stored c f right run f none
  | owner {left : Element} {label : Label} {extras : Extras}
      (nonempty : run ≠ []) (hleft : f.left = some left)
      (anchor : c.schema.resolve f.owner f.schedule ⟨left, right⟩ =
        .ok ⟨.owner, label⟩)
      (set : setExtras c.schema f.owner f.extras label run = .ok extras) :
      Stored c f right run { f with extras := extras } none
  | right {left : Element} {label : Label} (nonempty : run ≠ [])
      (hleft : f.left = some left)
      (anchor : c.schema.resolve f.owner f.schedule ⟨left, right⟩ =
        .ok ⟨.right, label⟩) (child : right.isChild = true) :
      Stored c f right run f (some ⟨label, run⟩)
  | left {left : Element} {label : Label} {name : String} {value : Value}
      {owner : Owner} {record extras : Extras} (nonempty : run ≠ [])
      (hleft : f.left = some left)
      (anchor : c.schema.resolve f.owner f.schedule ⟨left, right⟩ =
        .ok ⟨.left, label⟩) (child : left.isChild = true)
      (hchild : f.child = some name) (field : f.fields.lookup name = some value)
      (last : lastRecord? value = some (owner, record))
      (set : setExtras c.schema owner record label run = .ok extras) :
      Stored c f right run (f.update name (withLastRecord extras)) none

theorem storeLeft_eq_ok {g : Gap} {label : Label} {run : List Token}
    (h : storeLeft c f g label run = .ok f') :
    ∃ name value owner record extras, f.child = some name ∧
      f.fields.lookup name = some value ∧
      lastRecord? value = some (owner, record) ∧
      setExtras c.schema owner record label run = .ok extras ∧
      f' = f.update name (withLastRecord extras) := by
  rw [storeLeft] at h
  cases hname : f.child with
  | none => simp [hname] at h
  | some name =>
    simp only [hname] at h
    cases hrecord : (f.fields.lookup name).bind lastRecord? with
    | none => simp [hrecord] at h
    | some r =>
      rcases r with ⟨owner, record⟩
      rcases Option.bind_eq_some_iff.1 hrecord with ⟨value, hvalue, hlast⟩
      simp only [hrecord] at h
      rcases Outcome.bind_eq_ok.1 h with ⟨extras, hset, h⟩
      exact ⟨name, value, owner, record, extras, rfl, hvalue, hlast, hset,
        (Except.ok.inj h).symm⟩

theorem gap_eq_ok (h : gap c f right tokens = .ok (f', handed, rest)) :
    rest = behindRun tokens ∧
      Stored c f right (leadingRun tokens) f' handed := by
  rw [gap] at h
  simp only at h
  by_cases hrun : leadingRun tokens = []
  · rw [leadingRun] at hrun
    rw [hrun] at h
    cases Except.ok.inj h
    exact ⟨(behindRun_of_leadingRun hrun).symm, .nothing hrun⟩
  · have hempty :
        ((tokens.takeWhile SourceToken.isExtra).map SourceToken.token).isEmpty =
          false :=
      List.isEmpty_eq_false_iff.2 hrun
    simp only [hempty, Bool.false_eq_true, if_false] at h
    cases hleft : f.left with
    | none => simp [hleft] at h
    | some left =>
      simp only [hleft] at h
      rcases Outcome.bind_eq_ok.1 h with ⟨⟨target, label⟩, ha, h⟩
      cases target with
      | owner =>
        rcases Outcome.bind_eq_ok.1 h with ⟨extras, hset, h⟩
        have he := Except.ok.inj h
        rw [Prod.mk.injEq, Prod.mk.injEq, ← hleft] at he
        rcases he with ⟨rfl, rfl, rfl⟩
        exact ⟨rfl, .owner hrun hleft ha hset⟩
      | right =>
        simp only at h
        split at h
        · cases Except.ok.inj h
          exact ⟨rfl, .right hrun hleft ha ‹_›⟩
        · exact nomatch h
      | left =>
        simp only at h
        split at h
        · rename_i hchild
          rcases Outcome.bind_eq_ok.1 h with ⟨f₁, hstore, h⟩
          cases Except.ok.inj h
          rcases storeLeft_eq_ok hstore with ⟨name, value, owner, record,
            extras, hname, hvalue, hlast, hset, rfl⟩
          exact ⟨rfl, .left hrun hleft ha hchild hname hvalue hlast hset⟩
        · exact nomatch h

theorem token_eq_ok {text : String}
    (h : token c f e text tokens = .ok (f', rest)) :
    ∃ f₁ handed t, gap c f e tokens = .ok (f₁, handed, t :: rest) ∧
      t.text = text ∧ f' = f₁.pass e := by
  rw [token] at h
  rcases Outcome.bind_eq_ok.1 h with ⟨⟨f₁, handed, tokens₁⟩, hgap, h⟩
  cases tokens₁ with
  | nil => exact nomatch h
  | cons t ts =>
    simp only at h
    split at h
    · rename_i htext
      cases Except.ok.inj h
      exact ⟨f₁, handed, t, hgap, htext, rfl⟩
    · exact nomatch h

/-! ### What storing leaves alone -/

namespace Stored

variable {run : List Token}

theorem owner_eq (h : Stored c f right run f' handed) : f'.owner = f.owner := by
  cases h <;> rfl

theorem schedule_eq (h : Stored c f right run f' handed) :
    f'.schedule = f.schedule := by
  cases h <;> rfl

theorem left_eq (h : Stored c f right run f' handed) : f'.left = f.left := by
  cases h <;> rfl

end Stored

theorem Frame.names_update (f : Frame) (name : String)
    (change : Value → Value) :
    (f.update name change).fields.map Prod.fst = f.fields.map Prod.fst := by
  rw [Frame.update, List.map_map]
  refine List.map_congr_left fun field _ => ?_
  rw [Function.comp_apply]
  split <;> rfl

theorem Stored.names_eq {run : List Token}
    (h : Stored c f right run f' handed) :
    f'.fields.map Prod.fst = f.fields.map Prod.fst := by
  cases h with
  | left => exact f.names_update _ _
  | _ => rfl

/-! ### Slots -/

/-- The separator in front of an item, if there is one. -/
def separate (c : Context) (slot : Nat) (separator : Option String)
    (index : Nat) (f : Frame) (tokens : List SourceToken) :
    Except CstError (Frame × List SourceToken) :=
  match separator, index with
  | some text, previous + 1 => token c f (.separator slot previous) text tokens
  | _, _ => .ok (f, tokens)

theorem fillItems_cons (c : Context) (slot : Nat) (field : String)
    (separator : Option String)
    (index : Nat) (f : Frame) (tokens : List SourceToken) (child : Child)
      (children : List Child) :
    fillItems c slot field separator index f tokens (child :: children) = (do
      let (f, tokens) ← separate c slot separator index f tokens
      let (f, handed, tokens) ← gap c f (.item slot index) tokens
      let (item, tokens) ← child.build handed tokens
      fillItems c slot field separator (index + 1)
        (f.addItem (.item slot index) field item) tokens
        children) := by
  cases separator <;> cases index <;> rfl

/-- What going in front of an item does: nothing, or passing a separator. -/
inductive Separated (c : Context) (slot : Nat) (separator : Option String)
    (index : Nat) (f : Frame) (tokens : List SourceToken) :
    Frame → List SourceToken → Prop
  | nothing (first : separator = none ∨ index = 0) :
      Separated c slot separator index f tokens f tokens
  | token {text : String} {previous : Nat} {f' : Frame}
      {rest : List SourceToken} (hseparator : separator = some text)
      (hindex : index = previous + 1)
      (pass : token c f (.separator slot previous) text tokens =
        .ok (f', rest)) : Separated c slot separator index f tokens f' rest

theorem separate_eq_ok {slot index : Nat} {separator : Option String}
    (h : separate c slot separator index f tokens = .ok (f', rest)) :
    Separated c slot separator index f tokens f' rest := by
  cases separator with
  | none =>
    cases Except.ok.inj h
    exact .nothing (.inl rfl)
  | some text =>
    cases index with
    | zero =>
      cases Except.ok.inj h
      exact .nothing (.inr rfl)
    | succ previous => exact .token rfl rfl h

theorem fillItems_cons_eq_ok {slot index : Nat} {field : String}
    {separator : Option String} {child : Child} {children : List Child}
    (h : fillItems c slot field separator index f tokens (child :: children) =
      .ok (f', rest)) :
    ∃ f₁ tokens₁ f₂ handed tokens₂ item tokens₃,
      Separated c slot separator index f tokens f₁ tokens₁ ∧
      gap c f₁ (.item slot index) tokens₁ = .ok (f₂, handed, tokens₂) ∧
      child.build handed tokens₂ = .ok (item, tokens₃) ∧
      fillItems c slot field separator (index + 1)
          (f₂.addItem (.item slot index) field item) tokens₃ children =
        .ok (f', rest) := by
  rw [fillItems_cons] at h
  rcases Outcome.bind_eq_ok.1 h with ⟨⟨f₁, tokens₁⟩, hseparate, h⟩
  rcases Outcome.bind_eq_ok.1 h with ⟨⟨f₂, handed, tokens₂⟩, hgap, h⟩
  rcases Outcome.bind_eq_ok.1 h with ⟨⟨item, tokens₃⟩, hbuild, h⟩
  exact ⟨f₁, tokens₁, f₂, handed, tokens₂, item, tokens₃,
    separate_eq_ok hseparate, hgap, hbuild, h⟩

/-- What going through one slot does. -/
inductive Fills (c : Context) (p : Parts) (virtual : VirtualBuilder)
    (index : Nat) (f : Frame) (tokens : List SourceToken) :
    Slot → Frame → List SourceToken → Prop
  | extras (label : Label) :
      Fills c p virtual index f tokens (.extras label) f tokens
  | token {text : String} {f' : Frame} {rest : List SourceToken}
    (pass : token c f (.token index) text tokens = .ok (f', rest)) :
    Fills c p virtual index f tokens (.token text) f' rest
  | scalar {field text : String} {f' : Frame} {rest : List SourceToken}
      (part : p.fields.lookup field = some (.scalar (.string text)))
      (pass : Build.token c f (.token index) text tokens = .ok (f', rest)) :
      Fills c p virtual index f tokens (.scalar field)
        (f'.fill field (.scalar (.string text))) rest
  | implied {field : String} {value : Scalar}
      (part : p.fields.lookup field = some (.scalar value)) :
      Fills c p virtual index f tokens (.implied field)
        (f.fill field (.scalar value)) tokens
  | child {slot : Slot} {field : String} {child : Child} {f₁ : Frame}
      {handed : Option Handed} {tokens₁ rest : List SourceToken} {built : Cst}
      (hslot : slot = .node field ∨ slot = .optional field)
      (part : p.fields.lookup field = some (.node child))
      (before : gap c f (.child index) tokens = .ok (f₁, handed, tokens₁))
      (build : child.build handed tokens₁ = .ok (built, rest)) :
      Fills c p virtual index f tokens slot
        (f₁.addChild (.child index) field (.node built)) rest
  | absent {field : String} (part : p.fields.lookup field = some .absent) :
      Fills c p virtual index f tokens (.optional field)
        (f.fill field .absent) tokens
  | list {field : String} {separator : Option String} {children : List Child}
      {f' : Frame} {rest : List SourceToken}
      (part : p.fields.lookup field = some (.list children))
      (items : fillItems c index field separator 0
        (f.fill field (.list [])) tokens children = .ok (f', rest)) :
      Fills c p virtual index f tokens (.list field separator) f' rest
  | virtual {role : VirtualRole} {f₁ : Frame} {handed : Option Handed}
      {tokens₁ rest : List SourceToken} {field : String} {value : Value}
      (before : gap c f (.child index) tokens = .ok (f₁, handed, tokens₁))
      (build : virtual role handed tokens₁ = .ok (field, value, rest)) :
      Fills c p virtual index f tokens (.virtual role)
        (f₁.addChild (.child index) field value) rest

theorem Parts.get_eq_ok {field : String} {part : Part}
    (h : p.get field = .ok part) : p.fields.lookup field = some part := by
  rw [Parts.get] at h
  cases hp : p.fields.lookup field with
  | none => simp [hp] at h
  | some part' =>
    simp only [hp] at h
    rw [Except.ok.inj h]

theorem Parts.scalar_eq_ok {field : String} {value : Scalar}
    (h : p.scalar field = .ok value) :
    p.fields.lookup field = some (.scalar value) := by
  rw [Parts.scalar] at h
  rcases Outcome.bind_eq_ok.1 h with ⟨part, hpart, h⟩
  cases part with
  | scalar value' =>
    rw [← Except.ok.inj h]
    exact Parts.get_eq_ok hpart
  | _ => exact nomatch h

theorem fillChild_eq_ok {field : String} {child : Child}
    (h : fillChild c e field f child tokens = .ok (f', rest)) :
    ∃ f₁ handed tokens₁ built, gap c f e tokens = .ok (f₁, handed, tokens₁) ∧
      child.build handed tokens₁ = .ok (built, rest) ∧
      f' = f₁.addChild e field (.node built) := by
  rw [fillChild] at h
  rcases Outcome.bind_eq_ok.1 h with ⟨⟨f₁, handed, tokens₁⟩, hgap, h⟩
  rcases Outcome.bind_eq_ok.1 h with ⟨⟨built, tokens₂⟩, hbuild, h⟩
  cases Except.ok.inj h
  exact ⟨f₁, handed, tokens₁, built, hgap, hbuild, rfl⟩

theorem fillSlot_eq_ok {virtual : VirtualBuilder} {index : Nat} {slot : Slot}
    (h : fillSlot c p virtual index slot f tokens = .ok (f', rest)) :
    Fills c p virtual index f tokens slot f' rest := by
  cases slot with
  | extras label =>
    cases Except.ok.inj h
    exact .extras label
  | token text => exact .token h
  | scalar field =>
    rcases Outcome.bind_eq_ok.1 h with ⟨value, hvalue, h⟩
    cases value with
    | string text =>
      rcases Outcome.bind_eq_ok.1 h with ⟨⟨f₁, tokens₁⟩, htoken, h⟩
      cases Except.ok.inj h
      exact .scalar (Parts.scalar_eq_ok hvalue) htoken
    | _ => exact nomatch h
  | implied field =>
    rcases Outcome.bind_eq_ok.1 h with ⟨value, hvalue, h⟩
    cases Except.ok.inj h
    exact .implied (Parts.scalar_eq_ok hvalue)
  | node field =>
    rcases Outcome.bind_eq_ok.1 h with ⟨part, hpart, h⟩
    cases part with
    | node child =>
      rcases fillChild_eq_ok h with
        ⟨f₁, handed, tokens₁, built, hgap, hbuild, rfl⟩
      exact .child (.inl rfl) (Parts.get_eq_ok hpart) hgap hbuild
    | _ => exact nomatch h
  | optional field =>
    rcases Outcome.bind_eq_ok.1 h with ⟨part, hpart, h⟩
    cases part with
    | node child =>
      rcases fillChild_eq_ok h with
        ⟨f₁, handed, tokens₁, built, hgap, hbuild, rfl⟩
      exact .child (.inr rfl) (Parts.get_eq_ok hpart) hgap hbuild
    | absent =>
      cases Except.ok.inj h
      exact .absent (Parts.get_eq_ok hpart)
    | _ => exact nomatch h
  | list field separator =>
    rcases Outcome.bind_eq_ok.1 h with ⟨part, hpart, h⟩
    cases part with
    | list children => exact .list (Parts.get_eq_ok hpart) h
    | _ => exact nomatch h
  | virtual role =>
    rcases Outcome.bind_eq_ok.1 h with ⟨⟨f₁, handed, tokens₁⟩, hgap, h⟩
    rcases Outcome.bind_eq_ok.1 h with ⟨⟨field, value, tokens₂⟩, hvirtual, h⟩
    cases Except.ok.inj h
    exact .virtual hgap hvirtual

theorem fillSlots_cons_eq_ok {virtual : VirtualBuilder} {index : Nat}
    {slot : Slot} {slots : Schedule}
    (h : fillSlots c p virtual index f tokens (slot :: slots) =
      .ok (f', rest)) :
    ∃ f₁ tokens₁, Fills c p virtual index f tokens slot f₁ tokens₁ ∧
      fillSlots c p virtual (index + 1) f₁ tokens₁ slots = .ok (f', rest) := by
  rw [fillSlots] at h
  rcases Outcome.bind_eq_ok.1 h with ⟨⟨f₁, tokens₁⟩, hslot, h⟩
  exact ⟨f₁, tokens₁, fillSlot_eq_ok hslot, h⟩

/-! ### Nodes -/

/-- A frame as it is when nothing has been built. -/
structure Opened (c : Context) (owner : Owner) (handed : Option Handed)
    (root : Bool) (f : Frame) : Prop where
  entry : ∃ entry, c.schema.entry? owner = some entry ∧
    f.schedule = entry.schedule
  owner_eq : f.owner = owner
  extras : match handed with
    | some h => setExtras c.schema owner .empty h.label h.tokens = .ok f.extras
    | none => f.extras = .empty
  fields : f.fields = []
  left : f.left = if root then some .start else none
  child : f.child = none

theorem openFrame_eq_ok {owner : Owner} {root : Bool}
    (h : openFrame c owner handed root = .ok f) :
    Opened c owner handed root f := by
  rw [openFrame] at h
  rcases Outcome.bind_eq_ok.1 h with ⟨schedule, hschedule, h⟩
  rw [Schema.schedule, Schema.entryOf] at hschedule
  cases hentry : c.schema.entry? owner with
  | none => simp [hentry, Except.map] at hschedule
  | some entry =>
    simp only [hentry, Except.map, Except.ok.injEq] at hschedule
    cases handed with
    | none =>
      rcases Outcome.bind_eq_ok.1 h with ⟨extras, hextras, h⟩
      rw [← Except.ok.inj h]
      exact ⟨⟨entry, hentry, hschedule.symm⟩, rfl, (Except.ok.inj hextras).symm,
        rfl, rfl, rfl⟩
    | some given =>
      rcases Outcome.bind_eq_ok.1 h with ⟨extras, hextras, h⟩
      rw [← Except.ok.inj h]
      exact ⟨⟨entry, hentry, hschedule.symm⟩, rfl, hextras, rfl, rfl, rfl⟩

/-- What a virtual node wraps in the place of a value. -/
def wrappedValue : Value → Option Value
  | .list [] => none
  | value => some value

/-- The builder that a virtual node gets for virtual nodes inside it. -/
def refuse (role : VirtualRole) : VirtualBuilder := fun _ _ _ =>
  .error (.incomplete (.virtual role) .nestedVirtual)

theorem virtualNode_eq_ok {role : VirtualRole} {name : String} {value : Value}
    (h : virtualNode c p role handed tokens = .ok (name, value, rest)) :
    ∃ f f' inner, Opened c (.virtual role) handed false f ∧
      fillSlots c p (refuse role) 0 f tokens f.schedule = .ok (f', rest) ∧
      f'.fields.getLast? = some (name, inner) ∧
      value = .virtual role (wrappedValue inner) f'.extras := by
  rw [virtualNode] at h
  rcases Outcome.bind_eq_ok.1 h with ⟨f, hopen, h⟩
  rcases Outcome.bind_eq_ok.1 h with ⟨⟨f', tokens'⟩, hfill, h⟩
  simp only at h
  split at h
  · rename_i field hlast
    cases Except.ok.inj h
    exact ⟨f, f', .list [], openFrame_eq_ok hopen, hfill, hlast, rfl⟩
  · rename_i field inner hnotEmpty hlast
    cases Except.ok.inj h
    refine ⟨f, f', inner, openFrame_eq_ok hopen, hfill, hlast, ?_⟩
    rw [wrappedValue]
    exact hnotEmpty
  · exact nomatch h

theorem orderFields_eq_ok {g : Grammar} {type : String}
    {fields ordered : List (String × Value)} {declared : List FieldDef}
    (hdeclared : g.fields? type = some declared)
    (h : orderFields g type fields = .ok ordered) :
    ordered.map Prod.fst = declared.map FieldDef.name ∧
      ∀ name value, (name, value) ∈ ordered →
        fields.lookup name = some value := by
  rw [orderFields, hdeclared] at h
  simp only at h
  clear hdeclared
  induction declared generalizing ordered with
  | nil =>
    cases Except.ok.inj h
    exact ⟨rfl, fun _ _ hmem => absurd hmem List.not_mem_nil⟩
  | cons d declared ih =>
    rw [List.mapM_cons] at h
    rcases Outcome.bind_eq_ok.1 h with ⟨field, hfield, h⟩
    rcases Outcome.bind_eq_ok.1 h with ⟨others, hothers, h⟩
    cases Except.ok.inj h
    rcases ih hothers with ⟨hnames, hlookup⟩
    cases hvalue : fields.lookup d.name with
    | none => simp [hvalue] at hfield
    | some value =>
      simp only [hvalue, Except.ok.injEq] at hfield
      subst hfield
      refine ⟨by simp [hnames], fun name value' hmem => ?_⟩
      rcases List.mem_cons.1 hmem with he | hmem
      · cases he
        exact hvalue
      · exact hlookup name value' hmem

/-- What building a node, which may be the root, does. -/
theorem node_eq_ok {root : Bool} {tree : Cst}
    (h : node c p root handed tokens = .ok (tree, rest)) :
    ∃ f f₁ f' tokens₁ ordered, Opened c (.node p.type) handed root f ∧
      fillSlots c p (virtualNode c p) 0 f tokens f.schedule =
        .ok (f₁, tokens₁) ∧
      (if root then ∃ handed', gap c f₁ .stop tokens₁ = .ok (f', handed', rest)
        else f' = f₁ ∧ rest = tokens₁) ∧
      orderFields c.schema.grammar p.type f'.fields = .ok ordered ∧
      tree = .node p.type ordered f'.extras := by
  rw [node] at h
  rcases Outcome.bind_eq_ok.1 h with ⟨f, hopen, h⟩
  rcases Outcome.bind_eq_ok.1 h with ⟨⟨f₁, tokens₁⟩, hfill, h⟩
  cases root with
  | false =>
    rcases Outcome.bind_eq_ok.1 h with ⟨⟨f', tokens'⟩, hroot, h⟩
    rcases Outcome.bind_eq_ok.1 h with ⟨ordered, hordered, h⟩
    cases Except.ok.inj hroot
    cases Except.ok.inj h
    exact ⟨f, f₁, f₁, _, ordered, openFrame_eq_ok hopen, hfill, ⟨rfl, rfl⟩,
      hordered, rfl⟩
  | true =>
    rcases Outcome.bind_eq_ok.1 h with ⟨⟨f', handed', tokens'⟩, hgap, h⟩
    rcases Outcome.bind_eq_ok.1 h with ⟨_, hpure, h⟩
    cases Except.ok.inj hpure
    rcases Outcome.bind_eq_ok.1 h with ⟨ordered, hordered, h⟩
    cases Except.ok.inj h
    exact ⟨f, f₁, f', tokens₁, ordered, openFrame_eq_ok hopen, hfill,
      ⟨handed', hgap⟩, hordered, rfl⟩

/-! ### Parts -/

theorem lookup_parts (c : Context) (fields : List (String × Ast.Value))
    (name : String) :
    (parts c fields).lookup name = (fields.lookup name).map (part c) := by
  induction fields with
  | nil => rfl
  | cons field fields ih =>
    rw [parts, List.lookup_cons, List.lookup_cons, ih]
    cases name == field.1 <;> rfl

theorem names_parts (c : Context) (fields : List (String × Ast.Value)) :
    (parts c fields).map Prod.fst = fields.map Prod.fst := by
  induction fields with
  | nil => rfl
  | cons field fields ih => rw [parts, List.map_cons, List.map_cons, ih]

theorem children_eq_map (c : Context) (items : List Ast) :
    children c items = items.map (child c) := by
  induction items with
  | nil => rfl
  | cons item items ih => rw [children, ih, List.map_cons]

theorem child_build (c : Context) (t : Ast) (handed : Option Handed)
    (tokens : List SourceToken) :
    (child c t).build handed tokens =
      node c ⟨t.type, parts c t.fields⟩ false handed tokens := by
  cases t
  rw [child]
  rfl

/-- What a field of a syntax tree holds, seen from its part. -/
theorem field_of_part {fields : List (String × Ast.Value)} {name : String}
    {q : Part} (h : (parts c fields).lookup name = some q) : match q with
    | .node ch => ∃ t, fields.lookup name = some (.node t) ∧ ch = child c t
    | .absent => fields.lookup name = some .absent
    | .list chs =>
      ∃ ts, fields.lookup name = some (.list ts) ∧ chs = ts.map (child c)
    | .scalar s => fields.lookup name = some (.scalar s) := by
  rw [lookup_parts] at h
  rcases Option.map_eq_some_iff.1 h with ⟨value, hvalue, rfl⟩
  cases value with
  | node t => exact ⟨t, hvalue, rfl⟩
  | absent => exact hvalue
  | list ts => exact ⟨ts, hvalue, children_eq_map c ts⟩
  | scalar s => exact hvalue

/-- All children in a part have a property. -/
def Part.All (P : Child → Prop) : Part → Prop
  | .node ch => P ch
  | .list chs => ∀ ch ∈ chs, P ch
  | .absent | .scalar _ => True

/-- All children of a node have a property. -/
def Parts.All (P : Child → Prop) (p : Parts) : Prop :=
  ∀ name q, p.fields.lookup name = some q → q.All P

/-- The children of a node are the ones in its parts. -/
theorem parts_all {P : Child → Prop} {type : String}
    {fields : List (String × Ast.Value)}
    (h : ∀ t ∈ Branching.children (Ast.node type fields), P (child c t)) :
    (⟨type, parts c fields⟩ : Parts).All P := by
  intro name q hq
  cases q with
  | node ch =>
    rcases field_of_part hq with ⟨t, hvalue, rfl⟩
    exact h t (Ast.mem_children hvalue (List.mem_singleton_self t))
  | list chs =>
    rcases field_of_part hq with ⟨ts, hvalue, rfl⟩
    intro ch hch
    rcases List.mem_map.1 hch with ⟨t, ht, rfl⟩
    exact h t (Ast.mem_children hvalue ht)
  | absent | scalar value => trivial

end Build

/-- What building a whole tree does: the tree passes the grammar's check, and
the root takes all tokens. -/
theorem build_eq_ok {s : Schema} {t : Ast} {tokens : List SourceToken}
    {tree : Cst} (h : build s t tokens = .ok tree) :
    s.grammar.check t = .ok () ∧
      Build.node ⟨s, Build.streamEnd tokens⟩ ⟨t.type,
        Build.parts ⟨s, Build.streamEnd tokens⟩ t.fields⟩ true none tokens =
        .ok (tree, []) := by
  rw [build] at h
  rcases Outcome.bind_eq_ok.1 h with ⟨_, -, h⟩
  cases hcheck : s.grammar.check t with
  | error e => simp [hcheck] at h
  | ok _ =>
    simp only [hcheck] at h
    rcases Outcome.bind_eq_ok.1 h with ⟨⟨tree', rest⟩, hnode, h⟩
    cases rest with
    | cons u us => exact nomatch h
    | nil =>
      cases Except.ok.inj h
      exact ⟨rfl, hnode⟩

end Cst

end Lossless
