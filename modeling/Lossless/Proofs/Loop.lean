import Lossless.Proofs.Filling
import Lossless.Proofs.Stateful
import Mathlib.Data.List.Infix
import Mathlib.Logic.Function.Iterate

/-!
# Building with a stack of frames

A tree of any depth can be built without recursion: the frames under
construction stand on a stack, and each turn of a loop goes through one slot of
the innermost frame, opens the frame of a child, or finishes a frame and
attaches what came of it to the one around it. The loop reads the tokens at a
position and never goes back (`position_after_le`). A `Meter` keeps the position
and notes every frame that is opened; it is kept when a turn fails.
-/

namespace Lossless

namespace Cst

namespace Loop

open Build (Context Frame Handed)

/-- What is built: the schema, and the tokens of the text. -/
structure Input where
  schema : Schema
  tokens : List SourceToken

def Input.context (i : Input) : Context := ⟨i.schema, Build.streamEnd i.tokens⟩

/-- How far the loop has come. -/
structure Meter where
  /-- The number of tokens behind. -/
  position : Nat
  /-- The frames opened so far, latest first: what they belong to, and the node
  that they are filled from. -/
  opened : List (Owner × Ast)

/-- A step that moves a meter and may fail. -/
abbrev Metered (α : Type) := Stateful CstError Meter α

namespace Metered

/-- A step that leaves the meter alone. -/
def lift {α : Type} (x : Except CstError α) : Metered α :=
  fun meter => (x, meter)

@[simp] theorem lift_apply {α : Type} (x : Except CstError α) (meter : Meter) :
    lift x meter = (x, meter) := rfl

end Metered

/-! ### Tokens -/

/-- The position behind the extras at a position. -/
def behindExtras (tokens : List SourceToken) (position : Nat) : Nat :=
  match _h : tokens[position]? with
  | some t => if t.isExtra then behindExtras tokens (position + 1) else position
  | none => position
termination_by tokens.length - position
decreasing_by
  obtain ⟨hlt, -⟩ := List.getElem?_eq_some_iff.1 _h
  omega

/-- Goes past the extras in front of an element, and stores them. Those for the
element itself are returned. -/
def gap (i : Input) (f : Frame) (right : Element) :
    Metered (Frame × Option Handed) := fun meter =>
  ((Build.gap i.context f right (i.tokens.drop meter.position)).map
      fun stored => (stored.1, stored.2.1),
    { meter with position := behindExtras i.tokens meter.position })

/-- Goes past the token at the position, which must have the given text. -/
def take (i : Input) (text : String) : Metered Unit := fun meter =>
  match i.tokens[meter.position]? with
  | some t =>
    if t.text = text then
      (.ok (), { meter with position := meter.position + 1 })
    else (.error (Build.mismatch i.context.streamEnd (.text text)
      (i.tokens.drop meter.position)), meter)
  | none => (.error (Build.mismatch i.context.streamEnd (.text text)
    (i.tokens.drop meter.position)), meter)

/-- Goes past the extras in front of a token, and the token. -/
def token (i : Input) (f : Frame) (e : Element) (text : String) :
    Metered Frame := do
  let (f, _) ← gap i f e
  take i text
  return f.pass e

/-! ### Frames -/

/-- A frame on the stack. -/
structure Open where
  frame : Frame
  /-- The node that it is filled from. -/
  node : Ast
  root : Bool
  /-- The slot that is next. -/
  slot : Nat
  /-- The item that is next, in a slot with a list. -/
  item : Nat
  /-- The field of the list that has been begun. -/
  list : Option String

namespace Open

/-- Goes on to the next slot. -/
def past (o : Open) (f : Frame) : Open :=
  { o with frame := f, slot := o.slot + 1 }

/-- Begins the list of a slot, unless that has been done. -/
def begin (o : Open) (field : String) : Open :=
  match o.list with
  | none =>
    { o with frame := o.frame.fill field (.list []), list := some field }
  | some _ => o

end Open

/-- Opens a frame. -/
def start (i : Input) (owner : Owner) (node : Ast) (handed : Option Handed)
    (root : Bool) : Metered Open :=
  fun meter =>
    match Build.openFrame i.context owner handed root with
    | .ok f => (.ok ⟨f, node, root, 0, 0, none⟩,
      { meter with opened := (owner, node) :: meter.opened })
    | .error e => (.error e, meter)

/-- What has become of a frame: a node, or a virtual node and the
field that it takes. -/
inductive Built where
  | node (tree : Cst)
  | virtual (field : String) (value : Value)

/-- Puts a child in its place in the slot that is being filled. -/
def Open.attach (o : Open) (built : Built) : Except CstError Open :=
  match o.frame.schedule[o.slot]?, built with
  | some (.list _ _), .node tree =>
    match o.list with
    | some field => .ok { o with
        frame := o.frame.addItem (.item o.slot o.item) field tree
        item := o.item + 1 }
    | none => .error (.incomplete o.frame.owner .childOutOfPlace)
  | some (.node field), .node tree | some (.optional field), .node tree =>
    .ok (o.past (o.frame.addChild (.child o.slot) field (.node tree)))
  | some (.virtual _), .virtual field value =>
    .ok (o.past (o.frame.addChild (.child o.slot) field value))
  | _, _ => .error (.incomplete o.frame.owner .childOutOfPlace)

/-- Makes a node or virtual node of a frame whose slots have been filled. -/
def finish (s : Schema) (f : Frame) : Except CstError Built :=
  match f.owner with
  | .node type => do
    let fields ← Build.orderFields s.grammar type f.fields
    return .node (.node type fields f.extras)
  | .virtual role =>
    match f.fields.getLast? with
    | some (field, .list []) =>
      .ok (.virtual field (.virtual role none f.extras))
    | some (field, value) =>
      .ok (.virtual field (.virtual role (some value) f.extras))
    | none => .error (.incomplete f.owner .wrapsNoField)

/-! ### Turns -/

/-- The frames on the stack, the innermost one apart. -/
structure State where
  stack : List Open
  top : Open

/-- What a field of a node holds. -/
def valueOf (node : Ast) (field : String) : Except CstError Ast.Value :=
  match node.field? field with
  | some value => .ok value
  | none => .error (.shape (.missingField node.type field))

/-- The scalar that a field of a node holds. -/
def scalarOf (node : Ast) (field : String) : Except CstError Scalar := do
  match ← valueOf node field with
  | .scalar value => .ok value
  | _ => .error (.shape (.fieldShape node.type field .scalar))

/-- Goes up to a child of the innermost frame, and opens the
frame of the child. -/
def descend (i : Input) (s : State) (right : Element) (owner : Owner)
    (node : Ast) : Metered State := do
  let (f, handed) ← gap i s.top.frame right
  let child ← start i owner node handed false
  return ⟨{ s.top with frame := f } :: s.stack, child⟩

/-- Goes past the separator in front of the next item of a list,
if there is one. -/
def separate (i : Input) (o : Open) (separator : Option String) :
    Metered Frame :=
  match separator, o.item with
  | some text, previous + 1 => token i o.frame (.separator o.slot previous) text
  | _, _ => pure o.frame

/-- Fills the next slot of the innermost frame, or one item of it, or goes
down to a child. -/
def fill (i : Input) (s : State) : Slot → Metered State
  | .extras _ => return { s with top := s.top.past s.top.frame }
  | .token text => do
    let f ← token i s.top.frame (.token s.top.slot) text
    return { s with top := s.top.past f }
  | .scalar field => do
    match ← Metered.lift (scalarOf s.top.node field) with
    | .string text =>
      let f ← token i s.top.frame (.token s.top.slot) text
      return { s with
        top := s.top.past (f.fill field (.scalar (.string text))) }
    | _ => throw (.malformed s.top.frame.owner (.scalarWithoutText field))
  | .implied field => do
    let value ← Metered.lift (scalarOf s.top.node field)
    return { s with top := s.top.past (s.top.frame.fill field (.scalar value)) }
  | .node field => do
    match ← Metered.lift (valueOf s.top.node field) with
    | .node child => descend i s (.child s.top.slot) (.node child.type) child
    | _ => throw (.shape (.fieldShape s.top.node.type field .node))
  | .optional field => do
    match ← Metered.lift (valueOf s.top.node field) with
    | .node child => descend i s (.child s.top.slot) (.node child.type) child
    | .absent =>
      return { s with top := s.top.past (s.top.frame.fill field .absent) }
    | _ => throw (.shape (.fieldShape s.top.node.type field .node))
  | .list field separator => do
    match ← Metered.lift (valueOf s.top.node field) with
    | .list items =>
      let o := s.top.begin field
      match items[o.item]? with
      | some item =>
        let f ← separate i o separator
        descend i ⟨s.stack, { o with frame := f }⟩ (.item o.slot o.item)
          (.node item.type) item
      | none => return { s with
        top := { o.past o.frame with item := 0, list := none } }
    | _ => throw (.shape (.fieldShape s.top.node.type field .list))
  | .virtual role => descend i s (.child s.top.slot) (.virtual role) s.top.node

/-- Attaches what has become of the innermost frame to the one around it. A
root is the end. -/
def ascend (owner : Owner) (stack : List Open) (built : Built) :
    Except CstError (State ⊕ Cst) :=
  match stack, built with
  | parent :: stack, built => (parent.attach built).map fun o => .inl ⟨stack, o⟩
  | [], .node tree => .ok (.inr tree)
  | [], .virtual _ _ => .error (.incomplete owner .childOutOfPlace)

/-- Finishes the innermost frame. -/
def close (i : Input) (s : State) : Metered (State ⊕ Cst) := do
  let f ← if s.top.root then Prod.fst <$> gap i s.top.frame .stop
    else pure s.top.frame
  Metered.lift (finish i.schema f >>= ascend f.owner s.stack)

/-- One turn of the loop. -/
def turn (i : Input) (s : State) : Metered (State ⊕ Cst) :=
  match s.top.frame.schedule[s.top.slot]? with
  | some slot => .inl <$> fill i s slot
  | none => close i s

/-- The loop between two turns: it goes on, has a tree, or has failed. -/
abbrev Moment := Except CstError (State ⊕ Cst) × Meter

/-- The moment after the next turn. There are no more turns once the
loop has ended. -/
def next (i : Input) : Moment → Moment
  | (.ok (.inl s), meter) => turn i s meter
  | ended => ended

/-- The loop before its first turn. -/
def first (i : Input) (t : Ast) : Moment :=
  (do
    let root ← start i (.node t.type) t none true
    return .inl ⟨[], root⟩ : Metered (State ⊕ Cst)) ⟨0, []⟩

/-- The loop after some turns. -/
def after (i : Input) (t : Ast) (turns : Nat) : Moment :=
  (next i)^[turns] (first i t)

/-- How the loop has ended, if it has. -/
def result? : Moment → Option (Except CstError Cst)
  | (.ok (.inl _), _) => none
  | (.ok (.inr tree), _) => some (.ok tree)
  | (.error e, _) => some (.error e)

/-! ### Positions -/

theorem le_behindExtras (tokens : List SourceToken) (position : Nat) :
    position ≤ behindExtras tokens position := by
  fun_induction behindExtras tokens position with
  | case1 position t _ _ ih => omega
  | case2 | case3 => exact Nat.le_refl _

theorem behindExtras_le {tokens : List SourceToken} {position : Nat}
    (h : position ≤ tokens.length) :
    behindExtras tokens position ≤ tokens.length := by
  fun_induction behindExtras tokens position with
  | case1 position t ht _ ih => exact ih (List.getElem?_eq_some_iff.1 ht).1
  | case2 | case3 => exact h

/-- What is behind the extras in front of the loop. -/
theorem drop_behindExtras (tokens : List SourceToken) (position : Nat) :
    tokens.drop (behindExtras tokens position) =
      Build.behindRun (tokens.drop position) := by
  fun_induction behindExtras tokens position with
  | case1 position t ht hextra ih =>
    obtain ⟨hlt, rfl⟩ := List.getElem?_eq_some_iff.1 ht
    rw [ih, List.drop_eq_getElem_cons hlt, Build.behindRun, Build.behindRun,
      List.dropWhile_cons_of_pos hextra]
  | case2 position t ht hextra =>
    obtain ⟨hlt, rfl⟩ := List.getElem?_eq_some_iff.1 ht
    rw [List.drop_eq_getElem_cons hlt, Build.behindRun,
      List.dropWhile_cons_of_neg hextra]
  | case3 position ht =>
    rw [List.drop_eq_nil_of_le (List.getElem?_eq_none_iff.1 ht)]
    rfl

/-- A meter has moved on, if at all, and not beyond the last token. -/
structure Meter.Leads (i : Input) (meter meter' : Meter) : Prop where
  forward : meter.position ≤ meter'.position
  inside : meter'.position ≤ i.tokens.length
  opened : meter.opened <:+ meter'.opened

/-- A step moves a meter forward only. -/
def Advances {α : Type} (i : Input) (x : Metered α) : Prop :=
  ∀ meter : Meter, meter.position ≤ i.tokens.length → meter.Leads i (x meter).2

namespace Advances

variable {α β : Type} {i : Input}

theorem stay {x : Metered α} (h : ∀ meter, (x meter).2 = meter) :
    Advances i x := by
  intro meter hmeter
  rw [h]
  exact ⟨Nat.le_refl _, hmeter, List.suffix_refl _⟩

theorem pure (a : α) : Advances i (pure a : Metered α) := stay fun _ => rfl

theorem lift (x : Except CstError α) : Advances i (Metered.lift x) :=
  stay fun _ => rfl

theorem throw (e : CstError) : Advances i (throw e : Metered α) :=
  stay fun _ => rfl

theorem bind {x : Metered α} {f : α → Metered β} (hx : Advances i x)
    (hf : ∀ a, Advances i (f a)) : Advances i (x >>= f) := by
  intro meter hmeter
  have hfirst := hx meter hmeter
  cases hmid : x meter with
  | mk outcome meter' =>
    rw [hmid] at hfirst
    cases outcome with
    | error e => rwa [Stateful.bind_of_error hmid]
    | ok a =>
      have hsecond := hf a meter' hfirst.inside
      rw [Stateful.bind_of_ok hmid]
      exact ⟨Nat.le_trans hfirst.forward hsecond.forward, hsecond.inside,
        hfirst.opened.trans hsecond.opened⟩

theorem map {x : Metered α} (f : α → β) (hx : Advances i x) :
    Advances i (f <$> x) := by
  rw [map_eq_pure_bind]
  exact hx.bind fun a => pure (f a)

theorem gap (f : Frame) (right : Element) :
    Advances i (gap i f right) := fun _ hmeter =>
  ⟨le_behindExtras .., behindExtras_le hmeter, List.suffix_refl _⟩

theorem take (text : String) : Advances i (take i text) := by
  intro meter hmeter
  rw [Loop.take]
  split
  · rename_i t ht
    split
    · exact ⟨Nat.le_succ _, (List.getElem?_eq_some_iff.1 ht).1,
        List.suffix_refl _⟩
    · exact ⟨Nat.le_refl _, hmeter, List.suffix_refl _⟩
  · exact ⟨Nat.le_refl _, hmeter, List.suffix_refl _⟩

theorem token (f : Frame) (e : Element) (text : String) :
    Advances i (token i f e text) :=
  (gap f e).bind fun _ => (take text).bind fun _ => pure _

theorem start (owner : Owner) (node : Ast) (handed : Option Handed)
    (root : Bool) : Advances i (start i owner node handed root) := by
  intro meter hmeter
  rw [Loop.start]
  split
  · exact ⟨Nat.le_refl _, hmeter, List.suffix_cons ..⟩
  · exact ⟨Nat.le_refl _, hmeter, List.suffix_refl _⟩

theorem descend (s : State) (right : Element) (owner : Owner) (node : Ast) :
    Advances i (descend i s right owner node) :=
  (gap _ _).bind fun _ => (start _ _ _ _).bind fun _ => pure _

theorem separate (o : Open) (separator : Option String) :
    Advances i (separate i o separator) := by
  obtain ⟨frame, node, root, slot, item, list⟩ := o
  cases separator with
  | none => exact pure _
  | some text =>
    cases item with
    | zero => exact pure _
    | succ previous => exact token _ _ _

theorem fill (s : State) (slot : Slot) : Advances i (fill i s slot) := by
  cases slot with
  | extras label => exact pure _
  | token text => exact (token _ _ _).bind fun _ => pure _
  | scalar field =>
    refine (lift _).bind fun value => ?_
    cases value with
    | string text => exact (token _ _ _).bind fun _ => pure _
    | _ => exact throw _
  | implied field => exact (lift _).bind fun _ => pure _
  | node field =>
    refine (lift _).bind fun value => ?_
    cases value with
    | node child => exact descend _ _ _ _
    | _ => exact throw _
  | optional field =>
    refine (lift _).bind fun value => ?_
    cases value with
    | node child => exact descend _ _ _ _
    | absent => exact pure _
    | _ => exact throw _
  | list field separator =>
    refine (lift _).bind fun value => ?_
    cases value with
    | list items =>
      simp only
      cases items[(s.top.begin field).item]? with
      | some item => exact (separate _ _).bind fun _ => descend _ _ _ _
      | none => exact pure _
    | _ => exact throw _
  | virtual role => exact descend _ _ _ _

theorem close (s : State) : Advances i (close i s) := by
  rw [Loop.close]
  cases s.top.root with
  | true => exact ((gap _ _).map _).bind fun _ => lift _
  | false => exact (pure _).bind fun _ => lift _

theorem turn (s : State) : Advances i (turn i s) := by
  rw [Loop.turn]
  cases s.top.frame.schedule[s.top.slot]? with
  | some slot => exact (fill s slot).map _
  | none => exact close s

end Advances

variable (i : Input) (t : Ast)

/-- A turn moves the meter forward only. -/
theorem leads_next (moment : Moment) (h : moment.2.position ≤ i.tokens.length) :
    moment.2.Leads i (next i moment).2 := by
  obtain ⟨outcome, meter⟩ := moment
  match outcome with
  | .ok (.inl s) => exact Advances.turn s meter h
  | .ok (.inr tree) | .error e => exact ⟨Nat.le_refl _, h, List.suffix_refl _⟩

theorem after_succ (turns : Nat) :
    after i t (turns + 1) = next i (after i t turns) :=
  Function.iterate_succ_apply' ..

theorem position_after_le (turns : Nat) :
    (after i t turns).2.position ≤ i.tokens.length := by
  induction turns with
  | zero =>
    have hstart : Advances i (do
        let root ← start i (.node t.type) t none true
        return .inl ⟨[], root⟩ : Metered (State ⊕ Cst)) :=
      (Advances.start _ _ _ _).bind fun _ => .pure _
    exact (hstart ⟨0, []⟩ (Nat.zero_le _)).inside
  | succ turns ih =>
    rw [after_succ]
    exact (leads_next i _ ih).inside

/-- From one turn to the next, the position does not go back and no
frame is forgotten. -/
theorem leads_after (turns : Nat) :
    (after i t turns).2.Leads i (after i t (turns + 1)).2 := by
  rw [after_succ]
  exact leads_next i _ (position_after_le i t turns)

theorem leads_after_le {turns turns' : Nat} (h : turns ≤ turns') :
    (after i t turns).2.Leads i (after i t turns').2 := by
  induction turns', h using Nat.le_induction with
  | base => exact ⟨Nat.le_refl _, position_after_le i t turns,
    List.suffix_refl _⟩
  | succ turns' _ ih =>
    have hnext := leads_after i t turns'
    exact ⟨Nat.le_trans ih.forward hnext.forward, hnext.inside,
      ih.opened.trans hnext.opened⟩

/-- A loop that has ended stays as it is. -/
theorem after_of_result {turns turns' : Nat} {result : Except CstError Cst}
    (h : result? (after i t turns) = some result) (hle : turns ≤ turns') :
    after i t turns' = after i t turns := by
  induction turns', hle using Nat.le_induction with
  | base => rfl
  | succ turns' _ ih =>
    rw [after_succ, ih]
    generalize after i t turns = moment at h
    obtain ⟨outcome, meter⟩ := moment
    match outcome with
    | .ok (.inl s) => cases h
    | .ok (.inr tree) | .error e => rfl

end Loop

end Cst

end Lossless
