import Lossless.Proofs.Filling

/-!
# The leaves of a syntax tree

A layout says for every node type what its nodes are spelled with: fixed
tokens, scalars and the fields with further nodes. `leaves` lists what a whole
tree is spelled with, in order. `verdict` compares leaves with tokens that
carry meaning, one by one, and finds the first that do not go together;
`consume` is the same comparison on a token stream with extras in it, one part
of a tree after another.
-/

namespace Lossless

/-- What a tree is spelled with at one place. -/
inductive Leaf where
  | text (text : String)
  /-- A scalar field of a node type that holds no text. -/
  | textless (type field : String)
  deriving DecidableEq, Repr

/-- What a field of a syntax tree is spelled with. -/
inductive Spelling where
  | node (leaves : List Leaf)
  | absent
  | list (items : List (List Leaf))
  | scalar (value : Scalar)

/-- For every node type the slots that its nodes are spelled with. -/
abbrev Layout := String → Schedule

namespace Leaf

/-- What stands in front of the item of a list with an index: the separator, but
not for the first. -/
def ofSeparator (separator : Option String) : Nat → List Leaf
  | 0 => []
  | _ + 1 => separator.toList.map .text

/-- What the items of a list are spelled with from an index on, with the
separators between them. -/
def ofItems (separator : Option String) (index : Nat) :
    List (List Leaf) → List Leaf
  | [] => []
  | item :: items =>
    ofSeparator separator index ++ (item ++ ofItems separator (index + 1) items)

/-- Behind the first item it does not matter how many came before. -/
theorem ofItems_succ (separator : Option String) (index index' : Nat)
    (items : List (List Leaf)) :
    ofItems separator (index + 1) items =
      ofItems separator (index' + 1) items := by
  induction items generalizing index index' with
  | nil => rfl
  | cons item items ih =>
    rw [ofItems, ofItems, ih (index + 1) (index' + 1)]
    rfl

theorem ofItems_cons (separator : Option String) (item : List Leaf)
    {items : List (List Leaf)} (h : items ≠ []) :
    ofItems separator 0 (item :: items) =
      item ++ (separator.toList.map .text ++ ofItems separator 0 items) := by
  cases items with
  | nil => exact absurd rfl h
  | cons item' items =>
    rw [ofItems, ofItems, ofItems, ofItems_succ separator 1 0]
    rfl

theorem ofItems_cons_none (item : List Leaf) (items : List (List Leaf)) :
    ofItems none 0 (item :: items) = item ++ ofItems none 0 items := by
  cases items with
  | nil => rfl
  | cons item' items => exact ofItems_cons none item (List.cons_ne_nil _ _)

/-- What one slot of a node of a type is spelled with. -/
def ofSlot (type : String) (fields : List (String × Spelling)) :
    Slot → List Leaf
  | .token word => [.text word]
  | .scalar field =>
    match fields.lookup field with
    | some (.scalar (.string word)) => [.text word]
    | some (.scalar _) => [.textless type field]
    | _ => []
  | .node field | .optional field =>
    match fields.lookup field with
    | some (.node leaves) => leaves
    | _ => []
  | .list field separator =>
    match fields.lookup field with
    | some (.list items) => ofItems separator 0 items
    | _ => []
  | .extras _ | .implied _ | .virtual _ => []

/-- What some slots are spelled with. -/
def ofSlots (type : String) (fields : List (String × Spelling))
    (slots : Schedule) : List Leaf :=
  slots.flatMap (ofSlot type fields)

end Leaf

namespace Ast

mutual

/-- What a tree is spelled with. -/
def leaves (layout : Layout) : Ast → List Leaf
  | .node type fields =>
    Leaf.ofSlots type (spellings layout fields) (layout type)

/-- What the fields of a node are spelled with. -/
def spellings (layout : Layout) :
    List (String × Value) → List (String × Spelling)
  | [] => []
  | (name, value) :: fields =>
    (name, spelling layout value) :: spellings layout fields

/-- What a field is spelled with. -/
def spelling (layout : Layout) : Value → Spelling
  | .node t => .node (leaves layout t)
  | .absent => .absent
  | .list items => .list (itemLeaves layout items)
  | .scalar value => .scalar value

/-- What the trees of a list are spelled with. -/
def itemLeaves (layout : Layout) : List Ast → List (List Leaf)
  | [] => []
  | t :: items => leaves layout t :: itemLeaves layout items

end

theorem itemLeaves_eq_map (layout : Layout) (items : List Ast) :
    itemLeaves layout items = items.map (leaves layout) := by
  induction items with
  | nil => rfl
  | cons t items ih => rw [itemLeaves, ih, List.map_cons]

theorem lookup_spellings (layout : Layout) (fields : List (String × Value))
    (name : String) :
    (spellings layout fields).lookup name =
      (fields.lookup name).map (spelling layout) := by
  induction fields with
  | nil => rfl
  | cons field fields ih =>
    rw [spellings, List.lookup_cons, List.lookup_cons, ih]
    cases name == field.1 <;> rfl

end Ast

namespace Leaf

variable {layout layout' : Layout}

/-- Slots that no leaf comes from do not matter. -/
theorem ofSlots_filter (type : String) (fields : List (String × Spelling))
    (slots : Schedule) {keep : Slot → Bool}
    (h : ∀ slot, keep slot = false → ofSlot type fields slot = []) :
    ofSlots type fields (slots.filter keep) = ofSlots type fields slots := by
  induction slots with
  | nil => rfl
  | cons slot slots ih =>
    rw [ofSlots, ofSlots, List.filter_cons, List.flatMap_cons]
    cases hkeep : keep slot with
    | true =>
      rw [if_pos rfl, List.flatMap_cons]
      congr 1
    | false =>
      rw [h slot hkeep, List.nil_append, if_neg Bool.false_ne_true]
      exact ih

end Leaf

/-! ### Comparing leaves with tokens -/

namespace Leaf

/-- The first fault of a tree's leaves against the tokens that carry meaning, if
there is one: a leaf without text, a token that spells something else or is
missing, or a token that is left over. -/
def verdict (streamEnd : Nat) : List Leaf → List SourceToken → Option CstError
  | [], [] => none
  | [], t :: _ => some (.tokenMismatch .endOfInput (.token t.text) t.range)
  | .textless type field :: _, _ =>
    some (.malformed (.node type) (.scalarWithoutText field))
  | .text w :: leaves, t :: ts =>
    if t.text = w then verdict streamEnd leaves ts
    else some (.tokenMismatch (.text w) (.token t.text) t.range)
  | .text w :: _, [] =>
    some (.tokenMismatch (.text w) .endOfInput (.empty streamEnd))

open Cst.Build (mismatch isExtra_of_behindRun)

/-- Takes leaves off a token stream with extras in it: what is left of the
stream, or the first fault. -/
def consume (streamEnd : Nat) :
    List Leaf → List SourceToken → Except CstError (List SourceToken)
  | [], tokens => .ok tokens
  | .textless type field :: _, _ =>
    .error (.malformed (.node type) (.scalarWithoutText field))
  | .text w :: leaves, tokens =>
    match tokens.dropWhile SourceToken.isExtra with
    | [] => .error (mismatch streamEnd (.text w) [])
    | t :: ts =>
      if t.text = w then consume streamEnd leaves ts
      else .error (mismatch streamEnd (.text w) (t :: ts))

theorem consume_append (streamEnd : Nat) (leaves leaves' : List Leaf)
    (tokens : List SourceToken) :
    consume streamEnd (leaves ++ leaves') tokens =
        consume streamEnd leaves tokens >>=
      consume streamEnd leaves' := by
  induction leaves generalizing tokens with
  | nil => rfl
  | cons leaf leaves ih =>
    cases leaf with
    | textless type field => rfl
    | text w =>
      rw [List.cons_append, consume, consume]
      cases tokens.dropWhile SourceToken.isExtra with
      | nil => rfl
      | cons t ts =>
        simp only
        by_cases htext : t.text = w
        · rw [if_pos htext, if_pos htext]
          exact ih ts
        · rw [if_neg htext, if_neg htext]
          rfl

/-- Extras in front of a stream do not change what leaves are taken off it. -/
theorem filter_dropWhile (tokens : List SourceToken) :
    (tokens.dropWhile SourceToken.isExtra).filter (!·.isExtra) =
      tokens.filter (!·.isExtra) := by
  induction tokens with
  | nil => rfl
  | cons t ts ih =>
    rw [List.dropWhile_cons, List.filter_cons]
    cases ht : t.isExtra with
    | true => simpa using ih
    | false => simp [ht]

/-- Taking all leaves off a stream, and then nothing but extras being left, is
the verdict on the tokens that carry meaning. -/
theorem verdict_eq (streamEnd : Nat) (leaves : List Leaf)
    (tokens : List SourceToken) :
    verdict streamEnd leaves
      (tokens.filter (!·.isExtra)) = match consume streamEnd leaves tokens with
      | .error e => some e
      | .ok rest =>
        match rest.dropWhile SourceToken.isExtra with
        | [] => none
        | t :: ts => some (mismatch streamEnd .endOfInput (t :: ts)) := by
  induction leaves generalizing tokens with
  | nil =>
    rw [consume, ← filter_dropWhile]
    cases hrest : tokens.dropWhile SourceToken.isExtra with
    | nil => simp [hrest, verdict]
    | cons t ts =>
      rw [List.filter_cons_of_pos (by simp [isExtra_of_behindRun hrest])]
      simp [hrest, verdict, mismatch]
  | cons leaf leaves ih =>
    cases leaf with
    | textless type field => cases tokens.filter (!·.isExtra) <;> rfl
    | text w =>
      rw [consume, ← filter_dropWhile]
      cases hrest : tokens.dropWhile SourceToken.isExtra with
      | nil => rfl
      | cons t ts =>
        rw [List.filter_cons_of_pos (by simp [isExtra_of_behindRun hrest]),
          verdict]
        simp only
        by_cases htext : t.text = w
        · rw [if_pos htext, if_pos htext]
          exact ih ts
        · rw [if_neg htext, if_neg htext]
          rfl

end Leaf

end Lossless
