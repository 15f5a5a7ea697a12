import Lossless.Ast.Json
import Lossless.Cst.Basic

/-!
# Outlines of concrete trees

An outline shows a tree line by line, two spaces deeper for each level: a node's
labels with their tokens, then its fields. What is still to be written waits on
a list, so a tree of any depth can be shown.
-/

namespace Lossless

namespace Cst

/-- The labels of a record, a line for each with its tokens quoted. -/
def labelLines (extras : Extras) (depth : Nat) : List String :=
  extras.entries.map fun (label, tokens) =>
    Json.indent depth ++ "@" ++ label ++
      String.join (tokens.map fun t => " " ++ Text.quote t.text)

/-- A part of an outline that is still to be written, with its depth. -/
inductive Entry where
  /-- The labels and fields of a node. -/
  | body (node : Cst) (depth : Nat)
  /-- An item of a list. -/
  | item (node : Cst) (depth : Nat)
  /-- A field. -/
  | field (name : String) (value : Value) (depth : Nat)

namespace Entry

/-- The lines that a part begins with. -/
def lines : Entry → List String
  | body t depth => labelLines t.extras depth
  | item t depth => [Json.indent depth ++ "- " ++ t.type]
  | field name value depth =>
    let head := Json.indent depth ++ name ++ ":"
    match value with
    | .node t => [head ++ " " ++ t.type]
    | .absent => [head ++ " null"]
    | .scalar s => [head ++ " " ++ s.toJson.compact]
    | .list [] => [head ++ " []"]
    | .list _ => [head]
    | .virtual role (some (.list [])) extras =>
      (head ++ " " ++ role.describe ++ " []") :: labelLines extras (depth + 1)
    | .virtual role _ extras =>
      (head ++ " " ++ role.describe) :: labelLines extras (depth + 1)

/-- The parts that follow those lines. -/
def parts : Entry → List Entry
  | body t depth => t.fields.map fun (name, value) => field name value depth
  | item t depth => [body t (depth + 1)]
  | field name value depth =>
    match value with
    | .node t => [body t (depth + 1)]
    | .list items => items.map (item · (depth + 1))
    | .virtual _ (some (.list items)) _ => items.map (item · (depth + 1))
    | .virtual _ (some value) _ => [field name value (depth + 1)]
    | .virtual _ none _ | .absent | .scalar _ => []

end Entry

mutual

/-- The number of parts that the body of a node is written in. -/
def bodyWork : Cst → Nat
  | .node _ fields _ => 1 + fieldsWork fields

/-- The number of parts that some fields are written in. -/
def fieldsWork : List (String × Value) → Nat
  | [] => 0
  | (_, value) :: fields => fieldWork value + fieldsWork fields

/-- The number of parts that a field is written in. -/
def fieldWork : Value → Nat
  | .node child => 1 + bodyWork child
  | .list items => 1 + itemsWork items
  | .virtual _ (some value) _ => 1 + fieldWork value
  | .virtual _ none _ | .absent | .scalar _ => 1

/-- The number of parts that the items of a list are written in. -/
def itemsWork : List Cst → Nat
  | [] => 0
  | item :: items => 1 + bodyWork item + itemsWork items

end

/-- The number of parts that a part is written in, itself included. -/
def Entry.work : Entry → Nat
  | body t _ => bodyWork t
  | item t _ => 1 + bodyWork t
  | field _ value _ => fieldWork value

theorem total_work_items (items : List Cst) (depth : Nat) :
    total Entry.work (items.map (Entry.item · depth)) = itemsWork items := by
  induction items with
  | nil => rfl
  | cons item items ih => simp_all [Entry.work, itemsWork]

theorem total_work_fields (fields : List (String × Value)) (depth : Nat) :
    total Entry.work (fields.map fun (name, value) =>
      Entry.field name value depth) =
      fieldsWork fields := by
  induction fields with
  | nil => rfl
  | cons field fields ih => simp_all [Entry.work, fieldsWork]

theorem Entry.total_work_parts (e : Entry) :
    total Entry.work e.parts < e.work := by
  fun_cases Entry.parts e with
  | case1 t depth =>
    cases t with
    | node type fields extras =>
      rw [Cst.fields, total_work_fields]
      simp [Entry.work, bodyWork]
  | case2 t depth => simp [Entry.work]
  | case3 name depth t => simp [Entry.work, fieldWork]
  | case4 name depth items =>
    rw [total_work_items]
    simp [Entry.work, fieldWork]
  | case5 name depth role extras items =>
    rw [total_work_items]
    simp only [Entry.work, fieldWork]
    omega
  | case6 name depth role extras value _ => simp [Entry.work, fieldWork]
  | case7 => simp [Entry.work, fieldWork]
  | case8 => simp [Entry.work, fieldWork]
  | case9 => simp [Entry.work, fieldWork]

/-- The lines of parts that wait, behind those already written, latest first. -/
def write (written : List String) : List Entry → List String
  | [] => written.reverse
  | e :: waiting => write (e.lines.reverse ++ written) (e.parts ++ waiting)
termination_by waiting => total Entry.work waiting
decreasing_by
  have := e.total_work_parts
  simp only [total_append, total_cons]
  omega

/-- The lines of an outline. -/
def outlineLines (t : Cst) : List String := write [t.type] [.body t 1]

/-- The outline of a tree; every line is ended. -/
def outline (t : Cst) : String := String.join (t.outlineLines.map (· ++ "\n"))

end Cst

end Lossless
