import Lossless.Cst.Outline

/-!
# Outlines as recursions

The outline of a tree is written from a list of parts that wait, each with its
depth. Here the same lines are made by recursion on the tree, without any depth:
`recordLines` lists the labels of a record, `bodyLines` the lines of a node
below its type, and what belongs to a line is set two spaces deeper than that
line (`nested`). Every part that waits stands for the lines of its own recursion
at its depth (`Entry.whole_eq`), so what is written are these lines, part by
part (`write_eq`), and the outline of a tree of any shape is its recursion
(`outline_eq_recursion`).
-/

namespace Lossless

namespace Cst

/-! ### The recursion -/

/-- Lines set two spaces deeper. -/
def nested (lines : List String) : List String := lines.map ("  " ++ ·)

/-- The texts of some tokens, each quoted behind a space. -/
def quotedTexts : List Token → String
  | [] => ""
  | token :: tokens => " " ++ Text.quote token.text ++ quotedTexts tokens

/-- The lines of a record's entries, one for each in order: the label behind an
at sign, then the texts of its tokens. -/
def recordLines : List (Label × List Token) → List String
  | [] => []
  | (label, tokens) :: entries =>
    ("@" ++ label ++ quotedTexts tokens) :: recordLines entries

mutual

/-- The lines of a node below its type: its labels in the order of the record,
then its fields in order. -/
def bodyLines : Cst → List String
  | .node _ fields extras => recordLines extras.entries ++ fieldsLines fields

/-- The lines of some fields. -/
def fieldsLines : List (String × Value) → List String
  | [] => []
  | (name, value) :: fields => fieldLines name value ++ fieldsLines fields

/-- The lines of a field. A virtual node shows its role, then its labels
and what it wraps below: the items of a list, and any other value as a
field of the same name. -/
def fieldLines (name : String) : Value → List String
  | .scalar s => [name ++ ": " ++ s.toJson.compact]
  | .absent => [name ++ ": null"]
  | .node child => (name ++ ": " ++ child.type) :: nested (bodyLines child)
  | .list [] => [name ++ ": []"]
  | .list items => (name ++ ":") :: nested (itemsLines items)
  | .virtual role none extras =>
    (name ++ ": " ++ role.describe) :: nested (recordLines extras.entries)
  | .virtual role (some (.list [])) extras =>
    (name ++ ": " ++ role.describe ++ " []") ::
      nested (recordLines extras.entries)
  | .virtual role (some (.list items)) extras =>
    (name ++ ": " ++ role.describe) ::
      nested (recordLines extras.entries ++ itemsLines items)
  | .virtual role (some value) extras =>
    (name ++ ": " ++ role.describe) ::
      nested (recordLines extras.entries ++ fieldLines name value)

/-- The lines of the items of a list, each with its type behind a dash. -/
def itemsLines : List Cst → List String
  | [] => []
  | item :: items =>
    ("- " ++ item.type) :: nested (bodyLines item) ++ itemsLines items

end

/-! ### Depths -/

/-- Lines at a depth. -/
def linesAt (depth : Nat) (lines : List String) : List String :=
  lines.map (Json.indent depth ++ ·)

theorem indent_succ (depth : Nat) :
    Json.indent (depth + 1) = Json.indent depth ++ "  " := by
  apply String.toList_inj.1
  simp [Json.indent, Nat.mul_succ, List.replicate_succ']

@[simp] theorem linesAt_nil (depth : Nat) : linesAt depth [] = [] := rfl

@[simp] theorem linesAt_cons (depth : Nat) (line : String)
    (lines : List String) :
    linesAt depth (line :: lines) =
      (Json.indent depth ++ line) :: linesAt depth lines := rfl

@[simp] theorem linesAt_append (depth : Nat) (lines lines' : List String) :
    linesAt depth (lines ++ lines') =
      linesAt depth lines ++ linesAt depth lines' := by
  simp [linesAt]

/-- One level deeper is two spaces deeper. -/
@[simp] theorem linesAt_nested (depth : Nat) (lines : List String) :
    linesAt depth (nested lines) = linesAt (depth + 1) lines := by
  simp [linesAt, nested, indent_succ, String.append_assoc]

theorem join_quoted (tokens : List Token) :
    String.join (tokens.map fun t => " " ++ Text.quote t.text) =
      quotedTexts tokens := by
  induction tokens with
  | nil => rfl
  | cons token tokens ih => simp [ih, quotedTexts, String.append_assoc]

/-- The labels that are written at a depth are the lines of the record there. -/
theorem labelLines_eq (extras : Extras) (depth : Nat) :
    labelLines extras depth = linesAt depth (recordLines extras.entries) := by
  rw [labelLines]
  induction extras.entries with
  | nil => rfl
  | cons entry entries ih =>
    rw [List.map_cons, ih, recordLines, linesAt_cons]
    simp [join_quoted, String.append_assoc]

/-! ### Parts that wait -/

/-- All lines of a part that waits. -/
def Entry.whole : Entry → List String
  | body t depth => linesAt depth t.bodyLines
  | item t depth => linesAt depth (itemsLines [t])
  | field name value depth => linesAt depth (fieldLines name value)

theorem flatMap_whole_items (items : List Cst) (depth : Nat) :
    (items.map (Entry.item · depth)).flatMap Entry.whole =
      linesAt depth (itemsLines items) := by
  induction items with
  | nil => rfl
  | cons item items ih => simp [ih, Entry.whole, itemsLines]

theorem flatMap_whole_fields (fields : List (String × Value)) (depth : Nat) :
    (fields.map fun (name, value) => Entry.field name value depth).flatMap
        Entry.whole =
      linesAt depth (fieldsLines fields) := by
  induction fields with
  | nil => rfl
  | cons field fields ih => simp [ih, Entry.whole, fieldsLines]

/-- What a part begins with, and the parts that follow, are the lines
of its recursion. -/
theorem Entry.whole_eq (e : Entry) :
    e.whole = e.lines ++ e.parts.flatMap whole := by
  cases e with
  | body t depth =>
    obtain ⟨type, fields, extras⟩ := t
    rw [parts, Cst.fields, flatMap_whole_fields, lines, Cst.extras,
      labelLines_eq, whole, bodyLines, linesAt_append]
  | item t depth => simp [whole, itemsLines, lines, parts, String.append_assoc]
  | field name value depth =>
    cases value with
    | scalar | absent | node =>
      simp [whole, fieldLines, lines, parts, String.append_assoc]
    | list items =>
      cases items with
      | nil => simp [whole, fieldLines, lines, parts, String.append_assoc]
      | cons first others =>
        rw [parts, flatMap_whole_items]
        simp [whole, fieldLines, lines, String.append_assoc]
    | «virtual» role wrapped extras =>
      have hlabels := labelLines_eq extras (depth + 1)
      cases wrapped with
      | none => simp [whole, fieldLines, lines, parts, hlabels,
        String.append_assoc]
      | some inner =>
        cases inner with
        | list items =>
          cases items with
          | nil => simp [whole, fieldLines, lines, parts, hlabels,
            String.append_assoc]
          | cons first others =>
            rw [parts, flatMap_whole_items]
            simp [whole, fieldLines, lines, hlabels, String.append_assoc]
        -- any other value is a field of the same name, one level deeper
        | node | absent | scalar | «virtual» =>
          simp [whole, fieldLines, lines, parts, hlabels, String.append_assoc]

theorem write_eq (written : List String) (waiting : List Entry) :
    write written waiting = written.reverse ++ waiting.flatMap Entry.whole := by
  fun_induction write written waiting with
  | case1 written => simp
  | case2 written e waiting ih => simp [ih, e.whole_eq]

/-- The outline of a tree of any shape is its type and, two spaces deeper, the
lines of its recursion, each of them ended. -/
theorem outline_eq_recursion (t : Cst) :
    t.outline =
      String.join ((t.type :: nested t.bodyLines).map (· ++ "\n")) := by
  have hbody : Entry.whole (.body t 1) = nested t.bodyLines := rfl
  rw [outline, outlineLines, write_eq, List.flatMap_singleton, hbody]
  rfl

example :
    let space : Token := ⟨.blank, " ", default⟩
    let comment : Token := ⟨.blockComment, "/*c*/", default⟩
    let params : Value := .virtual .paramList (some (.list []))
      ⟨[(.inside, [comment]), (.after, [space])]⟩
    (node "FunctionDeclaration" [("params", params)]
      ⟨[(.before, [space, comment])]⟩).outline =
        "FunctionDeclaration\n" ++
        "  @before \" \" \"/*c*/\"\n" ++
        "  params: <ParamList> []\n" ++
        "    @inside \"/*c*/\"\n" ++
        "    @after \" \"\n" := by
  decide +kernel

end Cst

end Lossless
