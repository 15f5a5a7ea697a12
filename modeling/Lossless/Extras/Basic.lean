import Lossless.Cst.Error

/-!
# Records of extras

A record keeps the extras of one node, run by run, each run under a label. It is
a map that remembers the order in which labels came in: setting a label that is
there keeps its place, setting a label to nothing takes it out, and the others
keep their order. A vocabulary says which labels the records of an owner may
carry; setting any other label fails.
-/

namespace Lossless

/-- The labels that the records of an owner may carry, each once. -/
structure Vocabulary where
  owner : String
  labels : List Label
  deriving DecidableEq, Repr, Inhabited

namespace Vocabulary

/-- Adds a label at the end unless it is there. -/
def addLabel (labels : List Label) (label : Label) : List Label :=
  if label ∈ labels then labels else labels ++ [label]

/-- The vocabulary of some labels, in the order in which they first occur. -/
def ofList (owner : String) (labels : List Label) : Vocabulary :=
  ⟨owner, labels.foldl addLabel []⟩

def contains (v : Vocabulary) (label : Label) : Bool := v.labels.contains label

/-- The label of the vocabulary with a name. -/
def get? (v : Vocabulary) (name : String) : Option Label :=
  v.labels.find? (· == name)

end Vocabulary

/-- The extras kept with one node: runs of tokens under labels,
none of them empty. -/
structure Extras where
  entries : List (Label × List Token)
  deriving DecidableEq, Repr, Inhabited

namespace Extras

def empty : Extras := ⟨[]⟩

/-- The tokens under a label; none if the label is not there. -/
def get (x : Extras) (label : Label) : List Token :=
  (x.entries.lookup label).getD []

/-- Takes a label out. -/
def erase (x : Extras) (label : Label) : Extras :=
  ⟨x.entries.filter (·.1 ≠ label)⟩

/-- Puts tokens under a label: in its place if it is there, and at
the end otherwise. -/
def insert (x : Extras) (label : Label) (tokens : List Token) : Extras :=
  if x.entries.any (·.1 = label) then
    ⟨x.entries.map fun entry =>
      if entry.1 = label then (label, tokens) else entry⟩
  else ⟨x.entries ++ [(label, tokens)]⟩

/-- Sets the tokens under a label of a vocabulary. Without tokens the
label is taken out. -/
def set (x : Extras) (v : Vocabulary) (label : Label) (tokens : List Token) :
    Except CstError Extras :=
  if v.contains label then
    .ok (if tokens.isEmpty then x.erase label else x.insert label tokens)
  else .error (.invalidLabel v.owner label)

/-- The number of labels. -/
def size (x : Extras) : Nat := x.entries.length

def isEmpty (x : Extras) : Bool := x.entries.isEmpty

/-- Whether two records keep the same runs under the same labels, in
whatever order. -/
def same (x y : Extras) : Bool :=
  x.size == y.size &&
    x.entries.all fun (label, tokens) => y.entries.lookup label == some tokens

end Extras

end Lossless
