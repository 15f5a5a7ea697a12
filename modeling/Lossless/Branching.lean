/-!
# Walking a tree

A type is branching when each of its members has fields that hold children, in
order, and a size that counts the nodes below. A walk keeps a cursor for every
open node on a stack of its own, so a tree of any depth can be walked:
`Walk.next?` enters or leaves one node, `events` are all its steps, `depth`
counts the open nodes, and `fold` works out a value from the values of the
children. A fold returns when the root is left; that the steps do not end before
is part of its type (`closes_events`).
-/

namespace Lossless

/-- What the members of a list weigh together. -/
def total {α : Type} (weight : α → Nat) : List α → Nat
  | [] => 0
  | a :: as => weight a + total weight as

@[simp] theorem total_nil {α : Type} (weight : α → Nat) :
    total weight [] = 0 := rfl

@[simp] theorem total_cons {α : Type} (weight : α → Nat) (a : α) (as : List α) :
    total weight (a :: as) = weight a + total weight as := rfl

@[simp] theorem total_append {α : Type} (weight : α → Nat) (as bs : List α) :
    total weight (as ++ bs) = total weight as + total weight bs := by
  induction as with
  | nil => simp
  | cons a as ih => simp [ih, Nat.add_assoc]

@[simp] theorem total_map {α β : Type} (weight : β → Nat) (f : α → β)
    (as : List α) :
    total weight (as.map f) = total (fun a => weight (f a)) as := by
  induction as with
  | nil => rfl
  | cons a as ih => simp [ih]

/-- Trees: a node has children in its fields, and no node lies below itself. -/
class Branching (α : Type) where
  /-- The children in each field of a node, in the order of the fields. -/
  held : α → List (List α)
  /-- The number of nodes of a tree. -/
  size : α → Nat
  size_eq_held : ∀ t, size t = 1 + total size (held t).flatten

namespace Branching

variable {α : Type} [Branching α]

/-- The children in a field, counted from zero; behind the last field
there is nothing. -/
def fieldChildren? (t : α) (field : Nat) : Option (List α) := (held t)[field]?

/-- The children of a node in the order of its fields. -/
def children (t : α) : List α := (held t).flatten

theorem size_eq (t : α) : size t = 1 + total size (children t) := size_eq_held t

/-! ### Steps -/

/-- A step of a walk. -/
inductive Event (α : Type) where
  | enter (node : α)
  | leave (node : α)
  deriving DecidableEq, Repr

/-- An open node, with the field that the walk has come to and the item in
it that is next. -/
structure Cursor (α : Type) where
  node : α
  field : Nat
  item : Nat

namespace Cursor

/-- The node has just been entered. -/
def enter (t : α) : Cursor α := ⟨t, 0, 0⟩

/-- The next child of an open node, and the cursor behind it. A field without
further items is passed over. -/
def next? (c : Cursor α) : Option (α × Cursor α) :=
  match _h : fieldChildren? c.node c.field with
  | none => none
  | some items =>
    match items[c.item]? with
    | some child => some (child, { c with item := c.item + 1 })
    | none => next? { c with field := c.field + 1, item := 0 }
termination_by (held c.node).length - c.field
decreasing_by
  obtain ⟨hfield, -⟩ := List.getElem?_eq_some_iff.1 _h
  omega

/-- The children that are still to be entered. -/
def waiting (c : Cursor α) : List α :=
  match (held c.node).drop c.field with
  | [] => []
  | items :: others => items.drop c.item ++ others.flatten

theorem waiting_enter (t : α) : (enter t).waiting = children t := by
  rw [waiting, enter, List.drop_zero, children]
  cases held t <;> rfl

/-- A cursor moves past the first of the children that wait, and stands still
when none does. -/
theorem next?_cases (c : Cursor α) :
    (c.next? = none ∧ c.waiting = []) ∨
      ∃ child c', c.next? = some (child, c') ∧
        c'.node = c.node ∧ c.waiting = child :: c'.waiting := by
  fun_induction next? c with
  | case1 c h =>
    refine .inl ⟨rfl, ?_⟩
    rw [waiting, List.drop_eq_nil_of_le (List.getElem?_eq_none_iff.1 h)]
  | case2 c items h child hchild =>
    obtain ⟨hfield, rfl⟩ := List.getElem?_eq_some_iff.1 h
    obtain ⟨hitem, rfl⟩ := List.getElem?_eq_some_iff.1 hchild
    refine .inr ⟨_, _, rfl, rfl, ?_⟩
    rw [waiting, waiting, List.drop_eq_getElem_cons hfield]
    simp only
    rw [List.drop_eq_getElem_cons hitem, List.cons_append]
  | case3 c items h hitem ih =>
    obtain ⟨hfield, rfl⟩ := List.getElem?_eq_some_iff.1 h
    have hskip :
        c.waiting = waiting { c with field := c.field + 1, item := 0 } := by
      rw [waiting, waiting, List.drop_eq_getElem_cons hfield]
      simp only [List.drop_eq_nil_of_le (List.getElem?_eq_none_iff.1 hitem),
        List.nil_append, List.drop_zero]
      cases (held c.node).drop (c.field + 1) <;> rfl
    rw [hskip]
    exact ih

end Cursor

/-- A walk on its way: the open nodes, the innermost first, and the root
until it is entered. -/
structure Walk (α : Type) where
  stack : List (Cursor α)
  root : Option α

namespace Walk

/-- The walk of a tree before its first step. -/
def start (t : α) : Walk α := ⟨[], some t⟩

def enter (w : Walk α) (t : α) : Event α × Walk α :=
  (.enter t, { w with stack := .enter t :: w.stack })

/-- The next step of a walk, and the walk behind it. The innermost node is left
when no child of it waits. -/
def next? (w : Walk α) : Option (Event α × Walk α) :=
  match w.stack with
  | [] => w.root.map (enter ⟨[], none⟩)
  | c :: outer =>
    match c.next? with
    | some (child, c') => some (enter ⟨c' :: outer, w.root⟩ child)
    | none => some (.leave c.node, ⟨outer, w.root⟩)

theorem next?_nil (root : Option α) :
    next? ⟨[], root⟩ = root.map fun t => (.enter t, ⟨[.enter t], none⟩) := rfl

theorem next?_none {c : Cursor α} (h : c.next? = none) (outer : List (Cursor α))
    (root : Option α) :
    next? ⟨c :: outer, root⟩ = some (.leave c.node, ⟨outer, root⟩) := by
  rw [next?]
  simp only [h]

theorem next?_some {c c' : Cursor α} {child : α}
    (h : c.next? = some (child, c')) (outer : List (Cursor α))
    (root : Option α) :
    next? ⟨c :: outer, root⟩ =
      some (.enter child, ⟨.enter child :: c' :: outer, root⟩) := by
  rw [next?]
  simp only [h]
  rfl

/-- The number of steps that are still to be taken. -/
def work (w : Walk α) : Nat :=
  total (fun c => 1 + 2 * total size c.waiting) w.stack +
    2 * total size w.root.toList

theorem work_of_next? {w w' : Walk α} {e : Event α}
    (h : w.next? = some (e, w')) : w.work = 1 + w'.work := by
  obtain ⟨stack, root⟩ := w
  cases stack with
  | nil =>
    rw [next?_nil, Option.map_eq_some_iff] at h
    obtain ⟨t, rfl, he⟩ := h
    cases he
    simp only [work, total_nil, total_cons, Cursor.waiting_enter,
      Option.toList, size_eq t]
    omega
  | cons c outer =>
    rcases c.next?_cases with ⟨hnone, hwaiting⟩ |
      ⟨child, c', hsome, -, hwaiting⟩
    · rw [next?_none hnone] at h
      cases h
      simp only [work, total_nil, total_cons, hwaiting]
      omega
    · rw [next?_some hsome] at h
      cases h
      simp only [work, total_cons, hwaiting, Cursor.waiting_enter,
        size_eq child]
      omega

/-- The steps of a walk to its end, behind those already taken, latest first. -/
def stepsBehind (taken : List (Event α)) (w : Walk α) : List (Event α) :=
  match _h : w.next? with
  | none => taken.reverse
  | some (e, w') => stepsBehind (e :: taken) w'
termination_by w.work
decreasing_by
  rw [work_of_next? _h]
  omega

/-- The steps of a walk to its end. -/
def steps (w : Walk α) : List (Event α) := stepsBehind [] w

theorem stepsBehind_none {w : Walk α} (h : w.next? = none)
    (taken : List (Event α)) : stepsBehind taken w = taken.reverse := by
  rw [stepsBehind]
  split <;> simp_all

theorem stepsBehind_some {w w' : Walk α} {e : Event α}
    (h : w.next? = some (e, w')) (taken : List (Event α)) :
    stepsBehind taken w = stepsBehind (e :: taken) w' := by
  rw [stepsBehind]
  split <;> simp_all

theorem stepsBehind_append (taken base : List (Event α)) (w : Walk α) :
    stepsBehind (taken ++ base) w = base.reverse ++ stepsBehind taken w := by
  fun_induction stepsBehind taken w with
  | case1 taken w h => rw [stepsBehind_none h, List.reverse_append]
  | case2 taken w e w' h ih => rw [stepsBehind_some h, ← ih, List.cons_append]

theorem steps_of_none {w : Walk α} (h : w.next? = none) : w.steps = [] :=
  stepsBehind_none h []

theorem steps_of_some {w w' : Walk α} {e : Event α}
    (h : w.next? = some (e, w')) : w.steps = e :: w'.steps := by
  rw [steps, stepsBehind_some h]
  exact stepsBehind_append [] [e] w'

end Walk

/-- The steps of a walk: a node is entered, then its children are walked in
order, then it is left. -/
def events (t : α) : List (Event α) := (Walk.start t).steps

/-- The node that a step enters, if it enters one. -/
def Event.entered? : Event α → Option α
  | .enter t => some t
  | .leave _ => none

/-- The nodes of a tree in the order in which a walk enters them. -/
def nodes (t : α) : List α := (events t).filterMap Event.entered?

/-- How many nodes are open, and how many have been at most. -/
structure Level where
  now : Nat
  deepest : Nat

/-- The count after one more step. -/
def Level.step (l : Level) : Event α → Level
  | .enter _ => ⟨l.now + 1, max l.deepest (l.now + 1)⟩
  | .leave _ => ⟨l.now - 1, l.deepest⟩

/-- The number of nodes on the longest path from the root down. -/
def depth (t : α) : Nat := ((events t).foldl Level.step ⟨0, 0⟩).deepest

/-! ### Values -/

/-- With so many nodes open, some steps go on until the outermost of them is
left, and perhaps beyond. With no node open any step that leaves one will do. -/
def Closes : Nat → List (Event α) → Prop
  | _, [] => False
  | opened, .enter _ :: steps => Closes (opened + 1) steps
  | 0, .leave _ :: _ => True
  | 1, .leave _ :: _ => True
  | opened + 2, .leave _ :: steps => Closes (opened + 1) steps

/-- The steps of a walk do not end before the outermost open node is left. -/
theorem closes_steps (c : Cursor α) (outer : List (Cursor α))
    (root : Option α) :
    Closes (outer.length + 1) (Walk.steps ⟨c :: outer, root⟩) := by
  rcases c.next?_cases with ⟨hnone, -⟩ | ⟨child, c', hsome, -, -⟩
  · have hnext := Walk.next?_none hnone outer root
    rw [Walk.steps_of_some hnext]
    cases outer with
    | nil => trivial
    | cons c' outer =>
      have : Walk.work ⟨c' :: outer, root⟩ <
          Walk.work ⟨c :: c' :: outer, root⟩ := by
        rw [Walk.work_of_next? hnext]
        omega
      exact closes_steps c' outer root
  · have hnext := Walk.next?_some hsome outer root
    rw [Walk.steps_of_some hnext]
    have : Walk.work ⟨.enter child :: c' :: outer, root⟩ <
        Walk.work ⟨c :: outer, root⟩ := by
      rw [Walk.work_of_next? hnext]
      omega
    exact closes_steps (.enter child) (c' :: outer) root
termination_by Walk.work ⟨c :: outer, root⟩

/-- A walk ends by leaving its root. -/
theorem closes_events (t : α) : Closes 0 (events t) := by
  have hnext : (Walk.start t).next? = some (.enter t, ⟨[.enter t], none⟩) := rfl
  rw [events, Walk.steps_of_some hnext]
  exact closes_steps (.enter t) [] none

section Fold

variable {m : Type → Type} [Monad m] {β : Type}

/-- Goes through the steps of a walk with the values found so far: for every
open node, the innermost first, those of its children that have been left,
latest first. When a node is left, its value goes to the node around it; the
value of the outermost one is returned. -/
@[specialize]
def foldSteps (leave : α → List β → m β) :
    (values : List (List β)) →
      (steps : List (Event α)) → Closes values.length steps → m β
  | values, .enter _ :: steps, h => foldSteps leave ([] :: values) steps h
  | [], .leave t :: _, _ => leave t []
  | [own], .leave t :: _, _ => leave t own.reverse
  | own :: around :: outer, .leave t :: steps, h => do
    let value ← leave t own.reverse
    foldSteps leave ((value :: around) :: outer) steps h

/-- The value of a tree, worked out from the leaves up: `leave` gets a node and
the values of its children in order. It may fail, which ends the walk, and may
have other effects. -/
@[specialize]
def fold (leave : α → List β → m β) (t : α) : m β :=
  foldSteps leave [] (events t) (closes_events t)

/-- A fold that cannot fail. -/
def foldPure (leave : α → List β → β) (t : α) : β :=
  match fold (m := Except Empty) (fun t vs => .ok (leave t vs)) t with
  | .ok v => v
  | .error e => nomatch e

end Fold

/-- Every node, children before parents, with the number of nodes that each of
its children heads. -/
def childSizes (t : α) : List (α × List Nat) :=
  (foldPure (β := Nat × List (α × List Nat)) (fun t parts =>
    let heads := parts.map Prod.fst
    (1 + total id heads, (parts.map Prod.snd).flatten ++ [(t, heads)])) t).2

end Branching

end Lossless
