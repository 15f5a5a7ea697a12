import Lossless.Cst.Basic
import Lossless.Proofs.Walk
import Mathlib.Data.List.Infix

/-!
# Traversals as recursions on the constructors

`recurse` is the plain recursion on a syntax tree or a concrete tree: the result
for a node is made of the results for its children, field by field, and a
virtual node is looked through. The stack of a walk does the same
(`asRecursion_of_eq`): its steps are nested as the recursion nests them, `depth`
is the length of the longest way to a leaf, and a fold does what the recursion
does in any state and with any failure. What `leave` is called with is written
down by `logging`.
-/

namespace Lossless

/-! ### Recursion on trees -/

namespace Ast

variable {γ : Type}

mutual

/-- The result for a node, made of the node and the results for its children in
the order of its fields. -/
def recurse (f : Ast → List γ → γ) : Ast → γ
  | .node type fields => f (.node type fields) (recurseFields f fields)

/-- The results for the nodes in some fields. -/
def recurseFields (f : Ast → List γ → γ) : List (String × Value) → List γ
  | [] => []
  | (_, value) :: fields => recurseValue f value ++ recurseFields f fields

/-- The results for the nodes in a value. -/
def recurseValue (f : Ast → List γ → γ) : Value → List γ
  | .node child => [recurse f child]
  | .list items => recurseItems f items
  | .absent | .scalar _ => []

/-- The results for the trees of a list. -/
def recurseItems (f : Ast → List γ → γ) : List Ast → List γ
  | [] => []
  | item :: items => recurse f item :: recurseItems f items

end

theorem recurseItems_eq_map (f : Ast → List γ → γ) (items : List Ast) :
    recurseItems f items = items.map (recurse f) := by
  induction items with
  | nil => rfl
  | cons item items ih => rw [recurseItems, ih, List.map_cons]

theorem recurseValue_eq_map (f : Ast → List γ → γ) (value : Value) :
    recurseValue f value = value.nodes.map (recurse f) := by
  cases value with
  | node child => rfl
  | absent => rfl
  | list items => exact recurseItems_eq_map f items
  | scalar s => rfl

theorem recurseFields_eq_map (f : Ast → List γ → γ)
    (fields : List (String × Value)) :
    recurseFields f fields =
      (fields.flatMap fun field => field.2.nodes).map (recurse f) := by
  induction fields with
  | nil => rfl
  | cons field fields ih =>
    rw [recurseFields, recurseValue_eq_map, ih, List.flatMap_cons,
      List.map_append]

theorem recurse_eq (f : Ast → List γ → γ) (t : Ast) :
    recurse f t = f t ((Branching.children t).map (recurse f)) := by
  obtain ⟨type, fields⟩ := t
  rw [recurse, recurseFields_eq_map]
  rfl

end Ast

namespace Cst

variable {γ : Type}

mutual

/-- The result for a node, made of the node and the results for its children in
the order of its fields. -/
def recurse (f : Cst → List γ → γ) : Cst → γ
  | .node type fields extras =>
    f (.node type fields extras) (recurseFields f fields)

/-- The results for the nodes in some fields. -/
def recurseFields (f : Cst → List γ → γ) : List (String × Value) → List γ
  | [] => []
  | (_, value) :: fields => recurseValue f value ++ recurseFields f fields

/-- The results for the nodes in a value; a virtual node has
those that it wraps. -/
def recurseValue (f : Cst → List γ → γ) : Value → List γ
  | .node child => [recurse f child]
  | .list items => recurseItems f items
  | .virtual _ (some value) _ => recurseValue f value
  | .virtual _ none _ | .absent | .scalar _ => []

/-- The results for the trees of a list. -/
def recurseItems (f : Cst → List γ → γ) : List Cst → List γ
  | [] => []
  | item :: items => recurse f item :: recurseItems f items

end

theorem recurseItems_eq_map (f : Cst → List γ → γ) (items : List Cst) :
    recurseItems f items = items.map (recurse f) := by
  induction items with
  | nil => rfl
  | cons item items ih => rw [recurseItems, ih, List.map_cons]

/-- By induction along a chain of virtual nodes. -/
theorem recurseValue_eq_map (f : Cst → List γ → γ) (value : Value) :
    recurseValue f value = value.nodes.map (recurse f) := by
  fun_induction Value.nodes value with
  | case1 child => rfl
  | case2 items => exact recurseItems_eq_map f items
  | case3 role value extras ih => exact ih
  | case4 | case5 | case6 => rfl

theorem recurseFields_eq_map (f : Cst → List γ → γ)
    (fields : List (String × Value)) :
    recurseFields f fields =
      (fields.flatMap fun field => field.2.nodes).map (recurse f) := by
  induction fields with
  | nil => rfl
  | cons field fields ih =>
    rw [recurseFields, recurseValue_eq_map, ih, List.flatMap_cons,
      List.map_append]

theorem recurse_eq (f : Cst → List γ → γ) (t : Cst) :
    recurse f t = f t ((Branching.children t).map (recurse f)) := by
  obtain ⟨type, fields, extras⟩ := t
  rw [recurse, recurseFields_eq_map]
  rfl

end Cst

namespace Branching

variable {α : Type} [Branching α]

/-! ### Depth -/

/-- A way from a node down to a leaf, with all the nodes that it passes. -/
inductive WayDown : α → List α → Prop
  | leaf {t : α} (h : children t = []) : WayDown t [t]
  | step {t c : α} {way : List α} (hc : c ∈ children t) (h : WayDown c way) :
      WayDown t (t :: way)

/-- The greatest of the depths of some trees. -/
def deepest (ts : List α) : Nat := (ts.map depth).foldr max 0

theorem depth_le_deepest {ts : List α} {t : α} (h : t ∈ ts) :
    depth t ≤ deepest ts := by
  induction ts with
  | nil => exact absurd h List.not_mem_nil
  | cons u ts ih =>
    rw [deepest, List.map_cons, List.foldr_cons]
    rcases List.mem_cons.1 h with rfl | h
    · exact Nat.le_max_left ..
    · exact Nat.le_trans (ih h) (Nat.le_max_right ..)

theorem exists_depth_eq_deepest {ts : List α} (h : ts ≠ []) :
    ∃ t ∈ ts, depth t = deepest ts := by
  induction ts with
  | nil => exact absurd rfl h
  | cons t ts ih =>
    rw [deepest, List.map_cons, List.foldr_cons]
    by_cases hts : ts = []
    · subst hts
      exact ⟨t, List.mem_cons_self, (Nat.max_zero _).symm⟩
    · obtain ⟨u, hu, hdepth⟩ := ih hts
      rcases Nat.le_total (depth t) (deepest ts) with hle | hle
      · exact ⟨u, List.mem_cons_of_mem _ hu,
          hdepth.trans (Nat.max_eq_right hle).symm⟩
      · exact ⟨t, List.mem_cons_self, (Nat.max_eq_left hle).symm⟩

/-- A walk of a tree leaves as many nodes open as there were, and goes as deep
below them as the tree is. -/
def Surveys (t : α) : Prop :=
  ∀ now reached, (events t).foldl Level.step ⟨now, reached⟩ =
    ⟨now, max reached (now + depth t)⟩

theorem foldl_flatMap_events {ts : List α} (h : ∀ t ∈ ts, Surveys t)
    (now reached : Nat) :
    (ts.flatMap events).foldl Level.step ⟨now + 1, max reached (now + 1)⟩ =
      ⟨now + 1, max reached (now + 1 + deepest ts)⟩ := by
  induction ts generalizing reached with
  | nil => rfl
  | cons t ts ih =>
    obtain ⟨ht, hts⟩ := List.forall_mem_cons.1 h
    have hmax : max (max reached (now + 1)) (now + 1 + depth t) =
        max (max reached (now + 1 + depth t)) (now + 1) := by omega
    have hdeepest : deepest (t :: ts) = max (depth t) (deepest ts) := rfl
    rw [List.flatMap_cons, List.foldl_append, ht, hmax, ih hts, hdeepest]
    congr 1
    omega

theorem foldl_events_of_surveys {t : α} (h : ∀ c ∈ children t, Surveys c)
    (now reached : Nat) :
    (events t).foldl Level.step ⟨now, reached⟩ =
      ⟨now, max reached (now + (1 + deepest (children t)))⟩ := by
  rw [events_eq, List.foldl_cons, List.foldl_append, Level.step,
    foldl_flatMap_events h, List.foldl_cons, List.foldl_nil, Level.step]
  simp only [Nat.add_sub_cancel, Nat.add_assoc]

theorem depth_of_surveys {t : α} (h : ∀ c ∈ children t, Surveys c) :
    depth t = 1 + deepest (children t) := by
  rw [depth, foldl_events_of_surveys h]
  simp only [Nat.zero_max, Nat.zero_add]

theorem surveys (t : α) : Surveys t := by
  induction t using induction with
  | step t ih =>
    intro now reached
    rw [foldl_events_of_surveys ih, depth_of_surveys ih]

theorem depth_eq (t : α) : depth t = 1 + deepest (children t) :=
  depth_of_surveys fun c _ => surveys c

/-- No way down passes more nodes than the depth of the tree. -/
theorem length_le_depth {t : α} {way : List α} (h : WayDown t way) :
    way.length ≤ depth t := by
  induction h with
  | @leaf t h =>
    rw [depth_eq, List.length_singleton]
    exact Nat.le_add_right ..
  | @step t c way hc h ih =>
    have hle := depth_le_deepest hc
    rw [depth_eq, List.length_cons]
    omega

/-- Some way down passes as many nodes as the depth of the tree: it always goes
on to a deepest child. -/
theorem exists_wayDown (t : α) :
    ∃ way, WayDown t way ∧ way.length = depth t := by
  induction t using induction with
  | step t ih =>
    by_cases hleaf : children t = []
    · refine ⟨[t], .leaf hleaf, ?_⟩
      rw [depth_eq, hleaf]
      rfl
    · obtain ⟨c, hc, hdeepest⟩ := exists_depth_eq_deepest hleaf
      obtain ⟨way, hway, hlength⟩ := ih c hc
      refine ⟨t :: way, .step hc hway, ?_⟩
      rw [depth_eq, List.length_cons, hlength, hdeepest, Nat.add_comm]

/-! ### Calls -/

section Calls

variable {ε β : Type} (leave : α → List β → Except ε β)

/-- A leave function that writes down what it is called with. -/
def logging (t : α) (values : List β) :
    ExceptT ε (StateM (List (α × List β))) β := do
  modify (· ++ [(t, values)])
  ExceptT.mk (pure (leave t values))

/-- The calls that are due for some nodes, when the last of them has a result or
fails: every node has its turn, with the values of its children, and only the
last call fails, in which case nodes may be left over. -/
structure Calls {γ : Type} (nodes : List α) (calls : List (α × List β))
    (result : Except ε γ) : Prop where
  inOrder : calls.map Prod.fst <+: nodes
  complete : ∀ v, result = .ok v → calls.map Prod.fst = nodes
  values : ∀ call ∈ calls, (children call.1).mapM (fold leave) = .ok call.2
  fine : ∀ v, result = .ok v → ∀ call ∈ calls, ∃ w, leave call.1 call.2 = .ok w
  failed : ∀ e, result = .error e →
    ∃ front u values, calls = front ++ [(u, values)] ∧
      leave u values = .error e ∧
      ∀ call ∈ front, ∃ w, leave call.1 call.2 = .ok w

namespace Calls

variable {leave} {γ δ : Type} {nodes nodes' : List α}
  {calls calls' : List (α × List β)}

theorem nil (v : γ) : Calls leave [] [] (.ok v : Except ε γ) where
  inOrder := List.nil_prefix
  complete _ _ := rfl
  values _ h := absurd h List.not_mem_nil
  fine _ _ _ h := absurd h List.not_mem_nil
  failed _ h := nomatch h

theorem single {t : α} {values : List β}
    (h : (children t).mapM (fold leave) = .ok values) :
    Calls leave [t] [(t, values)] (leave t values) where
  inOrder := List.prefix_rfl
  complete _ _ := rfl
  values call hcall := by
    obtain rfl := List.mem_singleton.1 hcall
    exact h
  fine v hv call hcall := by
    obtain rfl := List.mem_singleton.1 hcall
    exact ⟨v, hv⟩
  failed e he := ⟨[], t, values, rfl, he, fun _ h => absurd h List.not_mem_nil⟩

/-- After a failure nothing more is called. -/
theorem stop {e : ε} (h : Calls leave nodes calls (.error e : Except ε γ))
    (nodes' : List α) :
    Calls leave (nodes ++ nodes') calls (.error e : Except ε δ) where
  inOrder := h.inOrder.trans (List.prefix_append ..)
  complete _ hv := nomatch hv
  values := h.values
  fine _ hv := nomatch hv
  failed e' he := h.failed e' (by cases he; rfl)

theorem append {v : γ} {result : Except ε δ}
    (h : Calls leave nodes calls (.ok v : Except ε γ))
    (h' : Calls leave nodes' calls' result) :
    Calls leave (nodes ++ nodes') (calls ++ calls') result where
  inOrder := by
    rw [List.map_append, h.complete v rfl]
    exact (List.prefix_append_right_inj _).2 h'.inOrder
  complete w hw := by rw [List.map_append, h.complete v rfl, h'.complete w hw]
  values call hcall :=
    (List.mem_append.1 hcall).elim (h.values call) (h'.values call)
  fine w hw call hcall :=
    (List.mem_append.1 hcall).elim (h.fine v rfl call) (h'.fine w hw call)
  failed e he := by
    obtain ⟨front, u, values, rfl, hfails, hfront⟩ := h'.failed e he
    refine ⟨calls ++ front, u, values, (List.append_assoc ..).symm, hfails,
      fun call hcall => ?_⟩
    exact (List.mem_append.1 hcall).elim (h.fine v rfl call) (hfront call)

end Calls

/-- A computation that logs does what another one does, and its log grows by the
calls that are due for some nodes. -/
def Logs {γ : Type} (x : ExceptT ε (StateM (List (α × List β))) γ)
    (result : Except ε γ) (nodes : List α) : Prop :=
  ∀ log, ∃ calls, x.run.run log = (result, log ++ calls) ∧
    Calls leave nodes calls result

variable {γ δ : Type}

theorem Logs.pure (v : γ) : Logs leave (Pure.pure v) (.ok v) [] :=
  fun log => ⟨[], by rw [List.append_nil]; rfl, .nil v⟩

variable {leave} {nodes nodes' : List α}

theorem Logs.bind {x : ExceptT ε (StateM (List (α × List β))) γ}
    {y : Except ε γ} {k : γ → ExceptT ε (StateM (List (α × List β))) δ}
    {k' : γ → Except ε δ} (h : Logs leave x y nodes)
    (hk : ∀ v, y = .ok v → Logs leave (k v) (k' v) nodes') :
    Logs leave (x >>= k) (y >>= k') (nodes ++ nodes') := by
  intro log
  obtain ⟨calls, hrun, hcalls⟩ := h log
  cases y with
  | error e =>
    refine ⟨calls, ?_, hcalls.stop nodes'⟩
    rw [ExceptT.run_bind, StateT.run_bind, hrun]
    rfl
  | ok v =>
    obtain ⟨calls', hrun', hcalls'⟩ := hk v rfl (log ++ calls)
    refine ⟨calls ++ calls', ?_, hcalls.append hcalls'⟩
    rw [ExceptT.run_bind, StateT.run_bind, hrun, ← List.append_assoc]
    exact hrun'

theorem logs_logging {t : α} {values : List β}
    (h : (children t).mapM (fold leave) = .ok values) :
    Logs leave (logging leave t values) (leave t values) [t] :=
  fun _ => ⟨[(t, values)], rfl, .single h⟩

end Calls

/-! ### Walks and recursions -/

/-- What a walk does with a tree is what a recursion on trees does with it. -/
structure AsRecursion (recurse : ∀ γ : Type, (α → List γ → γ) → α → γ) (t : α) :
    Prop where
  /-- The steps of the children stand in order between entering and
  leaving a node. -/
  events : events t =
    recurse _ (fun t parts => .enter t :: (parts.flatten ++ [.leave t])) t
  /-- The depth is the number of nodes on a longest way down to a leaf. -/
  depth : (∃ way, WayDown t way ∧ way.length = depth t) ∧
    ∀ way, WayDown t way → way.length ≤ depth t
  /-- A fold evaluates the children in order and then the node, in any state and
  with any failure. -/
  fold : ∀ {ε σ β : Type} (leave : α → List β → ExceptT ε (StateM σ) β),
    fold leave t = recurse _ (fun t parts => parts.mapM id >>= leave t) t
  /-- A fold calls its function on every node once, children before parents,
  until a call fails. -/
  calls : ∀ {ε β : Type} (leave : α → List β → Except ε β), ∃ calls,
    (Branching.fold (logging leave) t).run.run [] =
      (Branching.fold leave t, calls) ∧
    Calls leave (recurse _ (fun t parts => parts.flatten ++ [t]) t) calls
      (Branching.fold leave t)
  /-- The steps do not end before the root is left, so the loop of a fold
  always returns. -/
  closes : Closes 0 (Branching.events t)

/-- Two functions that satisfy the same equation of a recursion are equal. -/
theorem eq_of_recursion {γ : Type} {f : α → List γ → γ} {g g' : α → γ}
    (hg' : ∀ t, g' t = f t ((children t).map g'))
    (hg : ∀ t, g t = f t ((children t).map g)) (t : α) : g t = g' t := by
  induction t using induction with
  | step t ih => rw [hg, hg', List.map_congr_left ih]

section

variable {recurse : ∀ γ : Type, (α → List γ → γ) → α → γ}
variable
  (hrecurse : ∀ γ f t, recurse γ f t = f t ((children t).map (recurse γ f)))
include hrecurse

/-- By induction over the tree, a fold calls its function on the nodes as the
recursion lists them. -/
theorem logs_fold {ε β : Type} (leave : α → List β → Except ε β) (t : α) :
    Logs leave (fold (logging leave) t) (fold leave t)
      (recurse _ (fun t parts => parts.flatten ++ [t]) t) := by
  have hlist :
      ∀ ts : List α,
        (∀ t ∈ ts, Logs leave (fold (logging leave) t) (fold leave t)
          (recurse _ (fun t parts => parts.flatten ++ [t]) t)) →
        Logs leave (ts.mapM (fold (logging leave))) (ts.mapM (fold leave))
          (ts.map (recurse _ fun t parts => parts.flatten ++ [t])).flatten := by
    intro ts hts
    induction ts with
    | nil => exact .pure leave []
    | cons t ts ih =>
      obtain ⟨ht, hts⟩ := List.forall_mem_cons.1 hts
      rw [List.mapM_cons, List.mapM_cons, List.map_cons, List.flatten_cons]
      refine ht.bind fun v _ => ?_
      have hrest := (ih hts).bind fun vs _ => Logs.pure leave (v :: vs)
      rwa [List.append_nil] at hrest
  induction t using induction with
  | step t ih =>
    rw [fold_eq, fold_eq, hrecurse]
    exact (hlist _ ih).bind fun values h => logs_logging h

/-- A walk does what a recursion does that gets the results for the
children in order. -/
theorem asRecursion_of_eq (t : α) : AsRecursion recurse t where
  events := by
    refine eq_of_recursion (hrecurse _ _) (fun t => ?_) t
    rw [events_eq, List.flatMap_def]
  depth := ⟨exists_wayDown t, fun _ => length_le_depth⟩
  fold leave := by
    refine eq_of_recursion (hrecurse _ _) (fun t => ?_) t
    rw [fold_eq, List.mapM_map]
    rfl
  calls leave := by
    obtain ⟨calls, hrun, hcalls⟩ := logs_fold hrecurse leave t []
    exact ⟨calls, hrun, hcalls⟩
  closes := closes_events t

end

/-- The traversals of syntax trees and of concrete trees, whose virtual nodes
are looked through, are recursions on the trees. -/
theorem traversals_eq_recursion :
    (∀ t : Ast, AsRecursion (fun _ => Ast.recurse) t) ∧
      ∀ t : Cst, AsRecursion (fun _ => Cst.recurse) t :=
  ⟨asRecursion_of_eq fun _ => Ast.recurse_eq,
    asRecursion_of_eq fun _ => Cst.recurse_eq⟩

end Branching

end Lossless
