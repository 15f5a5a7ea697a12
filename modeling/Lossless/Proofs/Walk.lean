import Lossless.Branching
import Lossless.Outcome

/-!
# Walks as recursions

A walk keeps the open nodes on a list of its own. Here it is shown to do what a
plain recursion on the tree would do: the steps between entering and leaving a
node are the walks of its children, one after another (`events_eq`), so a node
comes before the nodes of its children (`nodes_eq`), and `fold` works out the
values of the children before that of their parent (`fold_eq`, and `foldPure_eq`
where nothing fails). Induction over a tree of any type with children is
`Branching.induction`.
-/

namespace Lossless

theorem le_total {α : Type} (weight : α → Nat) {a : α} {as : List α}
    (h : a ∈ as) : weight a ≤ total weight as := by
  induction as with
  | nil => exact absurd h List.not_mem_nil
  | cons b as ih =>
    rw [total_cons]
    rcases List.mem_cons.1 h with rfl | h
    · exact Nat.le_add_right ..
    · exact Nat.le_trans (ih h) (Nat.le_add_left ..)

namespace Branching

variable {α : Type} [Branching α]

theorem size_lt_of_mem_children {t c : α} (h : c ∈ children t) :
    size c < size t := by
  have hc : size c ≤ total size (children t) := le_total size h
  rw [size_eq t]
  omega

/-- What holds of a node whenever it holds of its children
holds of every tree. -/
theorem induction {motive : α → Prop}
    (step : ∀ t, (∀ c ∈ children t, motive c) → motive t) (t : α) : motive t :=
  step t fun c hc =>
    have := size_lt_of_mem_children hc
    induction step c
termination_by size t

/-! ### Steps -/

/-- The rest of a walk from an open node on: its waiting children are walked,
then it is left. -/
theorem steps_open (c : Cursor α) (outer : List (Cursor α)) (root : Option α) :
    Walk.steps ⟨c :: outer, root⟩ =
      c.waiting.flatMap events ++ .leave c.node ::
        Walk.steps ⟨outer, root⟩ := by
  rcases c.next?_cases with ⟨hnone, hwaiting⟩ |
    ⟨child, c', hsome, hnode, hwaiting⟩
  · rw [Walk.steps_of_some (Walk.next?_none hnone outer root), hwaiting]
    rfl
  · have hchild :
        total size (Cursor.enter child).waiting < total size c.waiting := by
      rw [hwaiting, Cursor.waiting_enter, total_cons, size_eq child]
      omega
    have hothers : total size c'.waiting < total size c.waiting := by
      rw [hwaiting, total_cons, size_eq child]
      omega
    -- the walk of the first child is the same recursion with nothing around it
    have hwalk : events child = .enter child ::
        ((Cursor.enter child).waiting.flatMap events ++ [.leave child]) := by
      have hstart : (Walk.start child).next? =
          some (.enter child, ⟨[.enter child], none⟩) := rfl
      have hend : Walk.steps (α := α) ⟨[], none⟩ = [] := Walk.steps_of_none rfl
      rw [events, Walk.steps_of_some hstart, steps_open (.enter child), hend]
      rfl
    rw [Walk.steps_of_some (Walk.next?_some hsome outer root),
      steps_open (.enter child), steps_open c' outer, hwaiting,
      List.flatMap_cons, hwalk, hnode]
    simp [Cursor.enter]
termination_by total size c.waiting
decreasing_by all_goals assumption

theorem events_eq (t : α) :
    events t = .enter t :: ((children t).flatMap events ++ [.leave t]) := by
  have hstart : (Walk.start t).next? = some (.enter t, ⟨[.enter t], none⟩) :=
    rfl
  have hend : Walk.steps (α := α) ⟨[], none⟩ = [] := Walk.steps_of_none rfl
  rw [events, Walk.steps_of_some hstart, steps_open, hend, Cursor.waiting_enter]
  rfl

theorem nodes_eq (t : α) : nodes t = t :: (children t).flatMap nodes := by
  have h : (fun c : α => (events c).filterMap Event.entered?) = nodes := rfl
  rw [nodes, events_eq, List.filterMap_cons, List.filterMap_append,
    List.filterMap_flatMap, h]
  simp [Event.entered?]

theorem mem_nodes_self (t : α) : t ∈ nodes t := by
  rw [nodes_eq]
  exact List.mem_cons_self

theorem mem_nodes_of_mem_children {t c u : α} (hc : c ∈ children t)
    (hu : u ∈ nodes c) : u ∈ nodes t := by
  rw [nodes_eq]
  exact List.mem_cons_of_mem _ (List.mem_flatMap.2 ⟨c, hc, hu⟩)

/-- Each node but the first is a child of another one. -/
theorem exists_parent {t u : α} (h : u ∈ (nodes t).tail) :
    ∃ v ∈ nodes t, u ∈ children v := by
  induction t using induction with
  | step t ih =>
    rw [nodes_eq, List.tail_cons] at h
    obtain ⟨c, hc, h⟩ := List.mem_flatMap.1 h
    rw [nodes_eq] at h
    rcases List.mem_cons.1 h with rfl | h
    · exact ⟨t, mem_nodes_self t, hc⟩
    · obtain ⟨v, hv, hu⟩ := ih c hc (by rwa [nodes_eq])
      exact ⟨v, mem_nodes_of_mem_children hc hv, hu⟩

/-- A step of a walk with something else in the place of its node. -/
def Event.map {β : Type} (f : α → β) : Event α → Event β
  | .enter t => .enter (f t)
  | .leave t => .leave (f t)

theorem map_nodes {β : Type} (f : α → β) (t : α) :
    (nodes t).map f =
      ((events t).map (Event.map f)).filterMap Event.entered? := by
  rw [nodes, List.map_filterMap, List.filterMap_map]
  congr 1
  funext e
  cases e <;> rfl

/-- Where the images of the children of a node are the children of its image,
the images of the nodes of a tree are the nodes of its image. -/
theorem nodes_map {β : Type} [Branching β] {f : α → β}
    (h : ∀ t, children (f t) = (children t).map f) (t : α) :
    nodes (f t) = (nodes t).map f := by
  induction t using Branching.induction with
  | step t ih =>
    rw [nodes_eq, nodes_eq, h, List.map_cons, List.flatMap_map,
      List.map_flatMap, List.flatMap_def, List.flatMap_def,
      List.map_congr_left ih]

/-! ### Values -/

/-- Behind the walks of some trees it is left to what follows whether the
outermost open node is left. -/
theorem closes_flatMap_append {ts : List α} {opened : Nat}
    {steps : List (Event α)} :
    Closes (opened + 1) (ts.flatMap events ++ steps) ↔
      Closes (opened + 1) steps := by
  match ts with
  | [] => rfl
  | t :: ts =>
    have ht : total size (children t) < total size (t :: ts) := by
      rw [total_cons, size_eq t]
      omega
    have hts : total size ts < total size (t :: ts) := by
      rw [total_cons, size_eq t]
      omega
    rw [List.flatMap_cons, events_eq]
    simp only [List.cons_append, List.append_assoc, List.nil_append]
    -- the first tree is entered with one more node open, and left
    -- again before the others
    have hfirst :
        Closes (opened + 1 + 1) ((children t).flatMap events ++ .leave t ::
          (ts.flatMap events ++ steps)) ↔
          Closes (opened + 1) (ts.flatMap events ++ steps) :=
      closes_flatMap_append
    exact hfirst.trans closes_flatMap_append
termination_by total size ts
decreasing_by all_goals assumption

section Fold

variable {m : Type → Type} [Monad m] {β : Type} (leave : α → List β → m β)

omit [Branching α] in
/-- Only the steps matter, not the way in which they are written. -/
theorem foldSteps_congr {values : List (List β)} {steps steps' : List (Event α)}
    (he : steps = steps') (h : Closes values.length steps)
    (h' : Closes values.length steps') :
    foldSteps leave values steps h = foldSteps leave values steps' h' := by
  subst he
  rfl

omit [Branching α] in
theorem foldSteps_enter {values : List (List β)} {t : α}
    {steps : List (Event α)} (h : Closes values.length (.enter t :: steps))
    (h' : Closes ([] :: values).length steps) :
    foldSteps leave values (.enter t :: steps) h =
      foldSteps leave ([] :: values) steps h' := by
  rw [foldSteps]

omit [Branching α] in
theorem foldSteps_leave {own around : List β}
    {outer : List (List β)} {t : α} {steps : List (Event α)}
    (h : Closes (own :: around :: outer).length (.leave t :: steps))
    (h' : ∀ v, Closes ((v :: around) :: outer).length steps) :
    foldSteps leave (own :: around :: outer) (.leave t :: steps) h =
        leave t own.reverse >>=
      fun v => foldSteps leave ((v :: around) :: outer) steps (h' v) := by
  rw [foldSteps]

variable [LawfulMonad m]

/-- What a fold does on the way through a tree, inside a fold
of a larger one. -/
def FoldsWithin (t : α) : Prop :=
  ∀ (own : List β) (outer : List (List β)) (steps : List (Event α))
    (h : Closes (own :: outer).length (events t ++ steps))
    (h' : ∀ v, Closes ((v :: own) :: outer).length steps),
    foldSteps leave (own :: outer) (events t ++ steps) h = fold leave t >>=
    fun v => foldSteps leave ((v :: own) :: outer) steps (h' v)

theorem foldSteps_flatMap {ts : List α} (hts : ∀ t ∈ ts, FoldsWithin leave t)
    (own : List β) (outer : List (List β)) (steps : List (Event α))
    (h : Closes (own :: outer).length (ts.flatMap events ++ steps))
    (h' : ∀ vs : List β, Closes ((vs.reverse ++ own) :: outer).length steps) :
    foldSteps leave (own :: outer) (ts.flatMap events ++ steps) h =
        ts.mapM (fold leave) >>=
      fun vs => foldSteps leave ((vs.reverse ++ own) :: outer) steps
        (h' vs) := by
  induction ts generalizing own with
  | nil => rw [List.mapM_nil, pure_bind]; rfl
  | cons t ts ih =>
    obtain ⟨ht, hts⟩ := List.forall_mem_cons.1 hts
    have he : (t :: ts).flatMap events ++ steps =
        events t ++ (ts.flatMap events ++ steps) := by
      rw [List.flatMap_cons, List.append_assoc]
    have hbehind :
        ∀ v, Closes ((v :: own) :: outer).length (ts.flatMap events ++ steps) :=
      fun _ => closes_flatMap_append.2 (h' [])
    rw [foldSteps_congr leave he h (he ▸ h), ht own outer _ _ hbehind,
      List.mapM_cons, bind_assoc]
    refine bind_congr fun v => ?_
    rw [ih hts (v :: own) (hbehind v) fun _ => h' [], bind_assoc]
    refine bind_congr fun vs => ?_
    rw [pure_bind]
    simp only [List.reverse_cons, List.append_assoc, List.cons_append,
      List.nil_append]

theorem fold_eq_of_within {t : α} (h : ∀ c ∈ children t, FoldsWithin leave c) :
    fold leave t = (children t).mapM (fold leave) >>= leave t := by
  have hstart : Closes ([] : List (List β)).length (events t) := closes_events t
  have hsteps : Closes ([] : List (List β)).length
      (.enter t :: ((children t).flatMap events ++ [.leave t])) :=
    events_eq t ▸ hstart
  have hend : ∀ vs : List β, Closes [vs.reverse ++ []].length [Event.leave t] :=
    fun _ => trivial
  rw [fold, foldSteps_congr leave (events_eq t) hstart hsteps,
    foldSteps_enter leave hsteps hsteps,
    foldSteps_flatMap leave h [] [] [.leave t] hsteps hend]
  refine bind_congr fun vs => ?_
  rw [foldSteps, List.append_nil, List.reverse_reverse]

/-- Inside a larger tree, the fold of a tree hands its value to the
node around it. -/
theorem foldsWithin (t : α) : FoldsWithin leave t := by
  induction t using induction with
  | step t ih =>
    intro own outer steps h h'
    have he : events t ++ steps =
        .enter t :: ((children t).flatMap events ++ .leave t :: steps) := by
      rw [events_eq]
      simp
    have hsteps : Closes (own :: outer).length (.enter t ::
      ((children t).flatMap events ++ .leave t :: steps)) := he ▸ h
    have hend : ∀ vs : List β, Closes
        ((vs.reverse ++ []) :: own :: outer).length (.leave t :: steps) :=
      fun _ => closes_flatMap_append.1 hsteps
    rw [foldSteps_congr leave he h hsteps, foldSteps_enter leave hsteps hsteps,
      foldSteps_flatMap leave ih [] (own :: outer) _ hsteps hend,
      fold_eq_of_within leave ih, bind_assoc]
    refine bind_congr fun vs => ?_
    rw [foldSteps_leave leave (hend vs) h', List.append_nil,
      List.reverse_reverse]

/-- The children are folded in order, then the node itself gets their values. -/
theorem fold_eq (t : α) :
    fold leave t = (children t).mapM (fold leave) >>= leave t :=
  fold_eq_of_within leave fun c _ => foldsWithin leave c

end Fold

/-- A fold without failures works out the values of the children first. -/
theorem foldPure_eq {β : Type} (leave : α → List β → β) (t : α) :
    foldPure leave t = leave t ((children t).map (foldPure leave)) := by
  have hfold :
      ∀ u : α, fold (m := Except Empty) (fun t vs => .ok (leave t vs)) u =
        .ok (foldPure leave u) := by
    intro u
    rw [foldPure]
    split
    · assumption
    · rename_i e _
      exact e.elim
  have hmap : ∀ us : List α,
      us.mapM (fold (m := Except Empty) fun t vs => .ok (leave t vs)) =
      .ok (us.map (foldPure leave)) := by
    intro us
    induction us with
    | nil => rfl
    | cons u us ih =>
      rw [List.mapM_cons, hfold u, ih]
      rfl
  have h := hfold t
  rw [fold_eq, hmap, Outcome.ok_bind] at h
  exact (Except.ok.inj h).symm

end Branching

end Lossless
