import Lossless.Proofs.Placing
import Mathlib.Data.List.Flatten

/-!
# The frames that a tree needs

To build a tree, a frame is opened for each of its nodes, and one for each
virtual slot in the schedule of the node (`frames`). A node reaches its children
through the slots of its schedule: since these place each declared field once,
they need no more frames than the node and its children do (`subperm_frames`),
and just as many where all slots can be filled (`perm_frames`).
-/

namespace Lossless

namespace Cst

namespace Loop

open Build (Context)
open Schema (placed? placedNames)

variable (s : Schema)

/-- The virtual slots in the schedule of a node type, by their roles. -/
def rolesOf (type : String) : List VirtualRole :=
  match s.entry? (.node type) with
  | some entry => entry.schedule.roles
  | none => []

/-- The frames of a node itself: one for the node, and one for
each virtual slot. -/
def nodeFrames (u : Ast) : List (Owner × Ast) :=
  (.node u.type, u) :: (rolesOf s u.type).map fun role => (.virtual role, u)

/-- The frames of all nodes of a tree. -/
def frames (t : Ast) :
    List (Owner × Ast) := (Branching.nodes t).flatMap (nodeFrames s)

theorem frames_eq (t : Ast) :
    frames s t = nodeFrames s t ++ t.children.flatMap (frames s) := by
  rw [frames, Branching.nodes_eq, List.flatMap_cons, List.flatMap_assoc]
  rfl

/-- The number of frames: one for each node, and one for each virtual slot
of its schedule. -/
theorem length_frames (t : Ast) :
    (frames s t).length =
      total (fun u => 1 + (rolesOf s u.type).length) (Branching.nodes t) := by
  rw [frames]
  induction Branching.nodes t with
  | nil => rfl
  | cons u nodes ih =>
    rw [List.flatMap_cons, List.length_append, ih, total_cons, nodeFrames,
      List.length_cons, List.length_map, Nat.add_comm 1]

/-! ### By slots -/

/-- The frames of the nodes in a field. -/
def fieldFrames (u : Ast) (name : String) : List (Owner × Ast) :=
  match u.field? name with
  | some value => value.nodes.flatMap (frames s)
  | none => []

/-- The frames that are opened to fill a slot. -/
def slotFrames (u : Ast) (slot : Slot) : List (Owner × Ast) :=
  (slot.role?.toList.map fun role => (.virtual role, u)) ++
    (placed? s.roles slot).toList.flatMap fun d => fieldFrames s u d.name

variable {s} {u : Ast}

theorem slotFrames_of_field {slot : Slot} {d : FieldDef}
    (h : slot.field? = some d) :
    slotFrames s u slot = fieldFrames s u d.name := by
  have hrole : slot.role? = none := by
    cases slot with
    | virtual role => cases h
    | _ => rfl
  rw [slotFrames, hrole, Schema.placed_of_role _ hrole, h]
  exact List.append_nil _

theorem slotFrames_virtual (role : VirtualRole) :
    slotFrames s u (.virtual role) =
      (.virtual role, u) ::
        (Schema.wrapped? s.roles role).toList.flatMap fun (d : FieldDef) =>
          fieldFrames s u d.name := rfl

theorem fieldFrames_of_value {name : String} {value : Ast.Value}
    (h : u.field? name = some value) :
    fieldFrames s u name = value.nodes.flatMap (frames s) := by
  rw [fieldFrames, h]

theorem fieldFrames_of_notMem {name : String} (h : name ∉ u.fieldNames) :
    fieldFrames s u name = [] := by
  rw [fieldFrames, Ast.field?, Named.lookup_eq_none.2 h]

/-- The slots of a schedule open a frame for each virtual node, and those of the
fields that they place. -/
theorem flatMap_slotFrames_perm (schedule : Schedule) :
    (schedule.flatMap (slotFrames s u)).Perm
      ((schedule.roles.map fun role => (.virtual role, u)) ++
        (placedNames s.roles schedule).flatMap (fieldFrames s u)) := by
  have hsplit := List.flatMap_append_perm schedule (fun slot =>
    slot.role?.toList.map fun role => ((.virtual role, u) : Owner × Ast))
    fun slot => (placed? s.roles slot).toList.flatMap fun d =>
      fieldFrames s u d.name
  have hroles : (schedule.flatMap fun slot =>
    slot.role?.toList.map fun role => ((.virtual role, u) : Owner × Ast)) =
      schedule.roles.map fun role => (.virtual role, u) := by
    rw [Schedule.roles, List.filterMap_eq_flatMap_toList, List.map_flatMap]
  have hfields : (schedule.flatMap fun slot =>
    (placed? s.roles slot).toList.flatMap fun d => fieldFrames s u d.name) =
      (placedNames s.roles schedule).flatMap (fieldFrames s u) := by
    rw [placedNames, List.flatMap_map, List.filterMap_eq_flatMap_toList,
      List.flatMap_assoc]
  rw [hroles, hfields] at hsplit
  exact hsplit.symm

/-- The frames of some fields are those of the values that are found
under their names. -/
theorem flatMap_fieldFrames (names : List String) :
    names.flatMap (fieldFrames s u) =
      ((names.filterMap fun name => u.fields.lookup name).flatMap
        Ast.Value.nodes).flatMap (frames s) := by
  induction names with
  | nil => rfl
  | cons name names ih =>
    rw [List.flatMap_cons, ih, fieldFrames, Ast.field?, List.filterMap_cons]
    cases u.fields.lookup name with
    | none => rfl
    | some value => rw [List.flatMap_cons, List.flatMap_append]

theorem children_eq_flatMap (u : Ast) :
    u.children = (u.fields.map Prod.snd).flatMap Ast.Value.nodes := by
  rw [Ast.children, List.flatMap_map]

/-! ### By nodes -/

variable {entry : SchemaEntry} {declared : List FieldDef}

/-- The names that are placed and declared are placed once. -/
theorem nodup_placedNames_declared
    (h : Schema.NodeFits s.grammar s.strategy s.roles u.type declared entry) :
    ((placedNames s.roles entry.schedule).filter
      (· ∈ declared.map FieldDef.name)).Nodup := by
  rw [placedNames, List.filter_map]
  refine Schema.nodup_names fun d hd => ?_
  obtain ⟨hplaced, hname⟩ := List.mem_filter.1 hd
  obtain ⟨d', hd', hsame⟩ := List.mem_map.1 (of_decide_eq_true hname)
  -- the places with this name are all among the declared ones, and there
  -- is just one of them
  have honce := h.once d' hd'
  rw [hsame] at honce
  have hself : d ∈
      (entry.schedule.filterMap (placed? s.roles)).filter (·.name = d.name) :=
    List.mem_filter.2 ⟨hplaced, decide_eq_true rfl⟩
  rw [honce, List.mem_singleton] at hself
  subst hself
  rw [List.filter_filter, ← honce]
  refine List.filter_congr fun d' _ => ?_
  by_cases hsame : d'.name = d.name
  · have hdeclared : ∃ d' ∈ declared, d'.name = d.name := ⟨d, hd', rfl⟩
    simp [hsame, hdeclared]
  · simp [hsame]

theorem subperm_flatMap {α β : Type} (f : α → List β) {as bs : List α}
    (h : as.Subperm bs) : (as.flatMap f).Subperm (bs.flatMap f) := by
  obtain ⟨cs, hperm, hsub⟩ := h
  exact ⟨cs.flatMap f, hperm.flatMap_right f, hsub.flatMap f⟩

theorem rolesOf_eq (hentry : s.entry? (.node u.type) = some entry) :
    rolesOf s u.type = entry.schedule.roles := by
  rw [rolesOf, hentry]

/-- The slots of a node need no more frames than its virtual nodes and
its children do. -/
theorem subperm_frames (hentry : s.entry? (.node u.type) = some entry)
    (hfits : Schema.NodeFits s.grammar s.strategy s.roles u.type declared entry)
    (hnames : u.fieldNames = declared.map FieldDef.name) :
    ((.node u.type, u) :: entry.schedule.flatMap (slotFrames s u)).Subperm
      (frames s u) := by
  rw [frames_eq, nodeFrames, rolesOf_eq hentry, List.cons_append,
    List.subperm_cons]
  refine (flatMap_slotFrames_perm _).subperm.trans
    ((List.subperm_append_left _).2 ?_)
  have hdeclared :
      (placedNames s.roles entry.schedule).flatMap (fieldFrames s u) =
        ((placedNames s.roles entry.schedule).filter
          (· ∈ declared.map FieldDef.name)).flatMap (fieldFrames s u) := by
    induction placedNames s.roles entry.schedule with
    | nil => rfl
    | cons name names ih =>
      by_cases hname : name ∈ declared.map FieldDef.name
      · rw [List.filter_cons_of_pos (by simpa using hname), List.flatMap_cons,
          List.flatMap_cons, ih]
      · rw [List.filter_cons_of_neg (by simpa using hname), List.flatMap_cons,
          ih, fieldFrames_of_notMem (hnames ▸ hname), List.nil_append]
  rw [hdeclared, flatMap_fieldFrames, children_eq_flatMap]
  exact subperm_flatMap _ (subperm_flatMap _
    (Named.lookups_subperm u.fields (nodup_placedNames_declared hfits)))

/-- Where the slots of a node place its fields, each once, they need just the
frames of its virtual nodes and its children. -/
theorem perm_frames (hentry : s.entry? (.node u.type) = some entry)
    (hnames : u.fieldNames = declared.map FieldDef.name)
    (hplaced : (entry.schedule.filterMap (placed? s.roles)).Perm declared)
    (hnodup : (placedNames s.roles entry.schedule).Nodup) :
    ((.node u.type, u) :: entry.schedule.flatMap (slotFrames s u)).Perm
      (frames s u) := by
  rw [frames_eq, nodeFrames, rolesOf_eq hentry, List.cons_append,
    List.perm_cons]
  refine (flatMap_slotFrames_perm _).trans (List.Perm.append_left _ ?_)
  have hperm :
      (placedNames s.roles entry.schedule).Perm (u.fields.map Prod.fst) := by
    have h := hplaced.map FieldDef.name
    rwa [← hnames] at h
  have hvalues :
      (u.fields.map Prod.fst).filterMap (fun name => u.fields.lookup name) =
        u.fields.map Prod.snd := by
    rw [List.filterMap_map, ← List.filterMap_eq_map]
    exact List.filterMap_congr fun field hfield =>
      Named.lookup_of_mem (hperm.nodup_iff.1 hnodup) hfield
  refine (hperm.flatMap_right _).trans (List.Perm.of_eq ?_)
  rw [flatMap_fieldFrames, hvalues, children_eq_flatMap]

end Loop

end Cst

end Lossless
