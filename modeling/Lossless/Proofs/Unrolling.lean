import Lossless.Proofs.Mirroring
import Lossless.Proofs.Openings

/-!
# The loop builds what the recursion builds

The loop mirrors the recursion slot by slot: in a slot with a node or a list
it opens the frames of the children, which it builds as the recursion does
by induction over the tree, and in a slot with a virtual node the frame of
that node, in which no virtual node is nested. So it mirrors every node
(`mirrors_node`), and it ends with the tree or the error that `build`
returns (`loop_ends`).
-/

namespace Lossless

namespace Cst

namespace Loop

open Build (Context Frame Handed Child Parts VirtualBuilder)

variable {i : Input} {ρ σ : Type}

/-! ### Fields and children -/

/-- The fields of a node, ready to be built. -/
def partsOf (c : Context) (u : Ast) : Parts := ⟨u.type, Build.parts c u.fields⟩

theorem get_bind (c : Context) (u : Ast) (field : String)
    (k : Build.Part → Except CstError ρ) :
    ((partsOf c u).get field >>= k) = valueOf u field >>=
      fun value => k (Build.part c value) := by
  rw [Parts.get, partsOf, valueOf, Build.lookup_parts, Ast.field?]
  cases u.fields.lookup field <;> rfl

theorem scalar_partsOf (c : Context) (u : Ast) (field : String) :
    (partsOf c u).scalar field = scalarOf u field := by
  rw [Parts.scalar, get_bind, scalarOf]
  congr 1
  funext value
  cases value <;> rfl

theorem field_of_valueOf {u : Ast} {field : String} {value : Ast.Value}
    (h : valueOf u field = .ok value) : u.field? field = some value := by
  rw [valueOf] at h
  split at h
  · rename_i hvalue
    rw [hvalue, Except.ok.inj h]
  · cases h

theorem field_of_scalarOf {u : Ast} {field : String} {value : Scalar}
    (h : scalarOf u field = .ok value) :
    u.field? field = some (.scalar value) := by
  obtain ⟨found, hfound, h⟩ := Outcome.bind_eq_ok.1 h
  cases found with
  | scalar value' =>
    cases Except.ok.inj h
    exact field_of_valueOf hfound
  | _ => cases h

/-- A frame in front of a slot. -/
def Open.before (f : Frame) (node : Ast) (root : Bool) (slot : Nat) : Open :=
  ⟨f, node, root, slot, 0, none⟩

/-- To open a frame on top of another one, and go on until it is attached there,
is to build a child. -/
def Descends (i : Input) (owner : Owner) (node : Ast)
    (build : Option Handed → List SourceToken → Except CstError ρ)
    (built : ρ → Built × List SourceToken) (fs : List (Owner × Ast)) : Prop :=
  ∀ handed parent stack (land : ρ → Open) (meter : Meter),
    (∀ r, parent.attach (built r).1 = .ok (land r)) →
      Mirrors i meter.opened ((do
          let child ← start i owner node handed false
          return .inl ⟨parent :: stack, child⟩ : Metered (State ⊕ Cst)) meter)
        (build handed (i.tokens.drop meter.position))
          (fun r => (.inl ⟨stack, land r⟩, (built r).2)) fs

/-- The loop builds a node below another one. -/
def Builds (i : Input) (u : Ast) : Prop :=
  Descends i (.node u.type) u (Build.child i.context u).build
    (fun r => (.node r.1, r.2)) (frames i.schema u)

/-- The loop builds a virtual node below its owner. -/
def BuildsVirtual (i : Input) (u : Ast) (virtual : VirtualBuilder)
    (role : VirtualRole) : Prop :=
  Descends i (.virtual role) u (virtual role) (fun r =>
    (.virtual r.1 r.2.1, r.2.2))
    (slotFrames i.schema u (.virtual role))

variable {fs fs' : List (Owner × Ast)} {meter : Meter} {u : Ast}
  {stack : List Open}

theorem mirrors_descend {o : Open} {right : Element} {owner : Owner}
    {node : Ast} {build : Option Handed → List SourceToken → Except CstError ρ}
    {built : ρ → Built × List SourceToken} {k : Frame → ρ → Except CstError σ}
    {lands : Landing σ} (h : Descends i owner node build built fs)
    (land : Frame → ρ → Open)
    (hattach : ∀ f, f.schedule = o.frame.schedule →
      ∀ r, Open.attach { o with frame := f } (built r).1 = .ok (land f r))
    (hk : ∀ f r (meter' : Meter), f.schedule = o.frame.schedule →
      i.tokens.drop meter'.position = (built r).2 → Mirrors i meter'.opened
        (.ok (.inl ⟨stack, land f r⟩), meter') (k f r) lands fs') :
    Mirrors i meter.opened ((Sum.inl <$>
      descend i ⟨stack, o⟩ right owner node : Metered (State ⊕ Cst)) meter)
      (Build.gap i.context o.frame right (i.tokens.drop meter.position) >>=
        fun g =>
        build g.2.1 g.2.2 >>= k g.1) lands (fs ++ fs') := by
  rw [descend]
  simp only [map_bind, map_pure]
  refine mirrors_gap fun f handed meter' hbase => ?_
  have hschedule := schedule_of_base hbase
  exact (h handed { o with frame := f } stack (land f) meter'
    (hattach f hschedule)).bind fun r meter₁ _ hrest =>
    hk f r meter₁ hschedule hrest

theorem next_slot {s : State} {slot : Slot}
    (h : s.top.frame.schedule[s.top.slot]? = some slot) :
    next i (.ok (.inl s), meter) =
      (Sum.inl <$> fill i s slot : Metered (State ⊕ Cst)) meter := by
  simp only [next, turn, h]

/-- A frame goes past a slot with one node, which is attached there. -/
theorem mirrors_child {f : Frame} {root : Bool} {index : Nat} {slot : Slot}
    {field : String} {child : Ast} (hslot : f.schedule[index]? = some slot)
    (hfield : slot = .node field ∨ slot = .optional field)
    (hchild : Builds i child) :
    Mirrors i meter.opened
      ((Sum.inl <$> descend i ⟨stack, .before f u root index⟩ (.child index)
        (.node child.type) child : Metered (State ⊕ Cst)) meter)
      (Build.fillChild i.context (.child index) field f
        (Build.child i.context child) (i.tokens.drop meter.position))
      (fun r => (.inl ⟨stack, .before r.1 u root (index + 1)⟩, r.2))
      (frames i.schema child) := by
  rw [← List.append_nil (frames i.schema child)]
  refine mirrors_descend (o := .before f u root index) (k := fun f r =>
    .ok (f.addChild (.child index) field (.node r.1), r.2)) hchild
    (fun f r => .before (f.addChild (.child index) field (.node r.1)) u root
      (index + 1)) ?_ ?_
  · intro f' hschedule r
    have hslot' : f'.schedule[index]? = some slot := by
      rw [hschedule]; exact hslot
    rcases hfield with rfl | rfl <;>
      simp only [Open.attach, Open.before, hslot'] <;> rfl
  · intro f' r meter' _ hrest
    exact .here rfl hrest

/-! ### Lists -/

theorem mirrors_separate {o : Open} {separator : Option String}
    {lands : Landing ρ} {k : Frame → Metered (State ⊕ Cst)}
    {k' : Frame × List SourceToken → Except CstError ρ}
    (hk : ∀ f (meter' : Meter), f.schedule = o.frame.schedule →
      Mirrors i meter'.opened (k f meter')
        (k' (f, i.tokens.drop meter'.position)) lands fs) :
    Mirrors i meter.opened ((separate i o separator >>= k) meter)
      (Build.separate i.context o.slot separator o.item o.frame
          (i.tokens.drop meter.position) >>=
        k') lands fs := by
  obtain ⟨f, node, root, slot, item, list⟩ := o
  have hnone :
      Mirrors i meter.opened ((pure f >>= k : Metered (State ⊕ Cst)) meter)
        (.ok (f, i.tokens.drop meter.position) >>= k') lands fs := by
    rw [pure_bind, Outcome.ok_bind]
    exact hk f meter rfl
  cases separator with
  | none => exact hnone
  | some text =>
    cases item with
    | zero => exact hnone
    | succ previous =>
      exact mirrors_token fun f' meter' hbase =>
        hk f' meter' (schedule_of_base hbase)

/-- The next turn of a frame whose list has been begun. -/
theorem next_list {o : Open} {field : String} {separator : Option String}
    {items : List Ast}
    (hslot : o.frame.schedule[o.slot]? = some (.list field separator))
    (hlist : o.list = some field)
    (hvalue : valueOf o.node field = .ok (.list items)) :
    next i (.ok (.inl ⟨stack, o⟩), meter) = match items[o.item]? with
      | some item =>
        (separate i o separator >>=
          fun f => Sum.inl <$>
            descend i ⟨stack, { o with frame := f }⟩ (.item o.slot o.item)
              (.node item.type) item : Metered (State ⊕ Cst)) meter
      | none =>
        (.ok (.inl ⟨stack, .before o.frame o.node o.root (o.slot + 1)⟩),
          meter) := by
  have hbegin : o.begin field = o := by rw [Open.begin, hlist]
  rw [next_slot hslot, fill]
  simp only [map_bind]
  rw [Stateful.bind_of_ok (by rw [hvalue]; rfl)]
  simp only [hbegin]
  cases items[o.item]? with
  | none => rfl
  | some item => simp only [map_bind]

/-- A frame whose list has been begun goes past the items that are left,
and past the slot. -/
theorem mirrors_items {o : Open}
    {field : String} {separator : Option String} {all items : List Ast}
    (hslot : o.frame.schedule[o.slot]? = some (.list field separator))
    (hlist : o.list = some field)
    (hvalue : valueOf o.node field = .ok (.list all))
    (hitems : all.drop o.item = items)
    (hbuilds : ∀ item ∈ items, Builds i item) :
    Mirrors i meter.opened (next i (.ok (.inl ⟨stack, o⟩), meter))
      (Build.fillItems i.context o.slot field separator o.item o.frame
        (i.tokens.drop meter.position) (items.map (Build.child i.context)))
      (fun r => (.inl ⟨stack, .before r.1 o.node o.root (o.slot + 1)⟩, r.2))
      (items.flatMap (frames i.schema)) := by
  -- on the items that are left: behind each, the loop is back at the
  -- slot with the next one
  induction items generalizing o meter with
  | nil =>
    rw [next_list hslot hlist hvalue,
      List.getElem?_eq_none (List.drop_eq_nil_iff.1 hitems)]
    exact .here rfl rfl
  | cons item items ih =>
    obtain ⟨hitem, hothers⟩ :
        all[o.item]? = some item ∧ all.drop (o.item + 1) = items := by
      rw [← List.head?_drop, hitems, ← List.tail_drop, hitems]
      exact ⟨rfl, rfl⟩
    obtain ⟨hfirst, hrest⟩ := List.forall_mem_cons.1 hbuilds
    rw [next_list hslot hlist hvalue, hitem, List.map_cons,
      Build.fillItems_cons, List.flatMap_cons]
    refine mirrors_separate fun f meter₁ hschedule => ?_
    refine (mirrors_descend (o := { o with frame := f })
      (k := fun f r => Build.fillItems i.context o.slot field separator
        (o.item + 1) (f.addItem (.item o.slot o.item) field r.1) r.2
        (items.map (Build.child i.context)))
      hfirst
      (fun f r => { o with
        frame := f.addItem (.item o.slot o.item) field r.1,
        item := o.item + 1 })
      ?_ ?_ :)
    · intro f' hschedule' r
      have hslot' : f'.schedule[o.slot]? = some (.list field separator) := by
        rw [hschedule', hschedule, hslot]
      simp only [Open.attach, hslot', hlist]
    · intro f' r meter₂ hschedule' hmeter
      have hslot' : f'.schedule[o.slot]? = some (.list field separator) := by
        rw [hschedule', hschedule, hslot]
      rw [← hmeter]
      refine Mirrors.turn ?_
      exact ih (o := { o with
        frame := f'.addItem (.item o.slot o.item) field r.1,
        item := o.item + 1 })
        hslot' hlist hvalue hothers hrest

/-! ### Slots -/

/-- The loop goes past a slot as the recursion does. -/
def Passes (i : Input) (u : Ast) (virtual : VirtualBuilder)
    (slot : Slot) : Prop :=
  ∀ (stack : List Open) (f : Frame) (root : Bool) (index : Nat) (meter : Meter),
    f.schedule[index]? = some slot →
    Mirrors i meter.opened
      (next i (.ok (.inl ⟨stack, .before f u root index⟩), meter))
      (Build.fillSlot i.context (partsOf i.context u) virtual index slot f
        (i.tokens.drop meter.position))
      (fun r => (.inl ⟨stack, .before r.1 u root (index + 1)⟩, r.2))
      (slotFrames i.schema u slot)

variable {virtual : VirtualBuilder}

/-- A slot that opens no frame may fill a field without nodes. -/
theorem Mirrors.leaf {opened : List (Owner × Ast)} {moment : Moment}
    {step : Except CstError ρ} {lands : Landing ρ} {field : String}
    (h : Mirrors i opened moment step lands [])
    (hvalue : ∀ a, step = .ok a →
      ∃ value, u.field? field = some value ∧ value.nodes = []) :
    Mirrors i opened moment step lands (fieldFrames i.schema u field) := by
  refine h.recount (List.nil_sublist _).subperm fun a ha => ?_
  obtain ⟨value, hvalue, hnodes⟩ := hvalue a ha
  rw [fieldFrames_of_value hvalue, hnodes]
  exact .refl _

theorem passes_scalar (field : String) :
    Passes i u virtual (.scalar field) := by
  intro stack f root index meter hslot
  rw [next_slot hslot, fill, Build.fillSlot, scalar_partsOf,
    slotFrames_of_field rfl]
  simp only [map_bind]
  refine Mirrors.leaf (mirrors_lift fun value hvalue => ?_) fun a ha => ?_
  · cases value with
    | string text =>
      simp only [map_bind, map_pure]
      exact mirrors_token fun f' meter' _ => .here rfl rfl
    | _ => exact .failed _ _ _ _
  · obtain ⟨value, hvalue, -⟩ := Outcome.bind_eq_ok.1 ha
    exact ⟨.scalar value, field_of_scalarOf hvalue, rfl⟩

theorem passes_implied (field : String) :
    Passes i u virtual (.implied field) := by
  intro stack f root index meter hslot
  rw [next_slot hslot, fill, Build.fillSlot, scalar_partsOf,
    slotFrames_of_field rfl]
  simp only [map_bind, map_pure]
  refine Mirrors.leaf (mirrors_lift fun value hvalue => .here rfl rfl)
    fun a ha => ?_
  obtain ⟨value, hvalue, -⟩ := Outcome.bind_eq_ok.1 ha
  exact ⟨.scalar value, field_of_scalarOf hvalue, rfl⟩

theorem passes_token (text : String) : Passes i u virtual (.token text) := by
  intro stack f root index meter hslot
  rw [next_slot hslot, fill, Build.fillSlot, ← Outcome.bind_ok (Build.token ..)]
  simp only [map_bind, map_pure]
  exact mirrors_token fun f' meter' _ => .here rfl rfl

theorem passes_extras (label : Label) : Passes i u virtual (.extras label) := by
  intro stack f root index meter hslot
  rw [next_slot hslot, fill, Build.fillSlot]
  exact .here rfl rfl

/-- The nodes of a field are built with the children. -/
theorem builds_of_field {field : String} {value : Ast.Value}
    (hbuilds : ∀ c ∈ u.children, Builds i c)
    (hfield : u.field? field = some value) :
    ∀ c ∈ value.nodes, Builds i c := fun c hc =>
  hbuilds c (List.mem_flatMap.2 ⟨_, Named.mem_of_lookup hfield, hc⟩)

theorem passes_node {field : String} (hbuilds : ∀ c ∈ u.children, Builds i c) :
    Passes i u virtual (.node field) := by
  intro stack f root index meter hslot
  rw [next_slot hslot, fill, Build.fillSlot, get_bind, slotFrames_of_field rfl]
  simp only [map_bind]
  refine mirrors_lift fun value hvalue => ?_
  have hfield : u.field? field = some value := field_of_valueOf hvalue
  rw [fieldFrames_of_value hfield]
  cases value with
  | node child =>
    have hchild : Builds i child :=
      builds_of_field hbuilds hfield child (List.mem_singleton_self _)
    rw [Ast.Value.nodes, List.flatMap_singleton]
    exact mirrors_child hslot (.inl rfl) hchild
  | _ => exact .failed _ _ _ _

theorem passes_optional {field : String}
    (hbuilds : ∀ c ∈ u.children, Builds i c) :
    Passes i u virtual (.optional field) := by
  intro stack f root index meter hslot
  rw [next_slot hslot, fill, Build.fillSlot, get_bind, slotFrames_of_field rfl]
  simp only [map_bind]
  refine mirrors_lift fun value hvalue => ?_
  have hfield : u.field? field = some value := field_of_valueOf hvalue
  rw [fieldFrames_of_value hfield]
  cases value with
  | node child =>
    have hchild : Builds i child :=
      builds_of_field hbuilds hfield child (List.mem_singleton_self _)
    rw [Ast.Value.nodes, List.flatMap_singleton]
    exact mirrors_child hslot (.inr rfl) hchild
  | absent => exact .here rfl rfl
  | _ => exact .failed _ _ _ _

theorem passes_list {field : String} {separator : Option String}
    (hbuilds : ∀ c ∈ u.children, Builds i c) :
    Passes i u virtual (.list field separator) := by
  intro stack f root index meter hslot
  rw [Build.fillSlot, get_bind, slotFrames_of_field rfl]
  cases hvalue : valueOf u field with
  | error e =>
    rw [next_slot hslot, fill]
    simp only [map_bind]
    rw [Stateful.bind_of_error (e := e)
      (by rw [Metered.lift_apply]; exact congrArg (·, meter) hvalue)]
    exact .failed _ e _ _
  | ok value =>
    have hfield : u.field? field = some value := field_of_valueOf hvalue
    rw [fieldFrames_of_value hfield]
    cases value with
    | list items =>
      have hitems : ∀ item ∈ items, Builds i item :=
        builds_of_field hbuilds hfield
      -- the turn that begins the list is the turn of a frame whose
      -- list has been begun
      have hbegin : next i (.ok (.inl ⟨stack, .before f u root index⟩), meter) =
          next i (.ok (.inl ⟨stack, (Open.before f u root index).begin field⟩),
            meter) := by
        rw [next_slot hslot, next_slot hslot]
        rfl
      rw [hbegin, Outcome.ok_bind]
      simp only [Build.part, Build.children_eq_map]
      exact mirrors_items (o := (Open.before f u root index).begin field) hslot
        rfl hvalue rfl hitems
    | _ =>
      rw [next_slot hslot, fill]
      simp only [map_bind]
      rw [Stateful.bind_of_ok
        (by rw [Metered.lift_apply]; exact congrArg (·, meter) hvalue)]
      exact .failed _ _ _ _

theorem passes_virtual {role : VirtualRole}
    (h : BuildsVirtual i u virtual role) :
    Passes i u virtual (.virtual role) := by
  intro stack f root index meter hslot
  rw [next_slot hslot, fill, Build.fillSlot,
    ← List.append_nil (slotFrames i.schema u (.virtual role))]
  refine mirrors_descend (o := .before f u root index)
    (k := fun f r => .ok (f.addChild (.child index) r.1 r.2.1, r.2.2)) h
    (fun f r =>
      .before (f.addChild (.child index) r.1 r.2.1) u root (index + 1)) ?_ ?_
  · intro f' hschedule r
    have hslot' : f'.schedule[index]? = some (.virtual role) := by
      rw [hschedule]; exact hslot
    simp only [Open.attach, Open.before, hslot']
    rfl
  · intro f' r meter' _ hrest
    exact .here rfl hrest

/-- The loop goes past any slot as the recursion does, if it builds the children
and virtual nodes there. -/
theorem passes {slot : Slot} (hbuilds : ∀ c ∈ u.children, Builds i c)
    (hvirtual : ∀ role, slot = .virtual role → BuildsVirtual i u virtual role) :
    Passes i u virtual slot := by
  cases slot with
  | extras label => exact passes_extras label
  | token text => exact passes_token text
  | scalar field => exact passes_scalar field
  | implied field => exact passes_implied field
  | node field => exact passes_node hbuilds
  | optional field => exact passes_optional hbuilds
  | list field separator => exact passes_list hbuilds
  | virtual role => exact passes_virtual (hvirtual role rfl)

/-- The loop goes past the slots from one on as the recursion does. -/
theorem mirrors_slots {f : Frame} {root : Bool} (index : Nat) (meter : Meter)
    {slots : Schedule} (hslots : f.schedule.drop index = slots)
    (h : ∀ slot ∈ slots, Passes i u virtual slot) :
    Mirrors i meter.opened (.ok (.inl ⟨stack, .before f u root index⟩), meter)
      (Build.fillSlots i.context (partsOf i.context u) virtual index f
        (i.tokens.drop meter.position) slots)
      (fun r => (.inl ⟨stack, .before r.1 u root (index + slots.length)⟩, r.2))
      (slots.flatMap (slotFrames i.schema u)) := by
  induction slots generalizing f index meter with
  | nil => exact .here rfl rfl
  | cons slot slots ih =>
    obtain ⟨hslot, hothers⟩ : f.schedule[index]? = some slot ∧
        f.schedule.drop (index + 1) = slots := by
      rw [← List.head?_drop, hslots, ← List.tail_drop, hslots]
      exact ⟨rfl, rfl⟩
    obtain ⟨hfirst, hrest⟩ := List.forall_mem_cons.1 h
    rw [Build.fillSlots, List.flatMap_cons]
    refine (Mirrors.turn (hfirst stack f root index meter hslot)).bind
      fun r meter' hr hmeter => ?_
    have hbase : base r.1 = base f := base_fills (Build.fillSlot_eq_ok hr)
    have hschedule : r.1.schedule.drop (index + 1) = slots := by
      rw [schedule_of_base hbase, hothers]
    rw [List.length_cons, Nat.add_comm slots.length, ← Nat.add_assoc]
    have hfollows := ih (index + 1) meter' hschedule hrest
    rw [hmeter] at hfollows
    exact hfollows

/-! ### Nodes -/

/-- Behind its last slot a frame is finished, and what has become of
it is handed on. -/
theorem next_close {f : Frame} {slot : Nat} (h : f.schedule[slot]? = none) :
    next i (.ok (.inl ⟨stack, .before f u false slot⟩), meter) =
      (finish i.schema f >>= ascend f.owner stack, meter) := by
  have hslot : (Open.before f u false
    slot).frame.schedule[(Open.before f u false slot).slot]? = none := h
  simp only [next, turn, hslot]
  rfl

theorem next_close_root {f : Frame} {slot : Nat}
    (h : f.schedule[slot]? = none) :
    next i (.ok (.inl ⟨stack, .before f u true slot⟩), meter) =
      (gap i f .stop >>=
        fun stored => Metered.lift (finish i.schema stored.1 >>=
          ascend stored.1.owner stack) : Metered (State ⊕ Cst)) meter := by
  have hslot : (Open.before f u true
    slot).frame.schedule[(Open.before f u true slot).slot]? = none := h
  simp only [next, turn, hslot]
  rw [close, if_pos (show (Open.before f u true slot).root = true from rfl),
    bind_map_left]
  rfl

/-- A virtual node wraps one field, whose frames are all that its slots open. -/
theorem frames_of_role {s : Schema} {role : VirtualRole} {entry : SchemaEntry}
    {name : String} (hfits : Schema.RoleFits s.strategy role entry)
    (hname : entry.schedule.filterMap Slot.field? = [⟨name, role.shape⟩]) :
    (entry.schedule.flatMap (slotFrames s u)).Perm (fieldFrames s u name) := by
  have hperm := flatMap_slotFrames_perm (s := s) (u := u) entry.schedule
  rw [hfits.noRoles, hfits.placedNames hname] at hperm
  simpa using hperm

/-- The loop opens a frame, goes past its slots and comes to its end as the
recursion does. -/
theorem mirrors_frame {owner : Owner} {handed : Option Handed} {root : Bool}
    {k : Frame × List SourceToken → Except CstError ρ} {lands : Landing ρ}
    (hpasses : ∀ f, Build.Opened i.context owner handed root f →
      ∀ slot ∈ f.schedule, Passes i u virtual slot)
    (hcount : ∀ f, Build.Opened i.context owner handed root f →
      (f.schedule.flatMap (slotFrames i.schema u)).Perm fs)
    (hk : ∀ f slot (meter' : Meter), f.owner = owner →
      f.schedule[slot]? = none →
      Mirrors i meter'.opened
        (next i (.ok (.inl ⟨stack, .before f u root slot⟩), meter'))
        (k (f, i.tokens.drop meter'.position)) lands []) :
    Mirrors i meter.opened ((do
        let o ← start i owner u handed root
        return .inl ⟨stack, o⟩ : Metered (State ⊕ Cst)) meter)
      (Build.openFrame i.context owner handed root >>= fun f =>
        Build.fillSlots i.context (partsOf i.context u) virtual 0 f
            (i.tokens.drop meter.position) f.schedule >>=
          k)
      lands ((owner, u) :: fs) := by
  refine mirrors_start fun f meter₁ hopened hposition => ?_
  rw [← hposition]
  have hall : (f.schedule.flatMap (slotFrames i.schema u) ++ []).Perm fs := by
    rw [List.append_nil]
    exact hcount f hopened
  refine Mirrors.recount ((mirrors_slots 0 meter₁ rfl (hpasses f hopened)).bind
    fun r meter₂ hr hrest => ?_)
    hall.subperm fun _ _ => hall
  have hbase : base r.1 = base f := base_fillSlots hr
  have hend : r.1.schedule[0 + f.schedule.length]? = none := by
    rw [schedule_of_base hbase, Nat.zero_add]
    exact List.getElem?_eq_none (Nat.le_refl _)
  refine Mirrors.turn ?_
  rw [← show (r.1, i.tokens.drop meter₂.position) = r from Prod.ext rfl hrest]
  exact hk r.1 _ meter₂ ((owner_of_base hbase).trans hopened.owner_eq) hend

/-- The loop builds a virtual node as the recursion does, since no virtual node
is nested in it. -/
theorem builds_virtual (hsound : i.schema.Sound)
    (hbuilds : ∀ c ∈ u.children, Builds i c) (role : VirtualRole) :
    BuildsVirtual i u
      (Build.virtualNode i.context (partsOf i.context u)) role := by
  intro handed parent stack land meter hattach
  rw [slotFrames_virtual, Build.virtualNode]
  refine mirrors_frame (fun f hopened slot hslot => ?_) (fun f hopened => ?_)
    fun f slot meter' howner hend => ?_
  · obtain ⟨entry, hentry, hschedule⟩ := hopened.entry
    have hfits : Schema.RoleFits i.schema.strategy role entry :=
      hsound.role role entry hentry
    rw [hschedule] at hslot
    exact passes hbuilds fun role' hrole =>
      absurd (hrole ▸ hslot) (hfits.notMem_virtual role')
  · obtain ⟨entry, hentry, hschedule⟩ := hopened.entry
    have hfits : Schema.RoleFits i.schema.strategy role entry :=
      hsound.role role entry hentry
    obtain ⟨name, hwrapped, hname⟩ := hfits.wrappedField?
    have hlookup : i.schema.roles.lookup role = some entry := hentry
    rw [hschedule, Schema.wrapped?, hlookup, Option.bind_some, hwrapped,
      Option.map_some, Option.toList_some, List.flatMap_singleton]
    exact frames_of_role hfits hname
  · rw [next_close hend, finish, howner]
    -- what the frame has become is attached to the frame around it
    have hland :
        ∀ name value,
          ascend (.virtual role) (parent :: stack) (.virtual name value) =
          .ok (.inl ⟨stack,
            land (name, value, i.tokens.drop meter'.position)⟩) := by
      intro name value
      rw [ascend, hattach (name, value, i.tokens.drop meter'.position)]
      rfl
    simp only
    cases hlast : f.fields.getLast? with
    | none => exact .failed _ _ _ _
    | some field =>
      obtain ⟨name, value⟩ := field
      cases value with
      | list items =>
        cases items with
        | nil | cons =>
          simp only [Outcome.ok_bind, hland]
          exact .here rfl rfl
      | _ =>
        simp only [Outcome.ok_bind, hland]
        exact .here rfl rfl

/-- A frame of a node whose slots have been filled becomes the node,
which is handed on. -/
theorem mirrors_finish {f : Frame} {type : String}
    (howner : f.owner = .node type) (meter : Meter)
    (reached : Cst × List SourceToken → State ⊕ Cst)
    (hascend : ∀ r, ascend (.node type) stack (.node r.1) = .ok (reached r)) :
    Mirrors i meter.opened (finish i.schema f >>= ascend f.owner stack, meter)
      (Build.orderFields i.context.schema.grammar type f.fields >>=
        fun fields =>
        .ok (Cst.node type fields f.extras, i.tokens.drop meter.position))
      (fun r => (reached r, r.2)) [] := by
  have hschema : i.context.schema = i.schema := rfl
  rw [finish, howner, hschema]
  simp only
  cases Build.orderFields i.schema.grammar type f.fields with
  | error e => exact .failed _ _ _ _
  | ok fields =>
    simp only [Outcome.ok_bind, pure, Except.pure]
    rw [hascend (Cst.node type fields f.extras, i.tokens.drop meter.position)]
    exact .here rfl rfl

/-- What an accepted schema has for a node that fits its grammar. -/
structure Described (i : Input) (u : Ast) (declared : List FieldDef)
    (entry : SchemaEntry) : Prop where
  declares : i.schema.grammar.fields? u.type = some declared
  names : u.fieldNames = declared.map FieldDef.name
  covers : i.schema.entry? (.node u.type) = some entry
  fits : Schema.NodeFits i.schema.grammar i.schema.strategy i.schema.roles
    u.type declared entry

theorem exists_described (hsound : i.schema.Sound)
    (hconforms : i.schema.grammar.Conforms u) :
    ∃ declared entry, Described i u declared entry := by
  cases hconforms with
  | @node type fields declared hdeclared hnames _ _ =>
    obtain ⟨entry, hentry⟩ := hsound.covers _ declared hdeclared
    obtain ⟨declared', hdeclared', hfits⟩ := hsound.node _ entry hentry
    obtain rfl : declared = declared' :=
      Option.some.inj (hdeclared.symm.trans hdeclared')
    exact ⟨declared, entry, hdeclared, hnames, hentry, hfits⟩

namespace Described

variable {declared : List FieldDef} {entry : SchemaEntry}
  {handed : Option Handed} {root : Bool}

theorem schedule_eq (h : Described i u declared entry) {f : Frame}
    (hopened : Build.Opened i.context (.node u.type) handed root f) :
    f.schedule = entry.schedule := by
  obtain ⟨entry', hentry', hschedule⟩ := hopened.entry
  rw [hschedule, Option.some.inj (hentry'.symm.trans h.covers)]

/-- Where a node is built, its slots have placed each of its fields once. -/
theorem perm_frames (h : Described i u declared entry) (hsound : i.schema.Sound)
    {tokens : List SourceToken} {built : Cst × List SourceToken}
    (hnode : Build.node i.context (partsOf i.context u) root handed tokens =
      .ok built) :
    ((.node u.type, u) :: entry.schedule.flatMap (slotFrames i.schema u)).Perm
      (frames i.schema u) := by
  obtain ⟨f, f₁, -, tokens₁, -, hopened, hfill, -⟩ := Build.node_eq_ok hnode
  rw [h.schedule_eq hopened] at hfill
  obtain ⟨hplaced, hnodup⟩ := Build.nodup_placedNames (p := partsOf i.context u)
    hsound h.covers h.declares ((Build.names_parts ..).trans h.names) hfill
  exact Loop.perm_frames h.covers h.names hplaced hnodup

end Described

/-- From the moment on at which a node is opened, the loop builds it as the
recursion does. -/
theorem mirrors_node (meter : Meter) {root : Bool} {handed : Option Handed}
    (hsound : i.schema.Sound)
    (hconforms : i.schema.grammar.Conforms u) (hbuilds : ∀ c ∈ u.children,
      Builds i c)
    (reached : Cst × List SourceToken → State ⊕ Cst)
    (hascend : ∀ r, ascend (.node u.type) stack (.node r.1) = .ok (reached r)) :
    Mirrors i meter.opened ((do
        let o ← start i (.node u.type) u handed root
        return .inl ⟨stack, o⟩ : Metered (State ⊕ Cst)) meter)
      (Build.node i.context (partsOf i.context u) root handed
        (i.tokens.drop meter.position))
      (fun r => (reached r, r.2)) (frames i.schema u) := by
  obtain ⟨declared, entry, hdescribed⟩ := exists_described hsound hconforms
  refine Mirrors.recount ?_
    (subperm_frames hdescribed.covers hdescribed.fits hdescribed.names)
    fun built hnode => hdescribed.perm_frames hsound hnode
  rw [Build.node]
  refine mirrors_frame (fun f _ slot _ =>
    passes hbuilds fun role _ => builds_virtual hsound hbuilds role)
    (fun f hopened => hdescribed.schedule_eq hopened ▸ .refl _)
    fun f slot meter' howner hend => ?_
  cases root with
  | false =>
    rw [next_close hend]
    exact mirrors_finish howner meter' reached hascend
  | true =>
    rw [next_close_root hend]
    simp only [if_true, pure_bind]
    refine mirrors_gap fun f' handed' meter₂ hbase => ?_
    exact mirrors_finish
      ((owner_of_base hbase).trans howner) meter₂ reached hascend

/-- The loop builds every node of a tree that fits the grammar. -/
theorem builds (hsound : i.schema.Sound)
    (hconforms : i.schema.grammar.Conforms u) : Builds i u := by
  induction u using Branching.induction with
  | step u ih =>
    have hbuilds : ∀ c ∈ u.children, Builds i c := by
      cases hconforms with
      | node declared names shapes below =>
        exact fun c hc => ih c hc (below c hc)
    intro handed parent stack land meter hattach
    rw [Build.child_build]
    refine mirrors_node meter hsound hconforms hbuilds
      (fun r => .inl ⟨stack, land r⟩) fun r => ?_
    rw [ascend, hattach]
    rfl

/-! ### The whole loop -/

/-- What becomes of the tree that the loop has built: all tokens must
have been passed. -/
def conclude (i : Input) (position : Nat) (tree : Cst) : Except CstError Cst :=
  if position < i.tokens.length then
    .error (Build.mismatch (Build.streamEnd i.tokens) .endOfInput
      (i.tokens.drop position))
  else .ok tree

theorem build_eq {s : Schema} {t : Ast} {tokens : List SourceToken}
    (htiling : Build.checkTiling 0 tokens = .ok ())
    (hcheck : s.grammar.check t = .ok ()) :
    build s t tokens = Build.node (Input.context ⟨s, tokens⟩)
      (partsOf (Input.context ⟨s, tokens⟩) t) true none tokens >>= fun r =>
        if r.2.isEmpty then .ok r.1
        else .error
          (Build.mismatch (Build.streamEnd tokens) .endOfInput r.2) := by
  rw [build, htiling, Outcome.ok_bind, hcheck]
  rfl

theorem conclude_eq (i : Input) (position : Nat) (tree : Cst) :
    conclude i position tree = if (i.tokens.drop position).isEmpty then .ok tree
      else .error (Build.mismatch (Build.streamEnd i.tokens) .endOfInput
        (i.tokens.drop position)) := by
  rw [conclude]
  by_cases h : position < i.tokens.length
  · rw [if_pos h, if_neg (by simpa using h)]
  · rw [if_neg h, if_pos (by simpa using h)]

/-- From its first moment on, the loop builds a tree that fits the grammar. -/
theorem mirrors_first {t : Ast} (hsound : i.schema.Sound)
    (hconforms : i.schema.grammar.Conforms t) :
    Mirrors i [] (first i t)
      (Build.node i.context (partsOf i.context t) true none i.tokens)
      (fun r => (.inr r.1, r.2)) (frames i.schema t) := by
  have hbuilds : ∀ c ∈ t.children, Builds i c := by
    cases hconforms with
    | node declared names shapes below =>
      exact fun c hc => builds hsound (below c hc)
  exact mirrors_node ⟨0, []⟩ hsound hconforms hbuilds (fun r => .inr r.1)
    fun _ => rfl

/-- The loop ends, and `build` returns what it ends with, if all tokens
have been passed. -/
theorem exists_result {s : Schema} {t : Ast} {tokens : List SourceToken}
    (hsound : s.Sound) (htiling : Build.checkTiling 0 tokens = .ok ())
    (hcheck : s.grammar.check t = .ok ()) :
    ∃ turns result, result? (after ⟨s, tokens⟩ t turns) = some result ∧
        build s t tokens = result >>=
      conclude ⟨s, tokens⟩ (after ⟨s, tokens⟩ t turns).2.position ∧
        (after ⟨s, tokens⟩ t turns).2.opened.Subperm (frames s t) ∧
        (result.isOk →
          (after ⟨s, tokens⟩ t turns).2.opened.Perm (frames s t)) := by
  have hmirrors :=
    mirrors_first (i := ⟨s, tokens⟩) hsound (Grammar.conforms_of_check hcheck)
  rw [build_eq htiling hcheck]
  cases hnode : Build.node (Input.context ⟨s, tokens⟩)
    (partsOf (Input.context ⟨s, tokens⟩) t) true none tokens with
  | error e =>
    simp only [hnode] at hmirrors
    obtain ⟨meter, ⟨turns, hreach⟩, hopened⟩ := hmirrors
    have hafter : after ⟨s, tokens⟩ t turns = (.error e, meter) := hreach
    rw [List.append_nil] at hopened
    refine ⟨turns, .error e, by rw [hafter]; rfl, rfl, by rwa [hafter],
      fun hok => nomatch hok⟩
  | ok r =>
    simp only [hnode] at hmirrors
    obtain ⟨meter, ⟨turns, hreach⟩, hrest, hopened⟩ := hmirrors
    have hafter : after ⟨s, tokens⟩ t turns = (.ok (.inr r.1), meter) := hreach
    rw [List.append_nil] at hopened
    refine ⟨turns, .ok r.1, by rw [hafter]; rfl,
      ?_, by rw [hafter]; exact hopened.subperm, fun _ => by rwa [hafter]⟩
    rw [hafter, Outcome.ok_bind, Outcome.ok_bind, conclude_eq, hrest]

/-- For an accepted schema, a tree of its grammar and tokens without holes, the
loop ends, and `build` returns what it ends with if all tokens have been passed.
Whenever it is stopped, each frame that it has opened is that of another node,
or of another virtual slot of a node; once it ends with a tree, all of them have
been opened. The position never goes back and never leaves the tokens. -/
theorem loop_ends {grammar : Grammar} {strategy : Strategy}
    {s : Schema} {t : Ast}
    {tokens : List SourceToken} (hmake : Schema.make grammar strategy = .ok s)
    (htiling : Build.checkTiling 0 tokens = .ok ())
    (hcheck : s.grammar.check t = .ok ()) :
    (∃ turns result, result? (after ⟨s, tokens⟩ t turns) = some result ∧
      build s t tokens = result >>= conclude ⟨s,
        tokens⟩ (after ⟨s, tokens⟩ t turns).2.position ∧
      (result.isOk → (after ⟨s, tokens⟩ t turns).2.opened.Perm (frames s t))) ∧
      (∀ turns, (after ⟨s, tokens⟩ t turns).2.opened.Subperm (frames s t)) ∧
      (frames s t).length =
        total (fun u => 1 + (rolesOf s u.type).length) (Branching.nodes t) ∧
      ∀ turns, (after ⟨s, tokens⟩ t turns).2.position ≤
          (after ⟨s, tokens⟩ t (turns + 1)).2.position ∧
        (after ⟨s, tokens⟩ t turns).2.position ≤ tokens.length := by
  obtain ⟨turns, result, hresult, hbuild, hsub, hperm⟩ :=
    exists_result (Schema.make_eq_ok hmake).2.2 htiling hcheck
  refine ⟨⟨turns, result, hresult, hbuild, hperm⟩, fun turns' => ?_,
    length_frames s t, fun turns' => ?_⟩
  · have hlast :
        after ⟨s, tokens⟩ t (max turns turns') = after ⟨s, tokens⟩ t turns :=
      after_of_result _ t hresult (Nat.le_max_left ..)
    have hleads := leads_after_le ⟨s, tokens⟩ t (Nat.le_max_right turns turns')
    rw [hlast] at hleads
    exact hleads.opened.sublist.subperm.trans hsub
  · exact ⟨(leads_after _ t turns').forward, position_after_le _ t turns'⟩

theorem loop_ends_sample :
    ∃ s turns tree, Schema.make .functions .virtualNodes = .ok s ∧
      Build.checkTiling 0 sampleTokens = .ok () ∧
      s.grammar.check sampleTree = .ok () ∧
      result? (after ⟨s, sampleTokens⟩ sampleTree turns) = some (.ok tree) ∧
      (after ⟨s, sampleTokens⟩ sampleTree turns).2.opened.Perm
        (frames s sampleTree) ∧
      (after ⟨s, sampleTokens⟩ sampleTree turns).2.position ≤
        sampleTokens.length := by
  have h : (Schema.make .functions .virtualNodes >>= fun s =>
      build s sampleTree sampleTokens).isOk = true := by decide +kernel
  obtain ⟨tree, h⟩ := Outcome.exists_of_isOk h
  obtain ⟨s, hmake, hbuild⟩ := Outcome.bind_eq_ok.1 h
  have htiling : Build.checkTiling 0 sampleTokens = .ok () := by decide +kernel
  obtain ⟨hcheck, -⟩ := build_eq_ok hbuild
  obtain ⟨⟨turns, result, hresult, heq, hperm⟩, -, -, hpositions⟩ :=
    loop_ends hmake htiling hcheck
  rw [hbuild] at heq
  obtain ⟨tree', rfl, -⟩ := Outcome.bind_eq_ok.1 heq.symm
  exact ⟨s, turns, tree', hmake, htiling, hcheck, hresult, hperm rfl,
    (hpositions turns).2⟩

end Loop

end Cst

end Lossless
