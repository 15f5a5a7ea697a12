import Lossless.Proofs.Filling
import Mathlib.Data.List.Perm.Lattice

/-!
# Records while a tree is built

A run of extras is only ever stored under a label that the record does not
have yet (`Extras.Lacks`), so storing adds one label and leaves the others
alone. Whatever labels are set, a label stands once in a record, and with a run
(`Extras.Proper`). The record of a frame's last child is the one that
`lastRecord?` finds and `withLastRecord` changes; changing it adds as many
labels to the tree as to the record.
-/

namespace Lossless

namespace Extras

/-- A record has nothing under a label. -/
def Lacks (x : Extras) (label : Label) : Prop := x.entries.lookup label = none

variable {x : Extras} {label label' : Label} {run : List Token}

theorem lacks_empty (label : Label) : Lacks .empty label := rfl

theorem get_of_lacks (h : x.Lacks label) : x.get label = [] := by
  rw [get, h]
  rfl

theorem insert_of_lacks (h : x.Lacks label) (run : List Token) :
    x.insert label run = ⟨x.entries ++ [(label, run)]⟩ := by
  have hany : x.entries.any (·.1 = label) = false := by
    rw [List.any_eq_false]
    intro entry hentry
    have hmem : label ∉ x.entries.map Prod.fst := Named.lookup_eq_none.1 h
    have hne : entry.1 ≠ label :=
      fun he => hmem (he ▸ List.mem_map.2 ⟨entry, hentry, rfl⟩)
    simpa using hne
  rw [insert, hany]
  rfl

theorem get_insert_self (h : x.Lacks label) :
    (x.insert label run).get label = run := by
  rw [insert_of_lacks h, get,
    Named.lookup_append_of_notMem _ (Named.lookup_eq_none.1 h),
    List.lookup_cons_self]
  rfl

theorem lookup_insert_of_ne (h : x.Lacks label) (hne : label' ≠ label) :
    (x.insert label run).entries.lookup label' = x.entries.lookup label' := by
  have hbeq : (label' == label) = false := by simpa using hne
  rw [insert_of_lacks h, List.lookup_append, List.lookup_cons, hbeq,
    List.lookup_nil, Option.or_none]

theorem get_insert_of_ne (h : x.Lacks label) (hne : label' ≠ label) :
    (x.insert label run).get label' = x.get label' := by
  rw [get, get, lookup_insert_of_ne h hne]

theorem lacks_insert (h : x.Lacks label) (hne : label' ≠ label)
    (h' : x.Lacks label') :
    (x.insert label run).Lacks label' := (lookup_insert_of_ne h hne).trans h'

theorem size_insert (h : x.Lacks label) :
    (x.insert label run).size = x.size + 1 := by
  rw [insert_of_lacks h, size, List.length_append]
  rfl

/-! ### The labels of a record -/

/-- The labels of a record in order. -/
def labels (x : Extras) : List Label := x.entries.map Prod.fst

theorem labels_erase_sublist (x : Extras) (label : Label) :
    (x.erase label).labels.Sublist x.labels :=
  List.filter_sublist.map _

/-- A label that is there is overwritten in its place. -/
theorem insert_of_mem (h : label ∈ x.labels) (run : List Token) :
    x.insert label run =
      ⟨x.entries.map fun entry =>
        (entry.1, if entry.1 = label then run else entry.2)⟩ := by
  obtain ⟨entry, hentry, hname⟩ := List.mem_map.1 h
  have hany : x.entries.any (·.1 = label) = true :=
    List.any_eq_true.2 ⟨entry, hentry, by simpa using hname⟩
  rw [insert, if_pos hany]
  congr 1
  refine List.map_congr_left fun entry _ => ?_
  by_cases hentry : entry.1 = label
  · rw [if_pos hentry, if_pos hentry, hentry]
  · rw [if_neg hentry, if_neg hentry]

theorem labels_insert_of_mem (h : label ∈ x.labels) (run : List Token) :
    (x.insert label run).labels = x.labels := by
  rw [insert_of_mem h, labels, labels, List.map_map]
  rfl

theorem labels_insert_of_notMem (h : label ∉ x.labels) (run : List Token) :
    (x.insert label run).labels = x.labels ++ [label] := by
  rw [insert_of_lacks (Named.lookup_eq_none.2 h), labels, labels,
    List.map_append]
  rfl

theorem nodup_labels_insert (h : x.labels.Nodup) (label : Label)
    (run : List Token) : (x.insert label run).labels.Nodup := by
  by_cases hmem : label ∈ x.labels
  · rwa [labels_insert_of_mem hmem]
  · rw [labels_insert_of_notMem hmem, List.nodup_append]
    refine ⟨h, List.nodup_singleton _, fun other hother label' hlabel' => ?_⟩
    rw [List.mem_singleton.1 hlabel']
    exact ne_of_mem_of_not_mem hother hmem

theorem eq_or_mem_of_mem_insert {entry : Label × List Token}
    (h : entry ∈ (x.insert label run).entries) :
    entry = (label, run) ∨ entry ∈ x.entries := by
  by_cases hmem : label ∈ x.labels
  · rw [insert_of_mem hmem] at h
    obtain ⟨old, hold, rfl⟩ := List.mem_map.1 h
    by_cases hname : old.1 = label
    · exact .inl (by rw [if_pos hname, hname])
    · exact .inr (by rwa [if_neg hname])
  · rw [insert_of_lacks (Named.lookup_eq_none.2 hmem)] at h
    exact (List.mem_append.1 h).symm.imp_left List.mem_singleton.1

/-- What every record is that is made by setting labels (`proper_empty`,
`Proper.set`): a label stands once, and under it is a run. -/
structure Proper (x : Extras) : Prop where
  nodup : (x.entries.map Prod.fst).Nodup
  runs : ∀ entry ∈ x.entries, entry.2 ≠ []

instance (x : Extras) : Decidable x.Proper :=
  decidable_of_iff ((x.entries.map Prod.fst).Nodup ∧
    ∀ entry ∈ x.entries, entry.2 ≠ [])
    ⟨fun h => ⟨h.1, h.2⟩, fun h => ⟨h.nodup, h.runs⟩⟩

theorem proper_empty : Proper .empty :=
  ⟨List.nodup_nil, fun _ h => absurd h List.not_mem_nil⟩

theorem Proper.erase (h : x.Proper) (label : Label) :
    (x.erase label).Proper :=
  ⟨h.nodup.sublist (labels_erase_sublist x label),
    fun entry he => h.runs entry (List.mem_of_mem_filter he)⟩

theorem Proper.insert (h : x.Proper) (hrun : run ≠ []) :
    (x.insert label run).Proper := by
  refine ⟨nodup_labels_insert h.nodup label run, fun entry he => ?_⟩
  rcases eq_or_mem_of_mem_insert he with rfl | he
  · exact hrun
  · exact h.runs entry he

/-- Whatever labels are set, a record stays proper. -/
theorem Proper.set {y : Extras} {v : Vocabulary} (h : x.Proper)
    (hset : x.set v label run = .ok y) : y.Proper := by
  rw [Extras.set] at hset
  split at hset
  · rw [← Except.ok.inj hset]
    cases run with
    | nil => exact h.erase label
    | cons t ts => exact h.insert (List.cons_ne_nil t ts)
  · cases hset

end Extras

namespace Cst

/-! ### Labels of a tree -/

theorem fieldsLabelCount_append (fields fields' : List (String × Value)) :
    fieldsLabelCount (fields ++ fields') =
      fieldsLabelCount fields + fieldsLabelCount fields' := by
  induction fields with
  | nil => simp [fieldsLabelCount]
  | cons field fields ih =>
    rw [List.cons_append, fieldsLabelCount, fieldsLabelCount, ih, Nat.add_assoc]

theorem itemsLabelCount_append (items items' : List Cst) :
    itemsLabelCount (items ++ items') =
      itemsLabelCount items + itemsLabelCount items' := by
  induction items with
  | nil => simp [itemsLabelCount]
  | cons item items ih =>
    rw [List.cons_append, itemsLabelCount, itemsLabelCount, ih, Nat.add_assoc]

theorem fieldsLabelCount_perm {fields fields' : List (String × Value)}
    (h : fields.Perm fields') :
    fieldsLabelCount fields = fieldsLabelCount fields' := by
  induction h with
  | nil => rfl
  | cons field _ ih => rw [fieldsLabelCount, fieldsLabelCount, ih]
  | swap field field' fields =>
    simp only [fieldsLabelCount]
    omega
  | trans _ _ ih ih' => rw [ih, ih']

namespace Build

/-! ### Fields of a frame -/

theorem lookup_fill {f : Frame} {name : String} {value : Value}
    (hfresh : name ∉ f.fields.map Prod.fst) :
    (f.fill name value).fields.lookup name = some value := by
  rw [Frame.fill, Named.lookup_append_of_notMem _ hfresh, List.lookup_cons_self]

theorem withLastRecord_concat (x : Extras) (items : List Cst) (item : Cst) :
    withLastRecord x (.list (items ++ [item])) =
      .list (items ++ [withExtras x item]) := by
  rw [withLastRecord, List.length_append, List.length_singleton,
    Nat.add_sub_cancel]
  congr 1
  induction items with
  | nil => rfl
  | cons t items ih => simpa using ih

/-- The record of a list's last child is the one of its last item. -/
theorem lastRecord?_list {items : List Cst} {o : Owner} {record : Extras}
    (h : lastRecord? (.list items) = some (o, record)) :
    ∃ front item, items = front ++ [item] ∧
      o = .node item.type ∧ record = item.extras := by
  rcases List.eq_nil_or_concat items with rfl | ⟨front, item, rfl⟩
  · exact nomatch h
  · rw [List.concat_eq_append] at h ⊢
    rw [lastRecord?, List.getLast?_append] at h
    cases Option.some.inj h
    exact ⟨front, item, rfl, rfl, rfl⟩

theorem lastRecord?_withLastRecord {value : Value} {o : Owner} {record : Extras}
    (x : Extras) (h : lastRecord? value = some (o, record)) :
    lastRecord? (withLastRecord x value) = some (o, x) := by
  match value with
  | .node (.node type fields extras) =>
    cases Option.some.inj h
    rfl
  | .list items =>
    rcases lastRecord?_list h with ⟨front, item, rfl, rfl, -⟩
    rw [withLastRecord_concat, lastRecord?, List.getLast?_append]
    cases item
    rfl
  | .virtual role wrapped extras =>
    cases Option.some.inj h
    rfl
  | .absent | .scalar _ => exact nomatch h

theorem lookup_update (f : Frame) (name : String) (change : Value → Value)
    (k : String) :
    (f.update name change).fields.lookup k =
      (f.fields.lookup k).map fun v => if k = name then change v else v := by
  rw [Frame.update]
  simp only
  induction f.fields with
  | nil => rfl
  | cons field fields ih =>
    rcases field with ⟨n, v⟩
    have hname : (if n = name then (n, change v) else (n, v)).1 = n := by
      split <;> rfl
    rw [List.map_cons, List.lookup_cons, List.lookup_cons, ih, hname]
    by_cases hk : k = n
    · subst hk
      by_cases hchange : k = name <;> simp [hchange]
    · have hbeq : (k == n) = false := by simpa using hk
      simp only [hbeq]

/-- Changing what one field holds leaves the fields in front of it and
behind it alone. -/
theorem Frame.exists_update {f : Frame} {name : String} {value : Value}
    (change : Value → Value) (hnodup : (f.fields.map Prod.fst).Nodup)
    (hvalue : f.fields.lookup name = some value) :
    ∃ front back, f.fields = front ++ (name, value) :: back ∧
      (f.update name change).fields =
        front ++ (name, change value) :: back := by
  rcases List.lookup_eq_some_iff.1 hvalue with ⟨front, back, hfields, -⟩
  refine ⟨front, back, hfields, ?_⟩
  rw [hfields, List.map_append, List.map_cons] at hnodup
  rcases List.nodup_append.1 hnodup with ⟨-, hback, hdisjoint⟩
  have hothers :
      ∀ fields : List (String × Value), name ∉ fields.map Prod.fst →
        (fields.map fun field =>
          if field.1 = name then (field.1, change field.2) else field) =
          fields := by
    intro fields hnot
    refine (List.map_congr_left fun x hx => ?_).trans (List.map_id _)
    have hne : x.1 ≠ name := fun he => hnot (he ▸ List.mem_map.2 ⟨x, hx, rfl⟩)
    rw [if_neg hne, id]
  have hfront : name ∉ front.map Prod.fst := fun hmem =>
    hdisjoint name hmem name List.mem_cons_self rfl
  rw [Frame.update, hfields]
  simp only [List.map_append, List.map_cons, if_true]
  rw [hothers front hfront, hothers back (List.nodup_cons.1 hback).1]

/-- Changing what one field holds changes the number of labels by as much
as in that field. -/
theorem fieldsLabelCount_update {f : Frame} {name : String} {value : Value}
    (change : Value → Value) (hnodup : (f.fields.map Prod.fst).Nodup)
    (hvalue : f.fields.lookup name = some value) :
    fieldsLabelCount (f.update name change).fields + valueLabelCount value =
      fieldsLabelCount f.fields + valueLabelCount (change value) := by
  rcases Frame.exists_update change hnodup hvalue with ⟨front, back, hold, hnew⟩
  rw [hold, hnew, fieldsLabelCount_append, fieldsLabelCount_append]
  simp only [fieldsLabelCount]
  omega

theorem labelCount_withExtras (x : Extras) (t : Cst) :
    (withExtras x t).labelCount + t.extras.size = t.labelCount + x.size := by
  cases t with
  | node type fields extras =>
    simp only [withExtras, labelCount, Cst.extras]
    omega

theorem valueLabelCount_withLastRecord (x : Extras) {value : Value} {o : Owner}
    {record : Extras} (h : lastRecord? value = some (o, record)) :
    valueLabelCount (withLastRecord x value) + record.size =
      valueLabelCount value + x.size := by
  match value with
  | .node child =>
    cases Option.some.inj h
    exact labelCount_withExtras x child
  | .list items =>
    rcases lastRecord?_list h with ⟨front, item, rfl, -, rfl⟩
    rw [withLastRecord_concat, valueLabelCount, valueLabelCount,
      itemsLabelCount_append, itemsLabelCount_append]
    simp only [itemsLabelCount]
    have hlast := labelCount_withExtras x item
    omega
  | .virtual role none extras =>
    cases Option.some.inj h
    simp only [withLastRecord, valueLabelCount]
    omega
  | .virtual role (some wrapped) extras =>
    cases Option.some.inj h
    simp only [withLastRecord, valueLabelCount]
    omega
  | .absent | .scalar _ => exact nomatch h

/-! ### Lists under construction -/

/-- A field holds a list with some number of items. -/
def HoldsList (f : Frame) (field : String) (count : Nat) : Prop :=
  ∃ items, f.fields.lookup field = some (.list items) ∧ items.length = count

section List

variable {c : Context} {f f' : Frame} {tokens rest : List SourceToken}
  {field : String} {count : Nat}

theorem HoldsList.of_gap {e : Element} {handed : Option Handed}
    (h : HoldsList f field count)
    (hgap : gap c f e tokens = .ok (f', handed, rest)) :
    HoldsList f' field count := by
  rcases h with ⟨items, hitems, hcount⟩
  cases (gap_eq_ok hgap).2 with
  | nothing | owner | right => exact ⟨items, hitems, hcount⟩
  | @left _ _ name _ _ _ extras =>
    rw [HoldsList, lookup_update, hitems, Option.map_some]
    by_cases hname : field = name
    · rw [if_pos hname]
      exact ⟨_, rfl, (List.length_modify _ _ _).trans hcount⟩
    · rw [if_neg hname]
      exact ⟨items, rfl, hcount⟩

theorem HoldsList.of_token {e : Element} {text : String}
    (h : HoldsList f field count)
    (htoken : token c f e text tokens = .ok (f', rest)) :
    HoldsList f' field count := by
  rcases token_eq_ok htoken with ⟨f₁, handed, t, hgap, -, rfl⟩
  exact (h.of_gap hgap : HoldsList f₁ field count)

theorem HoldsList.of_separated {slot index : Nat} {separator : Option String}
    (h : HoldsList f field count)
    (hseparated : Separated c slot separator index f tokens f' rest) :
    HoldsList f' field count := by
  cases hseparated with
  | nothing => exact h
  | token _ _ pass => exact h.of_token pass

theorem lookup_addItem {e : Element} {items : List Cst} (item : Cst)
    (hitems : f.fields.lookup field = some (.list items)) :
    (f.addItem e field item).fields.lookup field =
      some (.list (items ++ [item])) := by
  rw [Frame.addItem, lookup_update, hitems, Option.map_some, if_pos rfl,
    Frame.addItemTo]

theorem HoldsList.addItem {e : Element} (h : HoldsList f field count)
    (item : Cst) : HoldsList (f.addItem e field item) field (count + 1) := by
  rcases h with ⟨items, hitems, rfl⟩
  exact ⟨items ++ [item], lookup_addItem item hitems, List.length_append⟩

end List

end Build

end Cst

end Lossless
