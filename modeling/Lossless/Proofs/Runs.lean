import Lossless.Cst.Records
import Lossless.Proofs.Records
import Mathlib.Data.List.Perm.Basic
import Mathlib.Data.List.TakeWhile

/-!
# Runs and the records that keep them

The extras of a token stream stand in runs between the tokens that carry
meaning. Runs are numbered in the order of the text. `Keeps` says that some
records share numbered runs out among themselves: every run is kept whole under
one label of one record, every label keeps one run, and a record has its labels
in the order of the text. Records may be looked at in any order, so nothing here
depends on the shape of a tree.
-/

namespace Lossless

namespace Cst

open Build (leadingRun behindRun)

/-! ### Runs of a token stream -/

/-- The runs of extras in a token stream: as many extras as stand together. -/
def extraRuns (tokens : List SourceToken) : List (List Token) :=
  ((tokens.splitOnP (!·.isExtra)).map (·.map SourceToken.token)).filter
    (!·.isEmpty)

theorem extraRuns_cons_of_leaf {t : SourceToken} (ht : t.isExtra = false)
    (ts : List SourceToken) : extraRuns (t :: ts) = extraRuns ts := by
  have hsplit : List.splitOnP (!·.isExtra) (t :: ts) =
      List.splitOnP (!·.isExtra) [] ++ List.splitOnP (!·.isExtra) ts :=
    List.splitOnP_append_cons [] ts (by simp [ht])
  simp [extraRuns, hsplit]

/-- The runs of a stream are the one at its front, if there is one, and
those behind it. -/
theorem extraRuns_eq (tokens : List SourceToken) :
    extraRuns tokens =
      [leadingRun tokens].filter (!·.isEmpty) ++
        extraRuns (behindRun tokens) := by
  have hfront :
      ∀ t ∈ tokens.takeWhile SourceToken.isExtra, (!t.isExtra) = false := by
    intro t ht
    simpa using List.mem_takeWhile_imp ht
  have htokens :
      tokens = tokens.takeWhile SourceToken.isExtra ++ behindRun tokens :=
    List.takeWhile_append_dropWhile.symm
  cases hbehind : behindRun tokens with
  | nil =>
    rw [hbehind, List.append_nil] at htokens
    rw [← htokens] at hfront
    rw [extraRuns, List.splitOnP_eq_singleton hfront, leadingRun, ← htokens]
    simp [extraRuns]
  | cons t ts =>
    have ht := Build.isExtra_of_behindRun hbehind
    rw [hbehind] at htokens
    rw [extraRuns_cons_of_leaf ht, extraRuns]
    conv_lhs => rw [htokens]
    rw [List.splitOnP_append_cons_of_forall_mem hfront t (by simp [ht]),
      List.map_cons, ← List.singleton_append, List.filter_append]
    rfl

theorem flatten_splitOnP {α : Type} (p : α → Bool) (l : List α) :
    (l.splitOnP p).flatten = l.filter (!p ·) := by
  induction l with
  | nil => simp
  | cons x l ih =>
    rw [List.splitOnP_cons_eq_if_modifyHead]
    cases hx : p x with
    | true => simp [hx, ih]
    | false =>
      have hne := List.splitOnP_ne_nil p l
      cases hl : l.splitOnP p with
      | nil => exact absurd hl hne
      | cons first others =>
        rw [hl] at ih
        simpa [hx] using ih

/-- Together the runs of a stream are its extras. -/
theorem flatten_extraRuns (tokens : List SourceToken) :
    (extraRuns tokens).flatten =
      (tokens.filter SourceToken.isExtra).map SourceToken.token := by
  have hfilter : ∀ runs : List (List Token),
      (runs.filter (!·.isEmpty)).flatten = runs.flatten := by
    intro runs
    induction runs with
    | nil => rfl
    | cons run runs ih => cases run <;> simp [ih]
  rw [extraRuns, hfilter, ← List.map_flatten, flatten_splitOnP]
  simp

end Cst

/-! ### Records that keep runs -/

/-- A record holds numbered runs: one under each of its labels, in the order
of their numbers. -/
structure Extras.Holds (x : Extras) (runs : List (List Token × Nat)) :
    Prop where
  labels : (x.entries.map Prod.fst).Nodup
  runs_eq : x.entries.map Prod.snd = runs.map Prod.fst
  ordered : runs.Pairwise fun run later => run.2 < later.2

theorem Extras.holds_empty : empty.Holds [] := ⟨List.nodup_nil, rfl, .nil⟩

/-- A later run under a new label comes last. -/
theorem Extras.Holds.insert {x : Extras} {runs : List (List Token × Nat)}
    {label : Label} {run : List Token} {number : Nat} (h : x.Holds runs)
    (hlacks : x.Lacks label) (hlater : ∀ r ∈ runs, r.2 < number) :
    (x.insert label run).Holds (runs ++ [(run, number)]) := by
  rw [insert_of_lacks hlacks]
  constructor
  · rw [List.map_append]
    refine List.nodup_append.2 ⟨h.labels, List.nodup_singleton _, ?_⟩
    rintro l hl l' hl' rfl
    rw [List.mem_singleton.1 hl'] at hl
    exact Named.lookup_eq_none.1 hlacks hl
  · rw [List.map_append, List.map_append, h.runs_eq]
    rfl
  · refine List.pairwise_append.2 ⟨h.ordered, List.pairwise_singleton _ _,
      fun r hr r' hr' => ?_⟩
    rw [List.mem_singleton.1 hr']
    exact hlater r hr

namespace Cst

/-- Records keep numbered runs: each run is held by one of them, and they
hold no others. -/
def Keeps (records : List (Owner × Extras))
    (runs : List (List Token × Nat)) : Prop :=
  ∃ shares, List.Forall₂ (fun r share => r.2.Holds share) records shares ∧
    shares.flatten.Perm runs

namespace Keeps

variable {records records' : List (Owner × Extras)}
  {runs runs' : List (List Token × Nat)} {o : Owner} {x : Extras}
  {label : Label} {run : List Token} {number : Nat}

theorem empty (o : Owner) : Keeps [(o, .empty)] [] :=
  ⟨[[]], .cons Extras.holds_empty .nil, .nil⟩

theorem append (h : Keeps records runs) (h' : Keeps records' runs') :
    Keeps (records ++ records') (runs ++ runs') := by
  obtain ⟨shares, hshares, hperm⟩ := h
  obtain ⟨shares', hshares', hperm'⟩ := h'
  refine ⟨shares ++ shares', List.rel_append hshares hshares', ?_⟩
  rw [List.flatten_append]
  exact hperm.append hperm'

/-- The order of the records does not matter. -/
theorem perm (h : Keeps records runs) (hrecords : records'.Perm records) :
    Keeps records' runs := by
  obtain ⟨shares, hshares, hperm⟩ := h
  obtain ⟨shares', hshares', hsame⟩ := List.perm_comp_forall₂ hrecords hshares
  exact ⟨shares', hshares', hsame.flatten.trans hperm⟩

/-- A later run may be stored in any record, under a label that the
record does not have. -/
theorem insert (h : Keeps ((o, x) :: records) runs) (hlacks : x.Lacks label)
    (hlater : ∀ r ∈ runs, r.2 < number) :
    Keeps ((o, x.insert label run) :: records) (runs ++ [(run, number)]) := by
  obtain ⟨shares, hshares, hperm⟩ := h
  cases hshares with
  | @cons _ share _ shares hfirst hothers =>
    have hlater' : ∀ r ∈ share, r.2 < number := by
      intro r hr
      exact hlater r (hperm.mem_iff.1 (List.mem_append_left _ hr))
    refine ⟨_, .cons (hfirst.insert hlacks hlater') hothers, ?_⟩
    rw [List.flatten_cons, List.append_assoc]
    refine (List.Perm.append_left share List.perm_append_comm).trans ?_
    rw [← List.append_assoc]
    exact hperm.append_right _

/-- The runs that are kept are all that is stored. -/
theorem stored (h : Keeps records runs) :
    (records.flatMap fun r => r.2.entries.map Prod.snd).Perm
      (runs.map Prod.fst) := by
  obtain ⟨shares, hshares, hperm⟩ := h
  refine .trans (.of_eq ?_) (hperm.map Prod.fst)
  clear hperm
  induction hshares with
  | nil => rfl
  | cons hfirst _ ih =>
    rw [List.flatMap_cons, ih, hfirst.runs_eq, List.flatten_cons,
      List.map_append]

end Keeps

/-! ### Records of changed fields -/

theorem fieldsRecords_append (fields fields' : List (String × Value)) :
    fieldsRecords (fields ++ fields') =
      fieldsRecords fields ++ fieldsRecords fields' := by
  induction fields with
  | nil => rfl
  | cons field fields ih =>
    rw [List.cons_append, fieldsRecords, fieldsRecords, ih, List.append_assoc]

theorem itemsRecords_append (items items' : List Cst) :
    itemsRecords (items ++ items') =
      itemsRecords items ++ itemsRecords items' := by
  induction items with
  | nil => rfl
  | cons item items ih =>
    rw [List.cons_append, itemsRecords, itemsRecords, ih, List.append_assoc]

theorem fieldsRecords_perm {fields fields' : List (String × Value)}
    (h : fields.Perm fields') :
    (fieldsRecords fields).Perm (fieldsRecords fields') := by
  induction h with
  | nil => rfl
  | cons field _ ih => exact ih.append_left _
  | swap field field' fields =>
    simp only [fieldsRecords, ← List.append_assoc]
    exact List.perm_append_comm.append_right _
  | trans _ _ ih ih' => exact ih.trans ih'

namespace Build

/-- Changing what one field holds changes the records of this field only. -/
theorem fieldsRecords_update {f : Frame} {name : String} {value : Value}
    (change : Value → Value) (hnodup : (f.fields.map Prod.fst).Nodup)
    (hvalue : f.fields.lookup name = some value) :
    ∃ others, (fieldsRecords f.fields).Perm (valueRecords value ++ others) ∧
      (fieldsRecords (f.update name change).fields).Perm
        (valueRecords (change value) ++ others) := by
  obtain ⟨front, back, hold, hnew⟩ := Frame.exists_update change hnodup hvalue
  refine ⟨fieldsRecords front ++ fieldsRecords back, ?_, ?_⟩
  · rw [hold, fieldsRecords_append, fieldsRecords]
    exact List.perm_append_comm_assoc _ _ _
  · rw [hnew, fieldsRecords_append, fieldsRecords]
    exact List.perm_append_comm_assoc _ _ _

/-- Changing the record of the last child of a field changes no other record. -/
theorem valueRecords_withLastRecord {value : Value} {o : Owner}
    {record : Extras} (x : Extras) (h : lastRecord? value = some (o, record)) :
    ∃ others, (valueRecords value).Perm ((o, record) :: others) ∧
      (valueRecords (withLastRecord x value)).Perm ((o, x) :: others) := by
  cases value with
  | node item =>
    obtain ⟨type, fields, extras⟩ := item
    cases Option.some.inj h
    exact ⟨fieldsRecords fields, .rfl, .rfl⟩
  | list items =>
    obtain ⟨front, item, rfl, rfl, rfl⟩ := lastRecord?_list h
    obtain ⟨type, fields, extras⟩ := item
    rw [withLastRecord_concat]
    refine ⟨itemsRecords front ++ fieldsRecords fields, ?_, ?_⟩
    all_goals
      simp only [valueRecords, itemsRecords_append, itemsRecords, records,
        List.append_nil, withExtras]
      exact List.perm_middle
  | «virtual» role wrapped extras =>
    cases wrapped with
    | none =>
      cases Option.some.inj h
      exact ⟨[], .rfl, .rfl⟩
    | some wrapped =>
      cases Option.some.inj h
      exact ⟨valueRecords wrapped, .rfl, .rfl⟩
  | absent | scalar _ => cases h

end Build

end Cst

end Lossless
