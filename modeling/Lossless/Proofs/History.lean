import Lossless.Proofs.Records
import Mathlib.Data.Finset.Filter
import Mathlib.Data.Finset.Dedup
import Mathlib.Data.Finset.Card

/-!
# A record by its history

A record is made by calls that set the tokens of labels. Which tokens a label
has, and how long it has been there, can be told from the calls alone:
`tokensAfter` looks for the last call that sets the label, `CameIn` for the last
call that gave it tokens when it had none. `History` says that a record agrees
with its calls; a call keeps it, whether it puts a label in, changes one, takes
one out or is refused (`History.after`).
-/

namespace Lossless

namespace Extras

/-- A call that sets the tokens of a label, if its vocabulary has the label. -/
structure Call where
  vocabulary : Vocabulary
  label : Label
  tokens : List Token

/-- The record after a call. A call that fails leaves it as it is. -/
def after (x : Extras) (call : Call) : Extras :=
  match x.set call.vocabulary call.label call.tokens with
  | .ok x' => x'
  | .error _ => x

/-- What some calls make of an empty record, one after another. -/
def ofCalls (calls : List Call) : Extras := calls.foldl after .empty

/-! ### Calls -/

namespace Call

/-- A call sets a label: it names the label, and its vocabulary has it. -/
def Sets (label : Label) (call : Call) : Prop := call.label = label ∧
  label ∈ call.vocabulary.labels

instance (label : Label) : DecidablePred (Sets label) :=
  fun call => inferInstanceAs (Decidable (call.label = label ∧
    label ∈ call.vocabulary.labels))

end Call

/-- The tokens that the last call to set a label has given to it; none if
no call sets it. -/
def tokensAfter (calls : List Call) (label : Label) : List Token :=
  match (calls.filter (Call.Sets label ·)).getLast? with
  | some call => call.tokens
  | none => []

/-- The call at a place gives tokens to a label that has none. -/
def BringsIn (calls : List Call) (label : Label) (place : Nat) : Prop :=
  ∃ call, calls[place]? = some call ∧ call.Sets label ∧ call.tokens ≠ [] ∧
    tokensAfter (calls.take place) label = []

/-- The last call that brings a label in is at a place. -/
def CameIn (calls : List Call) (label : Label) (place : Nat) : Prop :=
  BringsIn calls label place ∧
    ∀ later, BringsIn calls label later → later ≤ place

/-- One label came in, for the last time, before another one. -/
def CameInBefore (calls : List Call) (label label' : Label) : Prop :=
  ∃ place place', CameIn calls label place ∧ CameIn calls label' place' ∧
    place < place'

variable {calls : List Call} {call : Call} {label label' : Label}
  {place : Nat} {x : Extras}

/-- A call decides the tokens of the label that it sets. -/
theorem tokensAfter_of_sets (calls : List Call) (h : call.Sets label) :
    tokensAfter (calls ++ [call]) label = call.tokens := by
  have hfilter : [call].filter (Call.Sets label ·) = [call] := by simp [h]
  rw [tokensAfter, List.filter_append, hfilter, List.getLast?_concat]

/-- A call leaves the tokens of the labels alone that it does not set. -/
theorem tokensAfter_of_not_sets (calls : List Call) (h : ¬call.Sets label) :
    tokensAfter (calls ++ [call]) label = tokensAfter calls label := by
  have hfilter : [call].filter (Call.Sets label ·) = [] := by simp [h]
  rw [tokensAfter, tokensAfter, List.filter_append, hfilter, List.append_nil]

theorem mem_map_label_of_tokensAfter (h : tokensAfter calls label ≠ []) :
    label ∈ calls.map Call.label := by
  rw [tokensAfter] at h
  cases hlast : (calls.filter (Call.Sets label ·)).getLast? with
  | none => simp [hlast] at h
  | some call =>
    obtain ⟨hmem, hsets⟩ := List.mem_filter.1 (List.mem_of_getLast? hlast)
    obtain ⟨rfl, -⟩ := of_decide_eq_true hsets
    exact List.mem_map.2 ⟨call, hmem, rfl⟩

/-- The calls that bring a label in are those that did so before, and
perhaps the last one. -/
theorem bringsIn_concat :
    BringsIn (calls ++ [call]) label place ↔
      BringsIn calls label place ∨
        place = calls.length ∧ call.Sets label ∧
          call.tokens ≠ [] ∧ tokensAfter calls label = [] := by
  constructor
  · rintro ⟨call', hplace, hsets, htokens, hbefore⟩
    rw [List.getElem?_append] at hplace
    split at hplace
    · rename_i hlt
      rw [List.take_append_of_le_length (Nat.le_of_lt hlt)] at hbefore
      exact .inl ⟨call', hplace, hsets, htokens, hbefore⟩
    · rename_i hnot
      obtain ⟨hindex, rfl⟩ : place - calls.length = 0 ∧ call = call' := by
        simpa [List.getElem?_singleton] using hplace
      obtain rfl : place = calls.length := by omega
      rw [List.take_left] at hbefore
      exact .inr ⟨rfl, hsets, htokens, hbefore⟩
  · rintro (⟨call', hplace, hsets, htokens, hbefore⟩ |
      ⟨rfl, hsets, htokens, hbefore⟩)
    · obtain ⟨hlt, -⟩ := List.getElem?_eq_some_iff.1 hplace
      refine ⟨call', ?_, hsets, htokens, ?_⟩
      · rwa [List.getElem?_append_left hlt]
      · rwa [List.take_append_of_le_length (Nat.le_of_lt hlt)]
    · refine ⟨call, by simp, hsets, htokens, ?_⟩
      rwa [List.take_left]

theorem lt_of_cameIn (h : CameIn calls label place) : place < calls.length := by
  obtain ⟨⟨call, hplace, -⟩, -⟩ := h
  exact (List.getElem?_eq_some_iff.1 hplace).1

/-- A label comes in for the last time at one place only. -/
theorem CameIn.unique (h : CameIn calls label place) {place' : Nat}
    (h' : CameIn calls label place') : place = place' :=
  Nat.le_antisymm (h'.2 place h.1) (h.2 place' h'.1)

/-- Labels that came in one after another have increasing places at
which they did. -/
theorem exists_places {labels : List Label}
    (hcame : ∀ label ∈ labels, ∃ place, CameIn calls label place)
    (hordered : labels.Pairwise (CameInBefore calls)) :
    ∃ places, List.Forall₂ (CameIn calls) labels places ∧
      places.Pairwise (· < ·) := by
  suffices h : ∃ places, List.Forall₂ (CameIn calls) labels places ∧
      places.Pairwise (· < ·) ∧
      ∀ place ∈ places, ∃ label ∈ labels, CameIn calls label place by
    obtain ⟨places, hplaces, hincreasing, -⟩ := h
    exact ⟨places, hplaces, hincreasing⟩
  induction labels with
  | nil => exact ⟨[], .nil, .nil, fun _ h => absurd h List.not_mem_nil⟩
  | cons label labels ih =>
    obtain ⟨hfirst, hrest⟩ := List.pairwise_cons.1 hordered
    obtain ⟨place, hplace⟩ := hcame label List.mem_cons_self
    obtain ⟨places, hplaces, hincreasing, hback⟩ :=
      ih (fun label' hmem => hcame label' (List.mem_cons_of_mem _ hmem)) hrest
    refine ⟨place :: places, .cons hplace hplaces,
      List.pairwise_cons.2 ⟨fun place' hmem => ?_, hincreasing⟩,
      fun place' hmem => ?_⟩
    · obtain ⟨label', hlabel', hplace'⟩ := hback place' hmem
      obtain ⟨_, _, hcame, hcame', hlt⟩ := hfirst label' hlabel'
      rwa [hcame.unique hplace, hcame'.unique hplace'] at hlt
    · rcases List.mem_cons.1 hmem with rfl | hmem
      · exact ⟨label, List.mem_cons_self, hplace⟩
      · obtain ⟨label', hlabel', hplace'⟩ := hback place' hmem
        exact ⟨label', List.mem_cons_of_mem _ hlabel', hplace'⟩

/-- A label that has tokens, or is not set, keeps the place at
which it came in. -/
theorem CameIn.concat (h : CameIn calls label place) {call : Call}
    (hstays : ¬call.Sets label ∨ tokensAfter calls label ≠ []) :
    CameIn (calls ++ [call]) label place := by
  refine ⟨bringsIn_concat.2 (.inl h.1), fun later hlater => ?_⟩
  rcases bringsIn_concat.1 hlater with hlater | ⟨-, hsets, -, hbefore⟩
  · exact h.2 later hlater
  · rcases hstays with hnot | htokens
    · exact absurd hsets hnot
    · exact absurd hbefore htokens

/-- A label that is given tokens when it has none comes in by this call. -/
theorem cameIn_concat (hsets : call.Sets label) (htokens : call.tokens ≠ [])
    (hbefore : tokensAfter calls label = []) :
    CameIn (calls ++ [call]) label calls.length := by
  refine ⟨bringsIn_concat.2 (.inr ⟨rfl, hsets, htokens, hbefore⟩),
    fun later hlater => ?_⟩
  rcases bringsIn_concat.1 hlater with ⟨call', hplace, -⟩ | ⟨rfl, -⟩
  · exact Nat.le_of_lt (List.getElem?_eq_some_iff.1 hplace).1
  · exact Nat.le_refl _

/-! ### What a call does to a record -/

/-- A call succeeds where its vocabulary has the label, and otherwise
blames the label. -/
theorem set_eq (x : Extras) (call : Call) :
    if call.label ∈ call.vocabulary.labels then
      x.set call.vocabulary call.label call.tokens = .ok (x.after call)
    else
      x.set call.vocabulary call.label call.tokens =
          .error (.invalidLabel call.vocabulary.owner call.label) ∧
        x.after call = x := by
  rw [after, set, Vocabulary.contains]
  by_cases hlabel : call.label ∈ call.vocabulary.labels <;> simp [hlabel]

theorem after_eq (x : Extras) (call : Call) :
    x.after call = if call.label ∈ call.vocabulary.labels then
      if call.tokens = [] then x.erase call.label
      else x.insert call.label call.tokens
    else x := by
  rw [after, set, Vocabulary.contains]
  by_cases hlabel : call.label ∈ call.vocabulary.labels
  · by_cases htokens : call.tokens = [] <;> simp [hlabel, htokens]
  · simp [hlabel]

theorem lookup_erase (x : Extras) (label label' : Label) :
    (x.erase label).entries.lookup label' =
      if label' = label then none else x.entries.lookup label' := by
  rw [erase]
  induction x.entries with
  | nil => simp
  | cons entry entries ih =>
    obtain ⟨name, tokens⟩ := entry
    by_cases hname : name = label
    · rw [List.filter_cons_of_neg (by simpa using hname), ih, List.lookup_cons]
      by_cases hlabel : label' = label
      · rw [if_pos hlabel, if_pos hlabel]
      · have hne : (label' == name) = false := by simpa [hname] using hlabel
        rw [if_neg hlabel, if_neg hlabel, hne]
    · rw [List.filter_cons_of_pos (by simpa using hname), List.lookup_cons, ih,
        List.lookup_cons]
      by_cases hlabel : label' = label
      · have hne : (label' == name) = false := by
          simpa [hlabel] using Ne.symm hname
        rw [if_pos hlabel, if_pos hlabel, hne]
      · rw [if_neg hlabel, if_neg hlabel]

theorem lookup_insert (x : Extras) (label : Label) (run : List Token)
    (label' : Label) :
    (x.insert label run).entries.lookup label' =
      if label' = label then some run else x.entries.lookup label' := by
  by_cases hmem : label ∈ x.labels
  · rw [insert_of_mem hmem, Named.lookup_map_named fun name tokens =>
      if name = label then run else tokens]
    by_cases hlabel : label' = label
    · obtain ⟨tokens, htokens⟩ :=
        Named.exists_lookup (hlabel ▸ hmem : label' ∈ x.entries.map Prod.fst)
      rw [htokens, Option.map_some, if_pos hlabel, if_pos hlabel]
    · simp only [if_neg hlabel, Option.map_id']
  · have hlacks : x.Lacks label := Named.lookup_eq_none.2 hmem
    by_cases hlabel : label' = label
    · rw [if_pos hlabel, hlabel, insert_of_lacks hlacks,
        Named.lookup_append_of_notMem _ hmem, List.lookup_cons_self]
    · rw [if_neg hlabel, lookup_insert_of_ne hlacks hlabel]

/-! ### A record and its calls -/

/-- A record agrees with the calls that have made it: its labels are those with
tokens, each once, in the order in which they came in. -/
structure History (calls : List Call) (x : Extras) : Prop where
  lookup_eq : ∀ label, x.entries.lookup label =
    if tokensAfter calls label = [] then none
      else some (tokensAfter calls label)
  nodup : x.labels.Nodup
  cameIn : ∀ label ∈ x.labels, ∃ place, CameIn calls label place
  ordered : x.labels.Pairwise (CameInBefore calls)

namespace History

theorem empty : History [] .empty :=
  ⟨fun _ => rfl, List.nodup_nil, fun _ h => absurd h List.not_mem_nil,
    List.Pairwise.nil⟩

theorem mem_labels (h : History calls x) :
    label ∈ x.labels ↔ tokensAfter calls label ≠ [] := by
  rw [← not_iff_not, Classical.not_not, labels,
    ← Named.lookup_eq_none, h.lookup_eq]
  split <;> simp_all

/-- Labels that keep their places keep their order. -/
theorem ordered_of_sublist (h : History calls x) (call : Call)
    {kept : List Label} (hkept : kept.Sublist x.labels)
    (hstays : ∀ label ∈ kept, ¬call.Sets label ∨ tokensAfter calls label ≠ []) :
    (∀ label ∈ kept, ∃ place, CameIn (calls ++ [call]) label place) ∧
      kept.Pairwise (CameInBefore (calls ++ [call])) := by
  constructor
  · intro label hlabel
    obtain ⟨place, hplace⟩ := h.cameIn label (hkept.subset hlabel)
    exact ⟨place, hplace.concat (hstays label hlabel)⟩
  · refine (h.ordered.sublist hkept).imp_of_mem ?_
    rintro label label' hlabel hlabel' ⟨place, place', hplace, hplace', hlt⟩
    exact ⟨place, place', hplace.concat (hstays label hlabel),
      hplace'.concat (hstays label' hlabel'), hlt⟩

/-- A call that is refused changes nothing. -/
theorem refused (h : History calls x)
    (hlabel : call.label ∉ call.vocabulary.labels) :
    History (calls ++ [call]) x := by
  have hnot : ∀ label, ¬call.Sets label := by
    rintro label ⟨rfl, hmem⟩
    exact hlabel hmem
  obtain ⟨hcame, hordered⟩ := h.ordered_of_sublist call (List.Sublist.refl _)
    fun label _ => .inl (hnot label)
  refine ⟨fun label => ?_, h.nodup, hcame, hordered⟩
  rw [tokensAfter_of_not_sets calls (hnot label)]
  exact h.lookup_eq label

/-- The other labels stay in order when one is taken out. -/
theorem erased (h : History calls x)
    (hlabel : call.label ∈ call.vocabulary.labels)
    (htokens : call.tokens = []) :
    History (calls ++ [call]) (x.erase call.label) := by
  have hsub := labels_erase_sublist x call.label
  obtain ⟨hcame, hordered⟩ := h.ordered_of_sublist call hsub fun label hmem =>
    .inr (h.mem_labels.1 (hsub.subset hmem))
  refine ⟨fun label => ?_, h.nodup.sublist hsub, hcame, hordered⟩
  rw [lookup_erase]
  by_cases hname : label = call.label
  · subst hname
    rw [if_pos rfl, tokensAfter_of_sets calls ⟨rfl, hlabel⟩, if_pos htokens]
  · rw [if_neg hname,
      tokensAfter_of_not_sets calls fun hsets => hname hsets.1.symm]
    exact h.lookup_eq label

/-- A label that is overwritten keeps its place, and a new one comes last. -/
theorem inserted (h : History calls x)
    (hlabel : call.label ∈ call.vocabulary.labels)
    (htokens : call.tokens ≠ []) :
    History (calls ++ [call]) (x.insert call.label call.tokens) := by
  have hlookup :
      ∀ label, (x.insert call.label call.tokens).entries.lookup label =
        if tokensAfter (calls ++ [call]) label = [] then none
        else some (tokensAfter (calls ++ [call]) label) := by
    intro label
    rw [lookup_insert]
    by_cases hname : label = call.label
    · subst hname
      rw [if_pos rfl, tokensAfter_of_sets calls ⟨rfl, hlabel⟩, if_neg htokens]
    · rw [if_neg hname,
        tokensAfter_of_not_sets calls fun hsets => hname hsets.1.symm]
      exact h.lookup_eq label
  have hnodup := nodup_labels_insert h.nodup call.label call.tokens
  obtain ⟨hcame, hordered⟩ := h.ordered_of_sublist call (List.Sublist.refl _)
    fun label hmem => .inr (h.mem_labels.1 hmem)
  by_cases hmem : call.label ∈ x.labels
  · have hlabels := labels_insert_of_mem hmem call.tokens
    exact ⟨hlookup, hnodup, hlabels ▸ hcame, hlabels ▸ hordered⟩
  · have hlabels := labels_insert_of_notMem hmem call.tokens
    have hnew : CameIn (calls ++ [call]) call.label calls.length :=
      cameIn_concat ⟨rfl, hlabel⟩ htokens
        (by simpa using mt h.mem_labels.2 hmem)
    refine ⟨hlookup, hnodup, ?_, ?_⟩
    · rw [hlabels]
      intro label hlabel
      rcases List.mem_append.1 hlabel with hlabel | hlabel
      · exact hcame label hlabel
      · exact ⟨calls.length, List.mem_singleton.1 hlabel ▸ hnew⟩
    · rw [hlabels, List.pairwise_append]
      refine ⟨hordered, List.pairwise_singleton _ _,
        fun label hlabel label' hlabel' => ?_⟩
      obtain ⟨place, hplace⟩ := h.cameIn label hlabel
      have hstays : CameIn (calls ++ [call]) label place :=
        hplace.concat (.inr (h.mem_labels.1 hlabel))
      rw [List.mem_singleton] at hlabel'
      exact ⟨place, calls.length, hstays, hlabel' ▸ hnew, lt_of_cameIn hplace⟩

/-- One more call keeps a record in agreement with its calls. -/
theorem after (h : History calls x) (call : Call) :
    History (calls ++ [call]) (x.after call) := by
  rw [after_eq]
  by_cases hlabel : call.label ∈ call.vocabulary.labels
  · rw [if_pos hlabel]
    by_cases htokens : call.tokens = []
    · rw [if_pos htokens]
      exact h.erased hlabel htokens
    · rw [if_neg htokens]
      exact h.inserted hlabel htokens
  · rw [if_neg hlabel]
    exact h.refused hlabel

end History

theorem ofCalls_concat (calls : List Call) (call : Call) :
    ofCalls (calls ++ [call]) = (ofCalls calls).after call := by
  rw [ofCalls, List.foldl_append]
  rfl

theorem history_ofCalls (calls : List Call) :
    History calls (ofCalls calls) := by
  induction calls using List.reverseRecOn with
  | nil => exact .empty
  | append_singleton calls call ih =>
    rw [ofCalls_concat]
    exact ih.after call

/-- Calls can only make records in which a label stands once, with tokens. -/
theorem proper_ofCalls (calls : List Call) : (ofCalls calls).Proper := by
  induction calls using List.reverseRecOn with
  | nil => exact proper_empty
  | append_singleton calls call ih =>
    rw [ofCalls_concat, after]
    cases hset : (ofCalls calls).set call.vocabulary call.label call.tokens with
    | ok x => exact ih.set hset
    | error e => exact ih

/-- After any calls, a record has under each label the tokens of the last call
that set it. Its entries are the labels with tokens, each once, in the order in
which the label came in for the last time. A call fails just where its
vocabulary lacks the label, and then it changes nothing. -/
theorem record_of_calls (calls : List Call) :
    (∀ label, (ofCalls calls).get label = tokensAfter calls label) ∧
      (∀ label tokens, (label, tokens) ∈ (ofCalls calls).entries ↔
        tokens = tokensAfter calls label ∧ tokens ≠ []) ∧
      (ofCalls calls).labels.Nodup ∧
      (∃ places, List.Forall₂ (CameIn calls) (ofCalls calls).labels places ∧
        places.Pairwise (· < ·)) ∧
      (ofCalls calls).size = ((calls.map Call.label).toFinset.filter
        (tokensAfter calls · ≠ [])).card ∧
      ∀ call : Call, if call.label ∈ call.vocabulary.labels then
          (ofCalls calls).set call.vocabulary call.label call.tokens =
            .ok (ofCalls (calls ++ [call]))
        else
          (ofCalls calls).set call.vocabulary call.label call.tokens =
              .error (.invalidLabel call.vocabulary.owner call.label) ∧
            ofCalls (calls ++ [call]) = ofCalls calls := by
  have h := history_ofCalls calls
  refine ⟨fun label => ?_, fun label tokens => ?_, h.nodup,
    exists_places h.cameIn h.ordered, ?_, fun call => ?_⟩
  · rw [get, h.lookup_eq]
    split <;> simp_all
  · constructor
    · intro hmem
      have hlookup := h.lookup_eq label
      rw [Named.lookup_of_mem h.nodup hmem] at hlookup
      split at hlookup
      · cases hlookup
      · rename_i htokens
        obtain rfl := Option.some.inj hlookup
        exact ⟨rfl, htokens⟩
    · rintro ⟨rfl, htokens⟩
      refine Named.mem_of_lookup ?_
      rw [h.lookup_eq, if_neg htokens]
  · have hset :
        (calls.map Call.label).toFinset.filter (tokensAfter calls · ≠ []) =
          (ofCalls calls).labels.toFinset := by
      ext label
      rw [Finset.mem_filter, List.mem_toFinset, List.mem_toFinset, h.mem_labels]
      exact ⟨And.right,
        fun htokens => ⟨mem_map_label_of_tokensAfter htokens, htokens⟩⟩
    rw [hset, List.toFinset_card_of_nodup h.nodup, labels,
      List.length_map, size]
  · rw [ofCalls_concat]
    exact set_eq (ofCalls calls) call

end Extras

end Lossless
