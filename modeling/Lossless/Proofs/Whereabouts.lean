import Lossless.Proofs.Rigidity
import Lossless.Proofs.Spelled
import Mathlib.Data.List.Induction

/-!
# Runs by the leaves behind them

The leaves of what is written are counted from zero. `runBefore` is the run that
stands in front of a leaf, or behind all leaves. For a token stream these are
the maximal runs of extras (`runBefore_ofTokens`); and for members in a row, one
between two of them is the run that the gap's anchor leads to, and one inside of
a member is the member's own (`runBefore_along`).
-/

namespace Lossless

namespace Cst

namespace Piece

/-- The run in front of the leaf with a number, or behind the last leaf. -/
def runBefore : List Piece → Nat → List Token
  | [], _ => []
  | .leaf _ :: _, 0 => []
  | .leaf _ :: ps, k + 1 => runBefore ps k
  | .extras run :: ps, 0 => run ++ runBefore ps 0
  | .extras _ :: ps, k + 1 => runBefore ps (k + 1)

/-- The number of leaves among some pieces. -/
def leafCount (ps : List Piece) : Nat := (leaves ps).length

@[simp] theorem leafCount_nil : leafCount [] = 0 := rfl

theorem leafCount_append (ps ps' : List Piece) :
    leafCount (ps ++ ps') = leafCount ps + leafCount ps' := by
  rw [leafCount, leaves_append, List.length_append]
  rfl

@[simp] theorem leafCount_leaf (text : String) (ps : List Piece) :
    leafCount (.leaf text :: ps) = leafCount ps + 1 :=
  (leafCount_append [.leaf text] ps).trans (Nat.add_comm ..)

@[simp] theorem leafCount_extras (run : List Token) (ps : List Piece) :
    leafCount (.extras run :: ps) = leafCount ps := by
  have hrun : leafCount [.extras run] = 0 := by
    rw [leafCount, leaves, row, List.flatMap_singleton, signs,
      Sign.words_map_sign]
    rfl
  rw [← List.singleton_append, leafCount_append, hrun, Nat.zero_add]

theorem leafCount_ofRun (run : List Token) : leafCount (ofRun run) = 0 := by
  rw [leafCount, leaves_ofRun]
  rfl

/-- Behind the last leaf there are no leaves. -/
theorem runBefore_of_lt {ps : List Piece} {k : Nat} (h : leafCount ps < k) :
    runBefore ps k = [] := by
  induction ps generalizing k with
  | nil => rfl
  | cons p ps ih =>
    cases k with
    | zero => exact absurd h (Nat.not_lt_zero _)
    | succ k =>
      cases p with
      | leaf text => exact ih (by simpa using h)
      | extras run => exact ih (by simpa using h)

theorem runBefore_append_of_lt {ps : List Piece} (ps' : List Piece) {k : Nat}
    (h : k < leafCount ps) : runBefore (ps ++ ps') k = runBefore ps k := by
  induction ps generalizing k with
  | nil => exact absurd h (Nat.not_lt_zero _)
  | cons p ps ih =>
    cases p with
    | leaf text =>
      cases k with
      | zero => rfl
      | succ k => exact ih (by simpa using h)
    | extras run =>
      have hrest := ih (k := k) (by simpa using h)
      cases k with
      | zero => exact congrArg (run ++ ·) hrest
      | succ k => exact hrest

/-- Behind the leaves of some pieces come the others. -/
theorem runBefore_append (ps ps' : List Piece) (k : Nat) :
    runBefore (ps ++ ps') (leafCount ps + k) =
      runBefore ps (leafCount ps + k) ++ runBefore ps' k := by
  induction ps with
  | nil => simp [runBefore]
  | cons p ps ih =>
    cases p with
    | leaf text =>
      rw [leafCount_leaf, Nat.add_right_comm]
      exact ih
    | extras run =>
      rw [leafCount_extras]
      cases hk : leafCount ps + k with
      | zero =>
        rw [hk] at ih
        rw [List.cons_append, runBefore, runBefore, ih, List.append_assoc]
      | succ k' =>
        rw [hk] at ih
        exact ih

theorem runBefore_ofRun (run : List Token) : runBefore (ofRun run) 0 = run := by
  cases run <;> simp [ofRun, runBefore]

/-- Nothing stands in front of pieces that begin with a leaf. -/
theorem runBefore_of_opens {ps : List Piece}
    (h : ∃ text, (row ps).head? = some (.leaf text)) : runBefore ps 0 = [] := by
  induction ps with
  | nil => rfl
  | cons p ps ih =>
    cases p with
    | leaf text => rfl
    | extras run =>
      cases run with
      | nil => exact ih h
      | cons t run =>
        obtain ⟨text, h⟩ := h
        exact nomatch h

/-- Nothing stands behind pieces that end with a leaf. -/
theorem runBefore_of_closes {ps : List Piece}
    (h : ∃ text, (row ps).getLast? = some (.leaf text)) :
    runBefore ps (leafCount ps) = [] := by
  induction ps using List.reverseRecOn with
  | nil => rfl
  | append_singleton ps p ih =>
    cases p with
    | leaf text =>
      have hcount : leafCount (ps ++ [.leaf text]) = leafCount ps + 1 :=
        leafCount_append ..
      rw [hcount, runBefore_append, runBefore_of_lt (Nat.lt_succ_self _)]
      rfl
    | extras run =>
      cases run with
      | nil =>
        have hcount : leafCount (ps ++ [.extras []]) = leafCount ps :=
          leafCount_append ..
        have hlast : row (ps ++ [.extras []]) = row ps := by
          rw [row_append]
          exact List.append_nil _
        rw [hlast] at h
        have hbehind := runBefore_append ps [.extras []] 0
        rw [hcount]
        rwa [Nat.add_zero, ih h] at hbehind
      | cons t run =>
        obtain ⟨text, h⟩ := h
        have hlast : row (ps ++ [.extras (t :: run)]) =
            row ps ++ (t :: run).map Token.sign := by
          rw [row_append]
          exact congrArg _ (List.append_nil _)
        rw [hlast, List.getLast?_append_of_ne_nil _ (by simp),
          List.getLast?_map] at h
        obtain ⟨t', -, hsign⟩ := Option.map_eq_some_iff.1 h
        exact nomatch hsign

/-! ### Token streams -/

/-- The number of tokens that carry meaning. -/
def leavesIn (tokens : List SourceToken) : Nat := tokens.countP (!·.isExtra)

theorem runBefore_addExtra (t : Token) (ps : List Piece) :
    runBefore (addExtra t ps) 0 = t :: runBefore ps 0 ∧
      ∀ k, runBefore (addExtra t ps) (k + 1) = runBefore ps (k + 1) := by
  cases ps with
  | nil => exact ⟨rfl, fun _ => rfl⟩
  | cons p ps => cases p <;> exact ⟨rfl, fun _ => rfl⟩

theorem runBefore_ofTokens_zero {run behind : List SourceToken}
    (hrun : ∀ t ∈ run, t.isExtra = true)
    (hbehind : ∀ t, behind.head? = some t → t.isExtra = false) :
    runBefore (ofTokens (run ++ behind)) 0 = run.map SourceToken.token := by
  induction run with
  | nil =>
    cases behind with
    | nil => rfl
    | cons t behind =>
      rw [List.nil_append, ofTokens_cons_of_leaf (hbehind t rfl)]
      rfl
  | cons t run ih =>
    have hpieces : ofTokens (t :: run ++ behind) =
        addExtra t.token (ofTokens (run ++ behind)) :=
      if_pos (hrun t List.mem_cons_self)
    rw [hpieces, (runBefore_addExtra _ _).1,
      ih fun t' ht' => hrun t' (List.mem_cons_of_mem _ ht'), List.map_cons]

/-- The run in front of a leaf is the run of extras there. -/
theorem runBefore_ofTokens {front run behind : List SourceToken}
    (hfront : ∀ t, front.getLast? = some t → t.isExtra = false)
    (hrun : ∀ t ∈ run, t.isExtra = true)
    (hbehind : ∀ t, behind.head? = some t → t.isExtra = false) :
    runBefore (ofTokens (front ++ (run ++ behind))) (leavesIn front) =
      run.map SourceToken.token := by
  induction front with
  | nil => exact runBefore_ofTokens_zero hrun hbehind
  | cons t front ih =>
    have hlater :
        front ≠ [] → ∀ t', front.getLast? = some t' → t'.isExtra = false := by
      intro hne t' ht'
      refine hfront t' ?_
      rw [List.getLast?_cons, ht']
      rfl
    cases ht : t.isExtra with
    | false =>
      have hcount : leavesIn (t :: front) = leavesIn front + 1 := by
        simp [leavesIn, ht]
      rw [List.cons_append, ofTokens_cons_of_leaf ht, hcount, runBefore]
      exact ih fun t' ht' => hlater (by rintro rfl; exact nomatch ht') t' ht'
    | true =>
      have hne : front ≠ [] := by
        rintro rfl
        rw [hfront t rfl] at ht
        exact nomatch ht
      have hcount : leavesIn (t :: front) = leavesIn front := by
        simp [leavesIn, ht]
      have hpos : 0 < leavesIn front := by
        rw [leavesIn, List.countP_pos_iff]
        refine ⟨front.getLast hne, List.getLast_mem hne, ?_⟩
        rw [hlater hne _ (List.getLast?_eq_some_getLast hne)]
        rfl
      have hpieces : ofTokens (t :: front ++ (run ++ behind)) =
          addExtra t.token (ofTokens (front ++ (run ++ behind))) := if_pos ht
      obtain ⟨k, hk⟩ := Nat.exists_eq_succ_of_ne_zero (Nat.ne_of_gt hpos)
      have hrest := ih (hlater hne)
      rw [hk] at hrest
      rw [hpieces, hcount, hk, Nat.succ_eq_add_one, (runBefore_addExtra _ _).2]
      exact hrest

end Piece

/-! ### Members in a row -/

/-- The number of leaves that a member writes. -/
def Member.width (s : Schema) (m : Member) : Nat := (m.leaves s).length

/-- The number of leaves that members write. -/
def widthOf (s : Schema) (ms : List (Element × Member)) : Nat :=
  (leavesOf s ms).length

section

variable {s : Schema} {owner : Owner} {schedule : Schedule} {own : Extras}
  {root : Bool} {left : Option Write.Left} {m : Element × Member}
  {front behind ms : List (Element × Member)} {ps inside : List Piece} {k : Nat}

@[simp] theorem widthOf_nil (s : Schema) : widthOf s [] = 0 := rfl

@[simp] theorem widthOf_cons (s : Schema) (m : Element × Member)
    (ms : List (Element × Member)) :
    widthOf s (m :: ms) = m.2.width s + widthOf s ms := by
  rw [widthOf, leavesOf, List.flatMap_cons, List.length_append]
  rfl

@[simp] theorem widthOf_append (s : Schema) (ms ms' : List (Element × Member)) :
    widthOf s (ms ++ ms') = widthOf s ms + widthOf s ms' := by
  rw [widthOf, leavesOf, List.flatMap_append, List.length_append]
  rfl

theorem Member.width_of_pieces {m : Member}
    (h : (m.content s).pieces = .ok inside) :
    m.width s = Piece.leafCount inside := by
  rw [width, Member.leaves_of_pieces h]
  rfl

/-- Members that begin and end with a leaf, whatever is written for them. -/
def Member.Bounded (s : Schema) (m : Member) : Prop :=
  ∀ ps, (m.content s).pieces = .ok ps → Enclosed (Piece.row ps)

theorem leafCount_pos (h : Enclosed (Piece.row ps)) :
    0 < Piece.leafCount ps := by
  obtain ⟨text, htext⟩ := h.opens
  rw [Piece.leafCount, Piece.leaves, List.length_map, Sign.words]
  refine List.length_pos_of_mem (a := text) (List.mem_filterMap.2 ⟨.leaf text,
    ?_, rfl⟩)
  exact List.mem_of_mem_head? htext

/-- What stands in front of what comes behind some members. -/
def leftBehind (left : Option Write.Left) (front : List (Element × Member)) :
    Option Write.Left :=
  front.foldl (fun _ m => some (leftOf m)) left

/-- The run that the gap in front of an element reads. -/
def gapRun (s : Schema) (owner : Owner) (schedule : Schedule) (own : Extras)
    (left : Option Write.Left) (e : Element) (right : Option Extras) :
    List Token :=
  ((placeOf s owner schedule (left.map Write.Left.element) e).map
    (view own (left.bind Write.Left.extras?) right)).getD []

/-- In front of a first member stands the run of the gap, inside of it are its
own runs, and those behind its leaves are those of the others. -/
theorem runBefore_cons (hm : m.2.Bounded s)
    (h : Write.along s owner schedule own root left (contents s (m :: ms)) =
      .ok ps) :
    ∃ inside rest, (m.2.content s).pieces = .ok inside ∧
      Write.along s owner schedule own root (some (leftOf m)) (contents s ms) =
        .ok rest ∧
      Piece.runBefore ps 0 = gapRun s owner schedule own left m.1 m.2.record? ∧
      0 < m.2.width s ∧ (∀ k, 0 < k →
        k < m.2.width s → Piece.runBefore ps k = Piece.runBefore inside k) ∧
      ∀ k, Piece.runBefore ps (m.2.width s + k) = Piece.runBefore rest k := by
  obtain ⟨inside, rest, hinside, hrest, rfl⟩ := along_cons_eq_ok h
  have henclosed := hm inside hinside
  have hpos := leafCount_pos henclosed
  have hgap :
      ∀ k, Piece.runBefore
          (Piece.ofRun (gapRun s owner schedule own left m.1 m.2.record?) ++
            (inside ++ rest)) k =
        Piece.runBefore (Piece.ofRun
          (gapRun s owner schedule own left m.1 m.2.record?)) k ++
          Piece.runBefore (inside ++ rest) k := by
    intro k
    have happend := Piece.runBefore_append
      (Piece.ofRun (gapRun s owner schedule own left m.1 m.2.record?))
      (inside ++ rest) k
    rwa [Piece.leafCount_ofRun, Nat.zero_add] at happend
  have hwide : ∀ k, 0 < k → Piece.runBefore
      (Piece.ofRun (gapRun s owner schedule own left m.1 m.2.record?)) k = [] :=
    fun k hk => Piece.runBefore_of_lt (by rwa [Piece.leafCount_ofRun])
  rw [Member.width_of_pieces hinside]
  refine ⟨inside, rest, hinside, hrest, ?_, hpos,
    fun k hk hlt => ?_, fun k => ?_⟩
  · rw [← gapRun, hgap, Piece.runBefore_ofRun,
      Piece.runBefore_append_of_lt rest hpos,
      Piece.runBefore_of_opens henclosed.opens, List.append_nil]
  · rw [← gapRun, hgap, hwide k hk, List.nil_append,
      Piece.runBefore_append_of_lt rest hlt]
  · have hend : Piece.runBefore inside (Piece.leafCount inside + k) = [] := by
      cases k with
      | zero => exact Piece.runBefore_of_closes henclosed.closes
      | succ k => exact Piece.runBefore_of_lt (by omega)
    rw [← gapRun, hgap, hwide _ (by omega), List.nil_append,
      Piece.runBefore_append, hend, List.nil_append]

/-- Behind the leaves of the members in front, the runs are those of the
members that follow. -/
theorem runBefore_along (hms : ∀ m ∈ front, m.2.Bounded s)
    (h : Write.along s owner schedule own root left (contents s (front ++ ms)) =
      .ok ps) :
    ∃ rest, Write.along s owner schedule own root (leftBehind left front)
        (contents s ms) = .ok rest ∧
      ∀ k, Piece.runBefore ps (widthOf s front + k) =
        Piece.runBefore rest k := by
  induction front generalizing left ps with
  | nil => exact ⟨ps, h, fun k => by rw [widthOf_nil, Nat.zero_add]⟩
  | cons m front ih =>
    obtain ⟨_, middle, -, hmiddle, -, -, -, hbehind⟩ :=
      runBefore_cons (hms m List.mem_cons_self) h
    obtain ⟨rest, hrest, hruns⟩ :=
      ih (fun m' hm' => hms m' (List.mem_cons_of_mem _ hm')) hmiddle
    refine ⟨rest, hrest, fun k => ?_⟩
    rw [widthOf_cons, Nat.add_assoc, hbehind, hruns]

/-- Behind all leaves of the root is the run up to the end of the text. -/
theorem runBefore_end (hms : ∀ m ∈ ms, m.2.Bounded s)
    (h : Write.along s owner schedule own true left (contents s ms) = .ok ps) :
    Piece.runBefore ps (widthOf s ms) =
      gapRun s owner schedule own (leftBehind left ms) .stop none := by
  rw [← List.append_nil ms] at h
  obtain ⟨rest, hrest, hruns⟩ := runBefore_along hms h
  rw [← Nat.add_zero (widthOf s ms), hruns, along_nil_eq_ok hrest,
    Piece.runBefore_ofRun]
  rfl

end

end Cst

end Lossless
