import Lossless.Proofs.Acceptance
import Lossless.Proofs.Pieces

/-!
# Tokens apart from their places

A sign is a token as far as it does not depend on where it stands: a leaf by its
text, an extra by its kind and text. What is written is a row of signs, and a
token stream that tells the same row is the one to build the tree from again. A
row can be taken apart in one way only: extras reach up to the next leaf, and a
part that ends with a leaf is settled by how many leaves it has.
-/

namespace Lossless

/-- What is left of a token when its place is forgotten. -/
inductive Sign where
  | leaf (text : String)
  | extra (kind : TokenKind) (text : String)
  deriving DecidableEq, Repr

namespace Sign

def isExtra : Sign → Bool
  | extra .. => true
  | leaf _ => false

/-- The text of a leaf. -/
def word? : Sign → Option String
  | leaf text => some text
  | extra .. => none

/-- The texts of the leaves in a row of signs. -/
def words (signs : List Sign) : List String := signs.filterMap word?

end Sign

/-- The sign of an extra. -/
def Token.sign (t : Token) : Sign := .extra t.kind t.text

/-- The sign of a token in a stream. -/
def SourceToken.sign (t : SourceToken) : Sign :=
  if t.isExtra then t.token.sign else .leaf t.text

namespace Sign

@[simp] theorem words_append (signs signs' : List Sign) :
    words (signs ++ signs') = words signs ++ words signs' :=
  List.filterMap_append

theorem words_map_sign (tokens : List Token) :
    words (tokens.map Token.sign) = [] := by
  induction tokens with
  | nil => rfl
  | cons t ts ih => exact ih

/-- The leaves that a stream tells are its tokens that carry meaning. -/
theorem words_of_stream (tokens : List SourceToken) :
    words (tokens.map SourceToken.sign) =
      (tokens.filter (!·.isExtra)).map SourceToken.text := by
  induction tokens with
  | nil => rfl
  | cons t ts ih =>
    have hsplit : words ((t :: ts).map SourceToken.sign) =
        words [t.sign] ++ words (ts.map SourceToken.sign) :=
      words_append [t.sign] _
    rw [hsplit, ih, List.filter_cons, SourceToken.sign]
    cases t.isExtra <;> rfl

/-! ### Taking rows apart -/

variable {front front' behind behind' : List Sign}

/-- Extras up to a leaf or the end are the same in equal rows. -/
theorem extras_append_inj (hfront : ∀ g ∈ front, g.isExtra = true)
    (hfront' : ∀ g ∈ front', g.isExtra = true)
    (hbehind : ∀ g, behind.head? = some g → g.isExtra = false)
    (hbehind' : ∀ g, behind'.head? = some g → g.isExtra = false)
    (h : front ++ behind = front' ++ behind') :
    front = front' ∧ behind = behind' := by
  induction front generalizing front' with
  | nil =>
    cases front' with
    | nil => exact ⟨rfl, h⟩
    | cons g' front' =>
      have hleaf := hbehind g' (by rw [← List.nil_append behind, h]; rfl)
      rw [hfront' g' List.mem_cons_self] at hleaf
      exact nomatch hleaf
  | cons g front ih =>
    cases front' with
    | nil =>
      have hleaf := hbehind' g (by rw [← List.nil_append behind', ← h]; rfl)
      rw [hfront g List.mem_cons_self] at hleaf
      exact nomatch hleaf
    | cons g' front' =>
      obtain ⟨rfl, htail⟩ := List.cons.inj h
      obtain ⟨rfl, hrest⟩ :=
        ih (fun x hx => hfront x (List.mem_cons_of_mem _ hx))
          (fun x hx => hfront' x (List.mem_cons_of_mem _ hx)) htail
      exact ⟨rfl, hrest⟩

theorem eq_nil_of_words
    (hlast : ∀ g, behind.getLast? = some g → g.isExtra = false)
    (hwords : words behind = []) : behind = [] := by
  cases hb : behind.getLast? with
  | none => exact List.getLast?_eq_none_iff.1 hb
  | some g =>
    obtain ⟨others, rfl⟩ := List.getLast?_eq_some_iff.1 hb
    rw [words_append, List.append_eq_nil_iff] at hwords
    cases g with
    | leaf text => exact nomatch hwords.2
    | extra kind text => exact nomatch hlast _ hb

/-- Parts with the same leaves that end with their last leaf are the
same in equal rows. -/
theorem leaves_append_inj
    (hfront : ∀ g, front.getLast? = some g → g.isExtra = false)
    (hfront' : ∀ g, front'.getLast? = some g → g.isExtra = false)
    (hwords : words front = words front')
    (h : front ++ behind = front' ++ behind') :
    front = front' ∧ behind = behind' := by
  rcases List.append_eq_append_iff.1 h with ⟨more, rfl, rfl⟩ | ⟨more, rfl, rfl⟩
  · rw [words_append, List.self_eq_append_right] at hwords
    have hmore := eq_nil_of_words (fun g hg => hfront' g ?_) hwords
    · subst hmore
      exact ⟨(List.append_nil _).symm, rfl⟩
    · rw [List.getLast?_append, hg]
      rfl
  · rw [words_append, List.append_right_eq_self] at hwords
    have hmore := eq_nil_of_words (fun g hg => hfront g ?_) hwords
    · subst hmore
      exact ⟨List.append_nil _, rfl⟩
    · rw [List.getLast?_append, hg]
      rfl

/-! ### Laying signs out -/

/-- A token that tells a sign, from an offset on. -/
def token (offset : Nat) : Sign → SourceToken
  | leaf text => ⟨.semantic, .unknown, text, spanFrom offset text⟩
  | extra kind text => ⟨.extra, kind, text, spanFrom offset text⟩
where
  spanFrom (offset : Nat) (text : String) : Text.Span :=
    ⟨⟨offset, offset + text.utf8ByteSize⟩, ⟨0, offset⟩,
      ⟨0, offset + text.utf8ByteSize⟩⟩

/-- Tokens that tell a row of signs, one behind the other from an offset on. -/
def lay (offset : Nat) : List Sign → List SourceToken
  | [] => []
  | g :: signs => g.token offset :: lay (g.token offset).range.stop signs

theorem map_sign_lay (offset : Nat) (signs : List Sign) :
    (lay offset signs).map SourceToken.sign = signs := by
  induction signs generalizing offset with
  | nil => rfl
  | cons g signs ih =>
    rw [lay, List.map_cons, ih]
    cases g <;> rfl

theorem tiles_lay (offset : Nat) (signs : List Sign) :
    Cst.Build.Tiles offset (lay offset signs) := by
  induction signs generalizing offset with
  | nil => trivial
  | cons g signs ih =>
    refine ⟨?_, ih _⟩
    cases g <;> exact ⟨rfl, (Nat.add_sub_cancel_left ..).symm⟩

end Sign

namespace Cst

/-! ### Pieces -/

namespace Piece

/-- The signs that a piece tells. -/
def signs : Piece → List Sign
  | leaf text => [.leaf text]
  | extras tokens => tokens.map Token.sign

/-- The signs that pieces tell one after another. -/
def row (ps : List Piece) : List Sign := ps.flatMap signs

@[simp] theorem row_nil : row [] = [] := rfl

@[simp] theorem row_append (ps ps' : List Piece) :
    row (ps ++ ps') = row ps ++ row ps' :=
  List.flatMap_append

theorem row_ofRun (run : List Token) :
    row (ofRun run) = run.map Token.sign := by
  cases run with
  | nil => rfl
  | cons t ts => exact List.append_nil _

/-- The pieces of a stream tell the signs of its tokens. -/
theorem row_ofTokens (tokens : List SourceToken) :
    row (ofTokens tokens) = tokens.map SourceToken.sign := by
  induction tokens with
  | nil => rfl
  | cons t ts ih =>
    rw [List.map_cons, ← ih, SourceToken.sign]
    cases ht : t.isExtra with
    | false =>
      rw [ofTokens_cons_of_leaf ht]
      rfl
    | true =>
      rw [ofTokens, List.foldr_cons]
      change row (addToken t (ofTokens ts)) = _
      rw [addToken, ht, if_pos rfl, if_pos rfl]
      cases ofTokens ts with
      | nil => rfl
      | cons p ps => cases p <;> rfl

end Piece

end Cst

end Lossless
