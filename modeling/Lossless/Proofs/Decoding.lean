import Lossless.Program.Literal
import Lossless.Proofs.Munching
import Mathlib.Algebra.Order.Ring.Nat
import Mathlib.Data.List.Induction

/-!
# What a string spells

The inside of a string is a row of pieces: plain characters and escapes.
`IsPiece` says which characters each piece stands for, and `Spells` puts the
pieces together. Decoding finds these pieces one by one (`isPiece_of_escape`,
`decode_eq_ok_iff`), and fails where there is no such row. In the token of a
string every backslash has a character to take along, and cutting off its first
and its last byte leaves what stands between its quotes, so its value is what
this spells (`exists_isString`).
-/

namespace Lossless

/-- `inner` is the slice of a text between two byte offsets: both lie between
characters, in this order, and `inner` is what stands between them. Offsets that
do not so lie have no slice. -/
def Text.IsSlice (text : String) (range : Text.Range) (inner : String) : Prop :=
  ∃ front back, text = front ++ inner ++ back ∧
    front.utf8ByteSize = range.start ∧
    front.utf8ByteSize + inner.utf8ByteSize = range.stop

namespace Literal

open Lexer (isHexDigit)
open Text (isLineTerminator)

/-! ### Pieces of a string -/

/-- A number of hexadecimal digits. -/
structure HexDigits (count : Nat) (ds : List Char) : Prop where
  length : ds.length = count
  isHexDigit : ∀ d ∈ ds, isHexDigit d = true

/-- The number that hexadecimal digits denote. -/
def hexNumber (ds : List Char) : Nat :=
  ds.foldl (fun n d => n * 16 + hexValue d) 0

/-- The letters that stand for control characters behind a backslash. -/
def controls : List (Char × Char) :=
  [('n', '\n'), ('t', '\t'), ('r', '\r'), ('b', '\x08'), ('f', '\x0c'),
    ('v', '\x0b')]

/-- `IsPiece piece value rest`: the piece, in front of the rest, stands for the
characters of the value. An escape by code stands for the character that has
this code, and no character has the code of a surrogate. -/
inductive IsPiece : List Char → List Char → List Char → Prop where
  | plain {c : Char} {rest : List Char} (h : c ≠ '\\') : IsPiece [c] [c] rest
  | control {c d : Char} {rest : List Char} (h : (c, d) ∈ controls) :
      IsPiece ['\\', c] [d] rest
  | null {rest : List Char} (h : ∀ d ∈ rest.head?, d.isDigit = false) :
      IsPiece ['\\', '0'] ['\x00'] rest
  | hex {ds rest : List Char} {c : Char} (hds : HexDigits 2 ds)
      (hc : c.toNat = hexNumber ds) : IsPiece ('\\' :: 'x' :: ds) [c] rest
  | unicode {ds rest : List Char} {c : Char} (hds : HexDigits 4 ds)
      (hc : c.toNat = hexNumber ds) : IsPiece ('\\' :: 'u' :: ds) [c] rest
  | pair {hs ls rest : List Char} {c : Char} (hhs : HexDigits 4 hs)
      (hls : HexDigits 4 ls)
      (hhigh : 0xD800 ≤ hexNumber hs ∧ hexNumber hs ≤ 0xDBFF)
      (hlow : 0xDC00 ≤ hexNumber ls ∧ hexNumber ls ≤ 0xDFFF)
      (hc : c.toNat =
        0x10000 + (hexNumber hs - 0xD800) * 0x400 + (hexNumber ls - 0xDC00)) :
      IsPiece ('\\' :: 'u' :: (hs ++ '\\' :: 'u' :: ls)) [c] rest
  /-- A carriage return in front of a line feed is the first
  half of a line end. -/
  | lineEnd {c : Char} {rest : List Char} (h : isLineTerminator c = true)
      (hrest : c = '\r' → rest.head? ≠ some '\n') : IsPiece ['\\', c] [] rest
  | lineEndPair {rest : List Char} : IsPiece ['\\', '\r', '\n'] [] rest
  | other {c : Char} {rest : List Char} (hcontrol : ∀ d, (c, d) ∉ controls)
      (hline : isLineTerminator c = false) (hdigit : c.isDigit = false)
      (hx : c ≠ 'x') (hu : c ≠ 'u') : IsPiece ['\\', c] [c] rest

/-- A text is a row of pieces whose values make up a value. -/
inductive Spells : List Char → List Char → Prop where
  | nil : Spells [] []
  | cons {piece value rest values : List Char} (h : IsPiece piece value rest)
      (hrest : Spells rest values) : Spells (piece ++ rest) (value ++ values)

/-! ### Codes -/

theorem hexValue_lt {d : Char} (h : isHexDigit d = true) : hexValue d < 16 := by
  simp only [isHexDigit, Bool.or_eq_true, Bool.and_eq_true,
    decide_eq_true_eq] at h
  rw [hexValue]
  split
  · have hdigit : d.toNat ≤ 57 := by
      have hd : d.isDigit = true := by assumption
      simp only [Char.isDigit, Bool.and_eq_true, decide_eq_true_eq,
        UInt32.le_iff_toNat_le] at hd
      exact hd.2
    change d.toNat - 48 < 16
    omega
  · split
    · have hlower : d.toNat ≤ 102 := (by assumption : 'a' ≤ d ∧ d ≤ 'f').2
      change d.toNat - 97 + 10 < 16
      omega
    · have hupper : d.toNat ≤ 70 := by
        rcases h with (h | h) | h
        · contradiction
        · contradiction
        · exact h.2
      change d.toNat - 65 + 10 < 16
      omega

theorem hexNumber_append_singleton (ds : List Char) (d : Char) :
    hexNumber (ds ++ [d]) = hexNumber ds * 16 + hexValue d := by
  rw [hexNumber, hexNumber, List.foldl_append]
  rfl

theorem hexNumber_lt {ds : List Char} (h : ∀ d ∈ ds, isHexDigit d = true) :
    hexNumber ds < 16 ^ ds.length := by
  induction ds using List.reverseRecOn with
  | nil => decide
  | append_singleton ds d ih =>
    rw [hexNumber_append_singleton, List.length_append, List.length_singleton,
      Nat.pow_succ]
    have := ih fun x hx => h x (List.mem_append_left _ hx)
    have := hexValue_lt (h d (by simp))
    omega

/-- Hexadecimal digits are read if that many come next. -/
theorem hexCode_eq_ok {high n : Nat} {cs : List Char} {r : Nat × List Char} :
    hexCode high n cs = .ok r ↔ ∃ ds, HexDigits n ds ∧ cs = ds ++ r.2 ∧
      r.1 = ds.foldl (fun n d => n * 16 + hexValue d) high := by
  fun_induction hexCode high n cs with
  | case1 high cs =>
    constructor
    · intro h
      obtain rfl := Except.ok.inj h
      exact ⟨[], ⟨rfl, fun _ hd => absurd hd List.not_mem_nil⟩, rfl, rfl⟩
    · rintro ⟨ds, hds, hcs, hcode⟩
      obtain rfl := List.length_eq_zero_iff.1 hds.length
      obtain ⟨code, rest⟩ := r
      exact congrArg Except.ok (Prod.ext hcode.symm hcs)
  | case2 high n c cs hc ih =>
    rw [ih]
    constructor
    · rintro ⟨ds, hds, rfl, hcode⟩
      exact ⟨c :: ds, ⟨congrArg (· + 1) hds.length,
        List.forall_mem_cons.2 ⟨hc, hds.isHexDigit⟩⟩, rfl, hcode⟩
    · rintro ⟨ds, hds, hcs, hcode⟩
      cases ds with
      | nil => exact absurd hds.length (by simp)
      | cons d ds =>
        obtain ⟨rfl, rfl⟩ := List.cons.inj hcs
        exact ⟨ds, ⟨Nat.succ.inj hds.length,
          (List.forall_mem_cons.1 hds.isHexDigit).2⟩, rfl, hcode⟩
  | case3 high n c cs hc =>
    refine ⟨fun h => (by cases h), ?_⟩
    rintro ⟨ds, hds, hcs, -⟩
    cases ds with
    | nil => exact absurd hds.length (by simp)
    | cons d ds =>
      obtain ⟨rfl, -⟩ := List.cons.inj hcs
      exact absurd (hds.isHexDigit c List.mem_cons_self) hc
  | case4 high n =>
    refine ⟨fun h => (by cases h), ?_⟩
    rintro ⟨ds, hds, hcs, -⟩
    rw [(List.append_eq_nil_iff.1 hcs.symm).1] at hds
    exact absurd hds.length (by simp)

theorem exists_digits_of_hexCode {n code : Nat} {cs rest : List Char}
    (h : hexCode 0 n cs = .ok (code, rest)) :
    ∃ ds, HexDigits n ds ∧ cs = ds ++ rest ∧ code = hexNumber ds :=
  hexCode_eq_ok.1 h

theorem HexDigits.hexCode_eq {n : Nat} {ds : List Char} (h : HexDigits n ds)
    (rest : List Char) : hexCode 0 n (ds ++ rest) = .ok (hexNumber ds, rest) :=
  hexCode_eq_ok.2 ⟨ds, h, rfl, rfl⟩

theorem exists_digits_of_lowSurrogate {cs rest : List Char} {code : Nat}
    (h : lowSurrogate cs = .ok (code, rest)) :
    ∃ ls, HexDigits 4 ls ∧ cs = '\\' :: 'u' :: (ls ++ rest) ∧
      code = hexNumber ls ∧ 0xDC00 ≤ hexNumber ls ∧ hexNumber ls ≤ 0xDFFF := by
  revert h
  fun_cases lowSurrogate cs with
  | case1 cs =>
    intro h
    obtain ⟨⟨low, rest'⟩, hcode, hlow⟩ := Outcome.bind_eq_ok.1 h
    obtain ⟨ls, hls, rfl, rfl⟩ := exists_digits_of_hexCode hcode
    dsimp only at hlow
    split at hlow
    · obtain ⟨rfl, rfl⟩ := Prod.mk.inj (Except.ok.inj hlow)
      exact ⟨ls, hls, rfl, rfl, ‹_›⟩
    · cases hlow
  | case2 =>
    intro h
    cases h

theorem lowSurrogate_of_digits {ls : List Char} (hls : HexDigits 4 ls)
    (hlow : 0xDC00 ≤ hexNumber ls ∧ hexNumber ls ≤ 0xDFFF) (rest : List Char) :
    lowSurrogate ('\\' :: 'u' :: (ls ++ rest)) = .ok (hexNumber ls, rest) := by
  rw [lowSurrogate, hls.hexCode_eq, Outcome.ok_bind]
  exact if_pos hlow

theorem toNat_ofNat_of_valid {n : Nat} (h : n.isValidChar) :
    (Char.ofNat n).toNat = n := by
  rw [Char.ofNat, dif_pos h]
  rfl

/-- No character has the code of a surrogate. -/
theorem toNat_notMem (c : Char) : ¬(0xD800 ≤ c.toNat ∧ c.toNat ≤ 0xDFFF) := by
  have hvalid : c.toNat.isValidChar := c.valid
  simp only [Nat.isValidChar] at hvalid
  omega

theorem HexDigits.lt {n : Nat} {ds : List Char} (h : HexDigits n ds) :
    hexNumber ds < 16 ^ n :=
  h.length ▸ hexNumber_lt h.isHexDigit

/-! ### Escapes -/

theorem control?_eq_some {c d : Char} :
    control? c = some d ↔ (c, d) ∈ controls := by
  fun_cases control? c <;> simp_all [controls, eq_comm]

theorem isPiece_of_unicodeEscape {cs rest : List Char} {c : Char}
    (h : unicodeEscape cs = .ok (c, rest)) :
    ∃ piece, cs = piece ++ rest ∧ IsPiece ('\\' :: 'u' :: piece) [c] rest := by
  obtain ⟨⟨high, rest'⟩, hhigh, hcode⟩ := Outcome.bind_eq_ok.1 h
  obtain ⟨hs, hhs, rfl, rfl⟩ := exists_digits_of_hexCode hhigh
  have hbound := hhs.lt
  dsimp only at hcode
  split at hcode
  · rename_i hrange
    obtain ⟨⟨low, rest''⟩, hlow, hcode⟩ := Outcome.bind_eq_ok.1 hcode
    obtain ⟨ls, hls, rfl, rfl, hlow, hlow'⟩ :=
      exists_digits_of_lowSurrogate hlow
    obtain ⟨rfl, rfl⟩ := Prod.mk.inj (Except.ok.inj hcode)
    refine ⟨hs ++ '\\' :: 'u' :: ls, by simp,
      .pair hhs hls hrange ⟨hlow, hlow'⟩ ?_⟩
    exact toNat_ofNat_of_valid (.inr (by omega))
  · split at hcode
    · cases hcode
    · obtain ⟨rfl, rfl⟩ := Prod.mk.inj (Except.ok.inj hcode)
      refine ⟨hs, rfl, .unicode hhs (toNat_ofNat_of_valid ?_)⟩
      simp only [Nat.isValidChar]
      omega

theorem unicodeEscape_of_unicode {ds : List Char} {c : Char}
    (hds : HexDigits 4 ds) (hc : c.toNat = hexNumber ds) (rest : List Char) :
    unicodeEscape (ds ++ rest) = .ok (c, rest) := by
  have hrange := toNat_notMem c
  rw [hc] at hrange
  rw [unicodeEscape, hds.hexCode_eq, Outcome.ok_bind]
  dsimp only
  rw [if_neg (by omega), if_neg (by omega), ← hc, Char.ofNat_toNat]

theorem unicodeEscape_of_pair {hs ls : List Char} {c : Char}
    (hhs : HexDigits 4 hs) (hls : HexDigits 4 ls)
    (hhigh : 0xD800 ≤ hexNumber hs ∧ hexNumber hs ≤ 0xDBFF)
    (hlow : 0xDC00 ≤ hexNumber ls ∧ hexNumber ls ≤ 0xDFFF)
    (hc : c.toNat =
      0x10000 + (hexNumber hs - 0xD800) * 0x400 + (hexNumber ls - 0xDC00))
    (rest : List Char) :
    unicodeEscape (hs ++ '\\' :: 'u' :: (ls ++ rest)) = .ok (c, rest) := by
  rw [unicodeEscape, hhs.hexCode_eq, Outcome.ok_bind]
  dsimp only
  rw [if_pos hhigh, lowSurrogate_of_digits hls hlow, Outcome.ok_bind]
  dsimp only
  rw [← hc, Char.ofNat_toNat]

/-- What an escape stands for is a piece. -/
theorem isPiece_of_escape {c : Char} {cs value rest : List Char}
    (h : escape c cs = .ok (value, rest)) :
    ∃ piece, cs = piece ++ rest ∧ IsPiece ('\\' :: c :: piece) value rest := by
  revert h
  fun_cases escape c cs with
  | case1 d hd =>
    rintro ⟨⟩
    exact ⟨[], rfl, .control (control?_eq_some.1 hd)⟩
  | case2 hcontrol hnull =>
    rintro ⟨⟩
    simp only [Bool.and_eq_true, beq_iff_eq] at hnull
    obtain ⟨rfl, hdigit⟩ := hnull
    refine ⟨[], rfl, .null fun d hd => ?_⟩
    rw [hd] at hdigit
    simpa using hdigit
  | case3 hcontrol hnull hx =>
    intro h
    obtain ⟨⟨code, rest'⟩, hcode, hr⟩ := Outcome.map_eq_ok.1 h
    obtain ⟨rfl, rfl⟩ := Prod.mk.inj hr
    obtain ⟨ds, hds, rfl, rfl⟩ := exists_digits_of_hexCode hcode
    obtain rfl := beq_iff_eq.1 hx
    exact ⟨ds, rfl,
      .hex hds (toNat_ofNat_of_valid (.inl (Nat.lt_trans hds.lt (by decide))))⟩
  | case4 hcontrol hnull hx hu =>
    intro h
    obtain ⟨r, hcode, hr⟩ := Outcome.map_eq_ok.1 h
    obtain ⟨rfl, rfl⟩ := Prod.mk.inj hr
    obtain rfl := beq_iff_eq.1 hu
    exact isPiece_of_unicodeEscape hcode
  | case5 =>
    intro h
    cases h
  | case6 hcontrol hnull hx hu hdigit hreturn =>
    rintro ⟨⟩
    obtain rfl := beq_iff_eq.1 hreturn
    fun_cases dropLineFeed cs with
    | case1 cs => exact ⟨['\n'], rfl, .lineEndPair⟩
    | case2 _ hcs =>
      refine ⟨[], rfl, .lineEnd rfl fun _ hhead => ?_⟩
      obtain ⟨ds, rfl⟩ := List.head?_eq_some_iff.1 hhead
      exact hcs ds rfl
  | case7 hcontrol hnull hx hu hdigit hreturn hline =>
    rintro ⟨⟩
    exact ⟨[], rfl, .lineEnd hline fun hc => absurd (beq_iff_eq.2 hc) hreturn⟩
  | case8 hcontrol hnull hx hu hdigit hreturn hline =>
    rintro ⟨⟩
    refine ⟨[], rfl, .other (fun d hd => ?_)
      (Bool.eq_false_iff.2 hline) (Bool.eq_false_iff.2 hdigit)
      (fun hc => hx (beq_iff_eq.2 hc)) (fun hc => hu (beq_iff_eq.2 hc))⟩
    rw [control?_eq_some.2 hd] at hcontrol
    cases hcontrol

theorem escape_hex (cs : List Char) :
    escape 'x' cs = (hexCode 0 2 cs).map fun r => ([Char.ofNat r.1], r.2) := rfl

theorem escape_unicode (cs : List Char) :
    escape 'u' cs = (unicodeEscape cs).map fun r => ([r.1], r.2) := rfl

theorem escape_of_isLineTerminator {c : Char} (h : isLineTerminator c = true)
    {rest : List Char} (hrest : c = '\r' → rest.head? ≠ some '\n') :
    escape c rest = .ok ([], rest) := by
  simp only [isLineTerminator, Bool.or_eq_true, beq_iff_eq] at h
  rcases h with ((rfl | rfl) | rfl) | rfl
  · rfl
  · change Except.ok ([], dropLineFeed rest) = _
    rw [dropLineFeed.eq_2]
    rintro ds rfl
    exact hrest rfl rfl
  · rfl
  · rfl

/-- A piece is a plain character or an escape, which stands for its value. -/
theorem IsPiece.cases {piece value rest : List Char}
    (h : IsPiece piece value rest) :
    (∃ c, c ≠ '\\' ∧ piece = [c] ∧ value = [c]) ∨
      ∃ c ds, piece = '\\' :: c :: ds ∧
        escape c (ds ++ rest) = .ok (value, rest) := by
  cases h with
  | plain h => exact .inl ⟨_, h, rfl, rfl⟩
  | @control c d _ h =>
    refine .inr ⟨c, [], rfl, ?_⟩
    rw [escape, control?_eq_some.2 h]
    rfl
  | null h =>
    refine .inr ⟨'0', [], rfl, ?_⟩
    have hnull : rest.head?.any Char.isDigit = false := by
      cases rest with
      | nil => rfl
      | cons d rest => exact h d rfl
    simp [escape, control?, hnull]
  | @hex ds _ c hds hc =>
    refine .inr ⟨'x', ds, rfl, ?_⟩
    rw [escape_hex, hds.hexCode_eq, ← hc]
    exact congrArg (fun d => Except.ok ([d], rest)) (Char.ofNat_toNat c)
  | unicode hds hc =>
    refine .inr ⟨'u', _, rfl, ?_⟩
    rw [escape_unicode, unicodeEscape_of_unicode hds hc]
    rfl
  | pair hhs hls hhigh hlow hc =>
    refine .inr ⟨'u', _, rfl, ?_⟩
    rw [List.append_assoc, List.cons_append, List.cons_append, escape_unicode,
      unicodeEscape_of_pair hhs hls hhigh hlow hc]
    rfl
  | @lineEnd c _ h hrest =>
    exact .inr ⟨c, [], rfl, escape_of_isLineTerminator h hrest⟩
  | lineEndPair => exact .inr ⟨'\r', ['\n'], rfl, rfl⟩
  | @other c _ hcontrol hline hdigit hx hu =>
    refine .inr ⟨c, [], rfl, ?_⟩
    have hnone : control? c = none := by
      rw [Option.eq_none_iff_forall_ne_some]
      exact fun d hd => hcontrol d (control?_eq_some.1 hd)
    have hzero : c ≠ '0' := fun hc => absurd (hc ▸ hdigit) (by decide)
    have hreturn : c ≠ '\r' := fun hc => absurd (hc ▸ hline) (by decide)
    simp [escape, hnone, hzero, hx, hu, hdigit, hreturn, hline]

/-! ### Decoding -/

theorem decode_plain {c : Char} (hc : c ≠ '\\') (cs : List Char) :
    decode (c :: cs) = (decode cs).map (c :: ·) := by
  rw [decode.eq_def]
  simp [hc]

theorem decode_escape {c : Char} {cs value rest : List Char}
    (h : escape c cs = .ok (value, rest)) :
    decode ('\\' :: c :: cs) = (decode rest).map (value ++ ·) := by
  rw [decode.eq_def]
  simp only [beq_self_eq_true, if_true]
  split
  · rename_i e he
    cases h.symm.trans he
  · rename_i r hr
    obtain ⟨rfl, rfl⟩ := Prod.mk.inj (Except.ok.inj (h.symm.trans hr))
    rfl

/-- Whatever pieces spell is decoded. -/
theorem Spells.decode_eq {cs value : List Char} (h : Spells cs value) :
    decode cs = .ok value := by
  induction h with
  | nil => rw [decode]
  | cons hpiece hrest ih =>
    rcases hpiece.cases with ⟨c, hc, rfl, rfl⟩ | ⟨c, ds, rfl, hescape⟩
    · rw [List.singleton_append, decode_plain hc, ih]
      rfl
    · rw [List.cons_append, List.cons_append, decode_escape hescape, ih]
      rfl

/-- Every backslash has a character to take along. -/
inductive Paired : List Char → Prop where
  | nil : Paired []
  | plain {c : Char} {cs : List Char} (hc : c ≠ '\\') (h : Paired cs) :
      Paired (c :: cs)
  | escaped {c : Char} {cs : List Char} (h : Paired cs) :
      Paired ('\\' :: c :: cs)

theorem paired_of_quotable {q : Char} {cs : List Char}
    (h : Lexer.Quotable q cs) : Paired cs := by
  induction h with
  | nil => exact .nil
  | plain hquote hbackslash hline h ih => exact .plain hbackslash ih
  | escaped h ih => exact .escaped ih
  | escapedLineEnd h ih => exact .escaped (.plain (by decide) ih)

theorem Paired.of_cons {c : Char} {cs : List Char} (hc : c ≠ '\\')
    (h : Paired (c :: cs)) : Paired cs := by
  cases h with
  | plain _ h => exact h
  | escaped h => exact absurd rfl hc

theorem Paired.of_escaped {c : Char} {cs : List Char}
    (h : Paired ('\\' :: c :: cs)) : Paired cs := by
  cases h with
  | plain hc h => exact absurd rfl hc
  | escaped h => exact h

theorem Paired.of_digits {n : Nat} {ds rest : List Char} (hds : HexDigits n ds)
    (h : Paired (ds ++ rest)) : Paired rest := by
  obtain ⟨-, hall⟩ := hds
  induction ds with
  | nil => exact h
  | cons d ds ih =>
    obtain ⟨hd, hall⟩ := List.forall_mem_cons.1 hall
    have hbackslash : d ≠ '\\' := fun he => absurd (he ▸ hd) (by decide)
    exact ih (h.of_cons hbackslash) hall

/-- A piece takes each backslash with its character. -/
theorem IsPiece.paired {piece value rest : List Char}
    (h : IsPiece piece value rest) (hpaired : Paired (piece ++ rest)) :
    Paired rest := by
  cases h with
  | plain h => exact hpaired.of_cons h
  | hex hds hc => exact hpaired.of_escaped.of_digits hds
  | unicode hds hc => exact hpaired.of_escaped.of_digits hds
  | pair hhs hls hhigh hlow hc =>
    rw [List.cons_append, List.cons_append, List.append_assoc] at hpaired
    exact (hpaired.of_escaped.of_digits hhs).of_escaped.of_digits hls
  | lineEndPair => exact hpaired.of_escaped.of_cons (by decide)
  | control | null | lineEnd | other => exact hpaired.of_escaped

/-- Where each backslash has its character, what is decoded is
what pieces spell. -/
theorem spells_of_decode {cs value : List Char} (hpaired : Paired cs)
    (h : decode cs = .ok value) : Spells cs value := by
  fun_induction decode cs generalizing value with
  | case1 =>
    obtain rfl := Except.ok.inj h
    exact .nil
  | case2 c hc =>
    obtain rfl := beq_iff_eq.1 hc
    cases hpaired with
    | plain hc _ => exact absurd rfl hc
  | case3 => cases h
  | case4 c hc d cs first rest hescape ih =>
    obtain rfl := beq_iff_eq.1 hc
    obtain ⟨values, hvalues, rfl⟩ := Outcome.map_eq_ok.1 h
    obtain ⟨piece, rfl, hpiece⟩ := isPiece_of_escape hescape
    exact .cons hpiece (ih (hpiece.paired hpaired) hvalues)
  | case5 c cs hc ih =>
    obtain ⟨values, hvalues, rfl⟩ := Outcome.map_eq_ok.1 h
    have hbackslash : c ≠ '\\' := fun he => hc (beq_iff_eq.2 he)
    exact .cons (.plain hbackslash) (ih (hpaired.of_cons hbackslash) hvalues)

theorem decode_eq_ok_iff {cs value : List Char} (hpaired : Paired cs) :
    decode cs = .ok value ↔ Spells cs value :=
  ⟨spells_of_decode hpaired, Spells.decode_eq⟩

end Literal

/-! ### The tokens of strings -/

theorem TokenKind.ofWord_ne_string (w : String) : ofWord w ≠ .string := by
  fun_cases ofWord w <;> exact fun h => TokenKind.noConfusion h

namespace Lexer

theorem InClass.of_string {piece rest : List Char}
    (h : InClass .string piece rest) :
    ∃ q inner, IsQuote q ∧ Quotable q inner ∧ piece = q :: (inner ++ [q]) := by
  generalize hkind : TokenKind.string = kind at h
  cases h with
  | string hq h => exact ⟨_, _, hq, h, rfl⟩
  | mark h =>
    subst hkind
    simp [marks] at h
  | word hstart h => exact absurd hkind.symm (TokenKind.ofWord_ne_string _)
  | _ => cases hkind

end Lexer

open Lexer in
/-- The token of a string is what may stand between quotes, and the quotes. -/
theorem exists_quotable_of_tokenize {text : String} {t : Token}
    (ht : t ∈ tokenize text) (hkind : t.kind = .string) :
    ∃ q inner, IsQuote q ∧
      Quotable q inner ∧ t.text = String.ofList (q :: (inner ++ [q])) := by
  refine Cursor.forall_tokens (motive := fun t => t.kind = .string →
    ∃ q inner, IsQuote q ∧ Quotable q inner ∧
      t.text = String.ofList (q :: (inner ++ [q])))
    (fun s hs => ?_) _ t ht hkind
  obtain ⟨mark, rest⟩ := s
  cases rest with
  | nil => cases hs
  | cons c cs =>
    have hs : (lexeme c cs).kind = .string := hs
    rcases isLexeme_lexeme c cs with hclass | ⟨hunknown, -⟩
    · rw [hs] at hclass
      obtain ⟨q, inner, hq, hinner, hpiece⟩ := hclass.of_string
      exact ⟨q, inner, hq, hinner, congrArg String.ofList hpiece⟩
    · cases hs.symm.trans hunknown

namespace Literal

open Lexer (IsQuote Quotable)

/-- What is known of a token that is a string with some quote: cutting off the
first and the last byte leaves what stands between its quotes, which spells its
value if it spells anything. -/
structure IsString (q : Char) (inner : String) (raw : String) : Prop where
  isQuote : IsQuote q
  quoted : raw = String.singleton q ++ inner ++ String.singleton q
  isSlice : Text.IsSlice raw ⟨1, raw.utf8ByteSize - 1⟩ inner
  value_eq_ok_iff : ∀ v, value .string raw = .ok v ↔
    ∃ s : String, v = .string s ∧ Spells inner.toList s.toList
  value_eq_error_iff : (∃ e, value .string raw = .error e) ↔ ¬∃ cs,
    Spells inner.toList cs

theorem string_eq_ok_iff {q : Char} {inner : List Char} {s : String} :
    string (String.ofList (q :: (inner ++ [q]))) = .ok s ↔
      decode inner = .ok s.toList := by
  rw [string, String.toList_ofList, List.drop_one, List.tail_cons,
    List.dropLast_concat]
  cases decode inner with
  | error fault => simp
  | ok value =>
    simp only [Except.ok.injEq]
    exact ⟨fun h => h ▸ String.toList_ofList.symm,
      fun h => h ▸ String.ofList_toList⟩

theorem value_string_eq_ok_iff {q : Char} {inner : List Char}
    (h : Quotable q inner) (v : Scalar) :
    value .string (String.ofList (q :: (inner ++ [q]))) = .ok v ↔
      ∃ s : String, v = .string s ∧ Spells inner s.toList := by
  change (string _).map Scalar.string = _ ↔ _
  simp only [Outcome.map_eq_ok, string_eq_ok_iff,
    decode_eq_ok_iff (paired_of_quotable h)]
  constructor
  · rintro ⟨s, hs, rfl⟩
    exact ⟨s, rfl, hs⟩
  · rintro ⟨s, rfl, hs⟩
    exact ⟨s, hs, rfl⟩

theorem isString_of_quotable {q : Char} {inner : List Char} (hq : IsQuote q)
    (h : Quotable q inner) :
    IsString q (String.ofList inner) (String.ofList (q :: (inner ++ [q]))) := by
  have hquoted : String.ofList (q :: (inner ++ [q])) =
      String.singleton q ++ String.ofList inner ++ String.singleton q := by
    rw [← String.ofList_toList (s := String.singleton q),
      ← String.ofList_append, ← String.ofList_append]
    simp
  have hsize : q.utf8Size = 1 := by
    rcases hq with rfl | rfl <;> rfl
  have hok := value_string_eq_ok_iff h
  refine ⟨hq, hquoted,
    ⟨String.singleton q, String.singleton q, hquoted, ?_, ?_⟩, ?_, ?_⟩
  · rw [String.utf8ByteSize_singleton, hsize]
  · rw [hquoted, String.utf8ByteSize_append, String.utf8ByteSize_append,
      String.utf8ByteSize_singleton, hsize]
    rfl
  · rw [String.toList_ofList]
    exact hok
  · rw [String.toList_ofList]
    constructor
    · rintro ⟨e, he⟩ ⟨cs, hcs⟩
      have hvalue :=
        (hok _).2 ⟨String.ofList cs, rfl, String.toList_ofList ▸ hcs⟩
      cases he.symm.trans hvalue
    · intro hnone
      cases hvalue : value .string (String.ofList (q :: (inner ++ [q]))) with
      | error e => exact ⟨e, rfl⟩
      | ok v =>
        obtain ⟨s, -, hs⟩ := (hok v).1 hvalue
        exact absurd ⟨_, hs⟩ hnone

/-- The value of a string is what the characters between its quotes spell. -/
theorem exists_isString {text : String} {t : Token} (ht : t ∈ tokenize text)
    (hkind : t.kind = .string) : ∃ q inner, IsString q inner t.text := by
  obtain ⟨q, inner, hq, hinner, htext⟩ := exists_quotable_of_tokenize ht hkind
  exact ⟨q, String.ofList inner, htext ▸ isString_of_quotable hq hinner⟩

/-- A string with escapes of all lengths, one of them over the end of a line. -/
theorem exists_isString_sample :
    ∃ t, t ∈ tokenize "f('a\\x41\\ud83d\\ude00\\0\\\r\n')" ∧ t.kind = .string ∧
      ∃ q inner, IsString q inner t.text := by
  have hany :
      (tokenize "f('a\\x41\\ud83d\\ude00\\0\\\r\n')").any (·.kind == .string) =
        true := by
    decide +kernel
  obtain ⟨t, ht, hkind⟩ := List.any_eq_true.1 hany
  exact ⟨t, ht, beq_iff_eq.1 hkind, exists_isString ht (beq_iff_eq.1 hkind)⟩

end Literal

end Lossless
