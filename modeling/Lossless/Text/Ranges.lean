/-!
# Tables of code points

A property of characters that follows no simple rule is given by the closed
intervals of the code points that have it.
-/

namespace Lossless.Text

/-- Whether the code point of a character lies in one of the
closed intervals. -/
def inRanges (ranges : List (Nat × Nat)) (c : Char) : Bool :=
  ranges.any fun (low, high) => low ≤ c.toNat && c.toNat ≤ high

end Lossless.Text
