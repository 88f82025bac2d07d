/-! # Sets of characters, as closed ranges of code points

The ranges ascend, so a search ends at the first one that does not lie wholly before the character. -/
namespace BuildCache.Text

/-- The code points from `first` to `last`, both included. -/
structure CodeRange where
  first : Nat
  last : Nat

def inRanges : List CodeRange → Char → Bool
  | [], _ => false
  | r :: rest, c => if c.toNat ≤ r.last then r.first ≤ c.toNat else inRanges rest c

end BuildCache.Text
