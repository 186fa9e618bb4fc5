/-!
# Options of a simplification
-/

namespace Surd

/-- How far a simplification goes. -/
structure Options where
  /-- How many levels of nesting are looked at, in the text and in the tree. -/
  maxDepth : Nat := 256
  /-- The largest power of a compound base that is multiplied out. -/
  maxExpansion : Nat := 16
deriving DecidableEq, Repr

end Surd
