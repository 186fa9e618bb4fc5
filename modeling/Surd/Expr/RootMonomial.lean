import Mathlib.Algebra.Group.Pi.Basic
import Mathlib.Algebra.Group.Prod
import Mathlib.Algebra.Group.TypeTags.Basic
import Mathlib.Algebra.Ring.Nat
import Surd.Expr.Basic

/-!
# Monomials under roots

An expression that is put together from positive integers and variables by
products, square roots and literal powers is positive where its variables are,
and some power of it is a monomial: raising it to the power `2 ^ n` removes
the roots if they are nested at most `n` deep.
-/

namespace Surd.Expr

/-- Whether an expression is built from positive integers and variables by
products, roots and powers with literal exponents up to `bound`. -/
def isRootMonomial (bound : Nat) : Expr → Bool
  | .num n => 1 ≤ n
  | .var _ => true
  | .bin op l r => op == .mul && l.isRootMonomial bound && r.isRootMonomial bound
  | .pow b p => b.isRootMonomial bound && p.exponent?.any (· ≤ bound)
  | .root e => e.isRootMonomial bound

/-- How deep roots are nested in an expression. -/
def rootDepth : Expr → Nat
  | .num _ => 0
  | .var _ => 0
  | .bin _ l r => max l.rootDepth r.rootDepth
  | .pow b p => max b.rootDepth p.rootDepth
  | .root e => e.rootDepth + 1

/-- The coefficient and the exponents of the monomial that is the `2 ^ n`-th
power of an expression with at most `n` nested roots. What has none counts as
`1`. -/
def raised : Nat → Expr → Nat × Multiplicative (String → Nat)
  | n, .num c => (c.toNat ^ 2 ^ n, 1)
  | n, .var x => (1, .ofAdd (Pi.single x (2 ^ n)))
  | n, .bin .mul l r => raised n l * raised n r
  | n, .pow b p => raised n b ^ p.exponent?.getD 0
  | n + 1, .root e => raised n e
  | _, _ => 1

end Surd.Expr
