import Mathlib.Algebra.MvPolynomial.CommRing
import Mathlib.Data.Finset.Sort
import Mathlib.Data.String.Basic
import Surd.Expr.Basic

/-!
# Polynomials

An expression that is put together by sums, differences, products and literal
powers stands for a polynomial in its variables, with integer coefficients.
The other way round, a monomial is written as a product: first the coefficient
and then the variables in order, each with its exponent, where a coefficient
or an exponent of `1` is left out.
-/

namespace Surd.Expr

/-- Whether an expression is built from integers and variables by sums,
differences, products and powers with literal exponents up to `bound`. -/
def isPolynomial (bound : Nat) : Expr → Bool
  | .num _ => true
  | .var _ => true
  | .bin op l r => op != .div && l.isPolynomial bound && r.isPolynomial bound
  | .pow b p => b.isPolynomial bound && p.exponent?.any (· ≤ bound)
  | .root _ => false

/-- The polynomial that an expression stands for. What has none, a quotient, a
root or a power without a literal exponent, counts as `0` or as a power with
the exponent `0`. -/
noncomputable def polynomial : Expr → MvPolynomial String ℤ
  | .num n => .C n
  | .var x => .X x
  | .bin .add l r => l.polynomial + r.polynomial
  | .bin .sub l r => l.polynomial - r.polynomial
  | .bin .mul l r => l.polynomial * r.polynomial
  | .pow b p => b.polynomial ^ p.exponent?.getD 0
  | _ => 0

/-- The monomial with these exponents and this coefficient, as it is written. -/
def monomial (exponents : String →₀ ℕ) (coeff : ℤ) : Expr :=
  .product ((if coeff = 1 then [] else [.num coeff])
    ++ (exponents.support.sort (· ≤ ·)).map fun x => varPow x (exponents x))

/-- The addends of an expression. The number `0` has none. -/
def terms (e : Expr) : List Expr :=
  if e = .num 0 then [] else e.addends

end Surd.Expr
