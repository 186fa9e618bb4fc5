import Surd.Simplify.Options
import Surd.Simplify.Product

/-!
# Roots and powers of simplified expressions

Roots of integers, variables and their literal powers are found directly; any
other root is left to the merging of roots in a term. A literal power of an
integer or a variable is computed; one of a compound base is multiplied out
if its exponent is small enough, and kept as it is if the base turns out not
to multiply.
-/

namespace Surd

def rootOfInt (n : Int) : Except SimplifyError Expr := do
  let s ← Integer.squareSplit n
  if s.outside = 0 then return .num 0
  else if s.inside = 1 then return .num s.outside
  else if s.outside = 1 then return .root (.num s.inside)
  else return .bin .mul (.num s.outside) (.root (.num s.inside))

def rootOfVarPow (x : String) (k : Nat) : Except SimplifyError Expr :=
  if k ≤ maxExponent then
    .ok (.product ((if k / 2 = 0 then [] else [Expr.varPow x (k / 2)])
      ++ (if k % 2 = 1 then [.root (.var x)] else [])))
  else .error (.exponentTooLarge k)

/-- The square root of a simplified expression. -/
def squareRoot (level : Level) : Expr → Except SimplifyError Expr
  | .num n => rootOfInt n
  | .var x => .ok (.root (.var x))
  | .pow b e =>
    match b, e.exponent? with
    | .num n, some k => do rootOfInt (← Integer.power n k)
    | .var x, some k => rootOfVarPow x k
    | _, _ => multiply level (.num 1) (.root (.pow b e))
  | e => multiply level (.num 1) (.root e)

/-- A compound expression multiplied by itself. It stays a power if it
contains something that does not multiply. -/
def expand (level : Level) (b : Expr) (k : Nat) : Except SimplifyError Expr :=
  match level.simplify (.product (List.replicate k b)) with
  | .error (.unsupported _ _) => .ok (.pow b (.num k))
  | result => result

def power (options : Options) (level : Level) (b e : Expr) : Except SimplifyError Expr :=
  match e.exponent?, b with
  | none, _ => .ok (.pow b e)
  | some k, .num n => do return .num (← Integer.power n k)
  | some 0, _ => .ok (.num 1)
  | some 1, _ => .ok b
  | some _, .var _ => .ok (.pow b e)
  | some k, _ => if k ≤ options.maxExpansion then expand level b k else .ok (.pow b e)

end Surd
