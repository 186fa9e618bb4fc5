import Surd.Expr.Text

/-!
# Why an expression cannot be simplified
-/

namespace Surd

/-- What a term cannot contain. -/
inductive Unsupported where
  /-- A quotient as a factor, addend or radicand. -/
  | division
  /-- A power whose exponent is not an integer, or is negative. -/
  | symbolicExponent
  /-- A power of a compound base that was not multiplied out. -/
  | compoundPower
  /-- A sum that a product does not distribute over. -/
  | nestedSum
deriving DecidableEq, Repr

def Unsupported.name : Unsupported → String
  | .division => "division"
  | .symbolicExponent => "a symbolic or negative exponent"
  | .compoundPower => "an unexpanded power of a compound expression"
  | .nestedSum => "a nested sum"

inductive SimplifyError where
  /-- The expression stands where a term needs something else. -/
  | unsupported (operation : Unsupported) (expression : Expr)
  /-- A power is too large to compute, or to be an exponent. -/
  | exponentTooLarge (exponent : Nat)
  /-- The square factors of a number are too hard to find. -/
  | radicandTooLarge (radicand : Int)
  | depthExceeded (limit : Nat)
deriving DecidableEq, Repr

def SimplifyError.message : SimplifyError → String
  | .unsupported operation e =>
    "unable to simplify \"" ++ e.text ++ "\" because " ++ operation.name ++ " isn't supported"
  | .exponentTooLarge k => "the exponent " ++ k.repr ++ " is too large"
  | .radicandTooLarge n =>
    "unable to find the square factors of " ++ Numeral.write n
  | .depthExceeded limit =>
    "the expression is nested more than " ++ limit.repr ++ " levels deep"

end Surd
