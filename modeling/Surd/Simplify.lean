import Surd.Reading
import Surd.Simplify.Power

/-!
# Simplification

Every expression is simplified operands first. A chain of sums and
differences is one level of nesting however long it is, and so is a chain of
products. A level is used up by each step down the tree, by each look under a
root, and by multiplying out a power or a merged root; when none is left,
simplification fails with the limit it was given.
-/

namespace Surd

def simplifyAddend (level : Level) (a : Expr.Addend) : Except SimplifyError Expr := do
  let e ← level.simplify a.value
  if a.negated then multiply level (.num (-1)) e else return e

/-- Simplifies an expression with the levels below it given. Quotients are
never reduced, only their operands are. -/
def simplifyStep (options : Options) (level : Level) : Expr → Except SimplifyError Expr
  | .num n => .ok (.num n)
  | .var x => .ok (.var x)
  | .pow b e => do
    let b ← level.simplify b
    let e ← level.simplify e
    power options level b e
  | .root e => do squareRoot level (← level.simplify e)
  | .bin .div l r => do
    let l ← level.simplify l
    let r ← level.simplify r
    return .bin .div l r
  | .bin .mul l r => do
    multiplyAll level (← (Expr.bin .mul l r).factors.mapM level.simplify)
  | .bin .add l r => do
    collect level (← (Expr.bin .add l r).signedAddends.mapM (simplifyAddend level))
  | .bin .sub l r => do
    collect level (← (Expr.bin .sub l r).signedAddends.mapM (simplifyAddend level))

/-- What can be asked for when `n` levels are left. -/
def level (options : Options) : Nat → Level
  | 0 =>
    { simplify := fun _ => .error (.depthExceeded options.maxDepth)
      normalize := fun _ => .error (.failed (.depthExceeded options.maxDepth)) }
  | n + 1 =>
    { simplify := fun e => simplifyStep options (level options n) e
      normalize := fun factors => Surd.normalize (level options n) factors }

/-- Brings an expression into its canonical form. -/
def simplify (options : Options) (e : Expr) : Except SimplifyError Expr :=
  (level options options.maxDepth).simplify e

inductive Error where
  | parse (error : ParseError)
  | simplify (error : SimplifyError)
deriving DecidableEq, Repr

def Error.message : Error → String
  | .parse e => e.message
  | .simplify e => e.message

/-- Reads and simplifies an expression, if the text holds one. -/
def simplifyText (options : Options) (src : String) : Except Error (Option Expr) := do
  match ← (parse options.maxDepth src).mapError .parse with
  | some e => return some (← (simplify options e).mapError .simplify)
  | none => return none

end Surd
