import Surd.Expr.Basic

/-!
# The value of an expression

An expression has a value wherever its integers, operations, powers and roots
have a meaning. Nothing is assumed of that meaning here.
-/

namespace Surd

/-- A meaning for everything an expression is made of. -/
structure Arithmetic (α : Type _) where
  int : Int → α
  op : Op → α → α → α
  pow : α → α → α
  sqrt : α → α

/-- The value of an expression whose variables have the values `env`. -/
def Expr.value {α : Type _} (A : Arithmetic α) (env : String → α) : Expr → α
  | .num n => A.int n
  | .var x => env x
  | .bin op l r => A.op op (l.value A env) (r.value A env)
  | .pow b k => A.pow (b.value A env) (k.value A env)
  | .root e => A.sqrt (e.value A env)

/-- The values of the radicands in an expression, from the leaves up. -/
def Expr.radicandValues {α : Type _} (A : Arithmetic α) (env : String → α) : Expr → List α
  | .num _ => []
  | .var _ => []
  | .bin _ l r => l.radicandValues A env ++ r.radicandValues A env
  | .pow b k => b.radicandValues A env ++ k.radicandValues A env
  | .root e => e.radicandValues A env ++ [e.value A env]

end Surd
