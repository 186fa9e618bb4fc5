import Surd.Simplify.Radical

/-!
# Products and sums of simplified expressions

A list of factors without sums multiplies into one term. Where there is a
sum, a product of two expressions is distributed over the addends of both,
and the resulting terms are added up.
-/

namespace Surd

def Term.absorb (level : Level) : Term → Expr → Except Obstacle Term
  | t, .num n => .ok (t.mulInt n)
  | t, .var x => (t.mulVar x 1).mapError .failed
  | t, .pow b e => (t.mulPower b e).mapError .failed
  | t, .root e => (t.mulRoot level e).mapError .failed
  | t, .bin .mul l r => do absorb level (← absorb level t l) r
  | _, .bin .div l r => .error (.failed (.unsupported .division (.bin .div l r)))
  | _, .bin .add _ _ => .error .sum
  | _, .bin .sub _ _ => .error .sum

/-- Multiplies factors into one term, from left to right. -/
def normalize (level : Level) (factors : List Expr) : Except Obstacle Term :=
  factors.foldlM (Term.absorb level) .one

/-- The sum of some simplified expressions, whose addends all are terms. -/
def collect (level : Level) (es : List Expr) : Except SimplifyError Expr := do
  let terms ← (es.flatMap Expr.addends).mapM fun a =>
    (normalize level [a]).mapError (Obstacle.toError a)
  return .sum ((Term.combine terms).map Term.toExpr)

def distribute (level : Level) (l r : Expr) : Except SimplifyError Expr := do
  let pairs := l.addends.flatMap fun a => r.addends.map fun b => (a, b)
  let products ← pairs.mapM fun (a, b) =>
    (normalize level [a, b]).mapError (Obstacle.toError (.bin .mul a b))
  collect level (products.map Term.toExpr)

/-- The product of two simplified expressions. -/
def multiply (level : Level) (l r : Expr) : Except SimplifyError Expr :=
  match normalize level [l, r] with
  | .ok t => .ok t.toExpr
  | .error .sum => distribute level l r
  | .error (.failed e) => .error e

/-- The product of any number of simplified expressions. If it is not a single
term, it is multiplied out pair by pair, from left to right. -/
def multiplyAll (level : Level) (factors : List Expr) : Except SimplifyError Expr :=
  match normalize level factors with
  | .ok t => .ok t.toExpr
  | .error .sum =>
    match factors with
    | [] => .ok (.num 1)
    | f :: fs => fs.foldlM (multiply level) f
  | .error (.failed e) => .error e

end Surd
