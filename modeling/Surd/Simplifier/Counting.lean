import Surd.Simplify

/-!
# Counting levels

`simplify` is handed the levels that are left. A simplifier that is used more
than once counts the levels it is in, and the count is all that is left of one
use when the next one begins. It goes up in front of a step to the next level
and down behind it, whether or not the step has failed, and there is no step
from the last level.

The operations are the ones of `simplify`, with the count passed through each
of them. A step that fails leaves a count like any other step: an error says
nothing about how many levels were left on its way.

Every step takes up room on the call stack, and without room there is no
outcome at all, not even an error.
-/

namespace Surd

/-- A step that can fail and has the count of levels to change. -/
abbrev Counting (ε α : Type) :=
  ExceptT ε (StateT Nat Option) α

namespace Counting

variable {ε ε' α : Type}

/-- The outcome of a step that has run out of room. -/
def abort : Counting ε α :=
  ExceptT.mk fun _ => none

/-- Takes a step in any case, and goes on with its outcome. -/
def observe (step : Counting ε α) : Counting ε' (Except ε α) :=
  ExceptT.lift step.run

/-- Takes a step one level deeper, unless there are `maxDepth` levels
already. -/
def nested (options : Options) (refuse : SimplifyError → ε) (step : Counting ε α) :
    Counting ε α := do
  if options.maxDepth ≤ (← get) then
    throw (refuse (.depthExceeded options.maxDepth))
  else
    modify (· + 1)
    let outcome ← observe step
    modify (· - 1)
    outcome

/-- What can be asked for one level of nesting deeper. -/
structure Level where
  simplify : Expr → Counting SimplifyError Expr
  normalize : List Expr → Counting Obstacle Term

/-! ## Terms -/

def extract (level : Level) (radicand : Expr) (t : Term) (factors : List Expr) :
    Counting SimplifyError (Term × List Expr) := do
  let inner ← (level.normalize factors).adapt (Obstacle.toError radicand)
  let split ← Integer.squareSplit inner.coeff
  let t ← (t.mulInt split.outside).mulHalves inner.vars
  return (t, inner.leftovers split.inside)

/-- What is no sum when it has been multiplied out has no sums among its factors,
so a single extraction finishes it here as in `Term.mulRoot`. -/
def mulRoot (level : Level) (t : Term) (incoming : Expr) : Counting SimplifyError Term := do
  let (sums, rest) := (t.radicalFactors ++ incoming.factors).partition Expr.isSum
  let (t, left) ← extract level incoming { t with radical := none } rest
  match left, Term.sortByText sums with
  | left, [] => return { t with radical := Expr.chain? .mul left }
  | [], [s] => return { t with radical := some s }
  | left, sums =>
    let canonical ← level.simplify (.product (left ++ sums))
    if canonical.isSum then
      return { t with radical := some canonical }
    else
      let (t, left) ← extract level canonical t canonical.factors
      return { t with radical := Expr.chain? .mul left }

def absorb (level : Level) : Term → Expr → Counting Obstacle Term
  | t, .num n => return t.mulInt n
  | t, .var x => (t.mulVar x 1).mapError Obstacle.failed
  | t, .pow b e => (t.mulPower b e).mapError Obstacle.failed
  | t, .root e => (mulRoot level t e).adapt .failed
  | t, .bin .mul l r => do absorb level (← absorb level t l) r
  | _, .bin .div l r => throw (.failed (.unsupported .division (.bin .div l r)))
  | _, .bin .add _ _ => throw .sum
  | _, .bin .sub _ _ => throw .sum

def normalize (level : Level) (factors : List Expr) : Counting Obstacle Term :=
  factors.foldlM (absorb level) .one

/-! ## Products and sums -/

def collect (level : Level) (es : List Expr) : Counting SimplifyError Expr := do
  let terms ← (es.flatMap Expr.addends).mapM fun a =>
    (normalize level [a]).adapt (Obstacle.toError a)
  return .sum ((Term.combine terms).map Term.toExpr)

def distribute (level : Level) (l r : Expr) : Counting SimplifyError Expr := do
  let pairs := l.addends.flatMap fun a => r.addends.map fun b => (a, b)
  let products ← pairs.mapM fun (a, b) =>
    (normalize level [a, b]).adapt (Obstacle.toError (.bin .mul a b))
  collect level (products.map Term.toExpr)

def multiply (level : Level) (l r : Expr) : Counting SimplifyError Expr := do
  match ← observe (normalize level [l, r]) with
  | .ok t => return t.toExpr
  | .error .sum => distribute level l r
  | .error (.failed e) => throw e

def multiplyAll (level : Level) (factors : List Expr) : Counting SimplifyError Expr := do
  match ← observe (normalize level factors) with
  | .ok t => return t.toExpr
  | .error .sum =>
    match factors with
    | [] => return .num 1
    | f :: fs => fs.foldlM (multiply level) f
  | .error (.failed e) => throw e

/-! ## Roots and powers -/

def squareRoot (level : Level) : Expr → Counting SimplifyError Expr
  | .num n => rootOfInt n
  | .var x => return .root (.var x)
  | .pow b e =>
    match b, e.exponent? with
    | .num n, some k => do rootOfInt (← Integer.power n k)
    | .var x, some k => rootOfVarPow x k
    | _, _ => multiply level (.num 1) (.root (.pow b e))
  | e => multiply level (.num 1) (.root e)

/-- The one step that goes on after an error. -/
def expand (level : Level) (b : Expr) (k : Nat) : Counting SimplifyError Expr := do
  match ← observe (level.simplify (.product (List.replicate k b))) with
  | .error (.unsupported _ _) => return .pow b (.num k)
  | outcome => outcome

def power (options : Options) (level : Level) (b e : Expr) : Counting SimplifyError Expr :=
  match e.exponent?, b with
  | none, _ => return .pow b e
  | some k, .num n => do return .num (← Integer.power n k)
  | some 0, _ => return .num 1
  | some 1, _ => return b
  | some _, .var _ => return .pow b e
  | some k, _ => if k ≤ options.maxExpansion then expand level b k else return .pow b e

/-! ## Expressions -/

def simplifyAddend (level : Level) (a : Expr.Addend) : Counting SimplifyError Expr := do
  let e ← level.simplify a.value
  if a.negated then multiply level (.num (-1)) e else return e

def simplifyStep (options : Options) (level : Level) : Expr → Counting SimplifyError Expr
  | .num n => return .num n
  | .var x => return .var x
  | .pow b e => do
    let b ← level.simplify b
    let e ← level.simplify e
    power options level b e
  | .root e => do squareRoot level (← level.simplify e)
  | .bin .div l r => do
    let l ← level.simplify l
    let r ← level.simplify r
    return .bin .div l r
  | .bin .mul l r => do
    multiplyAll level (← (Expr.bin .mul l r).factors.mapM level.simplify)
  | .bin .add l r => do
    collect level (← (Expr.bin .add l r).signedAddends.mapM (simplifyAddend level))
  | .bin .sub l r => do
    collect level (← (Expr.bin .sub l r).signedAddends.mapM (simplifyAddend level))

/-- What can be asked for with room for `room` more levels on the call
stack. -/
def level (options : Options) : Nat → Level
  | 0 =>
    { simplify := fun _ => abort
      normalize := fun _ => abort }
  | room + 1 =>
    { simplify := fun e => nested options id (simplifyStep options (level options room) e)
      normalize := fun factors =>
        nested options .failed (normalize (level options room) factors) }

end Counting

end Surd
