import Surd.Term

/-!
# Merging square roots

A term has one square root at most, so multiplying it by another one merges
the two: the factors under both roots are put together, and what forms a
square moves out. Sums have no factors that could move out one by one, so all
of them are multiplied out and kept as one sum under the root; if they cancel
down to a product, the factors of that product get their turn.

Sums are put in the order of their texts first, so that the merged root does
not depend on which of the two roots came first.

Both steps ask for work one level of nesting deeper, which is passed in as a
`Level`: what lies below is only looked at through it.
-/

namespace Surd

/-- What keeps a product from being a single term. -/
inductive Obstacle where
  /-- A factor is a sum, so the product has to be distributed. -/
  | sum
  /-- A factor does not fit into a term at all. -/
  | failed (error : SimplifyError)
deriving DecidableEq, Repr

/-- The error to report where a sum cannot be distributed. -/
def Obstacle.toError (nestedSum : Expr) : Obstacle → SimplifyError
  | .sum => .unsupported .nestedSum nestedSum
  | .failed e => e

/-- What can be asked for one level of nesting deeper. -/
structure Level where
  simplify : Expr → Except SimplifyError Expr
  /-- Multiplies simplified factors into one term. -/
  normalize : List Expr → Except Obstacle Term

namespace Term

/-- Multiplies by the square roots of powers of variables as far as they come
out whole. -/
def mulHalves (t : Term) (vars : Powers) : Except SimplifyError Term :=
  vars.entries.foldlM (fun t p => t.mulVar p.1 (p.2 / 2)) t

/-- What stays under a root when squares have moved out: the square-free part
of the coefficient, the variables with odd exponents and the nested root. -/
def leftovers (inside : Int) (t : Term) : List Expr :=
  (if inside = 1 then [] else [.num inside])
    ++ (t.vars.entries.filter fun p => p.2 % 2 = 1).map (fun p => .var p.1)
    ++ (t.radical.map Expr.root).toList

/-- Multiplies by the square root of a product, as far as its factors pair
up, and lists what is left under the root. -/
def extract (level : Level) (radicand : Expr) (t : Term) (factors : List Expr) :
    Except SimplifyError (Term × List Expr) := do
  let inner ← (level.normalize factors).mapError (Obstacle.toError radicand)
  let split ← Integer.squareSplit inner.coeff
  let t ← (t.mulInt split.outside).mulHalves inner.vars
  return (t, inner.leftovers split.inside)

def radicalFactors (t : Term) : List Expr :=
  (t.radical.map Expr.factors).getD []

/-- Puts an expression in front of the first one whose text is not before its
own. -/
def insertByText (e : Expr) : List Expr → List Expr
  | [] => [e]
  | f :: fs => if f.text < e.text then f :: insertByText e fs else e :: f :: fs

/-- Expressions in the order of their texts; those with the same text keep
theirs. -/
def sortByText (es : List Expr) : List Expr :=
  es.foldr insertByText []

theorem insertByText_perm (e : Expr) (fs : List Expr) : (insertByText e fs).Perm (e :: fs) := by
  induction fs with
  | nil => exact .refl _
  | cons f fs ih =>
    simp only [insertByText]
    split
    · exact (ih.cons f).trans (.swap e f fs)
    · exact .refl _

theorem sortByText_perm (es : List Expr) : (sortByText es).Perm es := by
  induction es with
  | nil => exact .nil
  | cons e es ih => exact (insertByText_perm e (sortByText es)).trans (ih.cons e)

/-- Multiplies by the square root of `incoming`.

When the sums have cancelled down to an expression that is no sum, the root of
that expression is still to be merged. Starting over would do, but what comes
back simplified has no sum among its factors unless it is one, so there would be
nothing to sort out and no second sum to multiply. One extraction is all that is
left to do (`Canonical.mulRoot_eq_startOver`). -/
def mulRoot (level : Level) (t : Term) (incoming : Expr) : Except SimplifyError Term := do
  let (sums, rest) := (t.radicalFactors ++ incoming.factors).partition Expr.isSum
  let (t, left) ← extract level incoming { t with radical := none } rest
  match left, sortByText sums with
  | left, [] => return { t with radical := Expr.chain? .mul left }
  | [], [s] => return { t with radical := some s }
  | left, sums =>
    let canonical ← level.simplify (.product (left ++ sums))
    if canonical.isSum then
      return { t with radical := some canonical }
    else
      let (t, left) ← extract level canonical t canonical.factors
      return { t with radical := Expr.chain? .mul left }

end Term

end Surd
