import Surd.Simplify.Power

/-!
# Canonical form

What simplified expressions look like. A term is written as its coefficient
(if it is not `1`), its variables in order and its root, and is canonical if
the expression under the root is. There are two kinds of radicands: a single
term out of which no square can be taken, and a sum of terms no two of which
are alike. Quotients and the powers that cannot be multiplied out are
canonical when their operands are.
-/

namespace Surd.Canonical

/-- No square but `1` divides the number. Zero is divided by every square. -/
def SquareFree (n : Int) : Prop :=
  ∀ d : Nat, 1 < d → ¬ ((d * d : Nat) : Int) ∣ n

/-- At least two terms, none of them zero and no two of them alike. -/
structure Unlike (ts : List Term) : Prop where
  two_le : 2 ≤ ts.length
  coeff_ne_zero : ∀ t ∈ ts, t.coeff ≠ 0
  nodup : (ts.map Term.key).Nodup

/-- The sum of some terms, as it is written. -/
def sumOf (ts : List Term) : Expr :=
  .sum (ts.map Term.toExpr)

/-- What a canonical term can have under its root. -/
inductive IsRadicand : Expr → Prop where
  | term {t : Term} : (∀ e, t.radical = some e → IsRadicand e) → SquareFree t.coeff →
      (∀ p ∈ t.vars.entries, p.2 = 1) → t ≠ .one → IsRadicand t.toExpr
  | sum {ts : List Term} : (∀ t ∈ ts, ∀ e, t.radical = some e → IsRadicand e) → Unlike ts →
      IsRadicand (sumOf ts)

/-- A term with nothing to take out of its root. -/
def IsTerm (t : Term) : Prop :=
  ∀ e, t.radical = some e → IsRadicand e

/-- The powers that stay as they are: those without a literal exponent, proper
powers of variables and proper powers of compound bases. -/
def IsPower (b e : Expr) : Prop :=
  match e.exponent?, b with
  | none, _ => True
  | some _, .num _ => False
  | some k, _ => 2 ≤ k

/-- What simplification can lead to. -/
inductive IsCanonical : Expr → Prop where
  | term {t : Term} : IsTerm t → IsCanonical t.toExpr
  | sum {ts : List Term} : (∀ t ∈ ts, IsTerm t) → Unlike ts → IsCanonical (sumOf ts)
  | quotient {l r : Expr} : IsCanonical l → IsCanonical r → IsCanonical (.bin .div l r)
  | power {b e : Expr} : IsCanonical b → IsCanonical e → IsPower b e → IsCanonical (.pow b e)

end Surd.Canonical
