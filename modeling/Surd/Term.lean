import Surd.Integer.Power
import Surd.Integer.SquareSplit
import Surd.Powers
import Surd.Simplify.Error

/-!
# Terms

A term is a product in canonical form: an integer coefficient, powers of
variables in order, and at most one square root. Two terms are alike if they
differ in nothing but the coefficient. Likeness is decided on texts, the keys
of the terms; like terms are added in the place of the first of them.
-/

namespace Surd

/-- The power of an integer, or the error for one that is too large. -/
def Integer.power (b : Int) (k : Nat) : Except SimplifyError Int :=
  match power? b k with
  | some n => .ok n
  | none => .error (.exponentTooLarge k)

/-- The square part and the square-free part of an integer, or the error for
one in which they are too hard to find. -/
def Integer.squareSplit (n : Int) : Except SimplifyError SquareSplit :=
  match squareSplit? n with
  | some s => .ok s
  | none => .error (.radicandTooLarge n)

/-- A product of an integer, powers of variables and a square root. -/
@[ext]
structure Term where
  coeff : Int
  vars : Powers
  radical : Option Expr
deriving DecidableEq

namespace Term

def one : Term := ⟨1, .one, none⟩

def mulInt (t : Term) (n : Int) : Term :=
  { t with coeff := t.coeff * n }

def mulVar (t : Term) (x : String) (k : Nat) : Except SimplifyError Term :=
  match t.vars.mulVar? x k with
  | some vars => .ok { t with vars }
  | none => .error (.exponentTooLarge (t.vars.exponent x + k))

/-- Multiplies by a power. Only integers and variables have powers that fit
into a term, and only with a literal exponent. -/
def mulPower (t : Term) (b e : Expr) : Except SimplifyError Term :=
  match e.exponent?, b with
  | some k, .num n => do return t.mulInt (← Integer.power n k)
  | some k, .var x => if k ≤ maxExponent then t.mulVar x k else .error (.exponentTooLarge k)
  | some _, _ => .error (.unsupported .compoundPower (.pow b e))
  | none, _ => .error (.unsupported .symbolicExponent (.pow b e))

/-- The factors of a term, in the order they are written in. A coefficient of
`1` is not written. -/
def toFactors (t : Term) : List Expr :=
  (if t.coeff = 1 then [] else [.num t.coeff])
    ++ t.vars.entries.map (fun p => Expr.varPow p.1 p.2)
    ++ (t.radical.map Expr.root).toList

def toExpr (t : Term) : Expr :=
  if t.coeff = 0 then .num 0 else .product t.toFactors

/-! ## Like terms -/

/-- The text that like terms share. -/
def key (t : Term) : String :=
  String.join (t.vars.entries.map fun p => p.1 ++ "^" ++ p.2.repr) ++ "√"
    ++ (t.radical.map Expr.text).getD ""

theorem toList_key (t : Term) :
    t.key.toList =
      t.vars.entries.flatMap (fun p => p.1.toList ++ '^' :: Numeral.digits p.2)
        ++ '√' :: (t.radical.map Expr.chars).getD [] := by
  cases h : t.radical with
  | none => simp [key, h, String.toList_join, List.flatMap_map, Numeral.digits]
  | some e =>
    simp [key, h, String.toList_join, List.flatMap_map, Numeral.digits, Expr.toList_text]

/-- Adds a term to the first one with its key. -/
def addLike (key : String) (t : Term) : List (String × Term) → List (String × Term)
  | [] => [(key, t)]
  | (key', s) :: groups =>
    if key' = key then (key', { s with coeff := s.coeff + t.coeff }) :: groups
    else (key', s) :: addLike key t groups

/-- Adds up like terms, each kind in the place of its first term, and drops
the kinds that cancel. -/
def combine (ts : List Term) : List Term :=
  let groups := ts.foldl (fun groups t => addLike t.key t groups) []
  (groups.map Prod.snd).filter fun t => t.coeff ≠ 0

end Term

end Surd
