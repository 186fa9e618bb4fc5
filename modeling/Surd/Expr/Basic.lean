/-!
# Expressions

An expression is an integer, a variable, a sum, difference, product or
quotient of two expressions, a power, or a square root. The tree keeps the
grouping it was built with, so `(a + b) + c` and `a + (b + c)` are different
expressions; `operands` forgets the grouping of one operation and `chain?`
puts the left-leaning one back.

Two empty chains have a value of their own: a sum of nothing is `0`
(`Expr.sum`) and a product of nothing is `1` (`Expr.product`).
-/

namespace Surd

inductive Op where
  | add
  | sub
  | mul
  | div
deriving DecidableEq, Repr

def Op.symbol : Op → Char
  | .add => '+'
  | .sub => '-'
  | .mul => '*'
  | .div => '/'

/-- An algebraic expression over the integers with square roots. Names are
arbitrary text, although the reader only ever makes one-letter ones. -/
inductive Expr where
  | num (value : Int)
  | var (name : String)
  | bin (op : Op) (left right : Expr)
  | pow (base exponent : Expr)
  | root (radicand : Expr)
deriving DecidableEq, Repr

namespace Expr

/-- Integers and variables have no parts. -/
def isLeaf : Expr → Bool
  | .num _ => true
  | .var _ => true
  | _ => false

def number? : Expr → Option Int
  | .num n => some n
  | _ => none

/-- The operation at the head of the tree, if it takes two operands. -/
def op? : Expr → Option Op
  | .bin op _ _ => some op
  | _ => none

def isBin (op : Op) (e : Expr) : Bool :=
  e.op? = some op

/-- Sums and differences: what a product has to be distributed over. -/
def isSum (e : Expr) : Bool :=
  e.isBin .add || e.isBin .sub

/-! ## Chains of one operation -/

/-- The operands of a chain of `op`, left to right, whatever its grouping. An
expression with another head is its own only operand. -/
def operands (op : Op) : Expr → List Expr
  | .bin op' l r => if op' = op then operands op l ++ operands op r else [.bin op' l r]
  | e => [e]

/-- The operands of a product. -/
abbrev factors (e : Expr) : List Expr := e.operands .mul

/-- The operands of a sum, each difference counting as one of them. -/
abbrev addends (e : Expr) : List Expr := e.operands .add

/-- The left-leaning chain of `op` over some operands, if there are any. -/
def chain? (op : Op) : List Expr → Option Expr
  | [] => none
  | e :: es => some (es.foldl (.bin op) e)

/-- The left-leaning sum of some addends; a sum of nothing is `0`. -/
def sum (es : List Expr) : Expr :=
  (chain? .add es).getD (.num 0)

/-- The left-leaning product of some factors; a product of nothing is `1`. -/
def product (es : List Expr) : Expr :=
  (chain? .mul es).getD (.num 1)

theorem operands_foldl (op : Op) (es : List Expr) (e : Expr) :
    (es.foldl (.bin op) e).operands op = e.operands op ++ es.flatMap (operands op) := by
  induction es generalizing e with
  | nil => simp
  | cons f es ih => simp [ih, operands]

/-- The operands of a chain are those of its links, in order. -/
theorem operands_of_chain? {op : Op} {es : List Expr} {e : Expr} (h : chain? op es = some e) :
    e.operands op = es.flatMap (operands op) := by
  cases es with
  | nil => exact nomatch h
  | cons f es =>
    obtain rfl : es.foldl (.bin op) f = e := by simpa [chain?] using h
    simp [operands_foldl]

/-- An operand of a chain of sums and differences, with its sign. -/
structure Addend where
  negated : Bool
  value : Expr
deriving DecidableEq, Repr

/-- The operands of a chain of sums and differences. What is subtracted is
one operand, even when it is a sum itself. -/
def signedAddends : Expr → List Addend
  | .bin .add l r => signedAddends l ++ signedAddends r
  | .bin .sub l r => signedAddends l ++ [⟨true, r⟩]
  | e => [⟨false, e⟩]

/-! ## Powers with a literal exponent -/

/-- The exponent of a power, when it is an integer that is not negative. -/
def exponent? (e : Expr) : Option Nat :=
  match e with
  | .num (.ofNat k) => some k
  | _ => none

/-- A variable to a power, with exponent `1` left out. -/
def varPow (name : String) (k : Nat) : Expr :=
  if k = 1 then .var name else .pow (.var name) (.num k)

end Expr

end Surd
