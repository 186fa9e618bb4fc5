import Surd.Expr.Basic

/-!
# The shape of an expression

Two things about a tree that its value does not show: how high it is, and how
its products are grouped. Products are written without parentheses between
their factors, so their grouping is lost in the text and `leftProducts e` is
what the text of `e` stands for. It has the same factors as `e`, each in its
own left-leaning form (`factors_leftProducts`).
-/

namespace Surd.Expr

/-- The number of operations above the deepest leaf. -/
def height : Expr → Nat
  | .num _ => 0
  | .var _ => 0
  | .bin _ l r => max l.height r.height + 1
  | .pow b k => max b.height k.height + 1
  | .root e => e.height + 1

/-- A product continued by the factors of another, one at a time. -/
def mulFactors (l : Expr) : Expr → Expr
  | .bin .mul r f => .bin .mul (mulFactors l r) f
  | f => .bin .mul l f

/-- An expression with every chain of products leaning left. -/
def leftProducts : Expr → Expr
  | .num n => .num n
  | .var x => .var x
  | .bin .mul l r => mulFactors l.leftProducts r.leftProducts
  | .bin op l r => .bin op l.leftProducts r.leftProducts
  | .pow b k => .pow b.leftProducts k.leftProducts
  | .root e => .root e.leftProducts

/-- Whether every name in an expression satisfies `p`. -/
def allVars (p : String → Bool) : Expr → Bool
  | .num _ => true
  | .var x => p x
  | .bin _ l r => l.allVars p && r.allVars p
  | .pow b k => b.allVars p && k.allVars p
  | .root e => e.allVars p

def allNums (p : Int → Bool) : Expr → Bool
  | .num n => p n
  | .var _ => true
  | .bin _ l r => l.allNums p && r.allNums p
  | .pow b k => b.allNums p && k.allNums p
  | .root e => e.allNums p

/-- The names that the reader makes: one ASCII letter. -/
def isLetter (x : String) : Bool :=
  match x.toList with
  | [c] => c.isAlpha
  | _ => false

@[simp] theorem factors_mul (l r : Expr) :
    (Expr.bin .mul l r).factors = l.factors ++ r.factors := by
  simp [factors, operands]

theorem factors_mulFactors (l r : Expr) : (mulFactors l r).factors = l.factors ++ r.factors := by
  fun_induction mulFactors l r with
  | case1 r f ih => simp [ih]
  | case2 f => simp

/-- Leaning left changes the grouping of a product and nothing else. -/
theorem factors_leftProducts (e : Expr) :
    e.leftProducts.factors = e.factors.map leftProducts := by
  fun_induction leftProducts e with
  | case1 n => rfl
  | case2 x => rfl
  | case3 l r ihl ihr => rw [factors_mulFactors, ihl, ihr, factors_mul, List.map_append]
  | case4 op l r hop ihl ihr => cases op <;> simp_all [factors, operands, leftProducts]
  | case5 b k ihb ihk => simp [factors, operands, leftProducts]
  | case6 e ih => simp [factors, operands, leftProducts]

variable {l r e : Expr}

theorem op?_mulFactors : (mulFactors l r).op? = some .mul := by
  unfold mulFactors
  split <;> rfl

theorem op?_leftProducts : e.leftProducts.op? = e.op? := by
  fun_cases leftProducts e with
  | case3 l r => exact op?_mulFactors
  | _ => rfl

theorem mulFactors_of_op? (h : r.op? ≠ some .mul) : mulFactors l r = .bin .mul l r := by
  unfold mulFactors
  split
  · exact absurd rfl h
  · rfl

theorem mulFactors_mulFactors (l r e : Expr) :
    mulFactors (mulFactors l r) e = mulFactors l (mulFactors r e) := by
  fun_induction mulFactors r e with
  | case1 e f ih => rw [mulFactors, mulFactors, ih]
  | case2 f hf =>
      refine mulFactors_of_op? fun hop => ?_
      cases f with
      | bin op a b =>
          obtain rfl := Option.some.inj hop
          exact hf a b rfl
      | num | var | pow | root => cases hop

end Surd.Expr
