import Surd.Expr.Basic

/-!
# Reverse-Polish keys

An expression can be keyed in operand by operand, each operation after what
it applies to. `press` is one key on a stack of expressions, top first; `keys`
lists the keys that build an expression, and `pressAll_keys` says that
pressing them leaves that expression on top of whatever was there.
-/

namespace Surd

/-- A key of a reverse-Polish calculator. -/
inductive Key where
  | num (value : Int)
  | var (name : String)
  | op (o : Op)
  | pow
  | root
deriving DecidableEq, Repr

namespace Key

/-- The effect of a key on the stack, unless it lacks operands. -/
def press : Key → List Expr → Option (List Expr)
  | .num n, stack => some (.num n :: stack)
  | .var x, stack => some (.var x :: stack)
  | .op o, r :: l :: stack => some (.bin o l r :: stack)
  | .pow, k :: b :: stack => some (.pow b k :: stack)
  | .root, e :: stack => some (.root e :: stack)
  | _, _ => none

def pressAll : List Key → List Expr → Option (List Expr)
  | [], stack => some stack
  | k :: ks, stack => (k.press stack).bind (pressAll ks)

end Key

/-- The keys that build an expression. -/
def Expr.keys : Expr → List Key
  | .num n => [.num n]
  | .var x => [.var x]
  | .bin op l r => l.keys ++ r.keys ++ [.op op]
  | .pow b k => b.keys ++ k.keys ++ [.pow]
  | .root e => e.keys ++ [.root]

theorem Key.pressAll_append (ks ks' : List Key) (stack : List Expr) :
    pressAll (ks ++ ks') stack = (pressAll ks stack).bind (pressAll ks') := by
  induction ks generalizing stack with
  | nil => rfl
  | cons k ks ih =>
    simp only [List.cons_append, pressAll]
    cases k.press stack with
    | none => rfl
    | some stack' => exact ih stack'

/-- The keys of an expression build it on top of the stack. -/
theorem Key.pressAll_keys (e : Expr) (stack : List Expr) :
    pressAll e.keys stack = some (e :: stack) := by
  induction e generalizing stack with
  | num n => rfl
  | var x => rfl
  | bin op l r ihl ihr => simp [Expr.keys, pressAll_append, ihl, ihr, pressAll, press]
  | pow b k ihb ihk => simp [Expr.keys, pressAll_append, ihb, ihk, pressAll, press]
  | root e ih => simp [Expr.keys, pressAll_append, ih, pressAll, press]

end Surd
