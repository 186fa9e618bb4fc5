import Surd.Simplifier.Counting

/-!
# Simplifiers

A simplifier has options and counts the levels it is in. It can be called any
number of times, with expressions or with text; every call begins with the
count that the one before has left, whether that one failed or not.
-/

namespace Surd

structure Simplifier where
  options : Options
  /-- How many levels it is in. -/
  depth : Nat
deriving DecidableEq, Repr

namespace Simplifier

def new (options : Options) : Simplifier :=
  ⟨options, 0⟩

/-- Brings an expression into its canonical form. The count stops at
`maxDepth`, so there is room enough for one level more. -/
def simplify (e : Expr) : ExceptT SimplifyError (StateT Simplifier Option) Expr :=
  ExceptT.mk fun s => do
    let room := s.options.maxDepth + 1
    let (outcome, depth) ← ((Counting.level s.options room).simplify e).run.run s.depth
    return (outcome, { s with depth })

/-- Reads and simplifies an expression, if the text holds one. -/
def simplifyText (src : String) : ExceptT Error (StateT Simplifier Option) (Option Expr) := do
  let read := (parse (← get).options.maxDepth src).mapError Error.parse
  match ← liftM read with
  | some e => return some (← (simplify e).adapt .simplify)
  | none => return none

/-! ## Calls -/

/-- What a simplifier can be asked. -/
inductive Call where
  | expression (e : Expr)
  | text (src : String)
deriving DecidableEq, Repr

/-- What a call comes back with. -/
inductive Answer where
  | expression (outcome : Except SimplifyError Expr)
  | text (outcome : Except Error (Option Expr))
deriving Repr

def Call.run : Call → StateT Simplifier Option Answer
  | .expression e => return .expression (← (simplify e).run)
  | .text src => return .text (← (simplifyText src).run)

/-- The calls one after the other, with the simplifier as each of them leaves
it. -/
def runCalls (calls : List Call) : StateT Simplifier Option (List Answer) :=
  calls.mapM Call.run

end Simplifier

end Surd
