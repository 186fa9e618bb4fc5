import Surd.Expr.Keys
import Surd.Simplify

/-!
# A calculator for expressions

The calculator holds a stack of expressions and the options it simplifies
with. A command that fails changes nothing, with one exception: keys take
effect one at a time, so those in front of a failing one stay applied.
-/

namespace Surd

/-- A stack of expressions, top first, and the options to simplify with. -/
structure Calculator where
  options : Options
  stack : List Expr
deriving DecidableEq, Repr

namespace Calculator

inductive Command where
  | press (keys : List Key)
  /-- Read an expression and push it. -/
  | read (src : String)
  /-- Read an expression and push its simplified form. -/
  | readSimplified (src : String)
  | simplify
  /-- Replace the top by what its text reads as. -/
  | reread
  | duplicate
  | swap
  | drop
  | compare
  | configure (options : Options)
deriving DecidableEq, Repr

/-- What a command reports. -/
inductive Report where
  | done
  /-- Whether there was an expression to push. -/
  | pushed (some : Bool)
  /-- Whether the top is a different expression now. -/
  | changed (differs : Bool)
  | equal (equal : Bool)
  | configured (options : Options)
deriving DecidableEq, Repr

inductive Refusal where
  | stackUnderflow
  | failed (error : Error)
deriving DecidableEq, Repr

def Refusal.message : Refusal → String
  | .stackUnderflow => "stack underflow"
  | .failed e => e.message

def new (options : Options) : Calculator := ⟨options, []⟩

/-- Presses keys until one lacks operands. -/
def pressKeys (c : Calculator) : List Key → Calculator × Except Refusal Report
  | [] => (c, .ok .done)
  | k :: ks =>
    match k.press c.stack with
    | some stack => pressKeys { c with stack } ks
    | none => (c, .error .stackUnderflow)

/-- Pushes an expression, if there is one. -/
def push (c : Calculator) : Except Error (Option Expr) → Calculator × Except Refusal Report
  | .ok (some e) => ({ c with stack := e :: c.stack }, .ok (.pushed true))
  | .ok none => (c, .ok (.pushed false))
  | .error e => (c, .error (.failed e))

/-- Replaces the top by what becomes of it. -/
def replaceTop (c : Calculator) (f : Expr → Except Error Expr) :
    Calculator × Except Refusal Report :=
  match c.stack with
  | [] => (c, .error .stackUnderflow)
  | e :: stack =>
    match f e with
    | .ok e' => ({ c with stack := e' :: stack }, .ok (.changed (e' ≠ e)))
    | .error err => (c, .error (.failed err))

def run (c : Calculator) (command : Command) : Calculator × Except Refusal Report :=
  match command, c.stack with
  | .press keys, _ => c.pressKeys keys
  | .read src, _ => c.push ((parse defaultMaxDepth src).mapError .parse)
  | .readSimplified src, _ => c.push (simplifyText c.options src)
  | .simplify, _ => c.replaceTop fun e => (Surd.simplify c.options e).mapError .simplify
  | .reread, _ => c.replaceTop fun e => (Expr.ofText e.text).mapError .parse
  | .duplicate, e :: stack => ({ c with stack := e :: e :: stack }, .ok .done)
  | .swap, e :: e' :: stack => ({ c with stack := e' :: e :: stack }, .ok .done)
  | .drop, _ :: stack => ({ c with stack }, .ok .done)
  | .compare, e :: e' :: _ => (c, .ok (.equal (e = e')))
  | .configure options, _ => ({ c with options }, .ok (.configured options))
  | _, _ => (c, .error .stackUnderflow)

end Calculator

end Surd
