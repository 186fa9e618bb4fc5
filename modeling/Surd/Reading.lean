import Surd.Expr.Basic
import Surd.Numeral
import Surd.Reading.Error

/-!
# Reading expressions from tokens

Tokens are read one at a time, left to right, and nothing is ever read twice.
What has been read so far is a `Reading`: a stack of frames, each of which
waits for the expression to its right, and the operand just completed, if
there is one. A binary sign first completes the frames that bind at least as
tightly as itself, so chains lean left; `^` completes nothing, so powers lean
right; an operand that follows another is multiplied to it.

From loosest to tightest the operations bind in the order `-`, `+`, `/`,
product, `√`, `^`. In particular `a - b + c` is `a - (b + c)`.

The whole input, every group, every `√` and every `^` is one level of nesting.
A level is refused when it is opened, before anything inside it is looked at.
-/

namespace Surd

/-- How tightly an operation holds its operands. -/
def Op.precedence : Op → Nat
  | .sub => 1
  | .add => 2
  | .div => 3
  | .mul => 4

/-- A construct that waits for the expression to its right. -/
inductive Frame where
  | operation (op : Op) (left : Expr)
  | root
  | power (base : Expr)
  | group (opened : Span)
deriving DecidableEq, Repr

namespace Frame

/-- How tightly a frame holds what follows it; a group holds everything up to
its closing parenthesis. -/
def precedence : Frame → Nat
  | .operation op _ => op.precedence
  | .root => 5
  | .power _ => 6
  | .group _ => 0

/-- The expression a frame makes of what it waited for. -/
def complete : Frame → Expr → Expr
  | .operation op left, e => .bin op left e
  | .root, e => .root e
  | .power base, e => .pow base e
  | .group _, e => e

/-- Whether a frame is a level of nesting. -/
def isLevel : Frame → Bool
  | .operation _ _ => false
  | _ => true

def group? : Frame → Option Span
  | .group opened => some opened
  | _ => none

end Frame

/-- What has been read of an expression, innermost frame first. -/
inductive Reading where
  /-- An operand has to follow. -/
  | awaiting (frames : List Frame)
  /-- The operand `value` has just been read. -/
  | holding (frames : List Frame) (value : Expr)
deriving DecidableEq, Repr

namespace Reading

/-- Completes the innermost frames that bind at least as tightly as `p`. -/
def settle (p : Nat) : List Frame → Expr → List Frame × Expr
  | [], e => ([], e)
  | f :: fs, e => if p ≤ f.precedence then settle p fs (f.complete e) else (f :: fs, e)

/-- Completes everything inside the innermost group, and the group itself. -/
def closeGroup? : List Frame → Expr → Option (List Frame × Expr)
  | [], _ => none
  | .group _ :: fs, e => some (fs, e)
  | f :: fs, e => closeGroup? fs (f.complete e)

def completeAll (fs : List Frame) (e : Expr) : Expr :=
  fs.foldl (fun e f => f.complete e) e

/-- The innermost group that is still open. -/
def openGroup? (fs : List Frame) : Option Span :=
  fs.findSome? Frame.group?

/-- The level of nesting inside some frames; the whole input is the first. -/
def depth (fs : List Frame) : Nat :=
  1 + fs.countP Frame.isLevel

/-- Opens a level of nesting, unless there are `limit` of them already. -/
def nest (limit : Nat) (f : Frame) (fs : List Frame) : Except ParseError Reading :=
  if limit ≤ depth fs then .error (.depthExceeded limit) else .ok (.awaiting (f :: fs))

/-- The frames left when an operand is multiplied to the one just read. -/
def multiply (fs : List Frame) (e : Expr) : List Frame :=
  let (fs, e) := settle Op.mul.precedence fs e
  .operation .mul e :: fs

def unexpected (t : Token) (expected : List Token.Kind) : Except ParseError Reading :=
  .error (.unexpectedToken t.kind t.span expected)

def operandKinds : List Token.Kind :=
  [.number, .identifier, .openParen, .root]

/-- Reads the first token of an operand. A root cannot stand bare in an
exponent. -/
def operand (limit : Nat) (fs : List Frame) (t : Token) : Except ParseError Reading :=
  match t.kind with
  | .number =>
    match Numeral.read? t.text with
    | some n => .ok (.holding fs (.num n))
    | none => .error (.invalidNumber t.span)
  | .identifier => .ok (.holding fs (.var t.text))
  | .openParen => nest limit (.group t.span) fs
  | .root =>
    match fs with
    | .power _ :: _ => unexpected t operandKinds
    | _ => nest limit .root fs
  | _ => unexpected t operandKinds

def operation (op : Op) (fs : List Frame) (e : Expr) : Reading :=
  let (fs, e) := settle op.precedence fs e
  .awaiting (.operation op e :: fs)

/-- Reads a token that follows an operand. -/
def continuation (limit : Nat) (fs : List Frame) (e : Expr) (t : Token) :
    Except ParseError Reading :=
  match t.kind with
  | .minus => .ok (operation .sub fs e)
  | .plus => .ok (operation .add fs e)
  | .divide => .ok (operation .div fs e)
  | .times => .ok (operation .mul fs e)
  | .caret => nest limit (.power e) fs
  | .closeParen =>
    match closeGroup? fs e with
    | some (fs, e) => .ok (.holding fs e)
    | none => unexpected t []
  | .number => unexpected t (if (openGroup? fs).isSome then [.closeParen] else [])
  | .identifier => operand limit (multiply fs e) t
  | .openParen => operand limit (multiply fs e) t
  | .root => operand limit (multiply fs e) t

def step (limit : Nat) : Reading → Token → Except ParseError Reading
  | .awaiting fs, t => operand limit fs t
  | .holding fs e, t => continuation limit fs e t

def finish : Reading → Except ParseError Expr
  | .awaiting _ => .error .unexpectedEndOfInput
  | .holding fs e =>
    match openGroup? fs with
    | some opened => .error (.unterminatedGroup opened)
    | none => .ok (completeAll fs e)

end Reading

/-- The deepest nesting that is read unless another limit is given. -/
def defaultMaxDepth : Nat := 256

/-- Reads the expression that some tokens make up, nested at most `limit`
levels deep. No tokens make no expression, which is not an error. -/
def parseTokens (limit : Nat) (tokens : List Token) : Except ParseError (Option Expr) :=
  if tokens.isEmpty then .ok none
  else if limit = 0 then .error (.depthExceeded limit)
  else do
    let reading ← tokens.foldlM (Reading.step limit) (.awaiting [])
    let e ← reading.finish
    return some e

/-- Reads an expression from text, if the text holds any tokens. -/
def parse (limit : Nat) (src : String) : Except ParseError (Option Expr) :=
  parseTokens limit (tokenize src)

/-- Reads an expression from text that has to hold one. -/
def Expr.ofText (src : String) : Except ParseError Expr := do
  match ← parse defaultMaxDepth src with
  | some e => return e
  | none => throw .emptyInput

end Surd
