/-!
# Tokens

The text of an expression is cut into numbers (maximal runs of digits),
one-letter names and single-character signs. Every other character is
dropped, so blanks separate digits and mean nothing else. A token remembers
where it stood, in bytes of the UTF-8 encoding, for error messages.

The scanner works from the right: a digit joins the number that begins right
after it, if one does, and otherwise begins a number of its own. That makes
the runs maximal without any look-ahead.
-/

namespace Surd

/-- A half-open range of byte offsets. -/
structure Span where
  start : Nat
  stop : Nat
deriving DecidableEq, Repr

/-- A span as it appears in messages. -/
def Span.text (s : Span) : String :=
  s.start.repr ++ ".." ++ s.stop.repr

namespace Token

inductive Kind where
  | identifier
  | number
  | openParen
  | closeParen
  | plus
  | minus
  | times
  | divide
  | caret
  | root
deriving DecidableEq, Repr

/-- Everything that is not a literal is an operator. -/
def Kind.isOperator : Kind → Bool
  | .identifier => false
  | .number => false
  | _ => true

def Kind.name : Kind → String
  | .identifier => "an identifier"
  | .number => "a number"
  | .openParen => "\"(\""
  | .closeParen => "\")\""
  | .plus => "\"+\""
  | .minus => "\"-\""
  | .times => "\"*\""
  | .divide => "\"/\""
  | .caret => "\"^\""
  | .root => "\"√\""

/-- The kind of the tokens that are one character long; names are the ASCII
letters. Digits and dropped characters have none. -/
def Kind.ofChar? (c : Char) : Option Kind :=
  if c = '(' then some .openParen
  else if c = ')' then some .closeParen
  else if c = '+' then some .plus
  else if c = '-' then some .minus
  else if c = '*' then some .times
  else if c = '/' then some .divide
  else if c = '^' then some .caret
  else if c = '√' then some .root
  else if c.isAlpha then some .identifier
  else none

end Token

/-- A lexical unit of an expression's text. -/
structure Token where
  kind : Token.Kind
  text : String
  span : Span
deriving DecidableEq, Repr

namespace Token

/-- Puts a digit at byte `pos` in front of the tokens that follow it. -/
def consDigit (pos : Nat) (c : Char) : List Token → List Token
  | [] => [⟨.number, c.toString, ⟨pos, pos + 1⟩⟩]
  | t :: ts =>
    if t.kind = .number ∧ t.span.start = pos + 1 then
      ⟨.number, c.toString ++ t.text, ⟨pos, t.span.stop⟩⟩ :: ts
    else
      ⟨.number, c.toString, ⟨pos, pos + 1⟩⟩ :: t :: ts

/-- The tokens of a text that begins at byte `pos`. -/
def scan (pos : Nat) : List Char → List Token
  | [] => []
  | c :: cs =>
    let rest := scan (pos + c.utf8Size) cs
    if c.isDigit then consDigit pos c rest
    else match Kind.ofChar? c with
      | some kind => ⟨kind, c.toString, ⟨pos, pos + c.utf8Size⟩⟩ :: rest
      | none => rest

end Token

def tokenize (src : String) : List Token :=
  Token.scan 0 src.toList

end Surd
