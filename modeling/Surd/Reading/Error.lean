import Surd.Token

/-!
# Why a text is not an expression
-/

namespace Surd

inductive ParseError where
  /-- The text ended inside the group opened at `span`. -/
  | unterminatedGroup (span : Span)
  /-- The text ended where an operand should follow. -/
  | unexpectedEndOfInput
  /-- A token stands where only one of `expected` could; no kind at all means
  that the text should have ended. -/
  | unexpectedToken (found : Token.Kind) (span : Span) (expected : List Token.Kind)
  | invalidNumber (span : Span)
  /-- The nesting goes deeper than `limit`. -/
  | depthExceeded (limit : Nat)
  /-- There are no tokens where an expression is required. -/
  | emptyInput
deriving DecidableEq, Repr

namespace ParseError

/-- The kinds that could have stood in place of an unexpected token. -/
def describe : List Token.Kind → String
  | [] => "the end of input"
  | kinds => " or ".intercalate (kinds.map Token.Kind.name)

def message : ParseError → String
  | .unterminatedGroup span =>
    "unterminated group, the \"(\" at " ++ span.text ++ " is never closed"
  | .unexpectedEndOfInput => "unexpected end of input"
  | .unexpectedToken found span expected =>
    "found " ++ found.name ++ " at " ++ span.text ++ " but expected " ++ describe expected
  | .invalidNumber span => "\"" ++ span.text ++ "\" is not a valid integer"
  | .depthExceeded limit =>
    "the expression is nested more than " ++ limit.repr ++ " levels deep"
  | .emptyInput => "there is no expression to parse"

end ParseError

end Surd
