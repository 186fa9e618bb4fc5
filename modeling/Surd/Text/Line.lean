import Surd.Text.Blank

/-!
# Lines of input

Input arrives as bytes. It is cut after every newline byte; what follows the
last newline is a line only if there is something there. A line is text only
if its bytes are valid UTF-8.

In a line typed by hand a root sign may be spelled out, as `sqrt` or `rad`.
-/

namespace Surd.Text

/-- The lines of an input, without the newline bytes. -/
def splitLines : List UInt8 → List (List UInt8)
  | [] => []
  | b :: bs =>
    if b = 10 then [] :: splitLines bs
    else match splitLines bs with
      | [] => [[b]]
      | line :: lines => (b :: line) :: lines

/-- The text of a line, if its bytes are valid UTF-8. -/
def decode? (line : List UInt8) : Option String :=
  String.fromUTF8? ⟨line.toArray⟩

/-- A text with the spelled-out root signs replaced by the sign itself. -/
def withRootSigns : List Char → List Char
  | 's' :: 'q' :: 'r' :: 't' :: cs => '√' :: withRootSigns cs
  | 'r' :: 'a' :: 'd' :: cs => '√' :: withRootSigns cs
  | c :: cs => c :: withRootSigns cs
  | [] => []

end Surd.Text
