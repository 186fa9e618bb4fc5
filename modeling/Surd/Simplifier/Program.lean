import Surd.CommandLine
import Surd.Simplifier

/-!
# The program with one simplifier

A run makes one simplifier, and every expression it is given goes through that
one. There are two loops: one over the arguments, and one over the lines of
the standard input, where an empty line is answered without the simplifier.
-/

namespace Surd.Simplifier

open CommandLine

/-- Simplifies an expression and says what became of it. -/
def answer (src : String) : StateT Simplifier Option Entry := do
  match ← (simplifyText src).run with
  | .ok (some e) => return .simplified src e
  | .ok none => return .nothing
  | .error e => return .failed src e

/-- The loop over the arguments. -/
def answerAll (srcs : List String) : StateT Simplifier Option Outcome :=
  return .ofEntries (← srcs.mapM answer)

/-- Answers a line that has been trimmed. -/
def answerLine (line : List Char) : StateT Simplifier Option Entry :=
  if line.isEmpty then return .nothing
  else answer (String.ofList (Text.withRootSigns line))

/-- The loop over the lines of the input, up to one that ends the input or is
not text. -/
def answerLines : List (Option String) → StateT Simplifier Option Outcome
  | [] => return .done
  | none :: _ => return .unreadable
  | some line :: lines => do
    let line := Text.trim line.toList
    if line = "quit".toList then
      return .done
    else
      let entry ← answerLine line
      return entry.followedBy (← answerLines lines)

/-- Runs the program with the arguments it has read. -/
def answerArguments (args : Arguments) (stdin : List UInt8) : StateT Simplifier Option Outcome :=
  if args.expressions.isEmpty then answerLines ((Text.splitLines stdin).map Text.decode?)
  else answerAll args.expressions

/-- Runs the program on its arguments and the bytes of its standard input. -/
def program (args : List String) (stdin : List UInt8) : Option Outcome :=
  match Arguments.read {} args with
  | .error .usageError => some ⟨2, "", usageText⟩
  | .error .help => some ⟨0, helpText, ""⟩
  | .error .version => some ⟨0, versionText, ""⟩
  | .ok args => (answerArguments args stdin).run' (new args.options)

end Surd.Simplifier
