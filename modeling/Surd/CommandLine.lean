import Surd.Simplify
import Surd.Text.Line

/-!
# The command line

Every argument that is not a flag is an expression to simplify. Without any,
the expressions are the lines of the standard input, up to a line `quit`.
Each expression makes one entry of the output, in order: its simplified form,
a notice that there was nothing to simplify, or an error. The exit code tells
whether there were errors.
-/

namespace Surd.CommandLine

/-! ## Arguments -/

inductive Flag where
  | maxDepth
  | maxExpansion
deriving DecidableEq, Repr

def Flag.name : Flag → String
  | .maxDepth => "max-depth"
  | .maxExpansion => "max-expansion"

/-- What an argument is, by its spelling alone. -/
inductive Argument where
  | expression
  /-- A flag that takes a number, with the text after an equals sign. -/
  | flag (flag : Flag) (value : Option String)
  /-- What follows are expressions, whatever they look like. -/
  | separator
  | help
  | version
  | unknown
deriving DecidableEq, Repr

/-- Cuts a text at its first equals sign. -/
def cutAtEquals : List Char → List Char × Option (List Char)
  | [] => ([], none)
  | c :: cs =>
    if c = '=' then ([], some cs)
    else
      let (name, value) := cutAtEquals cs
      (c :: name, value)

/-- Flags without a number take no equals sign. -/
def Argument.ofLong (cs : List Char) : Argument :=
  let (name, value) := cutAtEquals cs
  let value := value.map String.ofList
  if name = Flag.maxDepth.name.toList then .flag .maxDepth value
  else if name = Flag.maxExpansion.name.toList then .flag .maxExpansion value
  else if name = "help".toList ∧ value = none then .help
  else if name = "version".toList ∧ value = none then .version
  else .unknown

/-- Recognizes an argument. A dash by itself is an expression. -/
def Argument.ofString (arg : String) : Argument :=
  match arg.toList with
  | ['-', '-'] => .separator
  | '-' :: '-' :: cs => .ofLong cs
  | '-' :: 'h' :: _ => .help
  | '-' :: 'V' :: _ => .version
  | '-' :: _ :: _ => .unknown
  | _ => .expression

/-- Reads a decimal number below `2 ^ 64`, with an optional plus sign. -/
def readLimit? (s : String) : Option Nat := do
  let digits := match s.toList with
    | '+' :: cs => cs
    | cs => cs
  guard (!digits.isEmpty && digits.all Char.isDigit)
  let n := Nat.ofDigitChars 10 digits 0
  guard (n < 1 <<< 64)
  return n

structure Arguments where
  maxDepth : Option Nat := none
  maxExpansion : Option Nat := none
  expressions : List String := []
deriving DecidableEq, Repr

/-- Why the arguments do not ask for expressions to be simplified. -/
inductive Detour where
  | usageError
  | help
  | version
deriving DecidableEq, Repr

/-- Gives a flag its number. No flag can be given twice. -/
def Arguments.set (args : Arguments) (flag : Flag) (value : String) : Except Detour Arguments :=
  match readLimit? value, flag with
  | none, _ => .error .usageError
  | some n, .maxDepth =>
    if args.maxDepth.isSome then .error .usageError else .ok { args with maxDepth := some n }
  | some n, .maxExpansion =>
    if args.maxExpansion.isSome then .error .usageError
    else .ok { args with maxExpansion := some n }

/-- Reads arguments from left to right, up to the first one that is wrong or
asks for something else. A flag without an equals sign takes its number from
the next argument, which cannot look like a flag. -/
def Arguments.read (args : Arguments) : List String → Except Detour Arguments
  | [] => .ok args
  | arg :: rest =>
    match Argument.ofString arg with
    | .expression => Arguments.read { args with expressions := args.expressions ++ [arg] } rest
    | .flag flag (some value) => do (← args.set flag value).read rest
    | .flag flag none =>
      match rest with
      | [] => .error .usageError
      | value :: rest =>
        if Argument.ofString value = .expression then do (← args.set flag value).read rest
        else .error .usageError
    | .separator => .ok { args with expressions := args.expressions ++ rest }
    | .help => .error .help
    | .version => .error .version
    | .unknown => .error .usageError

def Arguments.options (args : Arguments) : Options :=
  let default : Options := {}
  ⟨args.maxDepth.getD default.maxDepth, args.maxExpansion.getD default.maxExpansion⟩

/-! ## Output -/

/-- What became of one expression. -/
inductive Entry where
  | simplified (src : String) (result : Expr)
  | nothing
  | failed (src : String) (error : Error)
deriving DecidableEq, Repr

/-- Simplifies one expression. -/
def Entry.ofText (options : Options) (src : String) : Entry :=
  match simplifyText options src with
  | .ok (some e) => .simplified src e
  | .ok none => .nothing
  | .error e => .failed src e

def Entry.output : Entry → String
  | .simplified src e => src ++ " => " ++ e.text ++ "\n"
  | .nothing => "Did not enter an expression.\n"
  | .failed _ _ => ""

def Entry.complaint : Entry → String
  | .failed src e => "Unable to simplify \"" ++ src ++ "\": " ++ e.message ++ "\n"
  | _ => ""

def Entry.isFailure : Entry → Bool
  | .failed _ _ => true
  | _ => false

/-- What a run leaves behind. -/
structure Outcome where
  code : Nat
  stdout : String
  stderr : String
deriving DecidableEq, Repr

def Outcome.done : Outcome := ⟨0, "", ""⟩

/-- The outcome of a run whose input could not be read on. -/
def Outcome.unreadable : Outcome where
  code := 1
  stdout := ""
  stderr :=
    "Error: Unable to read from stdin\n\nCaused by:\n    stream did not contain valid UTF-8\n"

/-- The outcome of writing an entry before everything else. -/
def Entry.followedBy (entry : Entry) (o : Outcome) : Outcome where
  code := if entry.isFailure then 1 else o.code
  stdout := entry.output ++ o.stdout
  stderr := entry.complaint ++ o.stderr

def Outcome.ofEntries (entries : List Entry) : Outcome :=
  entries.foldr Entry.followedBy .done

/-! ## Lines of input -/

def Entry.ofLine (options : Options) (line : String) : Entry :=
  .ofText options (String.ofList (Text.withRootSigns (Text.trim line.toList)))

def isQuit (line : String) : Bool :=
  Text.trim line.toList = "quit".toList

/-- Answers lines until one ends the input or is not text. -/
def answerLines (options : Options) : List (Option String) → Outcome
  | [] => .done
  | none :: _ => .unreadable
  | some line :: lines =>
    if isQuit line then .done
    else (Entry.ofLine options line).followedBy (answerLines options lines)

/-! ## Runs -/

def versionText : String := "radsimp 0.1.0\n"

def unlines (lines : List String) : String :=
  String.join (lines.map fun line => line ++ "\n")

def helpText : String := unlines [
  "Simplify algebraic expressions involving square roots",
  "",
  "Usage: radsimp [OPTIONS] [EXPRESSIONS]...",
  "",
  "Arguments:",
  "  [EXPRESSIONS]...  Expressions to simplify. Read from stdin, one per line, when none are given",
  "",
  "Options:",
  "      --max-depth <MAX_DEPTH>          How deeply nested an expression may be [default: 256]",
  "      --max-expansion <MAX_EXPANSION>  " ++
    "The largest power a compound base will be expanded to [default: 16]",
  "  -h, --help                           Print help",
  "  -V, --version                        Print version"]

def usageText : String := unlines [
  "error: invalid arguments",
  "",
  "Usage: radsimp [OPTIONS] [EXPRESSIONS]...",
  "",
  "For more information, try '--help'."]

/-- Runs the program on its arguments and the bytes of its standard input. -/
def run (args : List String) (stdin : List UInt8) : Outcome :=
  match Arguments.read {} args with
  | .error .usageError => ⟨2, "", usageText⟩
  | .error .help => ⟨0, helpText, ""⟩
  | .error .version => ⟨0, versionText, ""⟩
  | .ok args =>
    if args.expressions.isEmpty then
      answerLines args.options ((Text.splitLines stdin).map Text.decode?)
    else .ofEntries (args.expressions.map (Entry.ofText args.options))

end Surd.CommandLine
