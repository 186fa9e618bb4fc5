import Surd.CommandLine

/-!
# The program

Hands the arguments and the standard input to `Surd.CommandLine.run` and
prints what comes back.
-/

namespace Surd

/-- Reads a stream to its end. -/
partial def readAll (stream : IO.FS.Stream) (before : ByteArray) : IO ByteArray := do
  let chunk ← stream.read 65536
  if chunk.isEmpty then return before else readAll stream (before ++ chunk)

end Surd

def main (args : List String) : IO UInt32 := do
  let needsInput := match Surd.CommandLine.Arguments.read {} args with
    | .ok given => given.expressions.isEmpty
    | .error _ => false
  let stdin ← if needsInput then Surd.readAll (← IO.getStdin) .empty else pure .empty
  let outcome := Surd.CommandLine.run args stdin.toList
  (← IO.getStdout).putStr outcome.stdout
  (← IO.getStderr).putStr outcome.stderr
  return UInt32.ofNat outcome.code
