import Descent.CommandLine

/-!
# The program

Carries out what `Descent.CommandLine` says: reads, writes and sets the exit code.
-/

namespace Descent.CommandLine

/-- What was read so far, with everything up to the end of a stream. -/
partial def readAll (stream : IO.FS.Stream) (read : ByteArray) : IO ByteArray := do
  let chunk ← stream.read 65536
  if chunk.isEmpty then return read else readAll stream (read ++ chunk)

/-- Formats standard input, and returns the exit code. -/
def run : IO UInt32 := do
  -- Bytes that are no text come back from the environment as U+FFFD.
  let held := (← IO.getEnv settingsVariable).filter fun t => !t.contains '\uFFFD'
  let input ← readAll (← IO.getStdin) .empty
  match output (held.map String.toUTF8) input with
  | .ok text =>
    (← IO.getStdout).putStr (String.ofList text)
    return 0
  | .error failure =>
    IO.eprintln s!"Error: {failure}"
    return 1

end Descent.CommandLine

/-- Formats standard input. -/
def main : IO UInt32 := Descent.CommandLine.run
