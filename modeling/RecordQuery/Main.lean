import RecordQuery.CommandLine.Run

/-!
The program `sq`.
-/

namespace RecordQuery.CommandLine

/-- Reads a stream to its end. -/
partial def readRest (stream : IO.FS.Stream) (before : String) : IO String := do
  let line ← stream.getLine
  if line.isEmpty then return before else readRest stream (before ++ line)

def readFile? (path : String) : IO (Option String) := do
  try
    return some (← IO.FS.readFile path)
  catch _ => return none

def readPiped : IO Piped := do
  let stdin ← IO.getStdin
  if ← stdin.isTty then return .terminal
  try
    return .text (← readRest stdin "")
  catch _ => return .unreadable

def program (args : List String) : IO UInt32 := do
  let response ← run readFile? readPiped args
  (← IO.getStdout).putStr response.output
  (← IO.getStderr).putStr response.complaint
  return response.code

end RecordQuery.CommandLine

def main (args : List String) : IO UInt32 := RecordQuery.CommandLine.program args
