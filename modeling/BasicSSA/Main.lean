import BasicSSA.CommandLine

/-!
# The program
-/

namespace BasicSSA.CommandLine

def textOfString (s : String) : String :=
  textOfBytes s.toUTF8.toList

def stringOfText (s : String) : String :=
  (String.fromUTF8? ⟨(bytesOfText s).toArray⟩).getD s

def readText? (path : String) : IO (Option String) := do
  try
    let bytes ← IO.FS.readBinFile path
    return some (textOfBytes bytes.toList)
  catch _ => return none

def writeText (out : IO.FS.Stream) (s : String) : IO Unit := do
  out.write ⟨(bytesOfText s).toArray⟩
  out.flush

def runOnFiles (args : List String) : IO Outcome := do
  let outcome ← match readArgs (args.map textOfString) with
    | .error e => pure (failed e.message)
    | .ok o => pure (execute o (← readText? (stringOfText o.path)))
  writeText (← IO.getStderr) outcome.err
  writeText (← IO.getStdout) outcome.out
  return outcome

end BasicSSA.CommandLine

/-- Runs the command. The exit code is 0 if it succeeds. -/
def main (args : List String) : IO UInt32 := do
  let outcome ← BasicSSA.CommandLine.runOnFiles args
  return if outcome.succeeded then 0 else 1
