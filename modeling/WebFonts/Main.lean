import WebFonts.Command.Run

/-!
# Command line

Runs the command on the files of the disk.
-/

namespace WebFonts.Command

/-- Reads a file, if it can be read and holds text. -/
def readFile (path : String) : IO (Option String) := do
  try
    return String.fromUTF8? (← IO.FS.readBinFile path)
  catch _ => return none

/-- Writes a file, if that is possible. -/
def writeFile (path text : String) : IO Bool := do
  try
    IO.FS.writeFile path text
    return true
  catch _ => return false

end WebFonts.Command

open WebFonts.Command in
/-- Runs the command and exits with its status. -/
def main (arguments : List String) : IO UInt32 := do
  match ← execute ⟨readFile, writeFile⟩ arguments with
  | .ok text =>
    (← IO.getStdout).putStr text
    return 0
  | .error failure =>
    (← IO.getStderr).putStrLn failure.message
    return UInt32.ofNat failure.status
