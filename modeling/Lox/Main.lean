import Lox.CommandLine

/-!
# The program

The command line with files and a terminal attached.
-/

namespace Lox.Main

/-- The bytes of a file, unless it cannot be opened. -/
def readBytes (path : String) : IO (Option (List UInt8)) := do
  try
    let bytes ← IO.FS.readBinFile path
    return some bytes.toList
  catch _ =>
    return none

/-- Shows what was written to the two outputs. -/
def emit (shown noted : String) : IO Unit := do
  let stdout ← IO.getStdout
  let stderr ← IO.getStderr
  stderr.putStr noted
  stderr.flush
  stdout.putStr shown
  stdout.flush

/-- The code that the process ends with. -/
def exitCode : CommandLine.Exit → UInt32
  | .code n => n.toUInt32
  | .crash _ _ => 1

/-- Reads and handles lines until the shell ends. -/
partial def repl (sh : Shell) : IO UInt32 := do
  emit sh.prompt ""
  let stdin ← IO.getStdin
  let line ← stdin.getLine
  let text := if line.endsWith "\n" then (line.dropEnd 1).toString else line
  let (reply, next) := sh.feed (if line.isEmpty then "EOF" else text)
  emit reply.shown (CommandLine.noteText reply.trace)
  match reply.crash with
  | some ending =>
    emit (CommandLine.crashText next ending) ""
    return 1
  | none => if reply.stop then return 0 else repl next

/-- Runs the command line. -/
def run (args : List String) : IO UInt32 := do
  match CommandLine.parse args with
  | .ok (.run flags none) =>
    emit (Shell.intro ++ "\n") ""
    repl (Shell.start (Session.interactive flags .plain .standard))
  | .ok (.run flags (some path)) =>
    let contents ← readBytes path
    let t := CommandLine.runFile .plain .standard flags path contents
    emit t.shown t.noted
    return exitCode t.exit
  | _ =>
    let t := CommandLine.run .plain .standard args (fun _ => none) ""
    emit t.shown t.noted
    return exitCode t.exit

end Lox.Main

/-- The entry point of the program. -/
def main (args : List String) : IO UInt32 := Lox.Main.run args
