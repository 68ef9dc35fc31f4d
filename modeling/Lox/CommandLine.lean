import Lox.CommandLine.Options
import Lox.Shell

/-!
# The command line

Runs a file, or a shell on lines that are entered. What is shown and what is noted are kept apart.
-/

namespace Lox.CommandLine

/-- How the program ends: with a code, or by passing on what crashed it. -/
inductive Exit where
  | code (n : Nat)
  | crash (name text : String)
  deriving DecidableEq, Repr

/-- What a run of the program shows and notes, and how it ends. -/
structure Transcript where
  shown : String
  noted : String
  exit : Exit
  deriving DecidableEq, Repr

/-- The lines that are noted, as they are shown. -/
def noteText (trace : Array String) : String :=
  String.join (trace.toList.map fun line => "DEBUG: " ++ line ++ "\n")

/-- How the program ends when some work in it ended like this. -/
def exitOf (ending : Ending) : Verdict → Exit
  | .resume => .code 0
  | .fail => .code 1
  | .propagate =>
    match ending with
    | .crashed name text => .crash name text
    | _ => .code 0

/-- Runs a file with these contents. -/
def runFile (style : Text.Style) (limits : Limits) (flags : Flags) (path : String)
    (contents : Option (List UInt8)) : Transcript :=
  match Session.forFile path flags style limits with
  | .error n =>
    let (shown, _, verdict) := (Handler.empty true).close style (.noticed n)
    ⟨shown, "", exitOf (.noticed n) verdict⟩
  | .ok session =>
    let ran := session.runFile contents
    match ran.result with
    | .ok _ => ⟨ran.printed, noteText ran.trace, .code 0⟩
    | .error ending =>
      let (shown, _, verdict) := ran.session.handler.close style ending
      ⟨ran.printed ++ shown, noteText ran.trace, exitOf ending verdict⟩

/-- What is shown when a crash reaches the end of the program. -/
def crashText (sh : Shell) (ending : Ending) : String :=
  (sh.session.handler.close sh.session.style ending).1

/-- Feeds entered lines to a shell until it ends; the end of the lines is a request to end. -/
def runLines (sh : Shell) : List String → Transcript
  | [] => ⟨sh.prompt ++ (sh.feed "EOF").1.shown, "", .code 0⟩
  | line :: lines =>
    let (reply, next) := sh.feed line
    let shown := sh.prompt ++ reply.shown
    let noted := noteText reply.trace
    match reply.crash with
    | some (.crashed name text) =>
      ⟨shown ++ crashText next (.crashed name text), noted, .crash name text⟩
    | _ =>
      if reply.stop then ⟨shown, noted, .code 0⟩
      else
        let rest := runLines next lines
        ⟨shown ++ rest.shown, noted ++ rest.noted, rest.exit⟩

/-- Runs a shell on entered lines. -/
def runShell (style : Text.Style) (limits : Limits) (flags : Flags) (lines : List String) :
    Transcript :=
  let t := runLines (Shell.start (Session.interactive flags style limits)) lines
  { t with shown := Shell.intro ++ "\n" ++ t.shown }

/-- The lines of an input, in which the last line need not be ended. -/
def inputLines (input : String) : List String :=
  match input.splitOn "\n" with
  | pieces => if pieces.getLastD "" = "" then pieces.dropLast else pieces

/-- Runs the program; `read` gives the bytes of a file, or nothing if it cannot be opened. Models
`main`. -/
def run (style : Text.Style) (limits : Limits) (args : List String)
    (read : String → Option (List UInt8)) (input : String) : Transcript :=
  match parse args with
  | .error e => ⟨"", errorText e, .code 2⟩
  | .ok .help => ⟨helpText, "", .code 0⟩
  | .ok (.run flags (some path)) => runFile style limits flags path (read path)
  | .ok (.run flags none) => runShell style limits flags (inputLines input)

end Lox.CommandLine
