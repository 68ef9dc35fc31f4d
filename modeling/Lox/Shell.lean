import Lox.Session

/-!
# The shell

Reads lines and runs each unit as soon as it is complete. A few words are commands to the shell;
everything else is source text. A unit that fails does not end the shell.
-/

namespace Lox

/-- A shell: its session, the unit that is not complete yet with the number of its first line, the
number of lines of source text so far, and what is shown before the next line. Models `Shell`. -/
structure Shell where
  session : Session
  pending : String
  startLine : Nat
  lineNumber : Nat
  prompt : String

/-- What a line led to: whether the shell ends, what it crashed with, what was shown, and what was
noted. -/
structure Reply where
  stop : Bool
  crash : Option Ending
  shown : String
  trace : Array String

namespace Shell

/-- What is shown before the first line. -/
def intro : String := "Lox interpreter :: Python backend\nType 'help' for more information."

/-- The answer to a request for help. Models `Shell.do_help`. -/
def help : String :=
  "Welcome to the Lox interpreter!\n\n"
    ++ "Lox is a small dynamically-typed scripting language with C-like syntax. Every \n"
    ++ "line is run as soon as its braces and parentheses are balanced, and variables \n"
    ++ "and functions stay defined for the rest of the session.\n\n"
    ++ "Try it out by typing 'var x = 2;'. Next, try typing 'print x * 21;'. Functions \n"
    ++ "are declared with 'fun', e.g. 'fun twice(n) \x7b return n * 2; \x7d'. Built-in \n"
    ++ "functions: abs(x), min(a, b), max(a, b).\n"

/-- The prompt for a line that begins a unit. -/
def firstPrompt : String := "> "

/-- The prompt for a line that goes on with a unit. -/
def nextPrompt : String := ". "

/-- A shell in a session that has not run anything. Models `Shell.__init__`. -/
def start (session : Session) : Shell := ⟨session, "", 0, 0, firstPrompt⟩

/-- Runs a complete unit, and reports the error that it may end in. The end of `Shell.default`. -/
def runUnit (sh : Shell) (unit : String) : Reply × Shell :=
  let ran := sh.session.runUnit unit sh.startLine
  match ran.result with
  | .ok _ => (⟨false, none, ran.printed, ran.trace⟩, { sh with session := ran.session })
  | .error ending =>
    let (shown, handler, verdict) := ran.session.handler.close ran.session.style ending
    let crash := if verdict = .resume then none else some ending
    (⟨false, crash, ran.printed ++ shown, ran.trace⟩,
      { sh with session := { ran.session with handler } })

/-- Adds a line of source text to the unit. A unit that is completed by it, and is not blank, is to
be run. Part of `Shell.default`. -/
def take (sh : Shell) (line : String) : Option String × Shell :=
  let number := sh.lineNumber + 1
  let startLine := if sh.pending.isEmpty then number else sh.startLine
  match Entry.preprocess line sh.pending with
  | (unit, true) => (none, ⟨sh.session, unit, startLine, number, nextPrompt⟩)
  | (unit, false) =>
    let unit? := if (Text.trim unit.toList).isEmpty then none else some unit
    (unit?, ⟨sh.session, "", startLine, number, firstPrompt⟩)

/-- Adds a line of source text to the unit, and runs the unit if that completes it. Models
`Shell.default`. -/
def feedSource (sh : Shell) (line : String) : Reply × Shell :=
  match sh.take line with
  | (none, sh) => (⟨false, none, "", #[]⟩, sh)
  | (some unit, sh) => sh.runUnit unit

/-- What a line asks the shell for. -/
inductive Request where
  | nothing
  | help
  | endOfInput
  | exit
  | source (line : String)
  deriving DecidableEq, Repr

/-- Whether a command word may contain `c`. -/
def isWordChar (c : Char) : Bool := c.isAlphanum || c = '_'

/-- The request that a line makes. White space around it does not count; a question mark asks for
help, and a command word counts whatever follows it. -/
def request (line : String) : Request :=
  match Text.trim line.toList with
  | [] => .nothing
  | '?' :: _ => .help
  | cs =>
    let word := String.ofList (cs.takeWhile isWordChar)
    if word = "help" then .help
    else if word = "EOF" then .endOfInput
    else if word = "exit" then .exit
    else .source (String.ofList cs)

/-- Handles a line. Models `Shell.emptyline`, `Shell.do_help`, `Shell.do_EOF`, `Shell.do_exit` and
the choice between them and `Shell.default`. -/
def feed (sh : Shell) (line : String) : Reply × Shell :=
  match request line with
  | .nothing => (⟨false, none, "", #[]⟩, sh)
  | .help => (⟨false, none, help, #[]⟩, sh)
  | .endOfInput => (⟨true, none, "\n", #[]⟩, sh)
  | .exit => (⟨true, none, "", #[]⟩, sh)
  | .source text => sh.feedSource text

end Shell

end Lox
