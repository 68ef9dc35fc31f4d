import Lox.Entry
import Lox.Report
import Lox.Source
import Lox.Text.Utf8

/-!
# Sessions

A session runs units of source text one after the other in one environment, and keeps track of
where errors come from.
-/

namespace Lox

/-- How the work on a unit that failed ends. -/
def Failure.ending (style : Text.Style) : Failure → Ending
  | .syntaxError e => .noticed (e.notice style)
  | .defect d =>
    match d.notice? style, d with
    | some n, _ => .noticed n
    | none, .longInteger digits => .crashed "ValueError" (Decimal.tooLongText digits)
    | none, .missing => .crashed "IndexError" "a child is missing"
    | none, _ => .crashed "ValueError" "a node is misshapen"
  | .stopped (.fault f) => .noticed (f.notice style)
  | .stopped .unwritable => .crashed "ValueError" Decimal.unwritableText
  | .stopped .tooDeep => .tooDeep
  | .stopped .exhausted => .interrupted

/-- A session: the file or prompt that its units come from, how it shows what it does, and the
environment that its units share. Models `Session`. -/
structure Session where
  path : String
  flags : Flags
  style : Text.Style
  limits : Limits
  handler : Handler
  env : Env

/-- What the run of a unit led to. -/
structure Ran where
  session : Session
  result : Except Ending Flow
  printed : String
  trace : Array String

namespace Session

/-- The name under which entered lines are reported. No file can be run under it. -/
def promptPath : String := "<in>"

/-- A session for lines that are entered; an error does not end it. Models `Session.__init__`. -/
def interactive (flags : Flags) (style : Text.Style) (limits : Limits) : Session :=
  ⟨promptPath, flags, style, limits, (Handler.empty false).registerFile promptPath, .initial⟩

/-- A session for a file; an error ends it. Models `Session.__init__`. -/
def forFile (path : String) (flags : Flags) (style : Text.Style) (limits : Limits) :
    Except Notice Session :=
  if path = promptPath then .error (Notice.plain style "'<in>' is a reserved filename" {})
  else .ok ⟨path, flags, style, limits, (Handler.empty true).registerFile path, .initial⟩

/-- The warning about a `return` that ended a program. Part of `Session._check`. -/
def returnWarning (s : Session) : String :=
  s.handler.warningText s.style
    (Notice.make s.style [.words "'", .slot, .words "' outside of a function ends the program"]
      ["return"] { pointed := false })

/-- Runs a unit; `line` is noted first. Part of `Session.run` and `Session.run_file`. -/
def exec (s : Session) (line source : String) : Ran :=
  let trace := if s.flags.tracing then #[line] else #[]
  match Source.exec s.limits s.flags source ⟨s.env, "", trace⟩ with
  | .ok (.returned v) w =>
    let s := { s with env := w.env }
    ⟨s, .ok (.returned v), w.printed ++ s.returnWarning, w.trace⟩
  | .ok flow w => ⟨{ s with env := w.env }, .ok flow, w.printed, w.trace⟩
  | .error failure w =>
    let handler :=
      match failure with
      | .syntaxError e =>
        if s.path = promptPath then s.handler
        else s.handler.registerLine s.path ⟨some e.excerpt, some e.line⟩
      | _ => s.handler
    ⟨{ s with env := w.env, handler }, .error (failure.ending s.style), w.printed, w.trace⟩

/-- Runs an entered unit that begins in the line `number`. Models `Session.run`. -/
def runUnit (s : Session) (source : String) (number : Nat) : Ran :=
  let handler := s.handler.registerLine s.path ⟨some source, some number⟩
  let ran := { s with handler }.exec
    (s.path ++ ":" ++ toString number ++ ": running unit") source
  match ran.result with
  | .ok _ => { ran with session.handler := ran.session.handler.removeLine s.path }
  | .error _ => ran

/-- The source text in a file, in which every line ends in a line feed; `none` stands for a file
that cannot be opened. Part of `run_file`. -/
def readSource (style : Text.Style) (path : String) (contents : Option (List UInt8)) :
    Except Ending String :=
  match contents with
  | none => .error (.noticed (Cause.unreadableSource.notice style [path]))
  | some bytes =>
    match Text.Utf8.decode bytes with
    | .error m => .error (.crashed "UnicodeDecodeError" m.text)
    | .ok cs => .ok (String.ofList (Text.unifyLineEnds cs))

/-- Runs the file of the session as one unit. Models `Session.run_file`. -/
def runFile (s : Session) (contents : Option (List UInt8)) : Ran :=
  match readSource s.style s.path contents with
  | .error ending => ⟨s, .error ending, "", #[]⟩
  | .ok source => s.exec ("running '" ++ s.path ++ "'") source

end Session

end Lox
