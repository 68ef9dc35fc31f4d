import Lox.Notice

/-!
# Reports

Shows notices to the user. A handler keeps, for each file that takes part, the line that is being
run, so that errors can be shown with their origin. It also decides how work goes on after an
error: a fatal handler ends the program.
-/

namespace Lox

/-- The line of a file that is being run. -/
structure Mark where
  line : Option String
  number : Option Int
  deriving DecidableEq, Repr

/-- No line of the file is being run. -/
def Mark.none : Mark := ⟨.none, .none⟩

/-- Keeps the origin of errors and their consequence. Models `ErrorHandler`. -/
structure Handler where
  fatal : Bool
  /-- The files that take part, in the order in which they were first named. -/
  marks : List (String × Mark)
  deriving DecidableEq, Repr

/-- How some guarded work ended. -/
inductive Ending where
  | finished
  | noticed (n : Notice)
  | tooDeep
  | interrupted
  /-- The program is to end. -/
  | quit
  /-- Something unforeseen happened: its class and what it says. -/
  | crashed (name text : String)
  deriving DecidableEq, Repr

/-- What follows from an ending. -/
inductive Verdict where
  /-- Work goes on. -/
  | resume
  /-- The program ends and tells of failure. -/
  | fail
  /-- The ending is passed on to whoever is outside. -/
  | propagate
  deriving DecidableEq, Repr

namespace Notice

/-- The subject between two bounds, the second one not included. -/
def range (n : Notice) (start stop : Nat) : String :=
  String.ofList ((n.subject.toList.take stop).drop start)

/-- The end of the range that is pointed at; at least one character is. -/
def pointedStop (n : Notice) : Nat := max n.stop (n.start + 1)

/-- The subject with the range highlighted, and below it a caret at the start of the range and a
tilde for each character after it. Models `ErrorHandler.diagnose`. -/
def diagnosis (style : Text.Style) (tint : Text.Tint) (n : Notice) : String :=
  let stop := n.pointedStop
  let caret := "^" ++ String.ofList (List.replicate (stop - n.start - 1) '~')
  "  " ++ n.range 0 n.start ++ style.tinted tint (n.range n.start stop)
    ++ n.range stop n.subject.length ++ "\n"
    ++ "  " ++ String.ofList (List.replicate n.start ' ') ++ style.tinted tint caret

/-- Whether the subject is shown below the message. -/
def isDiagnosed (n : Notice) : Bool := !n.internal && !n.subject.isEmpty && n.pointed

/-- The lines below the message. -/
def tail (style : Text.Style) (tint : Text.Tint) (n : Notice) : String :=
  if n.isDiagnosed then n.diagnosis style tint ++ "\n" else ""

end Notice

namespace Handler

/-- A handler for which no file takes part yet. Models `ErrorHandler.__init__`. -/
def empty (fatal : Bool) : Handler := ⟨fatal, []⟩

/-- Sets the mark of a file; a file that is new comes last. -/
def setMark (path : String) (mark : Mark) : List (String × Mark) → List (String × Mark)
  | [] => [(path, mark)]
  | (file, m) :: rest =>
    if path == file then (file, mark) :: rest else (file, m) :: setMark path mark rest

/-- Lets a file take part. Models `ErrorHandler.register_file`. -/
def registerFile (path : String) (h : Handler) : Handler :=
  { h with marks := setMark path .none h.marks }

/-- Tells which line of a file is run next. Models `ErrorHandler.register_line`. -/
def registerLine (path : String) (mark : Mark) (h : Handler) : Handler :=
  { h with marks := setMark path mark h.marks }

/-- Tells that the line of a file was run. Models `ErrorHandler.remove_line`. -/
def removeLine (path : String) (h : Handler) : Handler := h.registerFile path

/-- Forgets all lines, but no file. The end of `ErrorHandler.throw`. -/
def reset (h : Handler) : Handler := { h with marks := h.marks.map fun e => (e.1, .none) }

/-- The text of a number that may be missing. -/
def numberText : Option Int → String
  | some n => toString n
  | none => "None"

/-- The lines that are being run, each under the name of its file. Part of `ErrorHandler.throw`. -/
def origins (h : Handler) : List String :=
  h.marks.filterMap fun (file, mark) =>
    match mark.line with
    | some line =>
      if line.isEmpty then none
      else some ("  File '" ++ file ++ "', line " ++ numberText mark.number ++ ":\n    " ++ line
        ++ "\n")
    | none => none

/-- The text of an error. What `ErrorHandler.throw` prints. -/
def errorText (style : Text.Style) (h : Handler) (n : Notice) : String :=
  let origins := h.origins
  let head := if origins.length > 1 then "Traceback:\n" else ""
  let blame := if n.internal then style.tinted .red "[internal] " else ""
  head ++ String.join origins ++ blame ++ style.tinted .red "error: " ++ n.message ++ "\n"
    ++ n.tail style .red

/-- The text of a warning, which begins with the first line that is being run. Models
`ErrorHandler.warn`. -/
def warningText (style : Text.Style) (h : Handler) (n : Notice) : String :=
  let origin? := h.marks.findSome? fun (file, mark) =>
    mark.number.map fun number => file ++ ":" ++ toString number ++ ": "
  let origin := match origin? with
    | some text => style.bold text
    | none => ""
  origin ++ style.tinted .magenta "warning: " ++ n.message ++ "\n" ++ n.tail style .magenta

/-- Reports an error: its text, the handler after it, and whether work goes on. Models
`ErrorHandler.throw`. -/
def report (style : Text.Style) (h : Handler) (n : Notice) : String × Handler × Verdict :=
  if h.fatal then (h.errorText style n, h, .fail)
  else (h.errorText style n, h.reset, .resume)

/-- Closes guarded work: what is shown, the handler after it, and what follows. Models
`ErrorHandler.__exit__`. -/
def close (style : Text.Style) (h : Handler) : Ending → String × Handler × Verdict
  | .finished => ("", h, .resume)
  | .noticed n => h.report style n
  | .tooDeep =>
    h.report style (Notice.plain style "maximum recursion depth exceeded" { pointed := false })
  | .interrupted => h.report style (Notice.plain style "keyboard interrupt" {})
  | .quit => ("", h, .propagate)
  | .crashed name text =>
    let n := Notice.make style [.words "unknown error: '", .slot, .words "'"]
      [name ++ ": " ++ text] { internal := true }
    match h.report style n with
    | (shown, h, .resume) => (shown, h, .propagate)
    | other => other

end Handler

end Lox
