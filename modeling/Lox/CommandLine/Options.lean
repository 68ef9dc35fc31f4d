import Lox.Source
import Lox.Text.Digit
import Lox.Text.Quoted

/-!
# Options

The arguments of the command line: flags and at most one file. Short flags may be combined, long
ones abbreviated to any beginning that only one of them has; two dashes end the flags.
-/

namespace Lox.CommandLine

/-- The flags. -/
inductive Flag where
  | help | tree | dump | verbose
  deriving DecidableEq, Repr

namespace Flag

/-- The short spelling. -/
def short : Flag → String
  | help => "-h" | tree => "-p" | dump => "-a" | verbose => "-v"

/-- The long spelling. -/
def long : Flag → String
  | help => "--help" | tree => "--parse-tree" | dump => "--emit-ast" | verbose => "--verbose"

/-- Both spellings. -/
def title (f : Flag) : String := f.short ++ "/" ++ f.long

/-- All flags. -/
def all : List Flag := [help, tree, dump, verbose]

/-- The flag with exactly this spelling. -/
def exactly? (text : String) : Option Flag := all.find? fun f => f.short == text || f.long == text

end Flag

/-- Why arguments are refused. -/
inductive OptionError where
  /-- The beginning of several long flags. -/
  | ambiguous (text : String) (flags : List Flag)
  /-- A flag with a value. -/
  | valued (flag : Flag) (value : String)
  /-- Arguments that have no meaning. -/
  | unrecognized (texts : List String)
  deriving DecidableEq, Repr

/-- The error in words. -/
def OptionError.text : OptionError → String
  | ambiguous text flags =>
    "ambiguous option: " ++ text ++ " could match " ++ String.intercalate ", " (flags.map Flag.long)
  | valued flag value =>
    "argument " ++ flag.title ++ ": ignored explicit argument " ++ Text.quoted value
  | unrecognized texts => "unrecognized arguments: " ++ String.intercalate " " texts

/-- What one argument is. -/
inductive Argument where
  | plain (text : String)
  /-- The two dashes that end the flags. -/
  | dashes
  /-- A flag, with the text that is joined to it. -/
  | flag (f : Flag) (isShort : Bool) (joined : Option String)
  /-- It looks like a flag but is none. -/
  | unknown (text : String)
  deriving DecidableEq, Repr

/-- The argument as it was given, for one that is no flag. -/
def Argument.text : Argument → String
  | plain text | unknown text => text
  | dashes => "--"
  | flag f _ _ => f.long

/-- Whether `cs` is a minus and a number of decimal digits, a point among them or not. -/
def isNegativeNumber : List Char → Bool
  | '-' :: cs =>
    match cs.dropWhile Text.isDigit with
    | [] => !cs.isEmpty
    | '.' :: fraction => !fraction.isEmpty && fraction.all Text.isDigit
    | _ => false
  | _ => false

/-- `cs` up to the first equals sign, and what follows that sign. -/
def splitValue (cs : List Char) : List Char × Option (List Char) :=
  match cs.dropWhile (· ≠ '=') with
  | [] => (cs, none)
  | _ :: value => (cs.takeWhile (· ≠ '='), some value)

/-- Whether all of `beginning` stands at the start of `cs`. -/
def begins (beginning cs : List Char) : Bool := beginning.isPrefixOf cs

/-- What an argument before the two dashes is. -/
def classify (text : String) : Except OptionError Argument :=
  let cs := text.toList
  let other : Argument :=
    if isNegativeNumber cs || cs.contains ' ' then .plain text else .unknown text
  match cs with
  | '-' :: '-' :: _ =>
    let (name, value) := splitValue cs
    match Flag.exactly? (String.ofList name) with
    | some f => .ok (.flag f false (value.map String.ofList))
    | none =>
      match Flag.all.filter fun f => begins name f.long.toList with
      | [] => .ok other
      | [f] => .ok (.flag f false (value.map String.ofList))
      | fs => .error (.ambiguous text fs)
  | '-' :: c :: rest =>
    match Flag.exactly? (String.ofList ['-', c]) with
    | none => .ok other
    | some f =>
      match rest with
      | [] => .ok (.flag f true none)
      | '=' :: value => .ok (.flag f true (some (String.ofList value)))
      | _ => .ok (.flag f true (some (String.ofList rest)))
  | _ => .ok (.plain text)

/-- What all arguments are; after the two dashes none is a flag. -/
def classifyAll : List String → Except OptionError (List Argument)
  | [] => .ok []
  | "--" :: rest => .ok (.dashes :: rest.map .plain)
  | text :: rest =>
    match classify text with
    | .error e => .error e
    | .ok a =>
      match classifyAll rest with
      | .error e => .error e
      | .ok as => .ok (a :: as)

/-- The flags that short flags in one argument stand for: the first one, and those of the text
joined to it. -/
def combined (f : Flag) : List Char → Except OptionError (List Flag)
  | [] => .ok [f]
  | c :: rest =>
    match Flag.exactly? (String.ofList ['-', c]) with
    | none => .error (.valued f (String.ofList (c :: rest)))
    | some g =>
      match combined g rest with
      | .error e => .error e
      | .ok gs => .ok (f :: gs)

/-- The flags of one argument. -/
def flagsOf (f : Flag) (isShort : Bool) : Option String → Except OptionError (List Flag)
  | none => .ok [f]
  | some value =>
    if isShort && !value.isEmpty then combined f value.toList else .error (.valued f value)

/-- What the command line asks for. -/
inductive Command where
  | help
  /-- To run a file, or lines that are entered if there is none. -/
  | run (flags : Flags) (file : Option String)
  deriving DecidableEq, Repr

/-- Whether no flag follows. -/
def isTail (as : List Argument) : Bool :=
  as.all fun
    | .flag _ _ _ | .unknown _ => false
    | _ => true

/-- What is known after some of the arguments. -/
structure Progress where
  flags : Flags
  file : Option String
  /-- Whether a file can no longer be given. -/
  settled : Bool
  extras : List String
  deriving DecidableEq, Repr

namespace Progress

/-- Nothing is known. -/
def start : Progress := ⟨{}, none, false, []⟩

/-- The progress after a flag. -/
def set (p : Progress) : Flag → Progress
  | .help => p
  | .tree => { p with flags.tree := true }
  | .dump => { p with flags.dump := true }
  | .verbose => { p with flags.tracing := true }

/-- The progress after an argument that has no meaning. -/
def addExtra (p : Progress) (text : String) : Progress := { p with extras := p.extras ++ [text] }

/-- The arguments after the last flag: one file, with the two dashes before or after it. -/
def finish (p : Progress) (as : List Argument) : Progress :=
  let settle (file : Option String) (rest : List Argument) : Progress :=
    { p with file, settled := true, extras := p.extras ++ rest.map Argument.text }
  if p.settled then { p with extras := p.extras ++ as.map Argument.text }
  else match as with
    | .dashes :: .plain text :: rest => settle (some text) rest
    | .plain text :: .dashes :: rest => settle (some text) rest
    | .plain text :: rest => settle (some text) rest
    | .dashes :: rest => settle none rest
    | rest => settle none rest

/-- The command that all arguments give. -/
def command (p : Progress) : Except OptionError Command :=
  if p.extras.isEmpty then .ok (.run p.flags p.file) else .error (.unrecognized p.extras)

end Progress

/-- Goes through the arguments from left to right. A request for help counts as soon as it is
met. -/
def interpret (p : Progress) : List Argument → Except OptionError Command
  | [] => (p.finish []).command
  | a :: as =>
    if isTail (a :: as) then (p.finish (a :: as)).command
    else match a with
      | .flag f isShort joined =>
        match flagsOf f isShort joined with
        | .error e => .error e
        | .ok fs => if fs.contains .help then .ok .help else interpret (fs.foldl Progress.set p) as
      | .plain text =>
        if p.settled then interpret (p.addExtra text) as
        else interpret { p with file := some text, settled := true } as
      | a => interpret (p.addExtra a.text) as

/-- The command that arguments give. -/
def parse (args : List String) : Except OptionError Command :=
  match classifyAll args with
  | .error e => .error e
  | .ok as => interpret .start as

/-- The short description of the command line. -/
def usage : String := "usage: lox [-h] [-p] [-a] [-v] [file]\n"

/-- The long description of the command line. -/
def helpText : String :=
  usage ++ "\n"
    ++ "positional arguments:\n"
    ++ "  file              file to interpret and run (if empty, goes to command-line\n"
    ++ "                    mode)\n\n"
    ++ "options:\n"
    ++ "  -h, --help        show this help message and exit\n"
    ++ "  -p, --parse-tree  print the parse tree of the source\n"
    ++ "  -a, --emit-ast    print the syntax tree of the source before running it\n"
    ++ "  -v, --verbose     log debug information\n"

/-- What is said about refused arguments. -/
def errorText (e : OptionError) : String := usage ++ "lox: error: " ++ e.text ++ "\n"

end Lox.CommandLine
