import Lox.Grammar.Predict

/-!
# Parsing

Turns tokens into a parse tree by prediction: an option or a repetition is entered when its form
can begin with the next token, and of two alternatives the first is taken when it can. A token that
fits nowhere is found before any token after it is looked at, except for the one that tells a call
from a value.
-/

namespace Lox

/-- The outcome of parsing a form at the front of some tokens. -/
inductive Parsed where
  /-- An instance was found; `rest` are the tokens after it. -/
  | done (trees : List Tree) (rest : List Token)
  /-- The first token of `rest`, or the end of the tokens, fits no instance. -/
  | stuck (rest : List Token)
  /-- The allowance for nested forms was used up. -/
  | exhausted
  deriving Repr

namespace Parsed

/-- Goes on after an instance was found, and puts its trees in front. -/
def andThen (p : Parsed) (next : List Token → Parsed) : Parsed :=
  match p with
  | done trees rest =>
    match next rest with
    | done more rest => done (trees ++ more) rest
    | q => q
  | q => q

/-- Puts the trees that were found under a node. -/
def under (r : Rule) : Parsed → Parsed
  | done trees rest => done [.node r trees] rest
  | q => q

end Parsed

namespace Form

/-- Takes the first token if it has the kind. -/
def expect (kind : Kind) (trees : Token → List Tree) : List Token → Parsed
  | [] => .stuck []
  | t :: ts => if t.kind = kind then .done (trees t) ts else .stuck (t :: ts)

/-- Parses an instance of a form at the front of the tokens, with at most `depth` forms inside one
another. -/
def parse : (depth : Nat) → Form → List Token → Parsed
  | 0, _, _ => .exhausted
  | _ + 1, token kind, ts => expect kind (fun t => [Tree.ofToken t]) ts
  | _ + 1, mark kind, ts => expect kind (fun _ => []) ts
  | depth + 1, rule r, ts => (parse depth r.form ts).under r
  | _ + 1, empty, ts => .done [] ts
  | depth + 1, seq a b, ts => (parse depth a ts).andThen (parse depth b)
  | depth + 1, alt a b, ts => if a.opensOn ts then parse depth a ts else parse depth b ts
  | depth + 1, opt a, ts => if a.opensOn ts then parse depth a ts else .done [] ts
  | depth + 1, many a, ts =>
    if a.opensOn ts then (parse depth a ts).andThen (parse depth (many a)) else .done [] ts

/-- An allowance that suffices for `count` tokens: fewer than 64 forms nest without a token being
taken. -/
def depthFor (count : Nat) : Nat := 64 * (count + 1)

end Form

namespace Tree

/-- The tree of a whole program, or the tokens from the first one on that does not fit; no tokens
are left where the end does not fit. -/
def ofTokens (ts : List Token) : Except (List Token) Tree :=
  match (Form.rule .program).parse (Form.depthFor ts.length) ts with
  | .done [t] [] => .ok t
  | .done _ rest => .error rest
  | .stuck rest => .error rest
  | .exhausted => .error ts

end Tree

end Lox
