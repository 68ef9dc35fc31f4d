import Lox.Main
import Lox.Syntax.Walk
import Lox.Proofs.Erasure
import Lox.Proofs.Discipline
import Lox.Proofs.Balance
import Lox.Proofs.Separation
import Lox.Proofs.Grouping
import Lox.Proofs.Prediction
import Lox.Proofs.Numerals
import Lox.Proofs.Spelling
import Lox.Proofs.Unparse
import Lox.Proofs.RoundTrip
import Lox.Proofs.Lexemes
import Lox.Proofs.Derivation
import Lox.Proofs.Completeness
import Lox.Proofs.Building
import Lox.Proofs.Safety
import Lox.Proofs.Visibility
import Lox.Proofs.Joining
import Lox.Proofs.Frames
import Lox.Proofs.Captures
import Lox.Proofs.Recursion
import Lox.Proofs.Continuation
import Lox.Proofs.Dialogue
import Lox.Proofs.Tracing
import Lox.Proofs.Crashes
import Lox.Proofs.Returns
import Lox.Proofs.Parameters
import Lox.Proofs.Loops
import Lox.Proofs.Refinement
import Lox.Proofs.Arithmetic
import Lox.Proofs.Chains
import Lox.Proofs.Aliasing
import Lox.Proofs.Names
import Lox.Proofs.Excerpts
import Lox.Proofs.Comments
import Lox.Proofs.Dumps
import Lox.Proofs.Climbing
import Lox.Proofs.Spacing
import Lox.Proofs.Leaves
import Lox.Proofs.Operands
