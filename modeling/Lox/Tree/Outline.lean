import Lox.Tree

/-!
# Outline of a parse tree

A tree as indented lines, two spaces for each level. A node whose only child is a leaf shares its
line with it, a tab between the two.
-/

namespace Lox.Tree

/-- Two spaces for each level. -/
def indent (level : Nat) : String := String.ofList (List.replicate (2 * level) ' ')

mutual

/-- The lines of a tree whose root stands at `level`. -/
def outlineAt (level : Nat) : Tree → String
  | .leaf _ text => indent level ++ text ++ "\n"
  | .node rule [.leaf _ text] => indent level ++ rule.name ++ "\t" ++ text ++ "\n"
  | .node rule children => indent level ++ rule.name ++ "\n" ++ outlinesAt (level + 1) children

/-- The lines of the trees of a list, one after the other. -/
def outlinesAt (level : Nat) : List Tree → String
  | [] => ""
  | t :: ts => outlineAt level t ++ outlinesAt level ts

end

/-- The lines of a whole tree. -/
def outline (t : Tree) : String := outlineAt 0 t

end Lox.Tree
