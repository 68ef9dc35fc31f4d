/-!
# Precedence

Groups a flat sequence of operands and operators into a tree. Operators stand in tiers from the
loosest to the tightest; an operator takes to its right whatever binds tighter, and also what is of
its own tier and groups to the right.
-/

namespace Lox

/-- To which side operators of one tier group. -/
inductive Assoc where
  | left | right
  deriving DecidableEq, Repr

/-- How tight an operator binds, and to which side it groups. -/
structure Rank where
  level : Nat
  assoc : Assoc
  deriving DecidableEq, Repr

/-- Operator tiers, the loosest first. -/
abbrev Tiers (κ : Type) := List (List (κ × Assoc))

namespace Tiers

variable {κ : Type} [DecidableEq κ]

/-- The rank of `k` in tiers whose first one has the level `level`; the last entry counts where
there are several. Models `PrecClimber.__init__`. -/
def rankFrom (level : Nat) (tiers : Tiers κ) (k : κ) : Option Rank :=
  match tiers with
  | [] => none
  | tier :: rest =>
    (rankFrom (level + 1) rest k).or
      ((tier.reverse.lookup k).map (Rank.mk level))

/-- The rank of the operator `k`; levels count from one. Models `PrecClimber.precedence`. -/
def rank? (tiers : Tiers κ) (k : κ) : Option Rank := rankFrom 1 tiers k

end Tiers

/-- An operator with its rank and the operand to its right. -/
structure Step (α β : Type) where
  rank : Rank
  op : β
  rhs : α

namespace Precedence

variable {α β : Type}

mutual

/-- Groups `lhs` with the steps at the front of the list that bind at least as tight as `least`, and
returns the tree with the steps that remain. Models `PrecClimber._climb`. -/
def climb (join : α → β → α → α) (least : Nat) (lhs : α) :
    (steps : List (Step α β)) → { r : α × List (Step α β) // r.2.length ≤ steps.length }
  | [] => ⟨(lhs, []), Nat.le_refl _⟩
  | s :: steps =>
    if s.rank.level < least then ⟨(lhs, s :: steps), Nat.le_refl _⟩
    else
      let right := absorb join s.rank.level s.rhs steps
      let whole := climb join least (join lhs s.op right.1.1) right.1.2
      ⟨whole.1, Nat.le_trans whole.2 (Nat.le_succ_of_le right.2)⟩
termination_by steps => steps.length
decreasing_by
  · simp
  · exact Nat.lt_succ_of_le right.2

/-- Extends the operand `rhs` of an operator of the given level by the steps at the front of the
list that belong to it, and returns it with the steps that remain. The inner loop of
`PrecClimber._climb`. -/
def absorb (join : α → β → α → α) (level : Nat) (rhs : α) :
    (steps : List (Step α β)) → { r : α × List (Step α β) // r.2.length ≤ steps.length }
  | [] => ⟨(rhs, []), Nat.le_refl _⟩
  | s :: steps =>
    if level < s.rank.level ∨ (s.rank.level = level ∧ s.rank.assoc = .right) then
      let inner := absorb join s.rank.level s.rhs steps
      let group := climb join s.rank.level (join rhs s.op inner.1.1) inner.1.2
      let whole := absorb join level group.1.1 group.1.2
      ⟨whole.1, Nat.le_trans whole.2 (Nat.le_trans group.2 (Nat.le_succ_of_le inner.2))⟩
    else ⟨(rhs, s :: steps), Nat.le_refl _⟩
termination_by steps => steps.length
decreasing_by
  · simp
  · exact Nat.lt_succ_of_le inner.2
  · exact Nat.lt_succ_of_le (Nat.le_trans group.2 inner.2)

end

/-- The tree of a first operand and all steps after it. -/
def group (join : α → β → α → α) (first : α) (steps : List (Step α β)) : α :=
  (climb join 0 first steps).1.1

end Precedence

/-- Why a sequence of operands and operators cannot be grouped. -/
inductive PrecedenceError (κ : Type) where
  /-- The operator stands in no tier. -/
  | unknown (k : κ)
  /-- An operand is missing at the end. -/
  | missingOperand
  deriving DecidableEq, Repr

namespace Tiers

variable {κ α β : Type} [DecidableEq κ]

/-- The steps of a sequence that goes on with the operator of each pair and the operand after it;
`first` is the operand before them. -/
def steps (tiers : Tiers κ) (key : β → κ) (last : Option α) :
    List (α × β) → Except (PrecedenceError κ) (α × List (Step α β))
  | [] =>
    match last with
    | none => .error .missingOperand
    | some operand => .ok (operand, [])
  | (operand, op) :: pairs =>
    match tiers.rank? (key op) with
    | none => .error (.unknown (key op))
    | some rank =>
      match steps tiers key last pairs with
      | .error e => .error e
      | .ok (next, rest) => .ok (operand, ⟨rank, op, next⟩ :: rest)

/-- Groups a sequence of operands and operators that alternate: each operand that has an operator
after it stands with it in `pairs`, and `last` is the operand at the end, if there is one. Models
`PrecClimber.climb`. -/
def group (tiers : Tiers κ) (key : β → κ) (join : α → β → α → α) (pairs : List (α × β))
    (last : Option α) : Except (PrecedenceError κ) α :=
  (steps tiers key last pairs).map fun s => Precedence.group join s.1 s.2

end Tiers

end Lox
