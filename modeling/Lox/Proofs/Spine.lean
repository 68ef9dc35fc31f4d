import Lox.Proofs.Grouping
import Lox.Proofs.Unparse

/-!
# Spines of expressions

The infix operators of an expression that are written in one sequence, that is without parentheses
between them, form its spine. Its operands are the other subexpressions. The words of an expression
are those of its spine from left to right, and the spine respects the ranks of the operators because
parentheses stand wherever an operator does not fit.
-/

namespace Lox

/-- All operators of a tier group to the left. -/
theorem Infix.uniform_tiers : Infix.tiers.Uniform := by
  have hleft : ∀ tier ∈ tiers, ∀ entry ∈ tier, entry.2 = Assoc.left := by decide
  exact fun tier htier => ⟨.left, hleft tier htier⟩

namespace Expr

/-- An operand of an infix operator: its own spine, or the whole if it is in parentheses. -/
def spineIn (fits : Rank → Bool) (e : Expr) (t : OpTree Expr Infix) : OpTree Expr Infix :=
  if e.isBare fits then t else .leaf e

/-- An infix operator over its operands, whose spines are `s` and `t`. -/
def infixSpine (op : Infix) (a : Expr) (s : OpTree Expr Infix) (b : Expr)
    (t : OpTree Expr Infix) : OpTree Expr Infix :=
  .node (a.spineIn (fun q => op.rank.FitsLeft q) s) op (b.spineIn (fun q => op.rank.FitsRight q) t)

/-- The infix operators that are written in one sequence, and their operands. -/
def spine : Expr → OpTree Expr Infix
  | binary op a b => infixSpine (.binary op) a a.spine b b.spine
  | access a b => infixSpine .access a a.spine b b.spine
  | assign a b => infixSpine .assign a a.spine b b.spine
  | literal l => .leaf (literal l)
  | name x => .leaf (name x)
  | unary op e => .leaf (unary op e)
  | call f args => .leaf (call f args)
  | hole => .leaf hole
termination_by structural e => e

/-- The root of the spine is the infix operator at the root. -/
theorem root?_spine (e : Expr) : e.spine.root? = e.infix? := by
  cases e <;> rfl

private theorem fold_spineIn {fits : Rank → Bool} {e : Expr} {t : OpTree Expr Infix}
    (h : t.fold id infixed = e) : (e.spineIn fits t).fold id infixed = e := by
  rw [spineIn]
  split
  · exact h
  · rfl

private theorem fold_infixSpine (op : Infix) {a b : Expr} {s t : OpTree Expr Infix}
    (hs : s.fold id infixed = a) (ht : t.fold id infixed = b) :
    (infixSpine op a s b t).fold id infixed = infixed a op b := by
  rw [infixSpine, OpTree.fold, fold_spineIn hs, fold_spineIn ht]

/-- The spine has the value of the expression. -/
theorem fold_spine : (e : Expr) → e.spine.fold id infixed = e
  | binary op a b => fold_infixSpine (.binary op) (fold_spine a) (fold_spine b)
  | access a b => fold_infixSpine .access (fold_spine a) (fold_spine b)
  | assign a b => fold_infixSpine .assign (fold_spine a) (fold_spine b)
  | literal _ | name _ | unary _ _ | call _ _ | hole => rfl

/-- The ranks of the tokens of infix operators. -/
abbrev rankOf (op : Infix) : Option Rank := Infix.tiers.rank? op.kind

private theorem fits_of_root? {fits : Rank → Bool} {e : Expr} {t : OpTree Expr Infix}
    (ht : t.root? = e.infix?) {q : Rank}
    (hq : (e.spineIn fits t).root?.bind rankOf = some q) : fits q = true := by
  rw [spineIn] at hq
  split at hq
  · next hbare =>
    rw [ht] at hq
    obtain ⟨op, hop, hrank⟩ := Option.bind_eq_some_iff.1 hq
    rw [isBare, hop] at hbare
    rw [rankOf, op.rank?_kind] at hrank
    rw [← Option.some.inj hrank]
    exact hbare
  · cases hq

private theorem wellGrouped_spineIn {fits : Rank → Bool} {e : Expr} {t : OpTree Expr Infix}
    (ht : t.WellGrouped rankOf) : (e.spineIn fits t).WellGrouped rankOf := by
  rw [spineIn]
  split
  · exact ht
  · trivial

private theorem wellGrouped_infixSpine (op : Infix) {a b : Expr}
    (ha : a.spine.WellGrouped rankOf) (hb : b.spine.WellGrouped rankOf) :
    (infixSpine op a a.spine b b.spine).WellGrouped rankOf := by
  refine ⟨⟨op.rank, op.rank?_kind, ?_, ?_⟩, wellGrouped_spineIn ha, wellGrouped_spineIn hb⟩
  · exact fun q hq => of_decide_eq_true (fits_of_root? a.root?_spine hq)
  · exact fun q hq => of_decide_eq_true (fits_of_root? b.root?_spine hq)

/-- The spine respects the ranks of the operators. -/
theorem wellGrouped_spine : (e : Expr) → e.spine.WellGrouped rankOf
  | binary op a b => wellGrouped_infixSpine (.binary op) (wellGrouped_spine a) (wellGrouped_spine b)
  | access a b => wellGrouped_infixSpine .access (wellGrouped_spine a) (wellGrouped_spine b)
  | assign a b => wellGrouped_infixSpine .assign (wellGrouped_spine a) (wellGrouped_spine b)
  | literal _ | name _ | unary _ _ | call _ _ | hole => trivial

variable (spell : Float → String)

/-- The words of an expression that stands where no infix operator fits. -/
def operandWords (e : Expr) : List Word := e.enclose (fun _ => false) (e.words spell)

/-- The words of an operand, or of an infix operator. -/
def piece : Expr ⊕ Infix → List Word
  | .inl e => e.operandWords spell
  | .inr op => [.ofKind op.kind]

private theorem operandWords_of_not_bare {fits : Rank → Bool} {e : Expr}
    (h : e.isBare fits = false) : e.operandWords spell = Word.parens (e.words spell) := by
  rw [operandWords, enclose]
  cases he : e.infix? with
  | none =>
    rw [isBare, he] at h
    cases h
  | some op =>
    rw [isBare, he]
    rfl

private theorem enclose_eq_spineIn {fits : Rank → Bool} {e : Expr}
    (h : e.words spell = e.spine.reading.flatMap (piece spell)) :
    e.enclose fits (e.words spell) = (e.spineIn fits e.spine).reading.flatMap (piece spell) := by
  rw [enclose, spineIn]
  cases hbare : e.isBare fits with
  | true => exact h
  | false =>
    rw [← operandWords_of_not_bare spell hbare]
    exact (List.append_nil _).symm

private theorem infixWords_eq_spine (op : Infix) {a b : Expr}
    (ha : a.words spell = a.spine.reading.flatMap (piece spell))
    (hb : b.words spell = b.spine.reading.flatMap (piece spell)) :
    infixWords op a (a.words spell) b (b.words spell) =
      (infixSpine op a a.spine b b.spine).reading.flatMap (piece spell) := by
  rw [infixWords, infixSpine, OpTree.reading, List.flatMap_append, List.flatMap_cons,
    ← enclose_eq_spineIn spell ha, ← enclose_eq_spineIn spell hb]
  rfl

/-- The words of an expression are those of its spine from left to right. -/
theorem words_eq_spine : (e : Expr) → e.words spell = e.spine.reading.flatMap (piece spell)
  | binary op a b => infixWords_eq_spine spell (.binary op) (words_eq_spine a) (words_eq_spine b)
  | access a b => infixWords_eq_spine spell .access (words_eq_spine a) (words_eq_spine b)
  | assign a b => infixWords_eq_spine spell .assign (words_eq_spine a) (words_eq_spine b)
  | literal _ | name _ | unary _ _ | call _ _ | hole => (List.append_nil _).symm

/-- An expression without an infix operator at its root is its only operand. -/
theorem spine_eq_leaf {e : Expr} (h : e.infix? = none) : e.spine = .leaf e := by
  cases e <;> first | rfl | exact nomatch h

end Expr

end Lox
