import Lox.Precedence

/-!
# Operator trees

Binary trees of operators over operands, their in-order reading, and when they respect the ranks of
their operators. A reading leaves no choice: two trees that respect the ranks and have the same
reading are equal.
-/

namespace Lox

/-- A tree of operators `β` over operands `α`. -/
inductive OpTree (α β : Type) where
  | leaf (a : α)
  | node (l : OpTree α β) (op : β) (r : OpTree α β)
  deriving DecidableEq, Repr

namespace Rank

/-- A node of rank `q` can be the left child of one of rank `p`. -/
def FitsLeft (p q : Rank) : Prop := p.level < q.level ∨ q.level = p.level ∧ q.assoc = .left

/-- A node of rank `q` can be the right child of one of rank `p`. -/
def FitsRight (p q : Rank) : Prop := p.level < q.level ∨ q.level = p.level ∧ q.assoc = .right

instance (p q : Rank) : Decidable (p.FitsLeft q) := inferInstanceAs (Decidable (_ ∨ _))

instance (p q : Rank) : Decidable (p.FitsRight q) := inferInstanceAs (Decidable (_ ∨ _))

/-- A left child binds at least as tight. -/
theorem FitsLeft.le {p q : Rank} (h : p.FitsLeft q) : p.level ≤ q.level := by
  rcases h with h | ⟨h, -⟩ <;> omega

/-- A right child binds at least as tight. -/
theorem FitsRight.le {p q : Rank} (h : p.FitsRight q) : p.level ≤ q.level := by
  rcases h with h | ⟨h, -⟩ <;> omega

/-- Operators that bind equally tight group to the same side. -/
def Uniform {β : Type} (rank : β → Option Rank) : Prop :=
  ∀ {a b : β} {p q : Rank}, rank a = some p → rank b = some q → p.level = q.level →
    p.assoc = q.assoc

end Rank

namespace OpTree

variable {α β γ : Type}

/-- The operands and the operators from left to right. -/
def reading : OpTree α β → List (α ⊕ β)
  | leaf a => [.inl a]
  | node l op r => l.reading ++ .inr op :: r.reading

/-- The operator at the root. -/
def root? : OpTree α β → Option β
  | leaf _ => none
  | node _ op _ => some op

/-- Each operator has a rank, and what stands below it fits there. -/
def WellGrouped (rank : β → Option Rank) : OpTree α β → Prop
  | leaf _ => True
  | node l op r =>
    (∃ p, rank op = some p ∧ (∀ q, l.root?.bind rank = some q → p.FitsLeft q) ∧
      (∀ q, r.root?.bind rank = some q → p.FitsRight q)) ∧
    l.WellGrouped rank ∧ r.WellGrouped rank

/-- The value of a tree in which operators combine the values of their operands. -/
def fold (primary : α → γ) (join : γ → β → γ → γ) : OpTree α β → γ
  | leaf a => primary a
  | node l op r => join (l.fold primary join) op (r.fold primary join)

/-- A tree is the value of itself. -/
theorem fold_leaf_node (t : OpTree α β) : t.fold leaf node = t := by
  induction t with
  | leaf a => rfl
  | node l op r ihl ihr => rw [fold, ihl, ihr]

variable {rank : β → Option Rank}

/-- A bound on how tight the root binds is one for all operators of the tree. -/
theorem WellGrouped.le_level {t : OpTree α β} (ht : t.WellGrouped rank) {n : Nat}
    (hroot : ∀ q, t.root?.bind rank = some q → n ≤ q.level) {op : β}
    (hop : .inr op ∈ t.reading) : ∃ q, rank op = some q ∧ n ≤ q.level := by
  induction t with
  | leaf a => simp [reading] at hop
  | node l root r ihl ihr =>
    obtain ⟨⟨p, hp, hl, hr⟩, hwl, hwr⟩ := ht
    have hn : n ≤ p.level := hroot p hp
    rcases List.mem_append.1 hop with hop | hop
    · exact ihl hwl (fun q hq => Nat.le_trans hn (hl q hq).le) hop
    · rcases List.mem_cons.1 hop with hop | hop
      · obtain rfl := Sum.inr.inj hop
        exact ⟨p, hp, hn⟩
      · exact ihr hwr (fun q hq => Nat.le_trans hn (hr q hq).le) hop

private theorem WellGrouped.child_level (huniform : Rank.Uniform rank) {t : OpTree α β}
    (ht : t.WellGrouped rank) {op : β} {p : Rank} (hp : rank op = some p) {side : Assoc}
    (hfits : ∀ q, t.root?.bind rank = some q →
      p.level < q.level ∨ q.level = p.level ∧ q.assoc = side) {op' : β}
    (hop : .inr op' ∈ t.reading) :
    ∃ q, rank op' = some q ∧ p.level ≤ q.level ∧ (p.assoc ≠ side → p.level < q.level) := by
  have hle : ∀ q, t.root?.bind rank = some q → p.level ≤ q.level := by
    intro q hq
    have hlevel := hfits q hq
    omega
  obtain ⟨q, hq, hlevel⟩ := ht.le_level hle hop
  refine ⟨q, hq, hlevel, fun hside => ?_⟩
  have hlt : ∀ q, t.root?.bind rank = some q → p.level + 1 ≤ q.level := by
    intro q hq
    rcases hfits q hq with htight | ⟨heq, hassoc⟩
    · exact htight
    · obtain ⟨root, -, hroot⟩ := Option.bind_eq_some_iff.1 hq
      exact (hside ((huniform hroot hp heq).symm.trans hassoc)).elim
  obtain ⟨q', hq', htight⟩ := ht.le_level hlt hop
  obtain rfl := Option.some.inj (hq.symm.trans hq')
  exact htight

/-- Every operator in the left subtree binds at least as tight as the root, and tighter if the root
groups to the right. -/
theorem WellGrouped.left_level (huniform : Rank.Uniform rank) {l r : OpTree α β} {op : β}
    (ht : (node l op r).WellGrouped rank) {p : Rank} (hp : rank op = some p) {op' : β}
    (hop : .inr op' ∈ l.reading) :
    ∃ q, rank op' = some q ∧ p.level ≤ q.level ∧ (p.assoc ≠ .left → p.level < q.level) := by
  obtain ⟨⟨p', hp', hl, -⟩, hwl, -⟩ := ht
  obtain rfl := Option.some.inj (hp.symm.trans hp')
  exact hwl.child_level huniform hp hl hop

/-- Every operator in the right subtree binds at least as tight as the root, and tighter if the
root groups to the left. -/
theorem WellGrouped.right_level (huniform : Rank.Uniform rank) {l r : OpTree α β} {op : β}
    (ht : (node l op r).WellGrouped rank) {p : Rank} (hp : rank op = some p) {op' : β}
    (hop : .inr op' ∈ r.reading) :
    ∃ q, rank op' = some q ∧ p.level ≤ q.level ∧ (p.assoc ≠ .right → p.level < q.level) := by
  obtain ⟨⟨p', hp', -, hr⟩, -, hwr⟩ := ht
  obtain rfl := Option.some.inj (hp.symm.trans hp')
  exact hwr.child_level huniform hp hr hop

-- The root of one tree cannot stand in the left subtree of another while the root of that stands in
-- the right subtree of the first: one of the two would have to bind tighter than itself.
private theorem not_crossed (huniform : Rank.Uniform rank) {l l' r r' : OpTree α β} {op op' : β}
    (ht : (node l op r).WellGrouped rank) (ht' : (node l' op' r').WellGrouped rank)
    (hop : .inr op ∈ l'.reading) (hop' : .inr op' ∈ r.reading) : False := by
  obtain ⟨⟨p, hp, -⟩, -⟩ := id ht
  obtain ⟨⟨p', hp', -⟩, -⟩ := id ht'
  obtain ⟨q', hq', hle', hlt'⟩ := ht.right_level huniform hp hop'
  obtain ⟨q, hq, hle, hlt⟩ := ht'.left_level huniform hp' hop
  obtain rfl := Option.some.inj (hp.symm.trans hq)
  obtain rfl := Option.some.inj (hp'.symm.trans hq')
  have hlevel : p.level = p'.level := Nat.le_antisymm hle' hle
  have hassoc := huniform hp hp' hlevel
  by_cases hp'' : p.assoc = .left
  · have htight := hlt' (by rw [hp'']; decide)
    omega
  · have htight := hlt (hassoc ▸ hp'')
    omega

/-- Trees that respect the ranks of their operators are equal if they read the same. -/
theorem WellGrouped.ext (huniform : Rank.Uniform rank) {t t' : OpTree α β}
    (ht : t.WellGrouped rank) (ht' : t'.WellGrouped rank) (h : t.reading = t'.reading) :
    t = t' := by
  induction t generalizing t' with
  | leaf a =>
    cases t' with
    | leaf a' =>
      obtain rfl : a = a' := by simpa [reading] using h
      rfl
    | node l' op' r' =>
      have hmem : Sum.inr op' ∈ (leaf a : OpTree α β).reading := by
        rw [h]
        simp [reading]
      simp [reading] at hmem
  | node l op r ihl ihr =>
    cases t' with
    | leaf a' =>
      have hmem : Sum.inr op ∈ (leaf a' : OpTree α β).reading := by
        rw [← h]
        simp [reading]
      simp [reading] at hmem
    | node l' op' r' =>
      rcases List.append_eq_append_iff.1 h with ⟨mid, hl', hr⟩ | ⟨mid, hl, hr'⟩
      · cases mid with
        | nil =>
          obtain ⟨hop, hread⟩ := List.cons.inj hr
          rw [ihl ht.2.1 ht'.2.1 (by simpa using hl'.symm), Sum.inr.inj hop,
            ihr ht.2.2 ht'.2.2 hread]
        | cons x mid =>
          obtain ⟨rfl, hread⟩ := List.cons.inj hr
          exact (not_crossed huniform ht ht' (by simp [hl']) (by simp [hread])).elim
      · cases mid with
        | nil =>
          obtain ⟨hop, hread⟩ := List.cons.inj hr'
          rw [ihl ht.2.1 ht'.2.1 (by simpa using hl), Sum.inr.inj hop.symm,
            ihr ht.2.2 ht'.2.2 hread.symm]
        | cons x mid =>
          obtain ⟨rfl, hread⟩ := List.cons.inj hr'
          exact (not_crossed huniform ht' ht (by simp [hl]) (by simp [hread])).elim

end OpTree

end Lox
