import Lox.Defect
import Lox.Proofs.Grouping

/-!
# Climbing call by call

Precedence climbing as it goes along a sequence. An operator is looked at before it is taken, an
operand is built by a call when it is taken, and an operator with both of its operands is joined by
a call; calls may have any effect. It comes to an end for all tiers, also for those whose operators
group to different sides: it looks again at an operator only to take it. If all operators are known
and no operand is missing, its calls are those of a tree that reads as the sequence, each operand
and each operator once (`Tiers.groupM_ends`); else it fails at the first operator that is not known
or for the operand that is missing, as `Tiers.group` does.
-/

namespace Lox

namespace OpTree

variable {α β γ : Type} {m : Type → Type} [Monad m]

/-- The value of a tree whose operands and operators are called for: an operator after what stands
below it, the left side first. -/
def foldM (primary : α → m γ) (join : γ → β → γ → m γ) : OpTree α β → m γ
  | leaf a => primary a
  | node l op r => do
    let x ← l.foldM primary join
    let y ← r.foldM primary join
    join x op y

/-- The operands and operators in the order of their calls. -/
def calls : OpTree α β → List (α ⊕ β)
  | leaf a => [.inl a]
  | node l op r => l.calls ++ r.calls ++ [.inr op]

/-- Every operand and every operator is called for once. -/
theorem perm_calls (t : OpTree α β) : t.calls.Perm t.reading := by
  induction t with
  | leaf a => exact .refl _
  | node l op r ihl ihr =>
    rw [calls, reading, List.append_assoc]
    exact ihl.append ((ihr.append_right _).trans List.perm_append_comm)

/-- Operands are called for from left to right. -/
theorem operands_calls (t : OpTree α β) :
    t.calls.filterMap Sum.getLeft? = t.reading.filterMap Sum.getLeft? := by
  induction t with
  | leaf a => rfl
  | node l op r ihl ihr =>
    simp only [calls, reading, List.filterMap_append, List.filterMap_cons, List.filterMap_nil,
      Sum.getLeft?, ihl, ihr, List.append_nil]

/-- An operand whose call is noted. -/
def noteOperand (primary : α → γ) (a : α) : StateM (List (α ⊕ β)) γ := do
  modify (· ++ [.inl a])
  pure (primary a)

/-- An operator whose call is noted. -/
def noteOperator (join : γ → β → γ → γ) (x : γ) (op : β) (y : γ) : StateM (List (α ⊕ β)) γ := do
  modify (· ++ [.inr op])
  pure (join x op y)

/-- The calls of a tree are noted in their order. -/
theorem run_foldM_note (t : OpTree α β) (primary : α → γ) (join : γ → β → γ → γ)
    (past : List (α ⊕ β)) :
    (t.foldM (noteOperand primary) (noteOperator join)).run past =
      (t.fold primary join, past ++ t.calls) := by
  induction t generalizing past with
  | leaf a => rfl
  | node l op r ihl ihr =>
    rw [foldM, StateT.run_bind, ihl]
    show StateT.run (_ >>= _) _ = _
    rw [StateT.run_bind, ihr, calls, ← List.append_assoc, ← List.append_assoc]
    rfl

end OpTree

namespace Tiers

/-- What stands behind an operand: operators, each with the operand behind it, if there is one. -/
abbrev Queue (α β : Type) := List (β × Option α)

/-- The first operand of a sequence, if there is one, and what stands behind it. -/
def queue {α β : Type} (last : Option α) : List (α × β) → Option α × Queue α β
  | [] => (last, [])
  | (operand, op) :: pairs => (some operand, (op, (queue last pairs).1) :: (queue last pairs).2)

section Climber

variable {κ α β γ : Type} [DecidableEq κ] {m : Type → Type} [Monad m]

/-- Builds an operand, if there is one. -/
def operandM (primary : α → m γ) : Option α → ExceptT (PrecedenceError κ) m γ
  | none => throw .missingOperand
  | some operand => ExceptT.lift (primary operand)

/-- Whether the first operator is known and binds at least as tight as `least`. -/
def Tight (tiers : Tiers κ) (key : β → κ) (least : Nat) (q : Queue α β) : Prop :=
  ∃ p ∈ q.head?, ∃ r, tiers.rank? (key p.1) = some r ∧ least ≤ r.level

private theorem not_tight_nil {tiers : Tiers κ} {key : β → κ} {least : Nat} :
    ¬Tight tiers key least ([] : Queue α β) := by
  rintro ⟨p, hp, -⟩
  cases hp

private theorem not_tight_of_lt {tiers : Tiers κ} {key : β → κ} {least : Nat} {op : β}
    {x : Option α} {q : Queue α β} {r : Rank} (hr : tiers.rank? (key op) = some r)
    (h : r.level < least) : ¬Tight tiers key least ((op, x) :: q) := by
  rintro ⟨p, hp, r', hr', hle⟩
  obtain rfl := Option.some.inj hp
  obtain rfl := Option.some.inj (hr.symm.trans hr')
  exact Nat.not_lt.2 hle h

variable (tiers : Tiers κ) (key : β → κ) (primary : α → m γ) (join : γ → β → γ → m γ)

mutual

/-- Joins `lhs` with what stands at the front of a queue and binds at least as tight as `least`, and
returns what is left of the queue. An operator that is tight enough is taken: then less is left.
Models `PrecClimber._climb` with its calls. -/
def climbM (least : Nat) (lhs : γ) : (q : Queue α β) → ExceptT (PrecedenceError κ) m
    { r : γ × Queue α β //
      r.2.length ≤ q.length ∧ (Tight tiers key least q → r.2.length < q.length) }
  | [] => pure ⟨(lhs, []), Nat.le_refl _, fun ht => (not_tight_nil ht).elim⟩
  | (op, x) :: q =>
    match hr : tiers.rank? (key op) with
    | none => throw (.unknown (key op))
    | some rank =>
      if h : rank.level < least then
        pure ⟨(lhs, (op, x) :: q), Nat.le_refl _, fun ht => (not_tight_of_lt hr h ht).elim⟩
      else do
        let rhs ← operandM primary x
        let right ← absorbM rank.level rhs q
        let whole ← ExceptT.lift (join lhs op right.1.1)
        let rest ← climbM least whole right.1.2
        have hle := Nat.lt_succ_of_le (Nat.le_trans rest.2.1 right.2)
        pure ⟨rest.1, Nat.le_of_lt hle, fun _ => hle⟩
termination_by q => (q.length, 0)
decreasing_by
  · exact Prod.Lex.left _ _ (Nat.lt_succ_self _)
  · exact Prod.Lex.left _ _ (Nat.lt_succ_of_le right.2)

/-- Extends the operand `rhs` of an operator of the given level by what stands at the front of a
queue and belongs to it, and returns what is left of the queue. The inner loop of
`PrecClimber._climb` with its calls. -/
def absorbM (level : Nat) (rhs : γ) : (q : Queue α β) → ExceptT (PrecedenceError κ) m
    { r : γ × Queue α β // r.2.length ≤ q.length }
  | [] => pure ⟨(rhs, []), Nat.le_refl _⟩
  | (op, x) :: q =>
    match _ : tiers.rank? (key op) with
    | none => throw (.unknown (key op))
    | some rank =>
      if level < rank.level ∨ (rank.level = level ∧ rank.assoc = .right) then do
        let group ← climbM rank.level rhs ((op, x) :: q)
        let rest ← absorbM level group.1.1 group.1.2
        pure ⟨rest.1, Nat.le_trans rest.2 group.2.1⟩
      else pure ⟨(rhs, (op, x) :: q), Nat.le_refl _⟩
termination_by q => (q.length, 1)
decreasing_by
  · exact Prod.Lex.right _ Nat.zero_lt_one
  · exact Prod.Lex.left _ _ (group.2.2 ⟨_, rfl, _, ‹_›, Nat.le_refl _⟩)

end

/-- Groups a sequence of operands and operators, as `group` does, by calls. Models
`PrecClimber.climb` with its calls. -/
def groupM (pairs : List (α × β)) (last : Option α) : ExceptT (PrecedenceError κ) m γ := do
  let lhs ← operandM primary (queue last pairs).1
  let r ← climbM tiers key primary join 0 lhs (queue last pairs).2
  return r.1.1

/-- Climbing without the bound on what is left. -/
def climbed (least : Nat) (lhs : γ) (q : Queue α β) :
    ExceptT (PrecedenceError κ) m (γ × Queue α β) :=
  Subtype.val <$> climbM tiers key primary join least lhs q

/-- Absorbing without the bound on what is left. -/
def absorbed (level : Nat) (rhs : γ) (q : Queue α β) :
    ExceptT (PrecedenceError κ) m (γ × Queue α β) :=
  Subtype.val <$> absorbM tiers key primary join level rhs q

end Climber

/-! ### One step at a time -/

private theorem throw_bind {m : Type → Type} [Monad m] [LawfulMonad m] {ε α β : Type} (e : ε)
    (f : α → ExceptT ε m β) : (throw e : ExceptT ε m α) >>= f = throw e := by
  apply ExceptT.ext
  simp

section Equations

variable {κ α β γ : Type} [DecidableEq κ] {m : Type → Type} [Monad m] [LawfulMonad m]
  {tiers : Tiers κ} {key : β → κ} {primary : α → m γ} {join : γ → β → γ → m γ}
  {least : Nat} {v : γ} {op : β} {x : Option α} {q : Queue α β} {p r : Rank}

private theorem climbed_nil : climbed tiers key primary join least v [] = pure (v, []) := by
  rw [climbed, climbM, map_pure]

private theorem climbed_cons {rank : Option Rank} (h : tiers.rank? (key op) = rank) :
    climbed tiers key primary join least v ((op, x) :: q) =
      rank.elim (throw (.unknown (key op))) fun r =>
        if r.level < least then pure (v, (op, x) :: q)
        else (do
          let rhs ← operandM primary x
          let right ← absorbed tiers key primary join r.level rhs q
          let whole ← ExceptT.lift (join v op right.1)
          climbed tiers key primary join least whole right.2) := by
  rw [climbed, climbM]
  split
  · rename_i hr
    obtain rfl := h.symm.trans hr
    rw [map_eq_pure_bind, throw_bind, Option.elim_none]
  · rename_i r hr
    obtain rfl := h.symm.trans hr
    rw [Option.elim_some]
    by_cases hlt : r.level < least
    · rw [dif_pos hlt, if_pos hlt, map_pure]
    · rw [dif_neg hlt, if_neg hlt]
      simp only [climbed, absorbed, map_eq_pure_bind, bind_assoc, pure_bind]

private theorem climbed_unknown (h : tiers.rank? (key op) = none) :
    climbed tiers key primary join least v ((op, x) :: q) = throw (.unknown (key op)) :=
  climbed_cons h

private theorem climbed_of_lt (h : tiers.rank? (key op) = some r) (hlt : r.level < least) :
    climbed tiers key primary join least v ((op, x) :: q) = pure (v, (op, x) :: q) :=
  (climbed_cons h).trans (if_pos hlt)

private theorem climbed_of_le (h : tiers.rank? (key op) = some r) (hle : least ≤ r.level) :
    climbed tiers key primary join least v ((op, x) :: q) = (do
      let rhs ← operandM primary x
      let right ← absorbed tiers key primary join r.level rhs q
      let whole ← ExceptT.lift (join v op right.1)
      climbed tiers key primary join least whole right.2) :=
  (climbed_cons h).trans (if_neg (Nat.not_lt.2 hle))

private theorem absorbed_nil (level : Nat) :
    absorbed tiers key primary join level v [] = pure (v, []) := by
  rw [absorbed, absorbM, map_pure]

private theorem absorbed_cons (level : Nat) {rank : Option Rank}
    (h : tiers.rank? (key op) = rank) :
    absorbed tiers key primary join level v ((op, x) :: q) =
      rank.elim (throw (.unknown (key op))) fun r =>
        if level < r.level ∨ (r.level = level ∧ r.assoc = .right) then do
          let group ← climbed tiers key primary join r.level v ((op, x) :: q)
          absorbed tiers key primary join level group.1 group.2
        else pure (v, (op, x) :: q) := by
  rw [absorbed, absorbM]
  split
  · rename_i hr
    obtain rfl := h.symm.trans hr
    rw [map_eq_pure_bind, throw_bind, Option.elim_none]
  · rename_i r hr
    obtain rfl := h.symm.trans hr
    rw [Option.elim_some, apply_ite (Subtype.val <$> ·), map_pure]
    simp only [climbed, absorbed, map_eq_pure_bind, bind_assoc, pure_bind]

private theorem absorbed_unknown (level : Nat) (h : tiers.rank? (key op) = none) :
    absorbed tiers key primary join level v ((op, x) :: q) = throw (.unknown (key op)) :=
  absorbed_cons level h

private theorem absorbed_of_not (h : tiers.rank? (key op) = some r) (hfits : ¬p.FitsRight r) :
    absorbed tiers key primary join p.level v ((op, x) :: q) = pure (v, (op, x) :: q) :=
  (absorbed_cons p.level h).trans (if_neg hfits)

-- An operator that fits to the right is looked at again by a climb of its level, which takes it.
private theorem absorbed_of_fits (h : tiers.rank? (key op) = some r) (hfits : p.FitsRight r) :
    absorbed tiers key primary join p.level v ((op, x) :: q) = (do
      let rhs ← operandM primary x
      let inner ← absorbed tiers key primary join r.level rhs q
      let whole ← ExceptT.lift (join v op inner.1)
      let group ← climbed tiers key primary join r.level whole inner.2
      absorbed tiers key primary join p.level group.1 group.2) := by
  refine (absorbed_cons p.level h).trans ((if_pos hfits).trans ?_)
  rw [climbed_of_le h (Nat.le_refl _)]
  simp only [bind_assoc]

end Equations

/-! ### Sequences that are grouped -/

section Grouped

variable {κ α β γ : Type} {m : Type → Type} [Monad m] {primary : α → m γ} {join : γ → β → γ → m γ}

private theorem lift_bind [LawfulMonad m] {ε δ : Type} (x : m γ) (f : γ → m δ) :
    (ExceptT.lift (x >>= f) : ExceptT ε m δ) = ExceptT.lift x >>= fun v => ExceptT.lift (f v) := by
  apply ExceptT.ext
  simp

/-- The queue of some steps. -/
def behind (steps : List (Step α β)) : Queue α β := steps.map fun s => (s.op, some s.rhs)

/-- Some steps with leaves for their operands. -/
def leaves (steps : List (Step α β)) : List (Step (OpTree α β) β) := steps.map (Step.map .leaf)

private theorem leaves_cons (s : Step α β) (steps : List (Step α β)) :
    leaves (s :: steps) = s.map .leaf :: leaves steps := rfl

/-- Running on what the calls of the tree `lhs` built and on the queue of `steps` makes the calls of
the tree `r.1`, and leaves the queue of the steps `rest`. -/
structure Makes (primary : α → m γ) (join : γ → β → γ → m γ)
    (run : γ → Queue α β → ExceptT (PrecedenceError κ) m (γ × Queue α β)) (lhs : OpTree α β)
    (steps : List (Step α β)) (r : OpTree α β × List (Step (OpTree α β) β))
    (rest : List (Step α β)) : Prop where
  left : r.2 = leaves rest
  suffix : rest <:+ steps
  calls : (do
      let v ← ExceptT.lift (lhs.foldM primary join)
      run v (behind steps)) = (do
      let v ← ExceptT.lift (r.1.foldM primary join)
      pure (v, behind rest))

namespace Makes

variable {run run' : γ → Queue α β → ExceptT (PrecedenceError κ) m (γ × Queue α β)}
  {lhs : OpTree α β} {steps rest : List (Step α β)}
  {r : OpTree α β × List (Step (OpTree α β) β)}

private theorem refl (h : ∀ v, run v (behind steps) = pure (v, behind steps)) :
    Makes primary join run lhs steps (lhs, leaves steps) steps where
  left := rfl
  suffix := List.suffix_refl _
  calls := by simp only [h]

private theorem node [LawfulMonad m] {s : Step α β} {mid : List (Step α β)}
    {right : OpTree α β × List (Step (OpTree α β) β)}
    (hright : Makes primary join run' (.leaf s.rhs) steps right mid)
    (hwhole : Makes primary join run (.node lhs s.op right.1) mid r rest)
    {run'' : γ → Queue α β → ExceptT (PrecedenceError κ) m (γ × Queue α β)}
    (h : ∀ v, run'' v (behind (s :: steps)) = (do
      let rhs ← operandM primary (some s.rhs)
      let right ← run' rhs (behind steps)
      let whole ← ExceptT.lift (join v s.op right.1)
      run whole right.2)) :
    Makes primary join run'' lhs (s :: steps) r rest where
  left := hwhole.left
  suffix := (hwhole.suffix.trans hright.suffix).trans (List.suffix_cons s steps)
  calls := by
    have hcalls := hright.calls
    have hwhole := hwhole.calls
    simp only [OpTree.foldM, lift_bind, bind_assoc] at hcalls hwhole
    simp only [h, operandM]
    rw [← hwhole]
    congr 1
    funext v
    rw [← bind_assoc, hcalls]
    simp only [bind_assoc, pure_bind]

private theorem trans [LawfulMonad m] {mid : List (Step α β)}
    {first : OpTree α β × List (Step (OpTree α β) β)}
    (h : Makes primary join run lhs steps first mid)
    (h' : Makes primary join run' first.1 mid r rest) :
    Makes primary join (fun v q => do
      let first ← run v q
      run' first.1 first.2) lhs steps r rest where
  left := h'.left
  suffix := h'.suffix.trans h.suffix
  calls := by
    rw [← h'.calls, ← bind_assoc, h.calls]
    simp only [bind_assoc, pure_bind]

end Makes

variable [DecidableEq κ] [LawfulMonad m] {tiers : Tiers κ} {key : β → κ} (primary join)

mutual

private theorem climbed_makes (least : Nat) (lhs : OpTree α β) (steps : List (Step α β)) :
    (∀ s ∈ steps, tiers.rank? (key s.op) = some s.rank) →
    ∃ rest, Makes primary join (climbed tiers key primary join least) lhs steps
        (Precedence.climb .node least lhs (leaves steps)).1 rest := by
  cases steps with
  | nil =>
    intro _
    refine ⟨[], ?_⟩
    rw [leaves, List.map_nil, Precedence.climb_nil]
    exact Makes.refl fun v => climbed_nil
  | cons s steps =>
    intro hsteps
    obtain ⟨hs, hsteps⟩ := List.forall_mem_cons.1 hsteps
    rw [leaves_cons]
    by_cases hlt : s.rank.level < least
    · refine ⟨s :: steps, ?_⟩
      rw [Precedence.climb_of_lt (s := s.map OpTree.leaf) hlt]
      exact Makes.refl fun v => climbed_of_lt hs hlt
    · have hle := Nat.le_of_not_lt hlt
      rw [Precedence.climb_of_le (s := s.map OpTree.leaf) hle]
      obtain ⟨mid, hright⟩ := absorbed_makes s.rank (.leaf s.rhs) steps hsteps
      have hmid := hright.suffix.length_le
      simp only [Step.map]
      generalize (Precedence.absorb .node s.rank.level (.leaf s.rhs) (leaves steps)).1 = right
        at hright ⊢
      obtain ⟨rest, hwhole⟩ := climbed_makes least (.node lhs s.op right.1) mid
        fun t ht => hsteps t (hright.suffix.subset ht)
      rw [← hright.left] at hwhole
      exact ⟨rest, hright.node hwhole fun v => climbed_of_le hs hle⟩
termination_by steps.length
decreasing_by
  · simp
  · simp only [List.length_cons]
    omega

private theorem absorbed_makes (p : Rank) (lhs : OpTree α β) (steps : List (Step α β)) :
    (∀ s ∈ steps, tiers.rank? (key s.op) = some s.rank) →
    ∃ rest, Makes primary join (absorbed tiers key primary join p.level) lhs steps
        (Precedence.absorb .node p.level lhs (leaves steps)).1 rest := by
  cases steps with
  | nil =>
    intro _
    refine ⟨[], ?_⟩
    rw [leaves, List.map_nil, Precedence.absorb_nil]
    exact Makes.refl fun v => absorbed_nil p.level
  | cons s steps =>
    intro hsteps
    obtain ⟨hs, hsteps⟩ := List.forall_mem_cons.1 hsteps
    rw [leaves_cons]
    by_cases hfits : p.FitsRight s.rank
    · rw [Precedence.absorb_of_fits (s := s.map OpTree.leaf) hfits]
      obtain ⟨mid, hright⟩ := absorbed_makes s.rank (.leaf s.rhs) steps hsteps
      have hmid := hright.suffix.length_le
      simp only [Step.map]
      generalize (Precedence.absorb .node s.rank.level (.leaf s.rhs) (leaves steps)).1 = right
        at hright ⊢
      obtain ⟨mid', hgroup⟩ := climbed_makes s.rank.level (.node lhs s.op right.1) mid
        fun t ht => hsteps t (hright.suffix.subset ht)
      have hmid' := hgroup.suffix.length_le
      rw [← hright.left] at hgroup
      generalize (Precedence.climb .node s.rank.level (.node lhs s.op right.1) right.2).1 = group
        at hgroup ⊢
      obtain ⟨rest, hwhole⟩ := absorbed_makes p group.1 mid'
        fun t ht => hsteps t ((hgroup.suffix.trans hright.suffix).subset ht)
      rw [← hgroup.left] at hwhole
      exact ⟨rest, hright.node (hgroup.trans hwhole) fun v => absorbed_of_fits hs hfits⟩
    · refine ⟨s :: steps, ?_⟩
      rw [Precedence.absorb_of_not (s := s.map OpTree.leaf) hfits]
      exact Makes.refl fun v => absorbed_of_not hs hfits
termination_by steps.length
decreasing_by
  · simp
  · simp only [List.length_cons]
    omega
  · simp only [List.length_cons]
    omega

end

private theorem groupM_of_steps {pairs : List (α × β)} {first last : α} {steps : List (Step α β)}
    (hsteps : ∀ s ∈ steps, tiers.rank? (key s.op) = some s.rank)
    (hqueue : queue (some last) pairs = (some first, behind steps)) :
    groupM tiers key primary join pairs (some last) = ExceptT.lift
      ((Precedence.group OpTree.node (.leaf first) (leaves steps)).foldM primary join) := by
  obtain ⟨rest, hmakes⟩ := climbed_makes primary join 0 (.leaf first) steps hsteps
  have hrest : leaves rest = [] := hmakes.left.symm.trans (Precedence.climb_zero _ _ _)
  obtain rfl := List.map_eq_nil_iff.1 hrest
  calc
    _ = Prod.fst <$> (do
        let v ← ExceptT.lift (primary first)
        climbed tiers key primary join 0 v (behind steps)) := by
      rw [groupM, hqueue]
      simp only [operandM, climbed, map_eq_pure_bind, bind_assoc, pure_bind]
    _ = Prod.fst <$> (do
        let v ← ExceptT.lift
          ((Precedence.group OpTree.node (.leaf first) (leaves steps)).foldM primary join)
        pure (v, behind [])) := congrArg (Prod.fst <$> ·) hmakes.calls
    _ = _ := by simp only [map_eq_pure_bind, bind_assoc, pure_bind, bind_pure]

end Grouped

/-! ### Sequences that are not grouped -/

/-- After some calls, `x` fails with `e`. -/
def Fails {m : Type → Type} [Monad m] {ε δ : Type} (e : ε) (x : ExceptT ε m δ) : Prop :=
  ∃ calls : m PUnit, x = (do
    ExceptT.lift calls
    throw e)

/-- After some calls, `x` stops at `q`, with what they built. -/
def StopsAt {m : Type → Type} [Monad m] {ε γ δ : Type} (q : δ) (x : ExceptT ε m (γ × δ)) : Prop :=
  ∃ build : m γ, x = (do
    let w ← ExceptT.lift build
    pure (w, q))

section Failed

variable {κ α β γ δ ε : Type} {m : Type → Type} [Monad m] [LawfulMonad m]

private theorem Fails.bind {e : ε} {x : ExceptT ε m γ} (h : Fails e x) (f : γ → ExceptT ε m δ) :
    Fails e (x >>= f) := by
  obtain ⟨calls, rfl⟩ := h
  exact ⟨calls, by simp only [bind_assoc, throw_bind]⟩

private theorem Fails.throw (e : ε) : Fails e (throw e : ExceptT ε m δ) :=
  ⟨pure ⟨⟩, by rw [ExceptT.lift_pure, pure_bind]⟩

private theorem Fails.lift_bind {e : ε} {x : m γ} {f : γ → ExceptT ε m δ}
    (h : ∀ v, Fails e (f v)) : Fails e (ExceptT.lift x >>= f) := by
  obtain ⟨calls, hcalls⟩ := Classical.skolem.1 h
  refine ⟨x >>= calls, ?_⟩
  rw [Tiers.lift_bind, bind_assoc]
  exact congrArg (ExceptT.lift x >>= ·) (funext hcalls)

private theorem StopsAt.lift_bind {q : δ} {x : m ε} {f : ε → ExceptT κ m (γ × δ)}
    (h : ∀ v, StopsAt q (f v)) : StopsAt q (ExceptT.lift x >>= f) := by
  obtain ⟨build, hbuild⟩ := Classical.skolem.1 h
  refine ⟨x >>= build, ?_⟩
  rw [Tiers.lift_bind, bind_assoc]
  exact congrArg (ExceptT.lift x >>= ·) (funext hbuild)

/-- Grouping a sequence that goes on with this queue fails with `e`: the first operator that is not
known, or the missing operand. -/
inductive Doomed [DecidableEq κ] (tiers : Tiers κ) (key : β → κ) (e : PrecedenceError κ) :
    Queue α β → Prop
  | unknown {op : β} (x : Option α) (q : Queue α β) (h : tiers.rank? (key op) = none)
    (he : e = .unknown (key op)) : Doomed tiers key e ((op, x) :: q)
  | missing {op : β} {r : Rank} (q : Queue α β) (h : tiers.rank? (key op) = some r)
    (he : e = .missingOperand) : Doomed tiers key e ((op, none) :: q)
  | later {op : β} {r : Rank} (a : α) {q : Queue α β} (h : tiers.rank? (key op) = some r)
    (hq : Doomed tiers key e q) : Doomed tiers key e ((op, some a) :: q)

/-- A run on the queue `q` fails with `e`, or leaves a queue of the same fate that is as `P` says,
whatever was built before. -/
def Spoils [DecidableEq κ] (tiers : Tiers κ) (key : β → κ) (P : Queue α β → Prop)
    (e : PrecedenceError κ) (q : Queue α β)
    (run : γ → ExceptT (PrecedenceError κ) m (γ × Queue α β)) : Prop :=
  (∀ v, Fails e (run v)) ∨
    ∃ q', Doomed tiers key e q' ∧ P q' ∧ q'.length ≤ q.length ∧ ∀ v, StopsAt q' (run v)

private theorem fails_missing (primary : α → m γ)
    (f : γ → ExceptT (PrecedenceError κ) m δ) :
    Fails .missingOperand (operandM primary (none : Option α) >>= f) :=
  (Fails.throw _).bind f

variable [DecidableEq κ] {tiers : Tiers κ} {key : β → κ} {primary : α → m γ}
  {join : γ → β → γ → m γ} {e : PrecedenceError κ} {q : Queue α β}

namespace Spoils

variable {P P' : Queue α β → Prop} {run : γ → ExceptT (PrecedenceError κ) m (γ × Queue α β)}

private theorem refl (hq : Doomed tiers key e q) (hP : P q) (h : ∀ v, run v = pure (v, q)) :
    Spoils tiers key P e q run :=
  .inr ⟨q, hq, hP, Nat.le_refl _, fun v => ⟨pure v, by rw [h, ExceptT.lift_pure, pure_bind]⟩⟩

private theorem trans {run' : γ → Queue α β → ExceptT (PrecedenceError κ) m (γ × Queue α β)}
    (h : Spoils tiers key P e q run)
    (h' : ∀ q', q'.length ≤ q.length → P q' → Doomed tiers key e q' →
      Spoils tiers key P' e q' (run' · q')) :
    Spoils tiers key P' e q (fun v => do
      let first ← run v
      run' first.1 first.2) := by
  rcases h with hfails | ⟨mid, hmid, hP, hle, hstops⟩
  · exact .inl fun v => (hfails v).bind _
  rcases h' mid hle hP hmid with hfails' | ⟨q', hq', hP', hle', hstops'⟩
  · refine .inl fun v => ?_
    obtain ⟨build, hbuild⟩ := hstops v
    simp only [hbuild, bind_assoc, pure_bind]
    exact Fails.lift_bind hfails'
  · refine .inr ⟨q', hq', hP', Nat.le_trans hle' hle, fun v => ?_⟩
    obtain ⟨build, hbuild⟩ := hstops v
    simp only [hbuild, bind_assoc, pure_bind]
    exact StopsAt.lift_bind hstops'

-- To take an operator is to build its operand, to go on with what belongs to that, and to join.
private theorem taken (op : β) (a : α) (h : Spoils tiers key P e q run) (primary : α → m γ)
    (join : γ → β → γ → m γ) :
    Spoils tiers key (fun q' => q'.length ≤ q.length) e ((op, some a) :: q) (fun v => do
      let rhs ← operandM primary (some a)
      let right ← run rhs
      let whole ← ExceptT.lift (join v op right.1)
      pure (whole, right.2)) := by
  rcases h with hfails | ⟨q', hq', -, hle, hstops⟩
  · exact .inl fun v => Fails.lift_bind fun rhs => (hfails rhs).bind _
  · refine .inr ⟨q', hq', hle, Nat.le_succ_of_le hle, fun v => StopsAt.lift_bind fun rhs => ?_⟩
    obtain ⟨build, hbuild⟩ := hstops rhs
    simp only [hbuild, bind_assoc, pure_bind]
    exact StopsAt.lift_bind fun w => ⟨join v op w, rfl⟩

end Spoils

variable (primary join)

mutual

private theorem climbed_spoils (least : Nat) (q : Queue α β) (hq : Doomed tiers key e q) :
    Spoils tiers key (fun q' => ∃ p ∈ q'.head?, ∃ r : Rank,
        tiers.rank? (key p.1) = some r ∧ r.level < least) e q
      (climbed tiers key primary join least · q) := by
  by_cases hloose : ∃ p ∈ q.head?, ∃ r : Rank, tiers.rank? (key p.1) = some r ∧ r.level < least
  · obtain ⟨⟨op, x⟩, hp, r, hr, hlt⟩ := hloose
    obtain ⟨q, rfl⟩ := List.head?_eq_some_iff.1 hp
    exact .refl hq ⟨_, rfl, r, hr, hlt⟩ fun v => climbed_of_lt hr hlt
  cases hq with
  | unknown x q h he =>
    simp only [climbed_unknown h, he]
    exact .inl fun _ => Fails.throw _
  | missing q h he =>
    have hle := Nat.le_of_not_lt fun hlt => hloose ⟨_, rfl, _, h, hlt⟩
    simp only [climbed_of_le h hle, he]
    exact .inl fun _ => fails_missing primary _
  | @later op r a q h hq =>
    have hle := Nat.le_of_not_lt fun hlt => hloose ⟨_, rfl, _, h, hlt⟩
    have htaken := (absorbed_spoils r q hq).taken op a primary join
    have hwhole := htaken.trans fun q' _ hlen hq' => climbed_spoils least q' hq'
    simpa only [climbed_of_le h hle, bind_assoc, pure_bind] using hwhole
termination_by q.length
decreasing_by
  · simp
  · simp only [List.length_cons]
    omega

private theorem absorbed_spoils (p : Rank) (q : Queue α β) (hq : Doomed tiers key e q) :
    Spoils tiers key (fun _ => True) e q (absorbed tiers key primary join p.level · q) := by
  cases hq with
  | unknown x q h he =>
    simp only [absorbed_unknown p.level h, he]
    exact .inl fun _ => Fails.throw _
  | @missing op r q h he =>
    by_cases hfits : p.FitsRight r
    · simp only [absorbed_of_fits h hfits, he]
      exact .inl fun _ => fails_missing primary _
    · exact .refl (.missing q h he) trivial fun v => absorbed_of_not h hfits
  | @later op r a q h hq =>
    by_cases hfits : p.FitsRight r
    · have htaken := (absorbed_spoils r q hq).taken op a primary join
      have hwhole := htaken.trans fun q' _ hlen hq' =>
        (climbed_spoils r.level q' hq').trans fun q'' hlen' _ hq'' => absorbed_spoils p q'' hq''
      simpa only [absorbed_of_fits h hfits, bind_assoc, pure_bind] using hwhole
    · exact .refl (.later a h hq) trivial fun v => absorbed_of_not h hfits
termination_by q.length
decreasing_by
  · simp
  · simp only [List.length_cons]
    omega
  · simp only [List.length_cons]
    omega

end

end Failed

/-! ### How grouping ends -/

section Ends

variable {κ α β γ : Type} [DecidableEq κ] {tiers : Tiers κ} {key : β → κ} {pairs : List (α × β)}
  {last : Option α}

private theorem steps_unknown {before after : List (α × β)} {operand : α} {op : β}
    (hbefore : ∀ p ∈ before, tiers.Lists (key p.2)) (hop : ¬tiers.Lists (key op)) :
    tiers.steps key last (before ++ (operand, op) :: after) = .error (.unknown (key op)) := by
  induction before with
  | nil => simp only [List.nil_append, steps, rank?_of_not_lists hop]
  | cons p before ih =>
    obtain ⟨hp, hbefore⟩ := List.forall_mem_cons.1 hbefore
    obtain ⟨r, hr⟩ := hp.exists_rank
    simp only [List.cons_append, steps, hr, ih hbefore]

private theorem steps_missing (hpairs : ∀ p ∈ pairs, tiers.Lists (key p.2)) :
    tiers.steps key none pairs = .error .missingOperand := by
  induction pairs with
  | nil => rfl
  | cons p pairs ih =>
    obtain ⟨hp, hpairs⟩ := List.forall_mem_cons.1 hpairs
    obtain ⟨r, hr⟩ := hp.exists_rank
    simp only [steps, hr, ih hpairs]

private theorem queue_of_steps {first : α} {steps : List (Step α β)}
    (h : tiers.steps key last pairs = .ok (first, steps)) :
    queue last pairs = (some first, behind steps) := by
  induction pairs generalizing first steps with
  | nil =>
    cases last with
    | none => cases h
    | some a =>
      cases h
      rfl
  | cons p pairs ih =>
    rw [Tiers.steps] at h
    cases hr : tiers.rank? (key p.2) with
    | none => simp only [hr, reduceCtorEq] at h
    | some r =>
      cases hsteps : tiers.steps key last pairs with
      | error e => simp only [hr, hsteps, reduceCtorEq] at h
      | ok s =>
        simp only [hr, hsteps, Except.ok.injEq, Prod.mk.injEq] at h
        obtain ⟨rfl, rfl⟩ := h
        rw [queue, ih hsteps]
        rfl

-- Where a sequence has no steps, its first operand is missing, or what stands behind it is doomed.
private theorem queue_of_error {e : PrecedenceError κ}
    (h : tiers.steps key last pairs = .error e) :
    (∃ q, queue last pairs = (none, q) ∧ e = .missingOperand) ∨
      ∃ a q, queue last pairs = (some a, q) ∧ Doomed tiers key e q := by
  induction pairs with
  | nil =>
    cases last with
    | none =>
      cases h
      exact .inl ⟨[], rfl, rfl⟩
    | some a => cases h
  | cons p pairs ih =>
    refine .inr ⟨p.1, _, rfl, ?_⟩
    rw [Tiers.steps] at h
    cases hr : tiers.rank? (key p.2) with
    | none =>
      simp only [hr, Except.error.injEq] at h
      exact .unknown _ _ hr h.symm
    | some r =>
      cases hsteps : tiers.steps key last pairs with
      | ok s => simp only [hr, hsteps, reduceCtorEq] at h
      | error e' =>
        simp only [hr, hsteps, Except.error.injEq] at h
        subst h
        rcases ih hsteps with ⟨q, hqueue, he⟩ | ⟨a, q, hqueue, hq⟩
        · rw [hqueue]
          exact .missing q hr he
        · rw [hqueue]
          exact .later a hr hq

private theorem groupM_of_error {m : Type → Type} [Monad m] [LawfulMonad m]
    {e : PrecedenceError κ} (h : tiers.steps key last pairs = .error e) (primary : α → m γ)
    (join : γ → β → γ → m γ) : Fails e (groupM tiers key primary join pairs last) := by
  rcases queue_of_error h with ⟨q, hqueue, rfl⟩ | ⟨a, q, hqueue, hq⟩
  · rw [groupM, hqueue]
    exact (Fails.throw _).bind _
  · have hgroup : groupM tiers key primary join pairs last = (do
        let lhs ← ExceptT.lift (primary a)
        let r ← climbed tiers key primary join 0 lhs q
        pure r.1) := by
      rw [groupM, hqueue]
      simp only [operandM, climbed, map_eq_pure_bind, bind_assoc, pure_bind]
    rw [hgroup]
    refine Fails.lift_bind fun v => Fails.bind ?_ _
    rcases climbed_spoils primary join 0 q hq with hfails | ⟨q', -, ⟨p, -, r, -, hlt⟩, -⟩
    · exact hfails v
    · exact (Nat.not_lt_zero _ hlt).elim

/-- What a run is that is to end with `o`: a failure, or the calls of a tree. -/
def Carries {m : Type → Type} [Monad m] (primary : α → m γ) (join : γ → β → γ → m γ)
    (x : ExceptT (PrecedenceError κ) m γ) : Except (PrecedenceError κ) (OpTree α β) → Prop
  | .error e => Fails e x
  | .ok t => x = ExceptT.lift (t.foldM primary join)

/-- How grouping a sequence ends, whatever its operands and operators stand for and whatever effects
their calls have. -/
structure Ends (tiers : Tiers κ) (key : β → κ) (pairs : List (α × β)) (last : Option α)
    (o : Except (PrecedenceError κ) (OpTree α β)) : Prop where
  calls : ∀ {γ : Type} {m : Type → Type} [Monad m] [LawfulMonad m] (primary : α → m γ)
    (join : γ → β → γ → m γ), Carries primary join (groupM tiers key primary join pairs last) o
  value : ∀ {γ : Type} (primary : α → γ) (join : γ → β → γ → γ),
    tiers.group key join (pairs.map fun p => (primary p.1, p.2)) (last.map primary) =
      o.map (OpTree.fold primary join)

private theorem ends_error {e : PrecedenceError κ} (h : tiers.steps key last pairs = .error e) :
    Ends tiers key pairs last (.error e) where
  calls := groupM_of_error h
  value primary join := by
    rw [group, steps_map, h]
    rfl

private theorem operands_sequence (pairs : List (α × β)) (last : α) :
    (sequence pairs last).filterMap Sum.getLeft? = pairs.map Prod.fst ++ [last] := by
  induction pairs with
  | nil => rfl
  | cons p pairs ih => exact congrArg (p.1 :: ·) ih

private theorem exists_ends (key : β → κ) (last : α)
    (hpairs : ∀ p ∈ pairs, tiers.Lists (key p.2)) :
    ∃ t : OpTree α β, t.reading = sequence pairs last ∧
      tiers.Ends key pairs (some last) (.ok t) := by
  obtain ⟨first, steps, hsteps, hranks, hread⟩ :=
    exists_steps key pairs last fun p hp => (hpairs p hp).exists_rank
  have hqueue := queue_of_steps hsteps
  refine ⟨Precedence.group .node (.leaf first) (leaves steps), ?_, fun primary join => ?_,
    group_of_steps hsteps⟩
  · have hreading := @Precedence.group_inOrder (OpTree α β) β (α ⊕ β) OpTree.node OpTree.reading
      (fun op => [.inr op]) (fun _ _ _ => by simp [OpTree.reading]) (.leaf first) (leaves steps)
    rw [hreading, ← hread, leaves, List.flatMap_map]
    rfl
  · exact groupM_of_steps primary join hranks hqueue

/-- Grouping a sequence ends with an error if an operator stands in no tier, and blames the first
such operator, in a notice that blames the program; it ends with an error that is given no notice if
all operators stand in tiers and the last operand is missing; and else with a tree that reads as the
sequence, after one call for each operand, from left to right, and one for each operator. -/
theorem groupM_ends (tiers : Tiers κ) (key : β → κ) (pairs : List (α × β)) :
    (∀ before operand op after last, pairs = before ++ (operand, op) :: after →
      (∀ p ∈ before, tiers.Lists (key p.2)) → ¬tiers.Lists (key op) →
      tiers.Ends key pairs last (.error (.unknown (key op))) ∧
      ∀ (style : Text.Style) (name : κ → String), ∃ notice : Notice,
        ((PrecedenceError.unknown (key op)).defect name).notice? style = some notice ∧
        notice.internal = true ∧
        notice.message =
          "'" ++ style.bold (name (key op)) ++ "' is not a known infix operator") ∧
    ((∀ p ∈ pairs, tiers.Lists (key p.2)) →
      (tiers.Ends key pairs none (.error .missingOperand) ∧
        ∀ (style : Text.Style) (name : κ → String),
          (PrecedenceError.missingOperand.defect name).notice? style = none) ∧
      ∀ last, ∃ t : OpTree α β, tiers.Ends key pairs (some last) (.ok t) ∧
        t.reading = sequence pairs last ∧
        t.calls.filterMap Sum.getLeft? = pairs.map Prod.fst ++ [last] ∧
        t.calls.Perm (sequence pairs last) ∧
        ∀ {γ : Type} (primary : α → γ) (join : γ → β → γ → γ) (past : List (α ⊕ β)),
          (groupM tiers key (OpTree.noteOperand primary) (OpTree.noteOperator join) pairs
            (some last)).run.run past = (.ok (t.fold primary join), past ++ t.calls)) := by
  refine ⟨fun before operand op after last hpairs hbefore hop => ?_, fun hpairs => ⟨?_, ?_⟩⟩
  · subst hpairs
    refine ⟨ends_error (steps_unknown hbefore hop), fun style name => ⟨_, rfl, rfl, ?_⟩⟩
    simp only [Notice.make, Template.fill, String.append_assoc, String.append_empty]
  · exact ⟨ends_error (steps_missing hpairs), fun _ _ => rfl⟩
  · intro last
    obtain ⟨t, hread, hends⟩ := exists_ends key last hpairs
    refine ⟨t, hends, hread, ?_, hread ▸ t.perm_calls, fun primary join past => ?_⟩
    · rw [t.operands_calls, hread, operands_sequence]
    · have hcalls := hends.calls (OpTree.noteOperand primary) (OpTree.noteOperator join)
      rw [Carries] at hcalls
      rw [hcalls, ExceptT.run_lift, StateT.run_map, t.run_foldM_note]
      rfl

end Ends

/-- Tiers in which operators of one tier group to both sides, and one operator stands twice. -/
def mixedTiers : Tiers String := [[("+", .left), ("^", .right)], [("*", .left), ("+", .right)]]

/-- Of three sequences, one has an operator that stands in no tier, before another one and before
the missing operand; one lacks an operand only; and one is grouped. -/
theorem groupM_ends_mixedTiers :
    mixedTiers.Ends id [(1, "+"), (2, "?"), (3, "!")] none (.error (.unknown "?")) ∧
      mixedTiers.Ends id [(1, "+")] none (.error .missingOperand) ∧
      mixedTiers.Ends id [(1, "^"), (2, "+")] (some 3)
        (.ok (.node (.leaf 1) "^" (.node (.leaf 2) "+" (.leaf 3)))) := by
  have hplus : mixedTiers.Lists "+" := ⟨_, List.mem_cons_self, .left, by decide⟩
  have hpower : mixedTiers.Lists "^" := ⟨_, List.mem_cons_self, .right, by decide⟩
  have hunknown : ¬mixedTiers.Lists "?" := by
    rintro ⟨tier, htier, assoc, hmem⟩
    simp [mixedTiers] at htier
    rcases htier with rfl | rfl <;> simp at hmem
  refine ⟨?_, ?_, ?_⟩
  · exact ((groupM_ends mixedTiers id [(1, "+"), (2, "?"), (3, "!")]).1 [(1, "+")] 2 "?" [(3, "!")]
      none rfl (by simp [hplus]) hunknown).1
  · exact ((groupM_ends mixedTiers id [(1, "+")]).2 (by simp [hplus])).1.1
  · obtain ⟨t, hends, -⟩ :=
      ((groupM_ends mixedTiers id [(1, "^"), (2, "+")]).2 (by simp [hplus, hpower])).2 3
    have hvalue := hends.value OpTree.leaf OpTree.node
    have hgroup : mixedTiers.group id OpTree.node [(.leaf 1, "^"), (.leaf 2, "+")]
        (some (.leaf 3)) = .ok (.node (.leaf 1) "^" (.node (.leaf 2) "+" (.leaf 3))) := by
      with_unfolding_all rfl
    rw [Except.map, t.fold_leaf_node] at hvalue
    obtain rfl := Except.ok.inj (hvalue.symm.trans hgroup)
    exact hends

end Tiers
end Lox
