import Lox.Proofs.OperatorTree

/-!
# Grouping by precedence

Precedence climbing finds the one tree that reads as the sequence and respects the ranks of the
operators. The two mutually recursive functions are specified together: `climb` builds a tree of
operators that bind at least as tight as its bound, and `absorb` builds the right child of an
operator. Both keep the sequence and stop at the first operator that is not theirs.
-/

namespace Lox

/-- What does not fit to the right of an operator takes it as its left child. -/
theorem Rank.fitsLeft_of_not_fitsRight {p q : Rank} (h : ¬p.FitsRight q)
    (huniform : p.level = q.level → p.assoc = q.assoc) : q.FitsLeft p := by
  rcases Nat.lt_trichotomy p.level q.level with hlt | heq | hgt
  · exact (h (.inl hlt)).elim
  · refine .inr ⟨heq, ?_⟩
    cases hp : p.assoc with
    | left => rfl
    | right => exact (h (.inr ⟨heq.symm, (huniform heq).symm.trans hp⟩)).elim
  · exact .inl hgt

/-- A step with another kind of operand. -/
def Step.map {α β γ : Type} (f : α → γ) (s : Step α β) : Step γ β := ⟨s.rank, s.op, f s.rhs⟩

namespace Precedence

section Equations

variable {α β : Type} {join : α → β → α → α} {s : Step α β} {steps : List (Step α β)} {a : α}

/-- Nothing is left to climb. -/
theorem climb_nil (least : Nat) : (climb join least a []).1 = (a, []) := by
  rw [climb]

/-- An operator that binds too loosely is left. -/
theorem climb_of_lt {least : Nat} (h : s.rank.level < least) :
    (climb join least a (s :: steps)).1 = (a, s :: steps) := by
  rw [climb, if_pos h]

/-- An operator that binds tight enough is applied to what is before it and to what it absorbs. -/
theorem climb_of_le {least : Nat} (h : least ≤ s.rank.level) :
    (climb join least a (s :: steps)).1 =
      (climb join least (join a s.op (absorb join s.rank.level s.rhs steps).1.1)
        (absorb join s.rank.level s.rhs steps).1.2).1 := by
  rw [climb, if_neg (Nat.not_lt.2 h)]

/-- Nothing is left to absorb. -/
theorem absorb_nil (p : Rank) : (absorb join p.level a []).1 = (a, []) := by
  rw [absorb]

/-- An operator that does not fit to the right is left. -/
theorem absorb_of_not {p : Rank} (h : ¬p.FitsRight s.rank) :
    (absorb join p.level a (s :: steps)).1 = (a, s :: steps) := by
  rw [absorb, if_neg (show ¬(_ ∨ _) from h)]

/-- An operator that fits to the right takes what is before it as its first operand. -/
theorem absorb_of_fits {p : Rank} (h : p.FitsRight s.rank) :
    (absorb join p.level a (s :: steps)).1 =
      (absorb join p.level
        (climb join s.rank.level (join a s.op (absorb join s.rank.level s.rhs steps).1.1)
          (absorb join s.rank.level s.rhs steps).1.2).1.1
        (climb join s.rank.level (join a s.op (absorb join s.rank.level s.rhs steps).1.1)
          (absorb join s.rank.level s.rhs steps).1.2).1.2).1 := by
  rw [absorb, if_pos (show _ ∨ _ from h)]

end Equations

/-! ### Any operands -/

section Naturality

variable {α β γ : Type} {join : α → β → α → α} {join' : γ → β → γ → γ} {f : α → γ}

mutual

private theorem climb_map (hf : ∀ a op b, f (join a op b) = join' (f a) op (f b)) (least : Nat)
    (lhs : α) (steps : List (Step α β)) :
    (climb join' least (f lhs) (steps.map (Step.map f))).1 =
      (f (climb join least lhs steps).1.1,
        (climb join least lhs steps).1.2.map (Step.map f)) := by
  cases steps with
  | nil => rw [climb_nil, List.map_nil, climb_nil]
  | cons s steps =>
    by_cases hs : s.rank.level < least
    · rw [climb_of_lt hs, List.map_cons, climb_of_lt (s := Step.map f s) hs]
    · have hle := Nat.le_of_not_lt hs
      have hlen := (absorb join s.rank.level s.rhs steps).2
      rw [climb_of_le hle, List.map_cons, climb_of_le (s := Step.map f s) hle]
      simp only [Step.map]
      rw [absorb_map hf s.rank s.rhs steps, ← hf, climb_map hf]
termination_by steps.length
decreasing_by
  · simp
  · simp only [List.length_cons]
    omega

private theorem absorb_map (hf : ∀ a op b, f (join a op b) = join' (f a) op (f b)) (p : Rank)
    (rhs : α) (steps : List (Step α β)) :
    (absorb join' p.level (f rhs) (steps.map (Step.map f))).1 =
      (f (absorb join p.level rhs steps).1.1,
        (absorb join p.level rhs steps).1.2.map (Step.map f)) := by
  cases steps with
  | nil => rw [absorb_nil, List.map_nil, absorb_nil]
  | cons s steps =>
    by_cases hs : p.FitsRight s.rank
    · have hinner := (absorb join s.rank.level s.rhs steps).2
      have hgroup := (climb join s.rank.level
        (join rhs s.op (absorb join s.rank.level s.rhs steps).1.1)
        (absorb join s.rank.level s.rhs steps).1.2).2
      rw [absorb_of_fits hs, List.map_cons, absorb_of_fits (s := Step.map f s) hs]
      simp only [Step.map]
      rw [absorb_map hf s.rank s.rhs steps, ← hf, climb_map hf, absorb_map hf]
    · rw [absorb_of_not hs, List.map_cons, absorb_of_not (s := Step.map f s) hs]
termination_by steps.length
decreasing_by
  · simp
  · simp only [List.length_cons]
    omega
  · simp only [List.length_cons]
    omega

end

/-- Grouping commutes with whatever commutes with the operators. -/
theorem group_map (hf : ∀ a op b, f (join a op b) = join' (f a) op (f b)) (first : α)
    (steps : List (Step α β)) :
    group join' (f first) (steps.map (Step.map f)) = f (group join first steps) :=
  congrArg Prod.fst (climb_map hf 0 first steps)

end Naturality

/-- What the operators keep, and all operands have, the group has. -/
theorem group_of_forall {α β : Type} {join : α → β → α → α} {P : α → Prop}
    (hjoin : ∀ a op b, P a → P b → P (join a op b)) {first : α} (hfirst : P first)
    {steps : List (Step α β)} (hsteps : ∀ s ∈ steps, P s.rhs) : P (group join first steps) := by
  -- The operands are moved to the type of those with `P`, which the operators do not leave.
  have hmap := @group_map _ β α (fun (a : Subtype P) op b => ⟨join a op b, hjoin a op b a.2 b.2⟩)
    join Subtype.val (fun _ _ _ => rfl) ⟨first, hfirst⟩
    (steps.attach.map fun s => ⟨s.1.rank, s.1.op, s.1.rhs, hsteps s.1 s.2⟩)
  have hself : (steps.attach.map fun s => (⟨s.1.rank, s.1.op, s.1.rhs⟩ : Step α β)) = steps :=
    List.attach_map_subtype_val steps
  rw [List.map_map] at hmap
  have hgroup := hmap.symm.trans (congrArg (group join first) hself)
  rw [← hgroup]
  exact Subtype.property _

/-! ### In order -/

section InOrder

variable {α β δ : Type} {join : α → β → α → α} {f : α → List δ} {g : β → List δ}

/-- What can be read off operators and operands from left to right. -/
def inOrder (f : α → List δ) (g : β → List δ) (steps : List (Step α β)) : List δ :=
  steps.flatMap fun s => g s.op ++ f s.rhs

private theorem inOrder_cons (s : Step α β) (steps : List (Step α β)) :
    inOrder f g (s :: steps) = g s.op ++ f s.rhs ++ inOrder f g steps := rfl

mutual

private theorem climb_inOrder (hf : ∀ a op b, f (join a op b) = f a ++ g op ++ f b) (least : Nat)
    (lhs : α) (steps : List (Step α β)) :
    f (climb join least lhs steps).1.1 ++ inOrder f g (climb join least lhs steps).1.2 =
      f lhs ++ inOrder f g steps := by
  cases steps with
  | nil => rw [climb_nil]
  | cons s steps =>
    by_cases hs : s.rank.level < least
    · rw [climb_of_lt hs]
    · have hlen := (absorb join s.rank.level s.rhs steps).2
      rw [climb_of_le (Nat.le_of_not_lt hs), climb_inOrder hf, hf, inOrder_cons,
        List.append_assoc, absorb_inOrder hf s.rank]
      simp only [List.append_assoc]
termination_by steps.length
decreasing_by
  · simp only [List.length_cons]
    omega
  · simp

private theorem absorb_inOrder (hf : ∀ a op b, f (join a op b) = f a ++ g op ++ f b) (p : Rank)
    (rhs : α) (steps : List (Step α β)) :
    f (absorb join p.level rhs steps).1.1 ++ inOrder f g (absorb join p.level rhs steps).1.2 =
      f rhs ++ inOrder f g steps := by
  cases steps with
  | nil => rw [absorb_nil]
  | cons s steps =>
    by_cases hs : p.FitsRight s.rank
    · have hinner := (absorb join s.rank.level s.rhs steps).2
      have hgroup := (climb join s.rank.level
        (join rhs s.op (absorb join s.rank.level s.rhs steps).1.1)
        (absorb join s.rank.level s.rhs steps).1.2).2
      rw [absorb_of_fits hs, absorb_inOrder hf, climb_inOrder hf, hf, inOrder_cons,
        List.append_assoc, absorb_inOrder hf s.rank]
      simp only [List.append_assoc]
    · rw [absorb_of_not hs]
termination_by steps.length
decreasing_by
  · simp only [List.length_cons]
    omega
  · simp only [List.length_cons]
    omega
  · simp

end

private theorem climb_stops (join : α → β → α → α) (least : Nat) (lhs : α)
    (steps : List (Step α β)) :
    ∀ s ∈ (climb join least lhs steps).1.2.head?, s.rank.level < least := by
  cases steps with
  | nil =>
    intro s hs
    rw [climb_nil] at hs
    cases hs
  | cons s steps =>
    by_cases hs : s.rank.level < least
    · intro t ht
      rw [climb_of_lt hs] at ht
      exact Option.some.inj ht ▸ hs
    · have hlen := (absorb join s.rank.level s.rhs steps).2
      rw [climb_of_le (Nat.le_of_not_lt hs)]
      exact climb_stops join least _ _
termination_by steps.length
decreasing_by
  simp only [List.length_cons]
  omega

/-- No operator binds looser than the bound zero, so nothing is left. -/
theorem climb_zero (join : α → β → α → α) (lhs : α) (steps : List (Step α β)) :
    (climb join 0 lhs steps).1.2 = [] := by
  have hstops := climb_stops join 0 lhs steps
  cases hrest : (climb join 0 lhs steps).1.2 with
  | nil => rfl
  | cons s rest =>
    rw [hrest] at hstops
    exact (Nat.not_lt_zero _ (hstops s rfl)).elim

/-- Grouping keeps what is read off from left to right. -/
theorem group_inOrder (hf : ∀ a op b, f (join a op b) = f a ++ g op ++ f b) (first : α)
    (steps : List (Step α β)) :
    f (group join first steps) = f first ++ steps.flatMap fun s => g s.op ++ f s.rhs := by
  have hread := climb_inOrder hf 0 first steps
  rw [climb_zero] at hread
  exact (List.append_nil _).symm.trans hread

end InOrder

/-! ### Trees -/

section Trees

variable {α β : Type} {rank : β → Option Rank}

/-- Operators and operands from left to right. -/
def readings (steps : List (Step (OpTree α β) β)) : List (α ⊕ β) :=
  steps.flatMap fun s => .inr s.op :: s.rhs.reading

/-- Every step has the rank of its operator, and a single operand. -/
def Ready (rank : β → Option Rank) (steps : List (Step (OpTree α β) β)) : Prop :=
  ∀ s ∈ steps, rank s.op = some s.rank ∧ ∃ a, s.rhs = .leaf a

/-- The rank at the root is as `P` says, if there is an operator. -/
def Root (rank : β → Option Rank) (P : Rank → Prop) (t : OpTree α β) : Prop :=
  ∀ q, t.root?.bind rank = some q → P q

/-- The rank of the next operator is as `P` says, if there is one. -/
def Next (P : Rank → Prop) (steps : List (Step (OpTree α β) β)) : Prop :=
  ∀ s ∈ steps.head?, P s.rank

private theorem readings_cons (s : Step (OpTree α β) β) (steps : List (Step (OpTree α β) β)) :
    readings (s :: steps) = .inr s.op :: s.rhs.reading ++ readings steps := by
  simp [readings]

/-- A tree, with the steps that remain, that was made of the tree `first` and of steps. -/
structure Extends (rank : β → Option Rank) (first : OpTree α β)
    (steps : List (Step (OpTree α β) β)) (r : OpTree α β × List (Step (OpTree α β) β)) :
    Prop where
  reading : r.1.reading ++ readings r.2 = first.reading ++ readings steps
  grouped : r.1.WellGrouped rank
  ready : Ready rank r.2

private theorem Extends.trans {first mid : OpTree α β} {steps rest : List (Step (OpTree α β) β)}
    {r : OpTree α β × List (Step (OpTree α β) β)} (h : Extends rank mid rest r)
    (hread : mid.reading ++ readings rest = first.reading ++ readings steps) :
    Extends rank first steps r := ⟨h.reading.trans hread, h.grouped, h.ready⟩

private theorem Extends.join {lhs : OpTree α β} {s : Step (OpTree α β) β}
    {steps : List (Step (OpTree α β) β)} {r : OpTree α β × List (Step (OpTree α β) β)}
    (h : Extends rank s.rhs steps r) (hs : rank s.op = some s.rank) (hlhs : lhs.WellGrouped rank)
    (hleft : Root rank s.rank.FitsLeft lhs) (hright : Root rank s.rank.FitsRight r.1) :
    Extends rank lhs (s :: steps) (.node lhs s.op r.1, r.2) where
  reading := by
    rw [readings_cons, OpTree.reading, List.append_assoc, List.cons_append, h.reading]
    simp
  grouped := ⟨⟨s.rank, hs, hleft, hright⟩, hlhs, h.grouped⟩
  ready := h.ready

private theorem root_leaf (P : Rank → Prop) (a : α) : Root rank P (.leaf a : OpTree α β) :=
  fun _ hq => nomatch hq

private theorem next_nil (P : Rank → Prop) : Next P ([] : List (Step (OpTree α β) β)) :=
  fun _ hs => nomatch hs

private theorem Root.fitsRight {t : OpTree α β} {p q : Rank} {op : β}
    (hlevel : Root rank (fun r => q.level ≤ r.level) t) (huniform : Rank.Uniform rank)
    (hop : rank op = some q) (h : p.FitsRight q) : Root rank p.FitsRight t := by
  intro r hr
  obtain ⟨root, -, hroot⟩ := Option.bind_eq_some_iff.1 hr
  rcases Nat.lt_or_eq_of_le (hlevel r hr) with hlt | heq
  · exact .inl (Nat.lt_of_le_of_lt h.le hlt)
  · have hassoc := huniform hop hroot heq
    rwa [Rank.FitsRight, ← heq, ← hassoc]

private theorem Next.fitsLeft {op : β} {p : Rank} {steps : List (Step (OpTree α β) β)}
    (hstop : Next (fun q => ¬p.FitsRight q) steps) (hready : Ready rank steps)
    (huniform : Rank.Uniform rank) (hop : rank op = some p) (P : Rank → Prop)
    {l r : OpTree α β} : Next (fun q => P q → Root rank q.FitsLeft (.node l op r)) steps := by
  intro s hs _ q hq
  obtain rfl := Option.some.inj (hop.symm.trans hq)
  have hrank := (hready s (List.mem_of_mem_head? hs)).1
  exact Rank.fitsLeft_of_not_fitsRight (hstop s hs) (huniform hop hrank)

mutual

private theorem climb_extends (huniform : Rank.Uniform rank) (least : Nat) (lhs : OpTree α β)
    (steps : List (Step (OpTree α β) β)) : Ready rank steps → lhs.WellGrouped rank →
    Next (fun q => least ≤ q.level → Root rank q.FitsLeft lhs) steps →
    Extends rank lhs steps (climb .node least lhs steps).1 ∧
      Next (fun q => q.level < least) (climb .node least lhs steps).1.2 ∧
      (Root rank (fun q => least ≤ q.level) lhs →
        Root rank (fun q => least ≤ q.level) (climb .node least lhs steps).1.1) := by
  cases steps with
  | nil =>
    intro hready hlhs _
    rw [climb_nil]
    exact ⟨⟨rfl, hlhs, hready⟩, next_nil _, id⟩
  | cons s steps =>
    intro hready hlhs hnext
    obtain ⟨⟨hrank, a, hrhs⟩, hready'⟩ := List.forall_mem_cons.1 hready
    by_cases hs : s.rank.level < least
    · rw [climb_of_lt hs]
      refine ⟨⟨rfl, hlhs, hready⟩, fun t ht => ?_, id⟩
      obtain rfl := Option.some.inj ht
      exact hs
    · have hle := Nat.le_of_not_lt hs
      rw [climb_of_le hle]
      have hlen := (absorb .node s.rank.level s.rhs steps).2
      obtain ⟨hext, hstop, hright⟩ := absorb_extends huniform s.rank s.rhs steps hready'
        (hrhs ▸ trivial) (hrhs ▸ root_leaf _ a) (fun _ _ _ => hrhs ▸ root_leaf _ a)
      generalize (absorb .node s.rank.level s.rhs steps).1 = r at hext hstop hright hlen ⊢
      have hjoin := hext.join hrank hlhs (hnext s rfl hle) hright
      obtain ⟨hwhole, hstop', hroot⟩ := climb_extends huniform least _ r.2 hext.ready
        hjoin.grouped (hstop.fitsLeft hext.ready huniform hrank _)
      refine ⟨hwhole.trans hjoin.reading, hstop', fun _ => hroot fun q hq => ?_⟩
      obtain rfl := Option.some.inj (hrank.symm.trans hq)
      exact hle
termination_by steps.length
decreasing_by
  · simp
  · simp only [List.length_cons]
    omega

private theorem absorb_extends (huniform : Rank.Uniform rank) (p : Rank) (rhs : OpTree α β)
    (steps : List (Step (OpTree α β) β)) : Ready rank steps → rhs.WellGrouped rank →
    Root rank p.FitsRight rhs →
    Next (fun q => p.FitsRight q → Root rank q.FitsLeft rhs) steps →
    Extends rank rhs steps (absorb .node p.level rhs steps).1 ∧
      Next (fun q => ¬p.FitsRight q) (absorb .node p.level rhs steps).1.2 ∧
      Root rank p.FitsRight (absorb .node p.level rhs steps).1.1 := by
  cases steps with
  | nil =>
    intro hready hrhs hfits _
    rw [absorb_nil]
    exact ⟨⟨rfl, hrhs, hready⟩, next_nil _, hfits⟩
  | cons s steps =>
    intro hready hrhs hfits hnext
    obtain ⟨⟨hrank, a, hsrhs⟩, hready'⟩ := List.forall_mem_cons.1 hready
    by_cases hs : p.FitsRight s.rank
    · rw [absorb_of_fits hs]
      have hlen := (absorb .node s.rank.level s.rhs steps).2
      obtain ⟨hext, hstop, hright⟩ := absorb_extends huniform s.rank s.rhs steps hready'
        (hsrhs ▸ trivial) (hsrhs ▸ root_leaf _ a) (fun _ _ _ => hsrhs ▸ root_leaf _ a)
      generalize (absorb .node s.rank.level s.rhs steps).1 = r at hext hstop hright hlen ⊢
      have hjoin := hext.join hrank hrhs (hnext s rfl hs) hright
      have hlen' := (climb .node s.rank.level (.node rhs s.op r.1) r.2).2
      obtain ⟨hgroup, hstop', hroot⟩ := climb_extends huniform s.rank.level _ r.2 hext.ready
        hjoin.grouped (hstop.fitsLeft hext.ready huniform hrank _)
      have hlevel := hroot fun q hq =>
        Nat.le_of_eq (congrArg Rank.level (Option.some.inj (hrank.symm.trans hq)))
      generalize (climb .node s.rank.level (.node rhs s.op r.1) r.2).1 = g
        at hgroup hstop' hlevel hlen' ⊢
      have hgroup' := hgroup.trans hjoin.reading
      have hfits' : Root rank p.FitsRight g.1 := hlevel.fitsRight huniform hrank hs
      obtain ⟨hwhole, hstop'', hroot'⟩ := absorb_extends huniform p g.1 g.2 hgroup.ready
        hgroup.grouped hfits' fun t ht _ q hq =>
          .inl (Nat.lt_of_lt_of_le (hstop' t ht) (hlevel q hq))
      exact ⟨hwhole.trans hgroup'.reading, hstop'', hroot'⟩
    · rw [absorb_of_not hs]
      refine ⟨⟨rfl, hrhs, hready⟩, fun t ht => ?_, hfits⟩
      obtain rfl := Option.some.inj ht
      exact hs
termination_by steps.length
decreasing_by
  · simp
  · simp only [List.length_cons]
    omega
  · simp only [List.length_cons]
    omega

end

end Trees

end Precedence

namespace Tiers

variable {κ α β γ : Type} [DecidableEq κ] {tiers : Tiers κ} {key : β → κ}

/-- The operators of each tier group to the same side. -/
def Uniform (tiers : Tiers κ) : Prop :=
  ∀ tier ∈ tiers, ∃ assoc, ∀ entry ∈ tier, entry.2 = assoc

/-- The operator stands in a tier. -/
def Lists (tiers : Tiers κ) (k : κ) : Prop := ∃ tier ∈ tiers, ∃ assoc, (k, assoc) ∈ tier

/-- The operands and operators of a sequence as they follow each other. -/
def sequence (pairs : List (α × β)) (last : α) : List (α ⊕ β) :=
  pairs.flatMap (fun p => [.inl p.1, .inr p.2]) ++ [.inl last]

/-- Every tree reads as a sequence. -/
theorem exists_sequence (t : OpTree α β) :
    ∃ (pairs : List (α × β)) (last : α), t.reading = sequence pairs last := by
  induction t with
  | leaf a => exact ⟨[], a, rfl⟩
  | node l op r ihl ihr =>
    obtain ⟨pairs, last, hl⟩ := ihl
    obtain ⟨pairs', last', hr⟩ := ihr
    refine ⟨pairs ++ (last, op) :: pairs', last', ?_⟩
    rw [OpTree.reading, hl, hr]
    simp [sequence]

/-- The rank of an operator says in which tier it stands and to which side it groups there. -/
theorem rankFrom_eq_some {tiers : Tiers κ} {n : Nat} {k : κ} {r : Rank}
    (h : rankFrom n tiers k = some r) :
    ∃ i tier, tiers[i]? = some tier ∧ r.level = n + i ∧ (k, r.assoc) ∈ tier := by
  induction tiers generalizing n with
  | nil => exact nomatch h
  | cons tier rest ih =>
    rw [rankFrom, Option.or_eq_some_iff] at h
    rcases h with h | ⟨-, h⟩
    · obtain ⟨i, tier', htier, hlevel, hmem⟩ := ih h
      exact ⟨i + 1, tier', htier, by omega, hmem⟩
    · obtain ⟨assoc, hlookup, rfl⟩ := Option.map_eq_some_iff.1 h
      obtain ⟨l, l', hsplit, -⟩ := List.lookup_eq_some_iff.1 hlookup
      refine ⟨0, tier, rfl, rfl, List.mem_reverse.1 ?_⟩
      rw [hsplit]
      simp

/-- An operator that stands in a tier has a rank. -/
theorem Lists.exists_rank {tiers : Tiers κ} {k : κ} (h : tiers.Lists k) :
    ∃ r, tiers.rank? k = some r := by
  obtain ⟨tier, htier, assoc, hmem⟩ := h
  rw [rank?]
  generalize 1 = n
  induction tiers generalizing n with
  | nil => exact nomatch htier
  | cons tier' rest ih =>
    rw [rankFrom]
    rcases List.mem_cons.1 htier with rfl | htier
    · have hlookup : ((tier.reverse.lookup k).map (Rank.mk n)).isSome := by
        rw [Option.isSome_map, List.lookup_isSome_iff]
        exact ⟨(k, assoc), List.mem_reverse.2 hmem, beq_self_eq_true k⟩
      exact Option.isSome_iff_exists.1 (by rw [Option.isSome_or, hlookup, Bool.or_true])
    · obtain ⟨r, hr⟩ := ih htier (n + 1)
      exact ⟨r, by rw [hr, Option.some_or]⟩

/-- An operator that stands in no tier has no rank. -/
theorem rank?_of_not_lists {tiers : Tiers κ} {k : κ} (h : ¬tiers.Lists k) :
    tiers.rank? k = none := by
  rw [Option.eq_none_iff_forall_ne_some]
  intro r hr
  obtain ⟨i, tier, htier, -, hmem⟩ := rankFrom_eq_some hr
  exact h ⟨tier, List.mem_of_getElem? htier, r.assoc, hmem⟩

/-- In uniform tiers, operators that bind equally tight group to the same side. -/
theorem Uniform.rank (h : tiers.Uniform) (key : β → κ) :
    Rank.Uniform fun op => tiers.rank? (key op) := by
  intro a b p q hp hq hlevel
  obtain ⟨i, tier, htier, hi, hmem⟩ := rankFrom_eq_some hp
  obtain ⟨j, tier', htier', hj, hmem'⟩ := rankFrom_eq_some hq
  obtain rfl : i = j := by omega
  obtain rfl := Option.some.inj (htier.symm.trans htier')
  obtain ⟨assoc, hassoc⟩ := h tier (List.mem_of_getElem? htier)
  exact (hassoc _ hmem).trans (hassoc _ hmem').symm

/-- The steps of a sequence of operators that have ranks. -/
theorem exists_steps (key : β → κ) (pairs : List (α × β)) (last : α)
    (h : ∀ p ∈ pairs, ∃ r, tiers.rank? (key p.2) = some r) :
    ∃ first steps, tiers.steps key (some last) pairs = .ok (first, steps) ∧
      (∀ s ∈ steps, tiers.rank? (key s.op) = some s.rank) ∧
      .inl first :: steps.flatMap (fun s => [.inr s.op, .inl s.rhs]) = sequence pairs last := by
  induction pairs with
  | nil => exact ⟨last, [], rfl, List.forall_mem_nil _, rfl⟩
  | cons p pairs ih =>
    obtain ⟨operand, op⟩ := p
    obtain ⟨⟨r, hr⟩, hpairs⟩ := List.forall_mem_cons.1 h
    obtain ⟨first, steps, hsteps, hranks, hread⟩ := ih hpairs
    refine ⟨operand, ⟨r, op, first⟩ :: steps, ?_, List.forall_mem_cons.2 ⟨hr, hranks⟩, ?_⟩
    · simp only [Tiers.steps, hr, hsteps]
    · rw [List.flatMap_cons, List.cons_append, List.cons_append, List.nil_append, hread]
      rfl

/-- Operands can be exchanged before the steps are made, or after. -/
theorem steps_map (tiers : Tiers κ) (key : β → κ) (f : α → γ) (pairs : List (α × β))
    (last : Option α) :
    tiers.steps key (last.map f) (pairs.map fun p => (f p.1, p.2)) =
      (tiers.steps key last pairs).map fun s => (f s.1, s.2.map (Step.map f)) := by
  induction pairs with
  | nil => cases last <;> rfl
  | cons p pairs ih =>
    rw [List.map_cons, steps, steps, ih]
    cases tiers.rank? (key p.2) with
    | none => rfl
    | some r => cases tiers.steps key last pairs <;> rfl

private theorem readings_map_leaf (steps : List (Step α β)) :
    Precedence.readings (steps.map (Step.map .leaf)) =
      steps.flatMap fun s => [.inr s.op, .inl s.rhs] := by
  rw [Precedence.readings, List.flatMap_map]
  rfl

/-- Once the steps of a sequence are known, grouping computes the value of a tree. -/
theorem group_of_steps {pairs : List (α × β)} {first last : α} {steps : List (Step α β)}
    (hsteps : tiers.steps key (some last) pairs = .ok (first, steps)) (primary : α → γ)
    (join : γ → β → γ → γ) :
    tiers.group key join (pairs.map fun p => (primary p.1, p.2)) (some (primary last)) =
      .ok ((Precedence.group OpTree.node (.leaf first) (steps.map (Step.map .leaf))).fold primary
        join) := by
  have hmap := steps_map tiers key primary pairs (some last)
  rw [hsteps, Option.map_some] at hmap
  have hfold (l : OpTree α β) (op : β) (r : OpTree α β) :
      (OpTree.node l op r).fold primary join =
        join (l.fold primary join) op (r.fold primary join) := rfl
  have hgroup := Precedence.group_map hfold (.leaf first) (steps.map (Step.map .leaf))
  rw [List.map_map] at hgroup
  rw [group, hmap]
  exact congrArg Except.ok hgroup

/-- Grouping computes the value of a tree that reads as the sequence and respects the ranks. -/
theorem exists_group (huniform : tiers.Uniform) (key : β → κ) (pairs : List (α × β)) (last : α)
    (hranks : ∀ p ∈ pairs, ∃ r, tiers.rank? (key p.2) = some r) :
    ∃ t : OpTree α β, t.reading = sequence pairs last ∧
      t.WellGrouped (fun op => tiers.rank? (key op)) ∧
      ∀ {γ : Type} (primary : α → γ) (join : γ → β → γ → γ),
        tiers.group key join (pairs.map fun p => (primary p.1, p.2)) (some (primary last)) =
          .ok (t.fold primary join) := by
  obtain ⟨first, steps, hsteps, hrank, hread⟩ := exists_steps key pairs last hranks
  have hready : Precedence.Ready (fun op => tiers.rank? (key op))
      (steps.map (Step.map (OpTree.leaf : α → OpTree α β))) := by
    intro s hs
    obtain ⟨s', hs', rfl⟩ := List.mem_map.1 hs
    exact ⟨hrank s' hs', s'.rhs, rfl⟩
  obtain ⟨hext, -, -⟩ := Precedence.climb_extends (huniform.rank key) 0 (.leaf first) _ hready
    trivial fun s _ _ => Precedence.root_leaf _ first
  have hnil := Precedence.climb_zero OpTree.node (.leaf first) (steps.map (Step.map .leaf))
  refine ⟨Precedence.group .node (.leaf first) (steps.map (Step.map .leaf)), ?_, hext.grouped,
    fun primary join => ?_⟩
  · have hreading := hext.reading
    rw [hnil, readings_map_leaf] at hreading
    rw [Precedence.group, ← hread]
    simpa [Precedence.readings, OpTree.reading] using hreading
  · exact group_of_steps hsteps primary join

/-- A sequence that a tree reads as, where the tree respects the ranks, is grouped as in the
tree. -/
theorem group_eq_fold (huniform : tiers.Uniform) {key : β → κ} {t : OpTree α β}
    (ht : t.WellGrouped fun op => tiers.rank? (key op)) {pairs : List (α × β)} {last : α}
    (hread : t.reading = sequence pairs last) (primary : α → γ) (join : γ → β → γ → γ) :
    tiers.group key join (pairs.map fun p => (primary p.1, p.2)) (some (primary last)) =
      .ok (t.fold primary join) := by
  have hranks : ∀ p ∈ pairs, ∃ r, tiers.rank? (key p.2) = some r := by
    intro p hp
    have hop : Sum.inr p.2 ∈ t.reading := by
      rw [hread, sequence]
      exact List.mem_append_left _ (List.mem_flatMap.2 ⟨p, hp, by simp⟩)
    obtain ⟨r, hr, -⟩ := ht.le_level (n := 0) (fun _ _ => Nat.zero_le _) hop
    exact ⟨r, hr⟩
  obtain ⟨t', hread', ht', hgroup⟩ := exists_group huniform key pairs last hranks
  rw [OpTree.WellGrouped.ext (huniform.rank key) ht ht' (hread.trans hread'.symm)]
  exact hgroup primary join

/-- For tiers in each of which all operators group to the same side, exactly one tree reads as a
sequence of operands and listed operators and respects the ranks of the operators; grouping
computes its value, whatever the operands and the operators stand for. -/
theorem group_exists_unique (huniform : tiers.Uniform) (key : β → κ) (pairs : List (α × β))
    (last : α) (hlists : ∀ p ∈ pairs, tiers.Lists (key p.2)) :
    ∃ t : OpTree α β,
      (t.reading = sequence pairs last ∧ t.WellGrouped fun op => tiers.rank? (key op)) ∧
      (∀ t' : OpTree α β, t'.reading = sequence pairs last →
        (t'.WellGrouped fun op => tiers.rank? (key op)) → t' = t) ∧
      tiers.group key .node (pairs.map fun p => (.leaf p.1, p.2)) (some (.leaf last)) = .ok t ∧
      ∀ (γ : Type) (primary : α → γ) (join : γ → β → γ → γ),
        tiers.group key join (pairs.map fun p => (primary p.1, p.2)) (some (primary last)) =
          .ok (t.fold primary join) := by
  obtain ⟨t, hread, ht, hgroup⟩ :=
    exists_group huniform key pairs last fun p hp => (hlists p hp).exists_rank
  refine ⟨t, ⟨hread, ht⟩, fun t' hread' ht' => ?_, ?_, fun _ => hgroup⟩
  · exact ht'.ext (huniform.rank key) ht (hread'.trans hread.symm)
  · rw [hgroup OpTree.leaf OpTree.node, OpTree.fold_leaf_node]

/-- Sums of powers: addition groups to the left, powers bind tighter and group to the right. -/
def sumsOfPowers : Tiers String := [[("+", .left)], [("^", .right)]]

/-- A sum with a tower of powers in the middle can be read in one way only. -/
theorem group_sumsOfPowers :
    sumsOfPowers.Uniform ∧
      ∃ t : OpTree Nat String,
        t = .node (.node (.leaf 1) "+" (.node (.leaf 2) "^" (.node (.leaf 3) "^" (.leaf 4))))
          "+" (.leaf 5) ∧
        (∀ t' : OpTree Nat String,
          t'.reading = sequence [(1, "+"), (2, "^"), (3, "^"), (4, "+")] 5 →
          (t'.WellGrouped fun op => sumsOfPowers.rank? op) → t' = t) ∧
        sumsOfPowers.group id .node
          [(.leaf 1, "+"), (.leaf 2, "^"), (.leaf 3, "^"), (.leaf 4, "+")] (some (.leaf 5)) =
          .ok t := by
  have huniform : sumsOfPowers.Uniform := by
    intro tier htier
    simp only [sumsOfPowers, List.mem_cons, List.not_mem_nil, or_false] at htier
    rcases htier with rfl | rfl
    · exact ⟨.left, by decide⟩
    · exact ⟨.right, by decide⟩
  have hplus : sumsOfPowers.Lists "+" := ⟨_, List.mem_cons_self, .left, by decide⟩
  have hpower : sumsOfPowers.Lists "^" :=
    ⟨_, List.mem_cons_of_mem _ List.mem_cons_self, .right, by decide⟩
  obtain ⟨t, -, hunique, hgroup, -⟩ := group_exists_unique huniform id
    [(1, "+"), (2, "^"), (3, "^"), (4, "+")] 5 (by simp [hplus, hpower])
  refine ⟨huniform, t, (hunique _ rfl ?_).symm, hunique, hgroup⟩
  refine ⟨⟨⟨1, .left⟩, rfl, ?_, ?_⟩, ⟨⟨⟨1, .left⟩, rfl, ?_, ?_⟩, trivial,
    ⟨⟨2, .right⟩, rfl, ?_, ?_⟩, trivial, ⟨⟨2, .right⟩, rfl, ?_, ?_⟩, trivial, trivial⟩, trivial⟩
  all_goals
    intro q hq
    cases hq
  all_goals decide

end Tiers

end Lox
