import Lox.Proofs.Returns
import Lox.Proofs.RoundTrip

/-!
# Chains of `and` and `or`

A chain of operands with `and` and `or` between them becomes a tree of infix operators, in which
each operator decides for itself whether its right operand is evaluated. Here the chain is read as
it is written, as a disjunction of conjunctions: its operands are tested from left to right, each
once at most, until the chain is decided. The tree is evaluated in the same way.
-/

namespace Lox

/-! ### Tests from left to right -/

/-- Each item in turn leads from one world to the next, from `w` to `w'`. -/
inductive Passed {α : Type} (leads : α → World → World → Prop) : List α → World → World → Prop where
  | nil {w : World} : Passed leads [] w w
  | cons {a : α} {as : List α} {w w₁ w' : World} :
      leads a w w₁ → Passed leads as w₁ w' → Passed leads (a :: as) w w'

namespace Eval

variable {α : Type} {sought : Bool} {test : α → Eval Bool}

/-- Tests items from left to right, up to the first of which the test finds what is sought. -/
def seek (sought : Bool) (test : α → Eval Bool) : List α → Eval Bool
  | [] => pure !sought
  | a :: as => do
    let found ← test a
    if found = sought then pure sought else seek sought test as

/-- Of a single item the test finds what it finds. -/
theorem seek_singleton (sought : Bool) (test : α → Eval Bool) (a : α) :
    seek sought test [a] = test a := by
  have hend (found : Bool) :
      (if found = sought then pure sought else pure !sought : Eval Bool) = pure found := by
    cases found <;> cases sought <;> rfl
  simp [seek, hend]

/-- Where nothing is found among the first items, the search goes on with the others. -/
theorem seek_append (sought : Bool) (test : α → Eval Bool) (as bs : List α) :
    seek sought test (as ++ bs) = (do
      let found ← seek sought test as
      if found = sought then pure sought else seek sought test bs) := by
  induction as with
  | nil => simp [seek]
  | cons a as ih =>
    simp only [List.cons_append, seek, ih, bind_assoc]
    refine bind_congr fun found => ?_
    split <;> simp

/-- The test of an item finds the opposite of what is sought. -/
def Misses (sought : Bool) (test : α → Eval Bool) (a : α) (w w' : World) : Prop :=
  test a w = .ok (!sought) w'

private theorem seek_cons (sought : Bool) (test : α → Eval Bool) (a : α) (as : List α) (w : World) :
    (∃ w₁, Misses sought test a w w₁ ∧ seek sought test (a :: as) w = seek sought test as w₁) ∨
    (∀ w₁, ¬Misses sought test a w w₁) ∧ seek sought test (a :: as) w = test a w := by
  have hseek : seek sought test (a :: as) = (do
      let found ← test a
      if found = sought then pure sought else seek sought test as) := rfl
  simp only [hseek, Misses, bind, EStateM.bind]
  cases test a w with
  | error s w₁ => exact .inr ⟨fun _ h => (by cases h), rfl⟩
  | ok found w₁ =>
    by_cases hfound : found = sought
    · subst hfound
      refine .inr ⟨fun w₂ h => ?_, by simp only [if_true]; rfl⟩
      cases found <;> cases h
    · exact .inl ⟨w₁, by rw [Bool.eq_not.2 hfound], by simp only [hfound, if_false]⟩

/-- Nothing is found just if all items miss. -/
theorem seek_eq_missed_iff {as : List α} {w w' : World} :
    seek sought test as w = .ok (!sought) w' ↔ Passed (Misses sought test) as w w' := by
  induction as generalizing w with
  | nil =>
    constructor
    · intro h
      cases h
      exact .nil
    · intro h
      cases h
      rfl
  | cons a as ih =>
    rcases seek_cons sought test a as w with ⟨w₁, hmiss, hseek⟩ | ⟨hhit, hseek⟩
    · rw [hseek, ih]
      constructor
      · exact .cons hmiss
      · intro h
        cases h with
        | cons hmiss' hrest =>
          cases hmiss.symm.trans hmiss'
          exact hrest
    · rw [hseek]
      constructor
      · exact fun h => (hhit w' h).elim
      · intro h
        cases h with
        | cons hmiss' _ => exact (hhit _ hmiss').elim

/-- What else a search ends with, it ends with at the first item that does not miss. -/
theorem seek_eq_iff {as : List α} {w : World} {res : EStateM.Result Stop World Bool}
    (hres : ∀ w', res ≠ .ok (!sought) w') :
    seek sought test as w = res ↔
      ∃ before a after w₁, as = before ++ a :: after ∧ Passed (Misses sought test) before w w₁ ∧
        test a w₁ = res := by
  induction as generalizing w with
  | nil =>
    constructor
    · exact fun h => (hres w h.symm).elim
    · rintro ⟨before, a, after, w₁, hsplit, -⟩
      simp at hsplit
  | cons a as ih =>
    rcases seek_cons sought test a as w with ⟨w₁, hmiss, hseek⟩ | ⟨hhit, hseek⟩
    · rw [hseek, ih]
      constructor
      · rintro ⟨before, b, after, w₂, rfl, hpassed, hb⟩
        exact ⟨a :: before, b, after, w₂, rfl, .cons hmiss hpassed, hb⟩
      · rintro ⟨before, b, after, w₂, hsplit, hpassed, hb⟩
        cases hpassed with
        | nil =>
          cases hsplit
          exact (hres w₁ (hb.symm.trans hmiss)).elim
        | cons hmiss' hpassed =>
          cases hsplit
          cases hmiss.symm.trans hmiss'
          exact ⟨_, b, after, w₂, rfl, hpassed, hb⟩
    · rw [hseek]
      constructor
      · exact fun h => ⟨[], a, as, w, rfl, .nil, h⟩
      · rintro ⟨before, b, after, w₂, hsplit, hpassed, hb⟩
        cases hpassed with
        | nil =>
          cases hsplit
          exact hb
        | cons hmiss' _ =>
          cases hsplit
          exact (hhit _ hmiss').elim

/-- Something is found just if an item is found before which all items miss. -/
theorem seek_eq_found_iff {as : List α} {w w' : World} :
    seek sought test as w = .ok sought w' ↔
      ∃ before a after w₁, as = before ++ a :: after ∧ Passed (Misses sought test) before w w₁ ∧
        test a w₁ = .ok sought w' := by
  refine seek_eq_iff fun w₁ h => ?_
  cases sought <;> cases h

/-- A search fails just if the test fails of an item before which all items miss. -/
theorem seek_eq_error_iff {as : List α} {s : Stop} {w w' : World} :
    seek sought test as w = .error s w' ↔
      ∃ before a after w₁, as = before ++ a :: after ∧ Passed (Misses sought test) before w w₁ ∧
        test a w₁ = .error s w' := by
  refine seek_eq_iff fun w₁ h => ?_
  cases h

end Eval

/-! ### Groups of a sequence -/

section Groups

variable {α : Type}

/-- Whether an item of a sequence is an `or`. -/
def isOr : α ⊕ Infix → Bool := Sum.elim (fun _ => false) fun op => op = .binary .or

/-- The operands of a sequence in groups, which `or` separates. -/
def groups (xs : List (α ⊕ Infix)) : List (List α) :=
  (xs.splitOnP isOr).map (List.filterMap Sum.getLeft?)

/-- Conjunctions of one operand and of two. -/
example : groups [.inl 1, .inr (.binary .or), .inl 2, .inr (.binary .and), .inl 3] =
    [[1], [2, 3]] := by
  decide

/-- An `or` separates what is before it from what is after it. -/
theorem groups_append_or (xs ys : List (α ⊕ Infix)) :
    groups (xs ++ .inr (.binary .or) :: ys) = groups xs ++ groups ys := by
  rw [groups, List.splitOnP_append_cons _ _ rfl, List.map_append]
  rfl

/-- A sequence without an `or` is one group. -/
theorem groups_of_not_or {xs : List (α ⊕ Infix)} (h : .inr (.binary .or) ∉ xs) :
    groups xs = [xs.filterMap Sum.getLeft?] := by
  have hnone : ∀ x ∈ xs, isOr x = false := by
    intro x hx
    cases x with
    | inl a => rfl
    | inr op => exact decide_eq_false fun hop => h (hop ▸ hx)
  rw [groups, List.splitOnP_eq_singleton hnone]
  rfl

end Groups

/-! ### Evaluation of the tree -/

namespace Expr

/-- The truth of a conjunction. -/
theorem test_and (ctx : Context) (a b : Expr) :
    (binary .and a b).test ctx = (do
      let holds ← a.test ctx
      if holds then b.test ctx else pure false) := by
  simp only [test, eval, bind_assoc]
  refine bind_congr fun v => bind_congr fun holds => ?_
  cases holds <;> simp [Value.truth, Eval.lift]

/-- The truth of a disjunction. -/
theorem test_or (ctx : Context) (a b : Expr) :
    (binary .or a b).test ctx = (do
      let holds ← a.test ctx
      if holds then pure true else b.test ctx) := by
  simp only [test, eval, bind_assoc]
  refine bind_congr fun v => bind_congr fun holds => ?_
  cases holds <;> simp [Value.truth, Eval.lift]

/-- A conjunction or disjunction has its truth as its value. -/
theorem eval_eq_test (ctx : Context) {op : BinaryOp} (hop : op = .and ∨ op = .or) (a b : Expr) :
    (binary op a b).eval ctx = (do
      let holds ← (binary op a b).test ctx
      pure (.bool holds)) := by
  rcases hop with rfl | rfl
  · rw [test_and]
    simp only [test, eval, bind_assoc]
    refine bind_congr fun v => bind_congr fun holds => ?_
    cases holds <;> simp
  · rw [test_or]
    simp only [test, eval, bind_assoc]
    refine bind_congr fun v => bind_congr fun holds => ?_
    cases holds <;> simp

/-- Whether all expressions hold. -/
def testAll (ctx : Context) : List Expr → Eval Bool := Eval.seek false (test ctx)

/-- Whether all expressions of some group hold. -/
def testGroups (ctx : Context) : List (List Expr) → Eval Bool := Eval.seek true (testAll ctx)

private theorem testAll_append (ctx : Context) (es fs : List Expr) :
    testAll ctx (es ++ fs) = (do
      let holds ← testAll ctx es
      if holds then testAll ctx fs else pure false) := by
  rw [testAll, Eval.seek_append]
  refine bind_congr fun holds => ?_
  cases holds <;> rfl

private theorem testGroups_singleton (ctx : Context) (g : List Expr) :
    testGroups ctx [g] = testAll ctx g := Eval.seek_singleton true (testAll ctx) g

/-! ### The course of a chain -/

/-- The expression holds, which takes the world from `w` to `w'`. -/
def Holds (ctx : Context) (e : Expr) (w w' : World) : Prop := e.test ctx w = .ok true w'

/-- The first expressions of a group hold, but not the one after them. -/
def GroupFails (ctx : Context) (g : List Expr) (w w' : World) : Prop :=
  ∃ es e rest w₁, g = es ++ e :: rest ∧ Passed (Holds ctx) es w w₁ ∧ e.test ctx w₁ = .ok false w'

variable {ctx : Context} {gs : List (List Expr)} {g : List Expr} {w w' : World}

private theorem misses_testAll : Eval.Misses true (testAll ctx) = GroupFails ctx := by
  funext g w w'
  exact propext Eval.seek_eq_found_iff

/-- A chain is true just if all operands of some group hold, after the groups before it fail. -/
theorem testGroups_eq_true_iff :
    testGroups ctx gs w = .ok true w' ↔
      ∃ before g after w₁, gs = before ++ g :: after ∧ Passed (GroupFails ctx) before w w₁ ∧
        Passed (Holds ctx) g w₁ w' := by
  have hholds (g : List Expr) (w₁ : World) :
      testAll ctx g w₁ = .ok true w' ↔ Passed (Holds ctx) g w₁ w' := Eval.seek_eq_missed_iff
  rw [testGroups, Eval.seek_eq_found_iff, misses_testAll]
  simp only [hholds]

/-- A chain is false just if all groups fail, one after the other. -/
theorem testGroups_eq_false_iff :
    testGroups ctx gs w = .ok false w' ↔ Passed (GroupFails ctx) gs w w' := by
  rw [← misses_testAll]
  exact Eval.seek_eq_missed_iff

/-- A chain fails just if an operand fails that it comes to. -/
theorem testGroups_eq_error_iff {s : Stop} :
    testGroups ctx gs w = .error s w' ↔
      ∃ before es e rest after w₁ w₂, gs = before ++ (es ++ e :: rest) :: after ∧
        Passed (GroupFails ctx) before w w₁ ∧ Passed (Holds ctx) es w₁ w₂ ∧
        e.test ctx w₂ = .error s w' := by
  rw [testGroups, Eval.seek_eq_error_iff, misses_testAll]
  simp only [testAll, Eval.seek_eq_error_iff]
  constructor
  · rintro ⟨before, _, after, w₁, hgs, hbefore, es, e, rest, w₂, rfl, hes, he⟩
    exact ⟨before, es, e, rest, after, w₁, w₂, hgs, hbefore, hes, he⟩
  · rintro ⟨before, es, e, rest, after, w₁, w₂, hgs, hbefore, hes, he⟩
    exact ⟨before, _, after, w₁, hgs, hbefore, es, e, rest, w₂, rfl, hes, he⟩

end Expr

namespace OpTree

variable {α : Type} {t : OpTree α Infix} {e : α → Expr}

/-- All operators of the tree are `and` or `or`. -/
def Connected (t : OpTree α Infix) : Prop :=
  ∀ op, .inr op ∈ t.reading → op = .binary .and ∨ op = .binary .or

/-- Neither side of an `and` has an `or`, which binds looser. -/
theorem WellGrouped.not_or {l r : OpTree α Infix}
    (ht : (node l (.binary .and) r).WellGrouped Expr.rankOf) :
    .inr (.binary .or) ∉ l.reading ∧ .inr (.binary .or) ∉ r.reading := by
  have huniform : Rank.Uniform Expr.rankOf := Infix.uniform_tiers.rank Infix.kind
  constructor
  · intro hor
    obtain ⟨q, hq, hle, -⟩ := ht.left_level huniform rfl hor
    cases hq
    exact absurd hle (by decide)
  · intro hor
    obtain ⟨q, hq, hle, -⟩ := ht.right_level huniform rfl hor
    cases hq
    exact absurd hle (by decide)

/-- A tree of `and` and `or` that respects their ranks is tested as the groups of its reading. -/
theorem test_fold (ht : t.WellGrouped Expr.rankOf) (hops : t.Connected) (ctx : Context) :
    (t.fold e Expr.infixed).test ctx =
      Expr.testGroups ctx ((groups t.reading).map (List.map e)) := by
  induction t with
  | leaf a =>
    have hgroups : groups (leaf a : OpTree α Infix).reading = [[a]] := rfl
    rw [hgroups]
    exact (Eval.seek_singleton false (Expr.test ctx) (e a)).symm.trans
      (Eval.seek_singleton true (Expr.testAll ctx) [e a]).symm
  | node l op r ihl ihr =>
    have hl := ihl ht.2.1 fun o ho => hops o (by simp [reading, ho])
    have hr := ihr ht.2.2 fun o ho => hops o (by simp [reading, ho])
    rcases hops op (by simp [reading]) with rfl | rfl
    · obtain ⟨hnol, hnor⟩ := ht.not_or
      have hnode : .inr (.binary .or) ∉ (node l (.binary .and) r).reading := by
        simp [reading, hnol, hnor]
      rw [groups_of_not_or hnol] at hl
      rw [groups_of_not_or hnor] at hr
      rw [groups_of_not_or hnode, reading, List.filterMap_append, List.map_cons, List.map_append,
        List.map_nil, Expr.testGroups_singleton, Expr.testAll_append]
      rw [List.map_cons, List.map_nil, Expr.testGroups_singleton] at hl hr
      rw [← hl, List.filterMap_cons_none rfl, ← hr]
      exact Expr.test_and ctx _ _
    · rw [reading, groups_append_or, List.map_append, Expr.testGroups, Eval.seek_append,
        ← Expr.testGroups, ← hl, ← hr]
      exact Expr.test_or ctx _ _

/-- A chain of two operands or more has its truth as its value. -/
theorem eval_fold (hops : t.Connected) (hroot : t.root? ≠ none) (ctx : Context) :
    (t.fold e Expr.infixed).eval ctx = (do
      let holds ← (t.fold e Expr.infixed).test ctx
      pure (.bool holds)) := by
  cases t with
  | leaf a => exact (hroot rfl).elim
  | node l op r =>
    rcases hops op (by simp [reading]) with rfl | rfl
    · exact Expr.eval_eq_test ctx (.inl rfl) _ _
    · exact Expr.eval_eq_test ctx (.inr rfl) _ _

end OpTree

/-! ### Chains in source text -/

/-- An operand of a chain: the words between its parentheses, their tree, and its expression. -/
structure Operand where
  words : List Word
  tree : Tree
  expr : Expr
  reads : Reads (.rule .expr) words [tree]
  built : tree.expr = .ok expr

namespace Operand

/-- An expression that is read from some words can be an operand. -/
theorem exists_of_isExpr {e : Expr} {ws : List Word} (h : e.IsExpr ws) :
    ∃ o : Operand, o.words = ws ∧ o.expr = e := by
  obtain ⟨cs, hcs, he⟩ := h
  exact ⟨⟨ws, .node .expr cs, e, Derives.rule hcs, he⟩, rfl, rfl⟩

/-- The tree of an operand in its parentheses. -/
def term (o : Operand) : Tree := .node .term [.node .value [o.tree]]

/-- The words of a chain. -/
def chainWords (pairs : List (Operand × Infix)) (last : Operand) : List Word :=
  (Tiers.sequence pairs last).flatMap
    (Sum.elim (fun o => Word.parens o.words) fun op => [.ofKind op.kind])

/-- The tree of a chain. -/
def chainTree (pairs : List (Operand × Infix)) (last : Operand) : Tree :=
  .node .expr ((Tiers.sequence pairs last).map (Tree.piece term))

/-- The operands of a chain in groups. -/
def chainGroups (pairs : List (Operand × Infix)) (last : Operand) : List (List Expr) :=
  (groups (Tiers.sequence pairs last)).map (List.map expr)

/-- A term in parentheses has the expression of the operand. -/
theorem term_eq (o : Operand) : o.term.term = .ok o.expr := by
  have hvalue : Tree.value [o.tree] = .ok o.expr := by
    rw [Tree.value, o.built]
    intro kind text hleaf
    have hbuilt := o.built
    rw [hleaf] at hbuilt
    cases hbuilt
  rw [term, Tree.term, Tree.lastOperand, hvalue]
  rfl

/-- The tree of a chain is that of its words. -/
theorem reads_chain (pairs : List (Operand × Infix)) (last : Operand) :
    Reads (.rule .expr) (chainWords pairs last) [chainTree pairs last] :=
  Derives.rule (Expr.reads_sequence pairs last fun o _ => Derives.rule (Expr.reads_parens o.reads))

end Operand

section Bool

variable {act : Eval Bool} {w w' : World}

private theorem bool_eq_ok_iff {v : Value} :
    (do let holds ← act; pure (.bool holds) : Eval Value) w = .ok v w' ↔
      v = .bool true ∧ act w = .ok true w' ∨ v = .bool false ∧ act w = .ok false w' := by
  simp only [bind, EStateM.bind]
  cases act w with
  | error stop w₁ => simp
  | ok holds w₁ => cases holds <;> simp [pure, EStateM.pure, eq_comm]

private theorem bool_eq_error_iff {stop : Stop} :
    (do let holds ← act; pure (.bool holds) : Eval Value) w = .error stop w' ↔
      act w = .error stop w' := by
  simp only [bind, EStateM.bind]
  cases act w <;> simp [pure, EStateM.pure]

end Bool

/-- A chain of at least two operands in parentheses, with `and` and `or` between them, is evaluated
as a disjunction of conjunctions: from left to right, in each group up to the first operand that
does not hold, and up to the first group of which all operands hold. It is true just if there is
such a group, it fails as the first operand does that it comes to and that fails or decides nothing,
and operands that it does not come to have no effect. -/
theorem chain_evaluates (pairs : List (Operand × Infix)) (last : Operand) (hpairs : pairs ≠ [])
    (hops : ∀ p ∈ pairs, p.2 = .binary .and ∨ p.2 = .binary .or) :
    Reads (.rule .expr) (Operand.chainWords pairs last) [Operand.chainTree pairs last] ∧
    ∃ e, (Operand.chainTree pairs last).expr = .ok e ∧ ∀ (ctx : Context) (w w' : World),
      let gs := Operand.chainGroups pairs last
      (∀ v, e.eval ctx w = .ok v w' ↔
        (v = .bool true ∧ ∃ before g after w₁, gs = before ++ g :: after ∧
          Passed (Expr.GroupFails ctx) before w w₁ ∧ Passed (Expr.Holds ctx) g w₁ w') ∨
        v = .bool false ∧ Passed (Expr.GroupFails ctx) gs w w') ∧
      ∀ stop, e.eval ctx w = .error stop w' ↔
        ∃ before es e' rest after w₁ w₂, gs = before ++ (es ++ e' :: rest) :: after ∧
          Passed (Expr.GroupFails ctx) before w w₁ ∧ Passed (Expr.Holds ctx) es w₁ w₂ ∧
          e'.test ctx w₂ = .error stop w' := by
  obtain ⟨t, hread, ht, -⟩ := Tiers.exists_group Infix.uniform_tiers Infix.kind pairs last
    fun p _ => ⟨_, p.2.rank?_kind⟩
  have hconnected : t.Connected := by
    intro op hop
    rw [hread, Tiers.sequence] at hop
    simp only [List.mem_append, List.mem_flatMap, List.mem_cons, reduceCtorEq, Sum.inr.injEq,
      List.not_mem_nil, or_false, false_or] at hop
    obtain ⟨p, hp, rfl⟩ := hop
    exact hops p hp
  have hroot : t.root? ≠ none := by
    cases t with
    | leaf o =>
      cases pairs with
      | nil => exact (hpairs rfl).elim
      | cons p pairs => simp [OpTree.reading, Tiers.sequence] at hread
    | node l op r => simp [OpTree.root?]
  refine ⟨Operand.reads_chain pairs last, t.fold Operand.expr Expr.infixed, ?_, fun ctx w w' => ?_⟩
  · rw [Operand.chainTree, ← hread]
    exact Tree.expr_reading ht fun o _ => o.term_eq
  · have heval := OpTree.eval_fold (e := Operand.expr) hconnected hroot ctx
    rw [OpTree.test_fold ht hconnected ctx, hread] at heval
    rw [heval]
    refine ⟨fun v => ?_, fun stop => ?_⟩
    · rw [bool_eq_ok_iff, Expr.testGroups_eq_true_iff, Expr.testGroups_eq_false_iff]
      rfl
    · rw [bool_eq_error_iff, Expr.testGroups_eq_error_iff]
      rfl

/-- In `( false ) and ( x ) or ( true )` the name `x` is not looked up. -/
theorem chain_evaluates_skipping :
    ∃ no x yes : Operand, no.expr = .literal (.bool false) ∧ x.expr = .name "x" ∧
      yes.expr = .literal (.bool true) ∧
      ∃ e, (Operand.chainTree [(no, .binary .and), (x, .binary .or)] yes).expr = .ok e ∧
        ∀ (ctx : Context) (w : World), e.eval ctx w = .ok (.bool true) w := by
  have hread {e : Expr} (h : e.Writable) : ∃ o : Operand, o.expr = e := by
    obtain ⟨o, -, ho⟩ :=
      Operand.exists_of_isExpr (Expr.isExpr_of_writable Decimal.spells_someText h)
    exact ⟨o, ho⟩
  have hname : Scan.isName "x" = true := by decide
  obtain ⟨no, hno⟩ := hread (e := .literal (.bool false)) trivial
  obtain ⟨x, hx⟩ := hread (e := .name "x") hname
  obtain ⟨yes, hyes⟩ := hread (e := .literal (.bool true)) trivial
  obtain ⟨-, e, he, heval⟩ :=
    chain_evaluates [(no, .binary .and), (x, .binary .or)] yes (by simp) (by simp)
  refine ⟨no, x, yes, hno, hx, hyes, e, he, fun ctx w => ?_⟩
  have hgroups : Operand.chainGroups [(no, .binary .and), (x, .binary .or)] yes =
      [[.literal (.bool false), .name "x"], [.literal (.bool true)]] := by
    rw [← hno, ← hx, ← hyes]
    rfl
  refine ((heval ctx w w).1 (.bool true)).2 (.inl ⟨rfl, ?_⟩)
  rw [hgroups]
  exact ⟨[_], _, [], w, rfl, .cons ⟨[], _, _, w, rfl, .nil, rfl⟩ .nil, .cons rfl .nil⟩

end Lox
