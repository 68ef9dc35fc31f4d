import Lox.Grammar
import Lox.Proofs.Spelling

/-!
# Leaves of parse trees

The words at the leaves of a tree, from left to right, and the rules under which they stand. No
literal and no name of the tokens is without a leaf, and those that stand under `value` are the ones
that name nothing: they are operands. A `for` loop can have its step moved behind its body; without
`for` nothing is moved.
-/

namespace Lox

/-! ### Words at leaves -/

namespace Tree

mutual

/-- The leaves of a tree from left to right, each with the rule above it; `above` is the rule above
the tree. -/
def leavesBelow (above : Rule) : Tree → List (Rule × Word)
  | node r cs => leavesOf r cs
  | leaf kind text => [(above, ⟨kind, text⟩)]
termination_by structural t => t

/-- The leaves of the children of a rule. -/
def leavesOf (r : Rule) : List Tree → List (Rule × Word)
  | [] => []
  | t :: ts => t.leavesBelow r ++ leavesOf r ts
termination_by structural ts => ts

end

/-- The words of the leaves that stand right below a `value` rule. -/
def valued (ls : List (Rule × Word)) : List Word :=
  ls.filterMap fun l => if l.1 = .value then some l.2 else none

/-- The literals and names of a tree that stand in operand places, from left to right. -/
def values (t : Tree) : List Word := valued (t.leavesBelow .program)

/-- The leaves of children one after the other. -/
theorem leavesOf_append (r : Rule) (cs ds : List Tree) :
    leavesOf r (cs ++ ds) = leavesOf r cs ++ leavesOf r ds := by
  induction cs with
  | nil => rfl
  | cons t cs ih => rw [List.cons_append, leavesOf, leavesOf, ih, List.append_assoc]

/-- Words below one part and then below the other. -/
theorem valued_append (ls ms : List (Rule × Word)) :
    valued (ls ++ ms) = valued ls ++ valued ms := List.filterMap_append

end Tree

/-! ### Literals and names -/

/-- Whether tokens of the kind are literals or names. -/
def Kind.isOperand : Kind → Bool
  | float | int | string | yes | no | nil | ident => true
  | _ => false

namespace Form

/-- The kinds of the tokens of a form that become leaves. -/
def leafKinds : Form → List Kind
  | token k => [k]
  | seq a b | alt a b => a.leafKinds ++ b.leafKinds
  | opt a | many a => a.leafKinds
  | mark _ | rule _ | empty => []

/-- The kinds of the tokens of a form that become no leaves. -/
def markKinds : Form → List Kind
  | mark k => [k]
  | seq a b | alt a b => a.markKinds ++ b.markKinds
  | opt a | many a => a.markKinds
  | token _ | rule _ | empty => []

/-- The rules that a form refers to. -/
def rules : Form → List Rule
  | rule r => [r]
  | seq a b | alt a b => a.rules ++ b.rules
  | opt a | many a => a.rules
  | token _ | mark _ | empty => []

end Form

namespace Rule

/-- The rules with names for what is declared, for parameters and for what is called. -/
def naming : List Rule := [.funDecl, .parameters, .varDecl, .call]

private theorem isOperand_of_mark (r : Rule) : ∀ k ∈ r.form.markKinds, k.isOperand = false := by
  cases r with
  | foreign name => exact List.forall_mem_nil _
  | _ => decide

private theorem eq_value_iff (r : Rule) :
    ∀ k ∈ r.form.leafKinds, r = .value ↔ r ∉ naming ∧ k.isOperand = true := by
  cases r with
  | foreign name => simp [form, Form.leafKinds, Kind.isOperand]
  | _ => decide

private theorem forCond_not_mem {r : Rule} (h : r ≠ .forStmt) : .forCond ∉ r.form.rules := by
  cases r with
  | forStmt => exact (h rfl).elim
  | foreign name => simp [form, Form.rules]
  | _ => decide

end Rule

namespace Derives

open Lox.Tree

variable {a : Form} {ts : List Token} {cs : List Tree} {t : Tree}

private theorem operands_eq (h : Derives a ts cs) (ha : ∀ k ∈ a.markKinds, k.isOperand = false)
    (r : Rule) : ((leavesOf r cs).map Prod.snd).filter (fun w => w.kind.isOperand) =
      (ts.map Token.word).filter fun w => w.kind.isOperand := by
  induction h generalizing r with
  | token => rfl
  | @mark t kind ht =>
    have hkind : (Token.word t).kind.isOperand = false := ha _ (ht ▸ List.mem_cons_self)
    simp [leavesOf, hkind]
  | @rule r' ts cs _ ih =>
    have hnode : leavesOf r [node r' cs] = leavesOf r' cs := List.append_nil _
    rw [hnode]
    exact ih r'.isOperand_of_mark r'
  | empty | optNone | manyNil => rfl
  | seq _ _ iha ihb =>
    obtain ⟨ha, hb⟩ := List.forall_mem_append.1 ha
    simp only [leavesOf_append, List.map_append, List.filter_append, iha ha, ihb hb]
  | manyCons _ _ iha ihm =>
    simp only [leavesOf_append, List.map_append, List.filter_append, iha ha, ihm ha]
  | altLeft _ ih => exact ih (List.forall_mem_append.1 ha).1 r
  | altRight _ ih => exact ih (List.forall_mem_append.1 ha).2 r
  | optSome _ ih => exact ih ha r

private theorem leaf_kind (h : Derives a ts cs) (r : Rule) : ∀ l ∈ leavesOf r cs,
    l.1 = r ∧ l.2.kind ∈ a.leafKinds ∨ l.2.kind ∈ l.1.form.leafKinds := by
  have hwiden {r : Rule} {l : Rule × Word} {ks ks' : List Kind} (hks : ks ⊆ ks')
      (hl : l.1 = r ∧ l.2.kind ∈ ks ∨ l.2.kind ∈ l.1.form.leafKinds) :
      l.1 = r ∧ l.2.kind ∈ ks' ∨ l.2.kind ∈ l.1.form.leafKinds :=
    hl.imp_left fun h => ⟨h.1, hks h.2⟩
  induction h generalizing r with
  | token h => simp [leavesOf, leavesBelow, ofToken, Form.leafKinds, h]
  | mark | empty | optNone | manyNil => exact List.forall_mem_nil _
  | @rule r' ts cs _ ih =>
    intro l hl
    have hnode : leavesOf r [node r' cs] = leavesOf r' cs := List.append_nil _
    rw [hnode] at hl
    rcases ih r' l hl with ⟨hrule, hkind⟩ | hkind
    · exact .inr (hrule ▸ hkind)
    · exact .inr hkind
  | seq _ _ iha ihb =>
    intro l hl
    rw [leavesOf_append] at hl
    rcases List.mem_append.1 hl with hl | hl
    · exact hwiden (List.subset_append_left _ _) (iha r l hl)
    · exact hwiden (List.subset_append_right _ _) (ihb r l hl)
  | manyCons _ _ iha ihm =>
    intro l hl
    rw [leavesOf_append] at hl
    exact (List.mem_append.1 hl).elim (iha r l) (ihm r l)
  | altLeft _ ih => exact fun l hl => hwiden (List.subset_append_left _ _) (ih r l hl)
  | altRight _ ih => exact fun l hl => hwiden (List.subset_append_right _ _) (ih r l hl)
  | optSome _ ih => exact ih r

private theorem valued_eq {ls : List (Rule × Word)}
    (hls : ∀ l ∈ ls, l.2.kind ∈ l.1.form.leafKinds) :
    valued ls = ((ls.filter fun l => l.1 ∉ Rule.naming).map Prod.snd).filter
      fun w => w.kind.isOperand := by
  induction ls with
  | nil => rfl
  | cons l ls ih =>
    obtain ⟨hl, hls⟩ := List.forall_mem_cons.1 hls
    have hvalue := l.1.eq_value_iff l.2.kind hl
    rw [valued, List.filterMap_cons, ← valued, ih hls]
    by_cases hnaming : l.1 ∈ Rule.naming
    · have hne : l.1 ≠ .value := fun h => (hvalue.1 h).1 hnaming
      simp [hne, hnaming]
    · by_cases hkind : l.2.kind.isOperand = true
      · simp [hvalue.2 ⟨hnaming, hkind⟩, hkind, Rule.naming]
      · have hne : l.1 ≠ .value := fun h => hkind (hvalue.1 h).2
        simp [hne, hnaming, hkind]

/-- Every literal and every name of a program is a leaf of its tree, in the order of the tokens. -/
theorem operands_of_program (h : Derives (.rule .program) ts [t]) :
    ((t.leavesBelow .program).map Prod.snd).filter (fun w => w.kind.isOperand) =
      (ts.map Token.word).filter fun w => w.kind.isOperand := by
  have hleaves : leavesOf .program [t] = t.leavesBelow .program := List.append_nil _
  rw [← hleaves]
  exact h.operands_eq (List.forall_mem_nil _) .program

/-- Of these the values are the ones that name nothing. -/
theorem values_of_program (h : Derives (.rule .program) ts [t]) :
    t.values = (((t.leavesBelow .program).filter fun l => l.1 ∉ Rule.naming).map Prod.snd).filter
      fun w => w.kind.isOperand := by
  have hleaves : leavesOf .program [t] = t.leavesBelow .program := List.append_nil _
  refine valued_eq fun l hl => ?_
  rw [← hleaves] at hl
  rcases h.leaf_kind .program l hl with ⟨-, hkind⟩ | hkind
  · cases hkind
  · exact hkind

end Derives

/-! ### Steps of loops -/

namespace Tree

mutual

/-- A tree in which the step of each `for` loop stands behind its body, and `true` where a condition
is left out. -/
def stepsLast : Tree → Tree
  | node .forStmt [init, cond, step, body] =>
    node .forStmt [init.stepsLast, cond.stepsLast, body.stepsLast, step.stepsLast]
  | node .forCond [] => node .forCond [node .value [leaf .yes "true"]]
  | node r cs => node r (allStepsLast cs)
  | leaf kind text => leaf kind text
termination_by structural t => t

/-- Trees in which steps stand behind bodies. -/
def allStepsLast : List Tree → List Tree
  | [] => []
  | t :: ts => t.stepsLast :: allStepsLast ts
termination_by structural ts => ts

end

private theorem allStepsLast_eq_map (cs : List Tree) : allStepsLast cs = cs.map stepsLast := by
  induction cs with
  | nil => rfl
  | cons t cs ih => rw [allStepsLast, ih, List.map_cons]

/-- Children one after the other. -/
theorem allStepsLast_append (cs ds : List Tree) :
    allStepsLast (cs ++ ds) = allStepsLast cs ++ allStepsLast ds := by
  simp only [allStepsLast_eq_map, List.map_append]

/-- Where steps stand does not matter to the rule of a node. -/
theorem exists_stepsLast (r : Rule) (cs : List Tree) :
    ∃ ds, (node r cs).stepsLast = node r ds := by
  unfold stepsLast
  split <;> rename_i h <;> cases h <;> exact ⟨_, rfl⟩

/-- Only children of the rules of `for` loops are moved. -/
theorem stepsLast_node {r : Rule} (hfor : r ≠ .forStmt) (hcond : r ≠ .forCond)
    (cs : List Tree) : (node r cs).stepsLast = node r (allStepsLast cs) := by
  rw [stepsLast]
  · exact fun _ _ _ _ hr _ => hfor hr
  · exact fun hr _ => hcond hr

end Tree

namespace Derives

open Lox.Tree

private theorem allStepsLast_eq {a : Form} {ts : List Token} {cs : List Tree}
    (h : Derives a ts cs) (hts : ∀ t ∈ ts, t.kind ≠ .forWord) (ha : .forCond ∉ a.rules) :
    allStepsLast cs = cs := by
  induction h with
  | token | mark | empty | optNone | manyNil => rfl
  | @rule r ts cs h ih =>
    have hfor : r ≠ .forStmt := by
      rintro rfl
      cases h with
      | seq hfirst _ =>
        cases hfirst with
        | mark hword => exact hts _ (List.mem_append_left _ List.mem_cons_self) hword
    have hcond : r ≠ .forCond := fun hr => ha (hr ▸ List.mem_cons_self)
    rw [allStepsLast, stepsLast_node hfor hcond, ih hts (Rule.forCond_not_mem hfor)]
    rfl
  | seq _ _ iha ihb =>
    obtain ⟨hts, hus⟩ := List.forall_mem_append.1 hts
    rw [Form.rules, List.mem_append, not_or] at ha
    rw [allStepsLast_append, iha hts ha.1, ihb hus ha.2]
  | manyCons _ _ iha ihm =>
    obtain ⟨hts, hus⟩ := List.forall_mem_append.1 hts
    rw [allStepsLast_append, iha hts ha, ihm hus ha]
  | altLeft _ ih =>
    rw [Form.rules, List.mem_append, not_or] at ha
    exact ih hts ha.1
  | altRight _ ih =>
    rw [Form.rules, List.mem_append, not_or] at ha
    exact ih hts ha.2
  | optSome _ ih => exact ih hts ha

/-- Without `for` nothing is moved. -/
theorem stepsLast_of_program {ts : List Token} {t : Tree} (h : Derives (.rule .program) ts [t])
    (hts : ∀ t ∈ ts, t.kind ≠ .forWord) : t.stepsLast = t :=
  List.singleton_inj.1 (h.allStepsLast_eq hts (by decide))

end Derives

end Lox
