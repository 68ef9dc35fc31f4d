import Lox.Proofs.Building
import Lox.Proofs.Leaves
import Lox.Proofs.Legible

/-!
# Operands in the order of the source

The walk over the program of a source text comes by the operands of the source, each once and in
their order, but for what building does to `for` loops: a step is run behind the body, and a
condition that is left out is true. Grouping keeps operands in order, prefix operators and
parentheses have none, and names that are declared or called are no operands. The proof goes along
the grammar, one lemma a rule (`Rule.Walked`).
-/

namespace Lox

/-! ### Words in operand places -/

namespace Tree

/-- What stands in operand places below the children of a rule, once steps stand behind bodies. -/
def visitedOf (r : Rule) (cs : List Tree) : List Word := valued (leavesOf r (allStepsLast cs))

/-- What stands in operand places of a tree, once steps stand behind bodies. -/
def visited (t : Tree) : List Word := t.stepsLast.values

section Visited

variable {r r' : Rule} {kind : Kind} {text : String} {cs ds : List Tree}

private theorem visitedOf_nil (r : Rule) : visitedOf r [] = [] := rfl

private theorem visitedOf_append (r : Rule) (cs ds : List Tree) :
    visitedOf r (cs ++ ds) = visitedOf r cs ++ visitedOf r ds := by
  rw [visitedOf, allStepsLast_append, leavesOf_append, valued_append]
  rfl

private theorem valued_below (above r : Rule) (cs : List Tree) :
    valued ((node r cs).stepsLast.leavesBelow above) = (node r cs).visited := by
  obtain ⟨ds, hds⟩ := exists_stepsLast r cs
  rw [visited, values, hds]
  rfl

private theorem visitedOf_node :
    visitedOf r (node r' ds :: cs) = (node r' ds).visited ++ visitedOf r cs := by
  rw [visitedOf, allStepsLast, leavesOf, valued_append, valued_below]
  rfl

private theorem visitedOf_leaf (hr : r ≠ .value) :
    visitedOf r (leaf kind text :: cs) = visitedOf r cs := by
  rw [visitedOf, allStepsLast, stepsLast, leavesOf, leavesBelow, valued, List.singleton_append,
    List.filterMap_cons, if_neg hr]
  rfl

end Visited

private theorem visited_node {r : Rule} (hfor : r ≠ .forStmt) (hcond : r ≠ .forCond)
    (cs : List Tree) : (node r cs).visited = visitedOf r cs := by
  rw [visited, stepsLast_node hfor hcond]
  rfl

private theorem visited_singleton {r r' : Rule} (hfor : r ≠ .forStmt) (cs : List Tree) :
    (node r [node r' cs]).visited = (node r' cs).visited := by
  have hsteps : (node r [node r' cs]).stepsLast = node r [(node r' cs).stepsLast] := by
    rw [stepsLast]
    · rfl
    · exact fun _ _ _ _ hr _ => hfor hr
    · exact fun _ => List.cons_ne_nil _ _
  rw [visited, values, hsteps, leavesBelow, leavesOf, valued_append, valued_below]
  exact List.append_nil _

private theorem visited_for (inits conds steps body : List Tree) :
    (node .forStmt [node .forInit inits, node .forCond conds, node .forStep steps,
        node .block body]).visited =
      (node .forInit inits).visited ++ (node .forCond conds).visited ++
        (node .block body).visited ++ (node .forStep steps).visited := by
  rw [visited, values, stepsLast, leavesBelow]
  simp only [leavesOf, valued_append, valued_below, List.append_assoc, List.append_nil]

end Tree

/-! ### The atoms of a walk -/

/-- The atoms are the expressions of the words, in the same order. -/
def WrittenAs (as : List Atom) (ws : List Word) : Prop :=
  (as.map fun a => Except.ok a.expr) = ws.map fun w => Tree.atom w.kind w.text

private theorem WrittenAs.append {as bs : List Atom} {vs ws : List Word} (ha : WrittenAs as vs)
    (hb : WrittenAs bs ws) : WrittenAs (as ++ bs) (vs ++ ws) := by
  rw [WrittenAs, List.map_append, List.map_append, ha, hb]

private theorem atoms_append (vs ws : List Visit) :
    Visit.atoms (vs ++ ws) = Visit.atoms vs ++ Visit.atoms ws := List.filterMap_append

namespace Expr

/-- The atoms of an expression in the order of the walk. -/
def atoms (e : Expr) : List Atom := Visit.atoms (Walk.expr e)

/-- The atoms of expressions. -/
def allAtoms (es : List Expr) : List Atom := Visit.atoms (Walk.exprs es)

private theorem atoms_infixed (a : Expr) (op : Infix) (b : Expr) :
    atoms (infixed a op b) = atoms a ++ [] ++ atoms b := by
  rw [List.append_nil]
  cases op <;> exact atoms_append _ _

private theorem allAtoms_cons (e : Expr) (es : List Expr) :
    allAtoms (e :: es) = atoms e ++ allAtoms es := atoms_append _ _

end Expr

namespace Stmt

/-- The atoms of a statement in the order of the walk. -/
def atoms (s : Stmt) : List Atom := Visit.atoms (Walk.stmt s)

/-- The atoms of statements. -/
def allAtoms (ss : List Stmt) : List Atom := Visit.atoms (Walk.stmts ss)

private theorem allAtoms_cons (s : Stmt) (ss : List Stmt) :
    allAtoms (s :: ss) = atoms s ++ allAtoms ss := atoms_append _ _

private theorem allAtoms_append (ss ts : List Stmt) :
    allAtoms (ss ++ ts) = allAtoms ss ++ allAtoms ts := by
  induction ss with
  | nil => rfl
  | cons s ss ih => rw [List.cons_append, allAtoms_cons, allAtoms_cons, ih, List.append_assoc]

private theorem allAtoms_map_expr (es : List Expr) :
    allAtoms (es.map .expr) = Expr.allAtoms es := by
  induction es with
  | nil => rfl
  | cons e es ih =>
    rw [List.map_cons, allAtoms_cons, ih, Expr.allAtoms_cons]
    rfl

private theorem atoms_loop (cond : Expr) (body : List Stmt) :
    atoms (.loop cond body) = cond.atoms ++ allAtoms body := atoms_append _ _

private theorem atoms_branch (cond : Expr) (yes no : List Stmt) :
    atoms (.branch cond yes no) = cond.atoms ++ allAtoms yes ++ allAtoms no := by
  have hfirst : Visit.atoms (Walk.expr cond ++ .block :: Walk.stmts yes) =
      cond.atoms ++ allAtoms yes := atoms_append _ _
  have hboth : atoms (.branch cond yes no) =
      Visit.atoms (Walk.expr cond ++ .block :: Walk.stmts yes) ++ allAtoms no := atoms_append _ _
  rw [hboth, hfirst]

private theorem atoms_var (x : String) (init : Option Expr) :
    atoms (.var x init) = init.elim [] Expr.atoms := by
  cases init <;> rfl

private theorem atoms_ret (value : Option Expr) :
    atoms (.ret value) = value.elim [] Expr.atoms := by
  cases value <;> rfl

private theorem atoms_for (inits body : List Stmt) (cond : Expr) (steps : List Expr) :
    atoms (.block (inits ++ [.loop cond (body ++ steps.map .expr)])) =
      allAtoms inits ++ cond.atoms ++ allAtoms body ++ Expr.allAtoms steps := by
  have hblock (ss : List Stmt) : atoms (.block ss) = allAtoms ss := rfl
  have hlast (s : Stmt) : allAtoms [s] = atoms s ++ [] := allAtoms_cons s []
  rw [hblock, allAtoms_append, hlast, atoms_loop, allAtoms_append, allAtoms_map_expr]
  simp only [List.append_assoc, List.append_nil]

end Stmt

/-! ### The walk follows the tree -/

open Lox.Tree in
/-- The atoms of what is built under a rule are the words under it. -/
def Rule.Walked (r : Rule) (cs : List Tree) : Prop :=
  match r with
  | program | block =>
    Gives (fun ss => WrittenAs (Stmt.allAtoms ss) (node r cs).visited) (stmts cs)
  | declaration =>
    Gives (fun s => WrittenAs s.atoms (node r cs).visited) (decl (.node .declaration cs))
  | funDecl | statement =>
    Gives (fun s => WrittenAs s.atoms (node r cs).visited)
      (decl (.node .declaration [.node r cs]))
  | parameters => (node r cs).visited = []
  | exprStmt | printStmt | varDecl | forStmt | ifStmt | whileStmt | returnStmt =>
    Gives (fun s => WrittenAs s.atoms (node r cs).visited) (stmt (.node r cs))
  | forInit => Gives (fun ss => WrittenAs (Stmt.allAtoms ss) (node r cs).visited) (bareStmts cs)
  | forCond =>
    Gives (fun e => WrittenAs (e.getD (.literal (.bool true))).atoms (node r cs).visited)
      (firstExpr? (nodes cs))
  | forStep =>
    Gives (fun es => WrittenAs (Expr.allAtoms es) (node r cs).visited) (exprs (nodes cs))
  | expr => Gives (fun e => WrittenAs e.atoms (node r cs).visited) (Tree.expr (.node .expr cs))
  | term => Gives (fun e => WrittenAs e.atoms (node r cs).visited) (Tree.term (.node .term cs))
  | call | value =>
    Gives (fun e => WrittenAs e.atoms (node r cs).visited) (lastOperand [.node r cs])
  | foreign _ => True

private theorem Gives.any {α : Type} (x : Except Defect α) : Gives (fun _ => True) x :=
  fun _ _ => trivial

namespace Tree

private theorem walked_atom (kind : Kind) (text : String) :
    Gives (fun e => WrittenAs e.atoms [⟨kind, text⟩]) (atom kind text) := by
  intro e he
  rw [WrittenAs, List.map_singleton, he]
  obtain ⟨-, rfl⟩ | ⟨l, rfl⟩ := eq_name_or_literal he <;> rfl

private theorem atoms_applyPrefixes (e : Expr) (cs : List Tree) :
    Gives (fun e' => e'.atoms = e.atoms) (applyPrefixes e cs) := by
  induction cs with
  | nil => exact .ok rfl
  | cons c cs ih =>
    cases c with
    | node r ds =>
      rw [applyPrefixes]
      split <;> exact .error _
    | leaf k text =>
      rw [applyPrefixes]
      split
      · exact .error _
      · rename_i e' happly
        split
        · exact .ok (ih e' happly)
        · exact .error _

end Tree

namespace Rule

section Walked

variable {long : List Nat} {cs ds : List Tree} {r : Rule}

open Shaped Lox.Tree

private theorem walked_value (h : Shaped (fun r _ => r.Walked) value.form long cs) :
    value.Walked cs := by
  obtain ⟨a, ha, h⟩ := h.of_oneOf
  have ha : a ∈ [Kind.float, .int, .string, .yes, .no, .nil, .ident].map Form.token ++
    [Form.inOrder [.mark .leftParen, .rule .expr, .mark .rightParen]] := ha
  rcases List.mem_append.1 ha with ha | ha
  · obtain ⟨k, -, rfl⟩ := List.mem_map.1 ha
    cases h with
    | token => exact walked_atom _ _
  · obtain rfl := List.mem_singleton.1 ha
    obtain ⟨ds, rfl, hds⟩ := ((h.of_mark_seq (by decide)).of_seq_mark (by decide)).of_rule
    rw [Walked, visited_singleton (by decide)]
    exact hds

private theorem walked_exprs_cons (h : expr.Walked ds)
    (hcs : Gives (fun es => WrittenAs (Expr.allAtoms es) (visitedOf r cs)) (exprs cs)) :
    Gives (fun es => WrittenAs (Expr.allAtoms es) (visitedOf r (node .expr ds :: cs)))
      (exprs (node .expr ds :: cs)) := by
  rw [visitedOf_node]
  refine Gives.bind h fun e he => hcs.bind fun es hes => .ok ?_
  rw [Expr.allAtoms_cons]
  exact he.append hes

private theorem walked_exprs (r : Rule)
    (h : Shaped (fun r _ => r.Walked) (Form.commaSeparated (.rule .expr)) long cs) :
    Gives (fun es => WrittenAs (Expr.allAtoms es) (visitedOf r cs)) (exprs cs) := by
  obtain ⟨_, _, ds, es, rfl, rfl, hfirst, hmany⟩ := h.of_rule_seq
  refine walked_exprs_cons hfirst (hmany.of_many (M := fun _ cs =>
    Gives (fun es => WrittenAs (Expr.allAtoms es) (visitedOf r cs)) (exprs cs)) (.ok rfl)
    fun h ih => ?_)
  obtain ⟨ds, rfl, hds⟩ := (h.of_mark_seq (by decide)).of_rule
  exact walked_exprs_cons hds ih

private theorem walked_call (h : Shaped (fun r _ => r.Walked) call.form long cs) :
    call.Walked cs := by
  obtain ⟨x, ds, rfl, hrest⟩ := h.of_token_seq (by decide)
  have hopt := (hrest.of_mark_seq (by decide)).of_seq_mark (by decide)
  have hargs : Gives (fun es => WrittenAs (Expr.allAtoms es) (visitedOf call ds)) (exprs ds) := by
    cases hopt with
    | optNone => exact .ok rfl
    | optSome h => exact walked_exprs call h
  rw [Walked, visited_node (by decide) (by decide), visitedOf_leaf (by decide)]
  have hcall : Gives (fun e => WrittenAs e.atoms (visitedOf call ds)) (do
      let args ← exprs ds
      pure (Expr.call x args)) := hargs.bind fun _ hargs => .ok hargs
  exact hcall

private theorem walked_term (h : Shaped (fun r _ => r.Walked) term.form long cs) :
    term.Walked cs := by
  obtain ⟨_, _, ps, ds, rfl, rfl, hmany, hlast⟩ := h.of_seq
  have hprefix : visitedOf term ps = [] := by
    refine hmany.of_many (M := fun _ cs => visitedOf term cs = []) rfl fun h ih => ?_
    obtain ⟨t, -, -, rfl, rfl⟩ := of_oneOf_token .bang [.tilde, .minus] h
    rw [ofToken, List.singleton_append, visitedOf_leaf (by decide), ih]
  obtain ⟨r, hr, es, rfl, hes⟩ := of_oneOf_rule .call [.value] hlast
  have hoperand : Gives (fun e => WrittenAs e.atoms (node r es).visited)
      (lastOperand [node r es]) := by
    simp only [List.mem_cons, List.not_mem_nil, or_false] at hr
    rcases hr with rfl | rfl <;> exact hes
  have hwords : (node term (ps ++ [node r es])).visited = (node r es).visited := by
    rw [visited_node (by decide) (by decide), visitedOf_append, hprefix, visitedOf_node]
    exact List.append_nil _
  rw [Walked, hwords, Tree.term, lastOperand_append, List.dropLast_concat]
  exact hoperand.bind fun e he e' he' => by rw [atoms_applyPrefixes e ps e' he']; exact he

private theorem walked_operands
    (h : Shaped (fun r _ => r.Walked) (.many (.seq .infixOperator (.rule .term))) long cs)
    (hds : term.Walked ds) :
    Gives (fun s : Expr × List (Step Expr Infix) =>
        WrittenAs (s.1.atoms ++ s.2.flatMap fun t => t.rhs.atoms)
          (visitedOf expr (node term ds :: cs))) (operands (.node .term ds :: cs)) := by
  revert ds
  refine h.of_many (M := fun _ cs => ∀ {ds}, term.Walked ds →
    Gives (fun s : Expr × List (Step Expr Infix) =>
        WrittenAs (s.1.atoms ++ s.2.flatMap fun t => t.rhs.atoms)
          (visitedOf expr (node term ds :: cs))) (operands (.node .term ds :: cs))) ?_ ?_
  · intro ds hds
    rw [visitedOf_node]
    exact Gives.bind hds fun e he => .ok (he.append rfl)
  · intro _ _ cs es h ih ds hds
    obtain ⟨_, _, _, _, rfl, rfl, hop, hterm⟩ := h.of_seq
    obtain ⟨t, -, -, rfl, rfl⟩ := of_oneOf_token .assign [.or, .and, .equal, .notEqual, .greater,
      .greaterEqual, .lower, .lowerEqual, .plus, .minus, .times, .divide, .dot] hop
    obtain ⟨fs, rfl, hfs⟩ := hterm.of_rule
    have hsplit : [ofToken t] ++ [node term fs] ++ es =
        leaf t.kind t.text :: node term fs :: es := rfl
    rw [hsplit, operands, visitedOf_node, visitedOf_leaf (by decide)]
    refine Gives.bind hds fun e he => ?_
    split
    · exact (ih hfs).bind fun s hs => .ok (he.append hs)
    · exact .error _

private theorem walked_expr (h : Shaped (fun r _ => r.Walked) expr.form long cs) :
    expr.Walked cs := by
  obtain ⟨_, _, ds, es, rfl, rfl, hfirst, hmany⟩ := h.of_rule_seq
  rw [Walked, visited_node (by decide) (by decide)]
  refine (walked_operands hmany hfirst).bind fun s hs => .ok ?_
  rw [Precedence.group_inOrder Expr.atoms_infixed]
  exact hs

private theorem walked_firstExpr? (h : expr.Walked cs) :
    Gives (fun e => WrittenAs (e.elim [] Expr.atoms) (node .expr cs).visited)
      (firstExpr? [.node .expr cs]) := Gives.map h fun _ he => he

private theorem walked_stmts (r : Rule)
    (h : Shaped (fun r _ => r.Walked) (.many (.rule .declaration)) long cs) :
    Gives (fun ss => WrittenAs (Stmt.allAtoms ss) (visitedOf r cs)) (stmts cs) := by
  refine h.of_many (M := fun _ cs =>
    Gives (fun ss => WrittenAs (Stmt.allAtoms ss) (visitedOf r cs)) (stmts cs)) (.ok rfl)
    fun h ih => ?_
  obtain ⟨ds, rfl, hds⟩ := h.of_rule
  rw [List.singleton_append, visitedOf_node]
  refine Gives.bind hds fun s hs => ih.bind fun ss hss => .ok ?_
  rw [Stmt.allAtoms_cons]
  exact hs.append hss

private theorem walked_declaration (h : Shaped (fun r _ => r.Walked) declaration.form long cs) :
    declaration.Walked cs := by
  obtain ⟨r, hr, ds, rfl, hds⟩ := of_oneOf_rule .funDecl [.statement] h
  simp only [List.mem_cons, List.not_mem_nil, or_false] at hr
  rw [Walked, visited_singleton (by decide)]
  rcases hr with rfl | rfl <;> exact hds

private theorem walked_funDecl (h : Shaped (fun r _ => r.Walked) funDecl.form long cs) :
    funDecl.Walked cs := by
  obtain ⟨x, ds, rfl, hrest⟩ := (h.of_mark_seq (by decide)).of_token_seq (by decide)
  obtain ⟨_, _, ps, es, rfl, rfl, hopt, hbody⟩ := (hrest.of_mark_seq (by decide)).of_seq
  obtain ⟨fs, rfl, hfs⟩ := (hbody.of_mark_seq (by decide)).of_rule
  have hparams : visitedOf funDecl ps = [] := by
    cases hopt with
    | optNone => rfl
    | optSome h =>
      obtain ⟨qs, rfl, hqs⟩ := h.of_rule
      exact (visitedOf_node.trans (List.append_nil _)).trans hqs
  have hwords : (node funDecl (leaf .ident x :: (ps ++ [node block fs]))).visited =
      (node block fs).visited := by
    rw [visited_node (by decide) (by decide), visitedOf_leaf (by decide), visitedOf_append,
      hparams, visitedOf_node]
    exact List.append_nil _
  rw [Walked, hwords]
  refine (Gives.any _).bind fun _ _ => Gives.bind ?_ fun _ hss => .ok hss
  cases hopt with
  | optNone => exact hfs
  | optSome h =>
    obtain ⟨qs, rfl, -⟩ := h.of_rule
    exact hfs

private theorem walked_parameters (h : Shaped (fun r _ => r.Walked) parameters.form long cs) :
    parameters.Walked cs := by
  obtain ⟨_, _, _, es, rfl, rfl, hfirst, hmany⟩ := h.of_seq
  obtain ⟨-, x, rfl, -⟩ := hfirst.of_token (by decide)
  rw [Walked, visited_node (by decide) (by decide), List.singleton_append,
    visitedOf_leaf (by decide)]
  refine hmany.of_many (M := fun _ cs => visitedOf parameters cs = []) rfl fun h ih => ?_
  obtain ⟨-, y, rfl, -⟩ := (h.of_mark_seq (by decide)).of_token (by decide)
  rw [List.singleton_append, visitedOf_leaf (by decide), ih]

private theorem walked_statement (h : Shaped (fun r _ => r.Walked) statement.form long cs) :
    statement.Walked cs := by
  obtain ⟨r, hr, ds, rfl, hds⟩ := of_oneOf_rule .exprStmt
    [.printStmt, .varDecl, .forStmt, .ifStmt, .returnStmt, .whileStmt, .block] h
  simp only [List.mem_cons, List.not_mem_nil, or_false] at hr
  rw [Walked, visited_singleton (by decide)]
  rcases hr with rfl | rfl | rfl | rfl | rfl | rfl | rfl | rfl
  case inr.inr.inr.inr.inr.inr.inr => exact Gives.map hds fun _ hss => hss
  all_goals exact hds

private theorem walked_varDecl (h : Shaped (fun r _ => r.Walked) varDecl.form long cs) :
    varDecl.Walked cs := by
  obtain ⟨x, ds, rfl, hrest⟩ := (h.of_mark_seq (by decide)).of_token_seq (by decide)
  have hopt := hrest.of_seq_mark (by decide)
  rw [Walked, visited_node (by decide) (by decide), visitedOf_leaf (by decide)]
  refine (Gives.any _).bind fun y _ => Gives.bind (P := fun e =>
    WrittenAs (e.elim [] Expr.atoms) (visitedOf varDecl ds)) ?_ fun e he => .ok ?_
  · cases hopt with
    | optNone => exact .ok rfl
    | optSome h =>
      obtain ⟨es, rfl, hes⟩ := (h.of_mark_seq (by decide)).of_rule
      rw [visitedOf_node, visitedOf_nil, List.append_nil]
      exact walked_firstExpr? hes
  · rw [Stmt.atoms_var]
    exact he

private theorem walked_forStmt (h : Shaped (fun r _ => r.Walked) forStmt.form long cs) :
    forStmt.Walked cs := by
  obtain ⟨_, _, inits, _, rfl, rfl, hinits, hrest⟩ :=
    ((h.of_mark_seq (by decide)).of_mark_seq (by decide)).of_rule_seq
  obtain ⟨_, _, conds, _, rfl, rfl, hcond, hrest⟩ := hrest.of_rule_seq
  obtain ⟨_, _, steps, _, rfl, rfl, hsteps, hrest⟩ := (hrest.of_mark_seq (by decide)).of_rule_seq
  obtain ⟨body, rfl, hbody⟩ := (hrest.of_mark_seq (by decide)).of_rule
  rw [Walked, visited_for]
  refine Gives.bind hinits fun is hi => Gives.bind hcond fun c hc => Gives.bind hbody fun ss hs =>
    Gives.bind hsteps fun es hes => .ok ?_
  rw [Stmt.atoms_for]
  exact ((hi.append hc).append hs).append hes

private theorem walked_forInit (h : Shaped (fun r _ => r.Walked) forInit.form long cs) :
    forInit.Walked cs := by
  have hsingle {r : Rule} {ds : List Tree}
      (hr : (node r ds).isStatement = true)
      (h : Gives (fun s => WrittenAs s.atoms (node r ds).visited) (stmt (.node r ds))) :
      forInit.Walked [node r ds] := by
    rw [Walked, visited_singleton (by decide)]
    simp only [bareStmts, hr, if_true]
    refine Gives.bind h fun s hs => .ok ?_
    rw [Stmt.allAtoms_cons]
    have hnil : WrittenAs (Stmt.allAtoms []) [] := rfl
    rw [← List.append_nil (node r ds).visited]
    exact hs.append hnil
  obtain ⟨a, ha, h⟩ := h.of_oneOf
  simp only [List.mem_cons, List.not_mem_nil, or_false] at ha
  rcases ha with rfl | rfl | rfl
  · obtain ⟨ds, rfl, hds⟩ := h.of_rule
    exact hsingle rfl hds
  · obtain ⟨ds, rfl, hds⟩ := h.of_rule
    exact hsingle rfl hds
  · obtain ⟨-, rfl⟩ := h.of_mark (by decide)
    exact .ok rfl

private theorem walked_forCond (h : Shaped (fun r _ => r.Walked) forCond.form long cs) :
    forCond.Walked cs := by
  cases h with
  | optNone => exact .ok rfl
  | optSome h =>
    obtain ⟨ds, rfl, hds⟩ := h.of_rule
    rw [Walked, visited_singleton (by decide)]
    exact Gives.map hds fun _ he => he

private theorem walked_forStep (h : Shaped (fun r _ => r.Walked) forStep.form long cs) :
    forStep.Walked cs := by
  cases h with
  | optNone => exact .ok rfl
  | optSome h =>
    obtain ⟨ds, rfl, hds⟩ := h.of_rule
    rw [Walked, visited_node (by decide) (by decide)]
    exact walked_exprs_cons hds (.ok rfl)

private theorem walked_ifStmt (h : Shaped (fun r _ => r.Walked) ifStmt.form long cs) :
    ifStmt.Walked cs := by
  obtain ⟨_, _, conds, _, rfl, rfl, hcond, hrest⟩ :=
    ((h.of_mark_seq (by decide)).of_mark_seq (by decide)).of_rule_seq
  obtain ⟨_, _, yes, _, rfl, rfl, hyes, hopt⟩ := (hrest.of_mark_seq (by decide)).of_rule_seq
  rw [Walked, visited_node (by decide) (by decide), visitedOf_node, visitedOf_node]
  cases hopt with
  | optNone =>
    rw [visitedOf_nil]
    refine Gives.bind (.ok rfl : Gives (fun ss => WrittenAs (Stmt.allAtoms ss) []) (.ok []))
      fun no hno => Gives.bind hcond fun c hc => Gives.bind hyes fun ss hss => .ok ?_
    rw [Stmt.atoms_branch, List.append_assoc]
    exact hc.append (hss.append hno)
  | optSome h =>
    obtain ⟨no, rfl, hno⟩ := (h.of_mark_seq (by decide)).of_rule
    rw [visitedOf_node, visitedOf_nil, List.append_nil]
    refine Gives.bind hno fun ns hns => Gives.bind hcond fun c hc => Gives.bind hyes
      fun ss hss => .ok ?_
    rw [Stmt.atoms_branch, List.append_assoc]
    exact hc.append (hss.append hns)

private theorem walked_whileStmt (h : Shaped (fun r _ => r.Walked) whileStmt.form long cs) :
    whileStmt.Walked cs := by
  obtain ⟨_, _, conds, body, rfl, rfl, hcond, hrest⟩ :=
    ((h.of_mark_seq (by decide)).of_mark_seq (by decide)).of_rule_seq
  obtain ⟨es, rfl, hbody⟩ := (hrest.of_mark_seq (by decide)).of_rule
  rw [Walked, visited_node (by decide) (by decide), visitedOf_node, visitedOf_node, visitedOf_nil,
    List.append_nil]
  refine Gives.bind hcond fun c hc => Gives.bind hbody fun ss hss => .ok ?_
  rw [Stmt.atoms_loop]
  exact hc.append hss

private theorem walked_returnStmt (h : Shaped (fun r _ => r.Walked) returnStmt.form long cs) :
    returnStmt.Walked cs := by
  have hopt := (h.of_mark_seq (by decide)).of_seq_mark (by decide)
  rw [Walked, visited_node (by decide) (by decide)]
  cases hopt with
  | optNone => exact .ok rfl
  | optSome h =>
    obtain ⟨ds, rfl, hds⟩ := h.of_rule
    rw [visitedOf_node, visitedOf_nil, List.append_nil]
    exact Gives.map (walked_firstExpr? hds) fun e he => by rwa [Stmt.atoms_ret]

private theorem walked (h : Shaped (fun r _ => r.Walked) r.form long cs) : r.Walked cs := by
  cases r with
  | program =>
    rw [Walked, visited_node (by decide) (by decide)]
    exact walked_stmts program h
  | declaration => exact walked_declaration h
  | funDecl => exact walked_funDecl h
  | parameters => exact walked_parameters h
  | statement => exact walked_statement h
  | exprStmt =>
    obtain ⟨ds, rfl, hds⟩ := (h.of_seq_mark (by decide)).of_rule
    rw [Walked, visited_singleton (by decide)]
    exact Gives.map hds fun _ he => he
  | printStmt =>
    obtain ⟨ds, rfl, hds⟩ := ((h.of_mark_seq (by decide)).of_seq_mark (by decide)).of_rule
    rw [Walked, visited_singleton (by decide)]
    exact Gives.map hds fun _ he => he
  | varDecl => exact walked_varDecl h
  | forStmt => exact walked_forStmt h
  | forInit => exact walked_forInit h
  | forCond => exact walked_forCond h
  | forStep => exact walked_forStep h
  | ifStmt => exact walked_ifStmt h
  | whileStmt => exact walked_whileStmt h
  | returnStmt => exact walked_returnStmt h
  | block =>
    rw [Walked, visited_node (by decide) (by decide)]
    exact walked_stmts block ((h.of_mark_seq (by decide)).of_seq_mark (by decide))
  | expr => exact walked_expr h
  | term => exact walked_term h
  | call => exact walked_call h
  | value => exact walked_value h
  | foreign name => trivial

end Walked

end Rule

/-! ### Programs of source texts -/

namespace Source

/-- The walk over the program of a source text comes by the operands of the source in their order.
The literals and names of the source are the leaves of its tree, and those that name nothing that is
declared, no parameter and nothing that is called are the values of the tree. The atoms of the walk
are the values, from left to right, of the tree in which the step of each `for` loop stands behind
its body and a condition that is left out is true; without `for` that is the tree itself. -/
theorem walk_visits_values {source : String} {p : Program} (h : program source = .ok p) :
    ∃ t, Tree.ofSource source = .ok t ∧
      ((t.leavesBelow .program).map Prod.snd).filter (fun w => w.kind.isOperand) =
        ((Scanned.ofString source).tokens.map Token.word).filter (fun w => w.kind.isOperand) ∧
      t.values = (((t.leavesBelow .program).filter fun l => l.1 ∉ Rule.naming).map Prod.snd).filter
        (fun w => w.kind.isOperand) ∧
      WrittenAs (Visit.atoms p.walk) t.stepsLast.values ∧
      ((∀ u ∈ (Scanned.ofString source).tokens, u.kind ≠ .forWord) → t.stepsLast = t) := by
  obtain ⟨t, htree, hp⟩ := program_eq_ok_iff_tree.1 h
  obtain ⟨ts, hcuts, hts⟩ := Tree.ofSource_eq_ok_iff.1 htree
  have hscan : Scanned.ofString source = ⟨ts, none⟩ := Scanned.ofChars_eq_iff.2 hcuts
  obtain ⟨cs, hcs, hwalked⟩ := (hts.shaped Rule.walked hcuts.writes).of_rule
  obtain rfl := List.singleton_inj.1 hcs
  rw [hscan]
  exact ⟨_, htree, hts.operands_of_program, hts.values_of_program, hwalked p hp,
    hts.stepsLast_of_program⟩

/-- A loop without a condition: its step comes first in the source, and last in the walk. -/
theorem walk_visits_values_for :
    ∃ p t, program "for(;;a)\x7bb;\x7d" = .ok p ∧
      Tree.ofSource "for(;;a)\x7bb;\x7d" = .ok t ∧
      WrittenAs (Visit.atoms p.walk) t.stepsLast.values ∧
      t.values = [⟨.ident, "a"⟩, ⟨.ident, "b"⟩] ∧
      t.stepsLast.values = [⟨.yes, "true"⟩, ⟨.ident, "b"⟩, ⟨.ident, "a"⟩] := by
  have htree : Tree.ofSource "for(;;a)\x7bb;\x7d" = .ok (.node .program [.node .declaration
      [.node .statement [.node .forStmt [.node .forInit [], .node .forCond [],
        .node .forStep [.node .expr [.node .term [.node .value [.leaf .ident "a"]]]],
        .node .block [.node .declaration [.node .statement [.node .exprStmt
          [.node .expr [.node .term [.node .value [.leaf .ident "b"]]]]]]]]]]]) := by
    rw [Tree.ofSource, Scanned.ofString_pieces [(.token .forWord, "for".toList),
      (.token .leftParen, "(".toList), (.token .semicolon, ";".toList),
      (.token .semicolon, ";".toList), (.token .ident, "a".toList),
      (.token .rightParen, ")".toList), (.token .leftBrace, "\x7b".toList),
      (.token .ident, "b".toList), (.token .semicolon, ";".toList),
      (.token .rightBrace, "\x7d".toList)] (by decide) (by decide)]
    with_unfolding_all rfl
  have hprogram : program "for(;;a)\x7bb;\x7d" =
      .ok [.block [.loop (.literal (.bool true)) [.expr (.name "b"), .expr (.name "a")]]] := by
    rw [program, htree]
    with_unfolding_all rfl
  obtain ⟨t, ht, -, -, hwalk, -⟩ := walk_visits_values hprogram
  obtain rfl := Except.ok.inj (htree.symm.trans ht)
  exact ⟨_, _, hprogram, htree, hwalk, rfl, rfl⟩

end Source

end Lox
