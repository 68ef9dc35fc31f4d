import Lox.Proofs.Labels

/-!
# Outlines of programs

A dump is the lines of an outline, a tree with a label for each node (`Program.toList_dump`). The
lines are told from what is printed (`Dump.printed_inj`), though a string can go over several of
them and look like others, and the outline from the levels of the lines (`Dump.Node.lines_inj`).
-/

namespace Lox

namespace Dump

/-! ### Outlines -/

/-- A node of an outline. -/
inductive Node where
  | mk (label : Label) (below : List Node)

/-- A line of a dump. -/
structure Line where
  /-- How far it is indented. -/
  level : Nat
  /-- What it says. -/
  label : Label

mutual

/-- The lines of a node and of those below it. -/
def Node.lines (level : Nat) : Node → List Line
  | mk label below => ⟨level, label⟩ :: allLines (level + 1) below
termination_by structural n => n

/-- The lines of nodes. -/
def Node.allLines (level : Nat) : List Node → List Line
  | [] => []
  | n :: ns => n.lines level ++ allLines level ns
termination_by structural ns => ns

end

/-- The characters of lines. -/
def printed (ls : List Line) : List Char := ls.flatMap fun l => (line l.level l.label.text).toList

end Dump

namespace Expr

open Dump

mutual

/-- The outline of an expression. -/
def outline : Expr → List Node
  | literal l => [⟨.atom (.literal l), []⟩]
  | name x => [⟨.atom (.name x), []⟩]
  | unary op e => [⟨.unary op, e.outline⟩]
  | binary op a b => [⟨.binary op, a.outline ++ b.outline⟩]
  | access a b => [⟨.access, a.outline ++ b.outline⟩]
  | assign a b => [⟨.assign, a.outline ++ b.outline⟩]
  | call f args => [⟨.call f args.isEmpty, outlines args⟩]
  | hole => []
termination_by structural e => e

/-- The outline of expressions. -/
def outlines : List Expr → List Node
  | [] => []
  | e :: es => e.outline ++ outlines es
termination_by structural es => es

end

/-- The outline of an expression that may be left out. -/
def outline? : Option Expr → List Node
  | none => []
  | some e => e.outline

end Expr

namespace Stmt

open Dump

mutual

/-- The outline of a statement. -/
def outline : Stmt → Node
  | expr e => ⟨.stmt .expr, e.outline⟩
  | print e => ⟨.stmt .print, e.outline⟩
  | block body => ⟨.stmt .block, [⟨.block, outlines body⟩]⟩
  | var x init => ⟨.stmt .var, ⟨.ident x, []⟩ :: Expr.outline? init⟩
  | branch cond yes no =>
    ⟨.stmt .branch, cond.outline ++ [⟨.block, outlines yes⟩, ⟨.block, outlines no⟩]⟩
  | loop cond body => ⟨.stmt .loop, cond.outline ++ [⟨.block, outlines body⟩]⟩
  | func name params body =>
    ⟨.stmt .func, [⟨.header name params.length, []⟩, ⟨.block, outlines body⟩]⟩
  | builtin _ fn => ⟨.stmt .func, [⟨.header ("builtin " ++ fn.name) fn.params.length, []⟩]⟩
  | ret value => ⟨.stmt .ret, Expr.outline? value⟩
termination_by structural s => s

/-- The outline of statements, each one a declaration. -/
def outlines : List Stmt → List Node
  | [] => []
  | s :: ss => ⟨.decl, [s.outline]⟩ :: outlines ss
termination_by structural ss => ss

end

end Stmt

/-- The outline of a program. -/
def Program.outline (p : Program) : Dump.Node := ⟨.program, Stmt.outlines p⟩

/-! ### A dump is the lines of the outline -/

namespace Dump

@[simp] theorem allLines_append (level : Nat) (ns ms : List Node) :
    Node.allLines level (ns ++ ms) = Node.allLines level ns ++ Node.allLines level ms := by
  induction ns with
  | nil => rfl
  | cons n ns ih => rw [List.cons_append, Node.allLines, Node.allLines, ih, List.append_assoc]

@[simp] theorem printed_append (ls ms : List Line) :
    printed (ls ++ ms) = printed ls ++ printed ms := List.flatMap_append

@[simp] theorem printed_nil (level : Nat) : printed (Node.allLines level []) = [] := rfl

@[simp] theorem printed_cons (level : Nat) (n : Node) (ns : List Node) :
    printed (Node.allLines level (n :: ns)) =
      printed (n.lines level) ++ printed (Node.allLines level ns) := printed_append _ _

/-- A node is printed as its line, and then what is below it. -/
@[simp] theorem printed_mk (level : Nat) (label : Label) (below : List Node) :
    printed (Node.lines level ⟨label, below⟩) =
      (line level (label.mark.text ++ label.detail)).toList ++
        printed (Node.allLines (level + 1) below) := rfl

mutual

private theorem toList_expr (level : Nat) :
    (e : Expr) → (expr level e).toList = printed (Node.allLines level e.outline)
  | .literal l => by simp [expr, Expr.outline, Label.mark, Mark.text, Label.detail, Atom.shown]
  | .name x => by simp [expr, Expr.outline, Label.mark, Mark.text, Label.detail, Atom.shown]
  | .unary op e => by
    simp [expr, Expr.outline, Label.mark, Mark.text, Label.detail, toList_expr (level + 1) e]
  | .binary op a b => by
    simp [expr, Expr.outline, Label.mark, Mark.text, Label.detail, toList_expr (level + 1) a,
      toList_expr (level + 1) b]
  | .access a b | .assign a b => by
    simp [expr, Expr.outline, Label.mark, Mark.text, Label.detail, toList_expr (level + 1) a,
      toList_expr (level + 1) b]
  | .call f [] => by
    simp [expr, Expr.outline, Expr.outlines, Label.mark, Mark.text, Label.detail,
      String.append_assoc]
  | .call f (e :: es) => by
    have hargs := toList_exprs (level + 1) (e :: es)
    simp [expr, Expr.outline, Label.mark, Mark.text, Label.detail, String.append_assoc, hargs]
  | .hole => rfl

private theorem toList_exprs (level : Nat) :
    (es : List Expr) → (exprs level es).toList = printed (Node.allLines level (Expr.outlines es))
  | [] => rfl
  | e :: es => by
    rw [exprs, String.toList_append, toList_expr level e, toList_exprs level es, Expr.outlines,
      allLines_append, printed_append]

end

private theorem toList_expr? (level : Nat) (e : Option Expr) :
    (expr? level e).toList = printed (Node.allLines level (Expr.outline? e)) := by
  cases e with
  | none => rfl
  | some e => exact toList_expr level e

mutual

private theorem toList_stmt (level : Nat) :
    (s : Stmt) → (stmt level s).toList = printed (s.outline.lines level)
  | .expr e | .print e => by
    simp [stmt, Stmt.outline, Label.mark, Mark.text, Label.detail, Heading.word,
      toList_expr (level + 1) e]
  | .block body => by
    simp [stmt, Stmt.outline, Label.mark, Mark.text, Label.detail, Heading.word,
      toList_stmts (level + 2) body]
  | .var x init => by
    simp [stmt, Stmt.outline, Label.mark, Mark.text, Label.detail, Heading.word,
      toList_expr? (level + 1) init]
  | .branch cond yes no => by
    simp [stmt, Stmt.outline, Label.mark, Mark.text, Label.detail, Heading.word,
      toList_expr (level + 1) cond, toList_stmts (level + 2) yes, toList_stmts (level + 2) no]
  | .loop cond body => by
    simp [stmt, Stmt.outline, Label.mark, Mark.text, Label.detail, Heading.word,
      toList_expr (level + 1) cond, toList_stmts (level + 2) body]
  | .func name params body => by
    simp [stmt, Stmt.outline, Label.mark, Mark.text, Label.detail, Heading.word,
      String.append_assoc, toList_stmts (level + 2) body]
  | .builtin _ fn => by
    have hfn (s : String) : "<fn builtin " ++ s = "<fn " ++ ("builtin " ++ s) := by
      rw [← String.append_assoc]
      rfl
    simp [stmt, Stmt.outline, Label.mark, Mark.text, Label.detail, Heading.word,
      String.append_assoc, hfn]
  | .ret value => by
    simp [stmt, Stmt.outline, Label.mark, Mark.text, Label.detail, Heading.word,
      toList_expr? (level + 1) value]

private theorem toList_stmts (level : Nat) :
    (ss : List Stmt) → (stmts level ss).toList = printed (Node.allLines level (Stmt.outlines ss))
  | [] => rfl
  | s :: ss => by
    simp [stmts, Stmt.outlines, Label.mark, Mark.text, Label.detail, toList_stmt (level + 1) s,
      toList_stmts level ss]

end

end Dump

/-- A dump is the lines of the outline. -/
theorem Program.toList_dump (p : Program) :
    p.dump.toList = Dump.printed (p.outline.lines 0) := by
  rw [dump, String.toList_append, Dump.toList_stmts]
  rfl

/-- A string with a line feed stands on two lines, and the second one looks like another node. -/
example :
    Program.dump [.print (.call "f" [.name "x", .literal (.str "a\n  [blck]")])] =
      "[prgm]\n  [decl]: stmt\n    [stmt]: print\n      [call] f (\n        [objt]: x\n" ++
        "        [objt]: \"a\n  [blck]\"\n" := by
  rfl

/-! ### Lines are told from what is printed -/

namespace Dump

/-- Whether the labels of lines are legible. -/
def AllLegible (ls : List Line) : Prop := ∀ l ∈ ls, l.label.Legible

private theorem eq_of_blanks {cs ds : List Char} (hcs : ∀ c ∈ cs.head?, c ≠ ' ')
    (hds : ∀ d ∈ ds.head?, d ≠ ' ') (n m : Nat)
    (h : List.replicate n ' ' ++ cs = List.replicate m ' ' ++ ds) : n = m ∧ cs = ds := by
  induction n generalizing m with
  | zero =>
    cases m with
    | zero => exact ⟨rfl, h⟩
    | succ m =>
      subst h
      exact (hcs ' ' rfl rfl).elim
  | succ n ih =>
    cases m with
    | zero =>
      subst h
      exact (hds ' ' rfl rfl).elim
    | succ m =>
      obtain ⟨hnm, hrest⟩ := ih m (List.cons.inj h).2
      exact ⟨by rw [hnm], hrest⟩

private theorem line_inj {level level' : Nat} {l m : Label} {cs ds : List Char} (hl : l.Legible)
    (hm : m.Legible)
    (h : (line level l.text).toList ++ cs = (line level' m.text).toList ++ ds) :
    level = level' ∧ l = m ∧ cs = ds := by
  have hline (level : Nat) (l : Label) (cs : List Char) : (line level l.text).toList ++ cs =
      List.replicate (2 * level) ' ' ++ (l.text.toList ++ '\n' :: cs) := by
    simp [line]
  have hstart (l : Label) (cs : List Char) : ∀ c ∈ (l.text.toList ++ cs).head?, c ≠ ' ' := by
    rw [Label.text, String.toList_append]
    cases l.mark <;> simp [Mark.text]
  rw [hline, hline] at h
  obtain ⟨hlevel, h⟩ := eq_of_blanks (hstart l _) (hstart m _) _ _ h
  obtain ⟨htext, hrest⟩ :=
    eq_of_isSealed (Label.isSealed_text hl) (Label.isSealed_text hm) h
  exact ⟨by omega, Label.text_inj hl hm (String.toList_inj.1 htext), hrest⟩

/-- Lines are told from what is printed. -/
theorem printed_inj {ls ms : List Line} (hls : AllLegible ls) (hms : AllLegible ms)
    (h : printed ls = printed ms) : ls = ms := by
  have hline (l : Line) (ls : List Line) :
      printed (l :: ls) = (line l.level l.label.text).toList ++ printed ls := List.flatMap_cons
  have hne (l : Line) (ls : List Line) : printed (l :: ls) ≠ [] := by
    rw [hline]
    simp [line]
  induction ls generalizing ms with
  | nil =>
    cases ms with
    | nil => rfl
    | cons m ms => exact (hne m ms h.symm).elim
  | cons l ls ih =>
    cases ms with
    | nil => exact (hne l ls h).elim
    | cons m ms =>
      rw [hline, hline] at h
      obtain ⟨hl, hls⟩ := List.forall_mem_cons.1 hls
      obtain ⟨hm, hms⟩ := List.forall_mem_cons.1 hms
      obtain ⟨hlevel, hlabel, hrest⟩ := line_inj hl hm h
      have htail := ih hls hms hrest
      obtain ⟨n, a⟩ := l
      obtain ⟨k, b⟩ := m
      obtain rfl : n = k := hlevel
      obtain rfl : a = b := hlabel
      rw [htail]

/-! ### Outlines of legible programs -/

private theorem legible_nil : AllLegible [] := List.forall_mem_nil _

private theorem legible_mk {level : Nat} {label : Label} {below : List Node}
    (hlabel : label.Legible) (h : AllLegible (Node.allLines (level + 1) below)) :
    AllLegible (Node.lines level ⟨label, below⟩) := List.forall_mem_cons.2 ⟨hlabel, h⟩

private theorem legible_cons {level : Nat} {n : Node} {ns : List Node}
    (hn : AllLegible (n.lines level)) (hns : AllLegible (Node.allLines level ns)) :
    AllLegible (Node.allLines level (n :: ns)) := List.forall_mem_append.2 ⟨hn, hns⟩

private theorem legible_append {level : Nat} {ns ms : List Node}
    (hns : AllLegible (Node.allLines level ns)) (hms : AllLegible (Node.allLines level ms)) :
    AllLegible (Node.allLines level (ns ++ ms)) := by
  rw [allLines_append]
  exact List.forall_mem_append.2 ⟨hns, hms⟩

mutual

private theorem legible_expr (level : Nat) : (e : Expr) → e.Legible Literal.Plain →
    AllLegible (Node.allLines level e.outline)
  | .literal _, h | .name _, h => legible_cons (legible_mk h legible_nil) legible_nil
  | .unary _ e, h => legible_cons (legible_mk trivial (legible_expr (level + 1) e h)) legible_nil
  | .binary _ a b, h | .access a b, h | .assign a b, h =>
    legible_cons (legible_mk trivial (legible_append (legible_expr (level + 1) a h.1)
      (legible_expr (level + 1) b h.2))) legible_nil
  | .call _ args, h =>
    legible_cons (legible_mk h.1 (legible_exprs (level + 1) args h.2)) legible_nil
  | .hole, h => h.elim

private theorem legible_exprs (level : Nat) : (es : List Expr) → Expr.AllLegible Literal.Plain es →
    AllLegible (Node.allLines level (Expr.outlines es))
  | [], _ => legible_nil
  | e :: es, h => legible_append (legible_expr level e h.1) (legible_exprs level es h.2)

end

mutual

private theorem legible_stmt (level : Nat) : (s : Stmt) → s.Legible Literal.Plain →
    AllLegible (s.outline.lines level)
  | .expr e, h | .print e, h => legible_mk trivial (legible_expr (level + 1) e h)
  | .block body, h =>
    legible_mk trivial (legible_cons (legible_mk trivial (legible_stmts (level + 2) body h))
      legible_nil)
  | .var _ none, h => legible_mk trivial (legible_cons (legible_mk h legible_nil) legible_nil)
  | .var _ (some e), h =>
    legible_mk trivial (legible_cons (legible_mk h.1 legible_nil) (legible_expr (level + 1) e h.2))
  | .branch cond yes no, h =>
    legible_mk trivial (legible_append (legible_expr (level + 1) cond h.1)
      (legible_cons (legible_mk trivial (legible_stmts (level + 2) yes h.2.1))
        (legible_cons (legible_mk trivial (legible_stmts (level + 2) no h.2.2)) legible_nil)))
  | .loop cond body, h =>
    legible_mk trivial (legible_append (legible_expr (level + 1) cond h.1)
      (legible_cons (legible_mk trivial (legible_stmts (level + 2) body h.2)) legible_nil))
  | .func _ _ body, h =>
    legible_mk trivial (legible_cons (legible_mk h.1 legible_nil)
      (legible_cons (legible_mk trivial (legible_stmts (level + 2) body h.2.2)) legible_nil))
  | .builtin _ _, h => h.elim
  | .ret none, _ => legible_mk trivial legible_nil
  | .ret (some e), h => legible_mk trivial (legible_expr (level + 1) e h)

private theorem legible_stmts (level : Nat) : (ss : List Stmt) →
    Stmt.AllLegible Literal.Plain ss → AllLegible (Node.allLines level (Stmt.outlines ss))
  | [], _ => legible_nil
  | s :: ss, h =>
    legible_cons (legible_mk trivial (legible_cons (legible_stmt (level + 1) s h.1) legible_nil))
      (legible_stmts level ss h.2)

end

end Dump

/-- The labels in the outline of a legible program are legible. -/
theorem Program.legible_outline {p : Program} (h : p.Legible Literal.Plain) :
    Dump.AllLegible (p.outline.lines 0) :=
  Dump.legible_mk trivial (Dump.legible_stmts 1 p h)

/-! ### Outlines are told from lines -/

namespace Dump

private theorem head_allLines {level : Nat} (ns : List Node) {ls : List Line}
    (hls : ∀ l ∈ ls.head?, l.level < level) :
    ∀ l ∈ (Node.allLines level ns ++ ls).head?, l.level ≤ level := by
  cases ns with
  | nil => exact fun l hl => Nat.le_of_lt (hls l hl)
  | cons n ns =>
    obtain ⟨label, below⟩ := n
    intro l hl
    obtain rfl := Option.some.inj hl
    exact Nat.le_refl level

private theorem ne_allLines_cons {level : Nat} (n : Node) (ns : List Node) {ls ms : List Line}
    (hls : ∀ l ∈ ls.head?, l.level < level) : ls ≠ Node.allLines level (n :: ns) ++ ms := by
  rintro rfl
  obtain ⟨label, below⟩ := n
  exact Nat.lt_irrefl level (hls ⟨level, label⟩ rfl)

mutual

/-- A node is told from its lines, and they end where something begins that is not further in. -/
theorem Node.lines_inj (level : Nat) : (n m : Node) → (ls ms : List Line) →
    (∀ l ∈ ls.head?, l.level ≤ level) → (∀ l ∈ ms.head?, l.level ≤ level) →
    n.lines level ++ ls = m.lines level ++ ms → n = m ∧ ls = ms
  | ⟨label, below⟩, ⟨label', below'⟩, ls, ms, hls, hms, h => by
    rw [Node.lines, Node.lines, List.cons_append, List.cons_append] at h
    obtain ⟨hhead, htail⟩ := List.cons.inj h
    obtain rfl : label = label' := congrArg Line.label hhead
    obtain ⟨rfl, hrest⟩ := Node.allLines_inj (level + 1) below below' ls ms
      (fun l hl => Nat.lt_succ_of_le (hls l hl)) (fun l hl => Nat.lt_succ_of_le (hms l hl)) htail
    exact ⟨rfl, hrest⟩

/-- Nodes are told from their lines, and they end where something begins further out. -/
theorem Node.allLines_inj (level : Nat) : (ns os : List Node) → (ls ms : List Line) →
    (∀ l ∈ ls.head?, l.level < level) → (∀ l ∈ ms.head?, l.level < level) →
    Node.allLines level ns ++ ls = Node.allLines level os ++ ms → ns = os ∧ ls = ms
  | [], [], ls, ms, _, _, h => ⟨rfl, h⟩
  | [], o :: os, ls, ms, hls, _, h => (ne_allLines_cons o os hls h).elim
  | n :: ns, [], ls, ms, _, hms, h => (ne_allLines_cons n ns hms h.symm).elim
  | n :: ns, o :: os, ls, ms, hls, hms, h => by
    rw [Node.allLines, Node.allLines, List.append_assoc, List.append_assoc] at h
    obtain ⟨rfl, hns⟩ :=
      Node.lines_inj level n o _ _ (head_allLines ns hls) (head_allLines os hms) h
    obtain ⟨rfl, hrest⟩ := Node.allLines_inj level ns os ls ms hls hms hns
    exact ⟨rfl, hrest⟩

end

end Dump

end Lox
