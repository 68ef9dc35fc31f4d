import Lox.Proofs.Outlines

/-!
# Dumps

The dump of a program tells the program, but for the names of parameters (`Source.dump_eq_iff`). The
outline of a program is told from its dump, and the program is read back from the outline node by
node (`Dump.Node.part`).
-/

namespace Lox

namespace Dump

/-! ### Reading back -/

/-- What a node is a dump of. -/
inductive Part where
  | expr (e : Expr)
  | ident (x : String)
  | header (name : String) (arity : Nat)
  | block (body : List Stmt)
  | stmt (s : Stmt)
  | unread

namespace Part

/-- The expressions among parts. -/
def exprs (ps : List Part) : List Expr :=
  ps.filterMap fun
    | expr e => some e
    | _ => none

/-- The statements among parts. -/
def stmts (ps : List Part) : List Stmt :=
  ps.filterMap fun
    | stmt s => some s
    | _ => none

end Part

/-- What a node is a dump of that has the label and stands over the parts. Parameters have no
names. -/
def Label.part : Label → List Part → Part
  | atom a, _ => .expr a.expr
  | unary op, [.expr e] => .expr (.unary op e)
  | binary op, [.expr a, .expr b] => .expr (.binary op a b)
  | access, [.expr a, .expr b] => .expr (.access a b)
  | assign, [.expr a, .expr b] => .expr (.assign a b)
  | call f _, ps => .expr (.call f (Part.exprs ps))
  | ident x, _ => .ident x
  | header name arity, _ => .header name arity
  | program, ps | block, ps => .block (Part.stmts ps)
  | decl, [p] => p
  | stmt .expr, [.expr e] => .stmt (.expr e)
  | stmt .print, [.expr e] => .stmt (.print e)
  | stmt .block, [.block body] => .stmt (.block body)
  | stmt .var, .ident x :: ps => .stmt (.var x (Part.exprs ps).head?)
  | stmt .branch, [.expr cond, .block yes, .block no] => .stmt (.branch cond yes no)
  | stmt .loop, [.expr cond, .block body] => .stmt (.loop cond body)
  | stmt .func, [.header name arity, .block body] =>
    .stmt (.func name (List.replicate arity "") body)
  | stmt .ret, ps => .stmt (.ret (Part.exprs ps).head?)
  | _, _ => .unread

mutual

/-- What a node is a dump of. -/
def Node.part : Node → Part
  | mk label below => label.part (parts below)
termination_by structural n => n

/-- What nodes are dumps of. -/
def Node.parts : List Node → List Part
  | [] => []
  | n :: ns => n.part :: parts ns
termination_by structural ns => ns

end

end Dump

namespace Stmt

mutual

/-- The statement with the names of all parameters taken away. -/
def unnamed : Stmt → Stmt
  | expr e => expr e
  | print e => print e
  | block body => block (allUnnamed body)
  | var x init => var x init
  | branch cond yes no => branch cond (allUnnamed yes) (allUnnamed no)
  | loop cond body => loop cond (allUnnamed body)
  | func name params body => func name (List.replicate params.length "") (allUnnamed body)
  | builtin name fn => builtin name fn
  | ret value => ret value
termination_by structural s => s

/-- The statements with the names of all parameters taken away. -/
def allUnnamed : List Stmt → List Stmt
  | [] => []
  | s :: ss => s.unnamed :: allUnnamed ss
termination_by structural ss => ss

end

end Stmt

/-- The program with the parameters of each function replaced by as many without a name. -/
def Program.unnamed (p : Program) : Program := Stmt.allUnnamed p

namespace Dump

variable {P : Literal → Prop}

private theorem parts_append (ns ms : List Node) :
    Node.parts (ns ++ ms) = Node.parts ns ++ Node.parts ms := by
  induction ns with
  | nil => rfl
  | cons n ns ih => rw [List.cons_append, Node.parts, Node.parts, ih, List.cons_append]

private theorem exprs_map (es : List Expr) : Part.exprs (es.map .expr) = es := by
  rw [Part.exprs, List.filterMap_map]
  exact List.filterMap_some

private theorem stmts_map (ss : List Stmt) : Part.stmts (ss.map .stmt) = ss := by
  rw [Part.stmts, List.filterMap_map]
  exact List.filterMap_some

mutual

private theorem parts_expr : (e : Expr) → e.Legible P → Node.parts e.outline = [.expr e]
  | .literal l, _ | .name x, _ => rfl
  | .unary op e, h => by
    rw [Expr.outline, Node.parts, Node.part, parts_expr e h]
    rfl
  | .binary op a b, h | .access a b, h | .assign a b, h => by
    rw [Expr.outline, Node.parts, Node.part, parts_append, parts_expr a h.1, parts_expr b h.2]
    rfl
  | .call f args, h => by
    rw [Expr.outline, Node.parts, Node.part, parts_exprs args h.2, Label.part, exprs_map]
    rfl
  | .hole, h => h.elim

private theorem parts_exprs : (es : List Expr) → Expr.AllLegible P es →
    Node.parts (Expr.outlines es) = es.map .expr
  | [], _ => rfl
  | e :: es, h => by
    rw [Expr.outlines, parts_append, parts_expr e h.1, parts_exprs es h.2]
    rfl

end

private theorem part_block {ss : List Stmt}
    (h : Node.parts (Stmt.outlines ss) = (Stmt.allUnnamed ss).map .stmt) :
    Node.part ⟨.block, Stmt.outlines ss⟩ = .block (Stmt.allUnnamed ss) := by
  rw [Node.part, h, Label.part, stmts_map]

mutual

private theorem part_stmt : (s : Stmt) → s.Legible P → s.outline.part = .stmt s.unnamed
  | .expr e, h | .print e, h => by
    rw [Stmt.outline, Node.part, parts_expr e h]
    rfl
  | .block body, h => by
    rw [Stmt.outline, Node.part, Node.parts, part_block (part_stmts body h)]
    rfl
  | .var x none, _ | .ret none, _ => rfl
  | .var x (some e), h => by
    rw [Stmt.outline, Node.part, Node.parts, Expr.outline?, parts_expr e h.2]
    rfl
  | .ret (some e), h => by
    rw [Stmt.outline, Node.part, Expr.outline?, parts_expr e h]
    rfl
  | .branch cond yes no, h => by
    rw [Stmt.outline, Node.part, parts_append, parts_expr cond h.1, Node.parts, Node.parts,
      part_block (part_stmts yes h.2.1), part_block (part_stmts no h.2.2)]
    rfl
  | .loop cond body, h => by
    rw [Stmt.outline, Node.part, parts_append, parts_expr cond h.1, Node.parts,
      part_block (part_stmts body h.2)]
    rfl
  | .func name params body, h => by
    rw [Stmt.outline, Node.part, Node.parts, Node.parts, part_block (part_stmts body h.2.2)]
    rfl
  | .builtin _ _, h => h.elim

private theorem part_stmts : (ss : List Stmt) → Stmt.AllLegible P ss →
    Node.parts (Stmt.outlines ss) = (Stmt.allUnnamed ss).map .stmt
  | [], _ => rfl
  | s :: ss, h => by
    rw [Stmt.outlines, Node.parts, part_stmts ss h.2, Node.part, Node.parts, part_stmt s h.1]
    rfl

end

end Dump

namespace Stmt

mutual

private theorem outline_unnamed : (s : Stmt) → s.unnamed.outline = s.outline
  | expr _ | print _ | var _ _ | builtin _ _ | ret _ => rfl
  | block body => by rw [unnamed, outline, outline, outlines_unnamed body]
  | branch cond yes no => by
    rw [unnamed, outline, outline, outlines_unnamed yes, outlines_unnamed no]
  | loop cond body => by rw [unnamed, outline, outline, outlines_unnamed body]
  | func name params body => by
    rw [unnamed, outline, outline, outlines_unnamed body, List.length_replicate]

private theorem outlines_unnamed : (ss : List Stmt) → outlines (allUnnamed ss) = outlines ss
  | [] => rfl
  | s :: ss => by rw [allUnnamed, outlines, outlines, outline_unnamed s, outlines_unnamed ss]

end

end Stmt

namespace Program

variable {p q : Program}

/-- Names of parameters are not dumped. -/
theorem dump_unnamed (p : Program) : p.unnamed.dump = p.dump := by
  have houtline : p.unnamed.outline = p.outline :=
    congrArg (Dump.Node.mk .program) (Stmt.outlines_unnamed p)
  rw [← String.toList_inj, toList_dump, toList_dump, houtline]

/-- A program is read back from its outline, but for the names of parameters. -/
theorem part_outline {P : Literal → Prop} (h : p.Legible P) :
    p.outline.part = .block p.unnamed := by
  rw [outline, Dump.Node.part, Dump.part_stmts p h, Dump.Label.part, Dump.stmts_map]
  rfl

/-- Programs that are legible have one dump just if they are equal but for the names of
parameters. -/
theorem dump_eq_iff_of_legible (hp : p.Legible Literal.Plain) (hq : q.Legible Literal.Plain) :
    p.dump = q.dump ↔ p.unnamed = q.unnamed := by
  constructor
  · intro h
    have hprinted := congrArg String.toList h
    rw [toList_dump, toList_dump] at hprinted
    have hlines :=
      Dump.printed_inj (legible_outline hp) (legible_outline hq) hprinted
    have hnone : ∀ l ∈ ([] : List Dump.Line).head?, l.level ≤ 0 := fun l hl => by cases hl
    have houtline : p.outline = q.outline :=
      (Dump.Node.lines_inj 0 _ _ [] [] hnone hnone (by rw [hlines])).1
    have hpart := part_outline hp
    rw [houtline, part_outline hq] at hpart
    exact (Dump.Part.block.inj hpart).symm
  · intro h
    rw [← dump_unnamed p, ← dump_unnamed q, h]

end Program

/-- The dump of a program loses nothing but the names of parameters: programs of source texts
without fractions have one dump just if they are equal with the parameters of each function replaced
by as many without a name. -/
theorem Source.dump_eq_iff {s t : String} {p q : Program} (hp : program s = .ok p)
    (hq : program t = .ok q) (hs : ∀ u ∈ (Scanned.ofString s).tokens, u.kind ≠ .float)
    (ht : ∀ u ∈ (Scanned.ofString t).tokens, u.kind ≠ .float) :
    p.dump = q.dump ↔ p.unnamed = q.unnamed :=
  Program.dump_eq_iff_of_legible (plain_of_program hp hs) (plain_of_program hq ht)

/-- The parameter of a function has another name, and the function has a string that looks like a
line of a dump. -/
theorem Source.dump_eq_of_renamed :
    ∃ p q, program "fun f(a)\x7b\"\n[blck]\";\x7d" = .ok p ∧
      program "fun f(b)\x7b\"\n[blck]\";\x7d" = .ok q ∧ p.dump = q.dump := by
  have hs : Scanned.ofString "fun f(a)\x7b\"\n[blck]\";\x7d" = Scanned.ofPieces .start
      [(.token .funWord, "fun".toList), (.skipped, " ".toList), (.token .ident, "f".toList),
        (.token .leftParen, "(".toList), (.token .ident, "a".toList),
        (.token .rightParen, ")".toList), (.token .leftBrace, "\x7b".toList),
        (.token .string, "\"\n[blck]\"".toList), (.token .semicolon, ";".toList),
        (.token .rightBrace, "\x7d".toList)] :=
    Scanned.ofString_pieces _ (by decide) (by decide)
  have ht : Scanned.ofString "fun f(b)\x7b\"\n[blck]\";\x7d" = Scanned.ofPieces .start
      [(.token .funWord, "fun".toList), (.skipped, " ".toList), (.token .ident, "f".toList),
        (.token .leftParen, "(".toList), (.token .ident, "b".toList),
        (.token .rightParen, ")".toList), (.token .leftBrace, "\x7b".toList),
        (.token .string, "\"\n[blck]\"".toList), (.token .semicolon, ";".toList),
        (.token .rightBrace, "\x7d".toList)] :=
    Scanned.ofString_pieces _ (by decide) (by decide)
  have hp : program "fun f(a)\x7b\"\n[blck]\";\x7d" =
      .ok [.func "f" ["a"] [.expr (.literal (.str "\n[blck]"))]] := by
    rw [program, Tree.ofSource, hs]
    with_unfolding_all rfl
  have hq : program "fun f(b)\x7b\"\n[blck]\";\x7d" =
      .ok [.func "f" ["b"] [.expr (.literal (.str "\n[blck]"))]] := by
    rw [program, Tree.ofSource, ht]
    with_unfolding_all rfl
  refine ⟨_, _, hp, hq, (dump_eq_iff hp hq ?_ ?_).2 rfl⟩
  · rw [hs]
    decide
  · rw [ht]
    decide

end Lox
