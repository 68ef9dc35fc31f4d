import Lox.Proofs.Derivation
import Lox.Proofs.Grouping
import Lox.Proofs.Joining
import Lox.Syntax.Walk

/-!
# Legible programs

What is known of the names and literals of a program, because they are the texts of tokens. Names
are names, no expression is missing, and no function is built in. Building a program from a parse
tree only takes over texts from the leaves, and these are spelled as their kinds are. So whatever
is known of the literals of the tokens is known of those of the program
(`Source.legible_of_program`). In particular the programs of source texts are those that can be
written (`Program.writable_iff_exists_source`).
-/

namespace Lox

/-- The expression that is nothing but the literal or name. -/
def Atom.expr : Atom → Expr
  | literal l => .literal l
  | name x => .name x

/-! ### Legible syntax -/

namespace Expr

variable (P : Literal → Prop)

mutual

/-- Whether the literals of an expression are as `P` says, its names are names, and no part is
missing. -/
def Legible : Expr → Prop
  | literal l => P l
  | name x => Scan.isName x = true
  | unary _ e => e.Legible
  | binary _ a b | access a b | assign a b => a.Legible ∧ b.Legible
  | call f args => Scan.isName f = true ∧ AllLegible args
  | hole => False
termination_by structural e => e

/-- Whether expressions are legible. -/
def AllLegible : List Expr → Prop
  | [] => True
  | e :: es => e.Legible ∧ AllLegible es
termination_by structural es => es

end

variable {P}

private theorem legible_infixed {a b : Expr} (op : Infix) (ha : a.Legible P) (hb : b.Legible P) :
    (infixed a op b).Legible P := by
  cases op <;> exact ⟨ha, hb⟩

mutual

private theorem Legible.writable : (e : Expr) → e.Legible Literal.Writable → e.Writable
  | literal _, h | name _, h => h
  | unary _ e, h => Legible.writable e h
  | binary _ a b, h | access a b, h | assign a b, h =>
    ⟨Legible.writable a h.1, Legible.writable b h.2⟩
  | call _ args, h => ⟨h.1, AllLegible.writable args h.2⟩
  | hole, h => h

private theorem AllLegible.writable :
    (es : List Expr) → AllLegible Literal.Writable es → AllWritable es
  | [], _ => trivial
  | e :: es, h => ⟨Legible.writable e h.1, AllLegible.writable es h.2⟩

end

end Expr

namespace Stmt

variable (P : Literal → Prop)

mutual

/-- Whether the names and expressions of a statement are legible. -/
def Legible : Stmt → Prop
  | expr e | print e => e.Legible P
  | block body => AllLegible body
  | var x none => Scan.isName x = true
  | var x (some e) => Scan.isName x = true ∧ e.Legible P
  | branch cond yes no => cond.Legible P ∧ AllLegible yes ∧ AllLegible no
  | loop cond body => cond.Legible P ∧ AllLegible body
  | func name params body =>
    Scan.isName name = true ∧ (∀ x ∈ params, Scan.isName x = true) ∧ AllLegible body
  | builtin _ _ => False
  | ret none => True
  | ret (some e) => e.Legible P
termination_by structural s => s

/-- Whether statements are legible. -/
def AllLegible : List Stmt → Prop
  | [] => True
  | s :: ss => s.Legible ∧ AllLegible ss
termination_by structural ss => ss

end

variable {P}

private theorem legible_var {x : String} (hx : Scan.isName x = true) {init : Option Expr}
    (h : ∀ e ∈ init, e.Legible P) : (var x init).Legible P := by
  cases init with
  | none => exact hx
  | some e => exact ⟨hx, h e rfl⟩

private theorem legible_ret {value : Option Expr} (h : ∀ e ∈ value, e.Legible P) :
    (ret value).Legible P := by
  cases value with
  | none => trivial
  | some e => exact h e rfl

private theorem allLegible_append {ss rest : List Stmt} (hss : AllLegible P ss)
    (hrest : AllLegible P rest) : AllLegible P (ss ++ rest) := by
  induction ss with
  | nil => exact hrest
  | cons s ss ih => exact ⟨hss.1, ih hss.2⟩

private theorem allLegible_map_expr {es : List Expr} (h : Expr.AllLegible P es) :
    AllLegible P (es.map expr) := by
  induction es with
  | nil => trivial
  | cons e es ih => exact ⟨h.1, ih h.2⟩

private theorem legible_for (htrue : P (.bool true)) {inits body : List Stmt} {cond : Option Expr}
    {steps : List Expr} (hinits : AllLegible P inits) (hcond : ∀ e ∈ cond, e.Legible P)
    (hbody : AllLegible P body) (hsteps : Expr.AllLegible P steps) :
    (block (inits ++ [loop (cond.getD (.literal (.bool true))) (body ++ steps.map expr)])).Legible P
    := by
  have htest : (cond.getD (.literal (.bool true))).Legible P := by
    cases cond with
    | none => exact htrue
    | some e => exact hcond e rfl
  exact allLegible_append hinits
    ⟨⟨htest, allLegible_append hbody (allLegible_map_expr hsteps)⟩, trivial⟩

mutual

private theorem Legible.writable : (s : Stmt) → s.Legible Literal.Writable → s.Writable
  | expr e, h | print e, h => Expr.Legible.writable e h
  | block body, h => AllLegible.writable body h
  | var _ none, h => h
  | var _ (some e), h => ⟨h.1, Expr.Legible.writable e h.2⟩
  | branch cond yes no, h =>
    ⟨Expr.Legible.writable cond h.1, AllLegible.writable yes h.2.1, AllLegible.writable no h.2.2⟩
  | loop cond body, h => ⟨Expr.Legible.writable cond h.1, AllLegible.writable body h.2⟩
  | func _ _ body, h => ⟨h.1, h.2.1, AllLegible.writable body h.2.2⟩
  | builtin _ _, h => h
  | ret none, h => h
  | ret (some e), h => Expr.Legible.writable e h

private theorem AllLegible.writable :
    (ss : List Stmt) → AllLegible Literal.Writable ss → AllWritable ss
  | [], _ => trivial
  | s :: ss, h => ⟨Legible.writable s h.1, AllLegible.writable ss h.2⟩

end

end Stmt

/-- Whether a program is legible, with literals as `P` says. -/
def Program.Legible (P : Literal → Prop) (p : Program) : Prop := Stmt.AllLegible P p

/-! ### Outcomes of building -/

/-- What is built, if something is, is as `P` says. -/
def Gives {α : Type} (P : α → Prop) (x : Except Defect α) : Prop := ∀ a, x = .ok a → P a

namespace Gives

variable {α β : Type} {P : α → Prop} {Q : β → Prop} {x : Except Defect α}

theorem ok {a : α} (h : P a) : Gives P (.ok a) := by
  intro b hb
  obtain rfl := Except.ok.inj hb
  exact h

theorem error (d : Defect) : Gives P (.error d) := by
  intro a ha
  cases ha

/-- What is built from two parts in turn. -/
theorem bind {next : α → Except Defect β} (hx : Gives P x) (hnext : ∀ a, P a → Gives Q (next a)) :
    Gives Q (x >>= next) := by
  cases x with
  | ok a => exact hnext a (hx a rfl)
  | error d => exact error d

/-- What is made of one part. -/
theorem map {f : α → β} (hx : Gives P x) (hf : ∀ a, P a → Q (f a)) : Gives Q (f <$> x) := by
  cases x with
  | ok a => exact ok (hf a (hx a rfl))
  | error d => exact error d

end Gives

/-! ### Leaves -/

namespace Tree

variable (P : Literal → Prop)

mutual

/-- Whether the leaves of a tree are spelled as their kinds are, and the literals that they write
are as `P` says. -/
def Spelled : Tree → Prop
  | node _ cs => AllSpelled cs
  | leaf kind text =>
    kind.Writes text.toList ∧ ∀ l, atom kind text = .ok (.literal l) → P l
termination_by structural t => t

/-- Whether the leaves of trees are spelled. -/
def AllSpelled : List Tree → Prop
  | [] => True
  | t :: ts => t.Spelled ∧ AllSpelled ts
termination_by structural ts => ts

end

variable {P}

private theorem allSpelled_iff {cs : List Tree} : AllSpelled P cs ↔ ∀ t ∈ cs, t.Spelled P := by
  induction cs with
  | nil => exact iff_of_true trivial (List.forall_mem_nil _)
  | cons t cs ih => rw [AllSpelled, ih, List.forall_mem_cons]

end Tree

private theorem Derives.allSpelled {P : Literal → Prop} {a : Form} {ts : List Token}
    {cs : List Tree} (h : Derives a ts cs)
    (hts : ∀ t ∈ ts, (Tree.ofToken t).Spelled P) : Tree.AllSpelled P cs := by
  induction h with
  | token h => exact ⟨hts _ List.mem_cons_self, trivial⟩
  | mark | empty | optNone | manyNil => trivial
  | rule _ ih => exact ⟨ih hts, trivial⟩
  | seq _ _ iha ihb | manyCons _ _ iha ihb =>
    obtain ⟨hts, hus⟩ := List.forall_mem_append.1 hts
    exact Tree.allSpelled_iff.2 (List.forall_mem_append.2
      ⟨Tree.allSpelled_iff.1 (iha hts), Tree.allSpelled_iff.1 (ihb hus)⟩)
  | altLeft _ ih | altRight _ ih | optSome _ ih => exact ih hts

namespace Tree

/-! ### Names and literals -/

section Leaves

variable {P : Literal → Prop} {cs : List Tree} {kind : Kind} {text : String}

private theorem isName_of_mem_texts (h : AllSpelled P cs) :
    ∀ x ∈ texts .ident cs, Scan.isName x = true := by
  intro x hx
  obtain ⟨t, ht, htext⟩ := List.mem_filterMap.1 hx
  have hspelled := allSpelled_iff.1 h t ht
  cases t with
  | node r ds => cases htext
  | leaf k text =>
    dsimp only at htext
    split at htext
    · rename_i hk
      subst hk
      obtain rfl := Option.some.inj htext
      have hname : Scan.isName (String.ofList text.toList) = true := hspelled.1
      rwa [String.ofList_toList] at hname
    · cases htext

private theorem gives_firstName (h : AllSpelled P cs) :
    Gives (fun x => Scan.isName x = true) (firstName cs) := by
  rw [firstName]
  split
  · exact .error _
  · rename_i x xs htexts
    exact .ok (isName_of_mem_texts h x (by rw [htexts]; exact List.mem_cons_self))

private theorem isName_of_mem_params (h : AllSpelled P cs) :
    ∀ x ∈ params cs, Scan.isName x = true := by
  induction cs using params.induct with
  | case1 => exact List.forall_mem_nil _
  | case2 ds rest hany ih =>
    rw [params, if_pos hany]
    exact ih h.2
  | case3 ds rest hany =>
    rw [params, if_neg hany]
    exact isName_of_mem_texts h.1
  | case4 t rest ht ih =>
    rw [params]
    · exact ih h.2
    · exact ht

/-- A token in an operand place is a name or a literal. -/
theorem eq_name_or_literal {e : Expr} (h : atom kind text = .ok e) :
    kind = .ident ∧ e = .name text ∨ ∃ l, e = .literal l := by
  cases kind with
  | ident => exact .inl ⟨rfl, (Except.ok.inj h).symm⟩
  | string | yes | no | nil => exact .inr ⟨_, (Except.ok.inj h).symm⟩
  | int =>
    rw [atom] at h
    split at h
    · exact .inr ⟨_, (Except.ok.inj h).symm⟩
    all_goals cases h
  | float =>
    rw [atom] at h
    split at h
    · exact .inr ⟨_, (Except.ok.inj h).symm⟩
    · cases h
  | _ => cases h

private theorem gives_atom (h : (leaf kind text).Spelled P) :
    Gives (Expr.Legible P) (atom kind text) := by
  intro e he
  obtain ⟨rfl, rfl⟩ | ⟨l, rfl⟩ := eq_name_or_literal he
  · have hname : Scan.isName (String.ofList text.toList) = true := h.1
    rwa [String.ofList_toList] at hname
  · exact h.2 l he

private theorem writable_of_atom {l : Literal} (h : kind.Writes text.toList)
    (hl : atom kind text = .ok (.literal l)) : l.Writable := by
  cases kind with
  | int =>
    rw [atom] at hl
    split at hl
    · rename_i n hn
      obtain rfl := Expr.literal.inj (Except.ok.inj hl)
      exact ⟨Int.natCast_nonneg n, Decimal.isWritable_of_readWhole hn⟩
    all_goals cases hl
  | float =>
    rw [atom] at hl
    split at hl
    · rename_i x hx
      obtain rfl := Expr.literal.inj (Except.ok.inj hl)
      have hfraction : Scan.IsFraction (String.ofList text.toList) := h
      rw [String.ofList_toList] at hfraction
      exact ⟨text, hfraction, hx⟩
    · cases hl
  | string =>
    obtain ⟨body, hbody, htext⟩ := h
    obtain rfl := Expr.literal.inj (Except.ok.inj hl)
    show '"' ∉ (String.ofList (text.toList.drop 1).dropLast).toList
    rw [String.toList_ofList, htext, List.drop_one, List.tail_cons, List.dropLast_concat]
    exact hbody
  | yes | no | nil =>
    obtain rfl := Expr.literal.inj (Except.ok.inj hl)
    trivial
  | _ => cases hl

private theorem eq_float_of_atom {x : Float} (h : atom kind text = .ok (.literal (.float x))) :
    kind = .float := by
  cases kind with
  | float => rfl
  | int =>
    rw [atom] at h
    split at h <;> cases h
  | _ => cases h

end Leaves

/-! ### Building expressions -/

section Building

variable {P : Literal → Prop}

private theorem gives_applyPrefixes {e : Expr} (he : e.Legible P) (cs : List Tree) :
    Gives (Expr.Legible P) (applyPrefixes e cs) := by
  induction cs with
  | nil => exact .ok he
  | cons c cs ih =>
    cases c with
    | node r ds =>
      rw [applyPrefixes]
      split <;> exact .error _
    | leaf k text =>
      rw [applyPrefixes]
      split
      · exact .error _
      · rename_i e' happly
        split
        · exact .ok (ih e' happly)
        · exact .error _

mutual

private theorem gives_expr : (t : Tree) → t.Spelled P → Gives (Expr.Legible P) (expr t)
  | .node r cs, h => by
    cases r with
    | expr =>
      exact (gives_operands cs h).bind fun s hs =>
        .ok (Precedence.group_of_forall (fun _ op _ => Expr.legible_infixed op) hs.1 hs.2)
    | _ => exact .error _
  | .leaf _ _, _ => .error _

private theorem gives_operands : (cs : List Tree) → AllSpelled P cs →
    Gives (fun s : Expr × List (Step Expr Infix) => s.1.Legible P ∧ ∀ t ∈ s.2, t.rhs.Legible P)
      (operands cs)
  | [], _ => .error _
  | [t], h => (gives_term t h.1).bind fun e he => .ok ⟨he, List.forall_mem_nil _⟩
  | t :: .leaf _ _ :: rest, h => by
    rw [operands]
    refine (gives_term t h.1).bind fun e he => ?_
    split
    · exact (gives_operands rest h.2.2).bind fun s hs => .ok ⟨he, List.forall_mem_cons.2 hs⟩
    · exact .error _
  | t :: .node r ds :: rest, h => by
    rw [operands]
    exact (gives_term t h.1).bind fun e he => .error _

private theorem gives_term : (t : Tree) → t.Spelled P → Gives (Expr.Legible P) (term t)
  | .node r cs, h => by
    cases r with
    | term => exact (gives_lastOperand cs h).bind fun e he => gives_applyPrefixes he _
    | _ => exact .error _
  | .leaf _ _, _ => .error _

private theorem gives_lastOperand : (cs : List Tree) → AllSpelled P cs →
    Gives (Expr.Legible P) (lastOperand cs)
  | [], _ => .error _
  | [.node r cs], h => by
    cases r with
    | call =>
      exact (gives_firstName h.1).bind fun f hf => (gives_exprs cs h.1).bind fun es hes =>
        .ok ⟨hf, hes⟩
    | value => exact gives_value cs h.1
    | _ => exact .error _
  | [.leaf _ _], _ => .error _
  | _ :: t :: ts, h => by
    rw [lastOperand]
    exact gives_lastOperand (t :: ts) h.2

private theorem gives_value : (cs : List Tree) → AllSpelled P cs → Gives (Expr.Legible P) (value cs)
  | [], _ => .error _
  | [.leaf _ _], h => gives_atom h.1
  | [.node r ds], h => gives_expr (.node r ds) h.1
  | .leaf _ _ :: _ :: _, _ | .node _ _ :: _ :: _, _ => .error _

private theorem gives_exprs : (cs : List Tree) → AllSpelled P cs →
    Gives (Expr.AllLegible P) (exprs cs)
  | [], _ => .ok trivial
  | .leaf _ _ :: rest, h => gives_exprs rest h.2
  | .node r ds :: rest, h =>
    (gives_expr (.node r ds) h.1).bind fun _ he => (gives_exprs rest h.2).bind fun _ hes =>
      .ok ⟨he, hes⟩

end

/-! ### Building statements -/

private theorem allSpelled_nodes {cs : List Tree} (h : AllSpelled P cs) : AllSpelled P (nodes cs) :=
  allSpelled_iff.2 fun t ht => allSpelled_iff.1 h t (List.mem_filter.1 ht).1

private theorem gives_firstExpr {cs : List Tree} (h : AllSpelled P cs) :
    Gives (Expr.Legible P) (firstExpr cs) := by
  cases cs with
  | nil => exact .error _
  | cons t cs => exact gives_expr t h.1

private theorem gives_firstExpr? {cs : List Tree} (h : AllSpelled P cs) :
    Gives (fun e => ∀ c ∈ e, c.Legible P) (firstExpr? cs) := by
  cases cs with
  | nil =>
    refine .ok fun c hc => ?_
    cases hc
  | cons t cs =>
    refine (gives_expr t h.1).map fun e he c hc => ?_
    obtain rfl := Option.some.inj hc
    exact he

private theorem allSpelled_nodesUnder {cs : List Tree} (h : AllSpelled P cs) (count : Nat) :
    AllSpelled P (nodesUnder count cs) := by
  rw [nodesUnder]
  split
  · rename_i r ds hget
    have hnode : (node r ds).Spelled P :=
      allSpelled_iff.1 (allSpelled_nodes h) _ (List.mem_of_getElem? hget)
    exact allSpelled_nodes hnode
  · trivial

private theorem decl_of_many (t u : Tree) (rest : List Tree) :
    decl (.node .declaration (t :: u :: rest)) = .error .misshapen := by
  cases t with
  | leaf => rfl
  | node r ds =>
    cases r with
    | statement =>
      cases ds with
      | nil => rfl
      | cons d ds => cases ds <;> rfl
    | _ => rfl

mutual

private theorem gives_stmts (htrue : P (.bool true)) : (cs : List Tree) → AllSpelled P cs →
    Gives (Stmt.AllLegible P) (stmts cs)
  | [], _ => .ok trivial
  | .leaf _ _ :: rest, h => gives_stmts htrue rest h.2
  | .node r ds :: rest, h =>
    (gives_decl htrue (.node r ds) h.1).bind fun _ hs =>
    (gives_stmts htrue rest h.2).bind fun _ hss => .ok ⟨hs, hss⟩

private theorem gives_decl (htrue : P (.bool true)) : (t : Tree) → t.Spelled P →
    Gives (Stmt.Legible P) (decl t)
  | .node r cs, h => by
    cases r with
    | declaration => exact gives_declared htrue cs h
    | _ => exact .error _
  | .leaf _ _, _ => .error _

private theorem gives_declared (htrue : P (.bool true)) : (cs : List Tree) → AllSpelled P cs →
    Gives (Stmt.Legible P) (decl (.node .declaration cs))
  | [.node r ds], h => by
    cases r with
    | funDecl =>
      exact (gives_firstName h.1).bind fun _ hx =>
        (gives_lastBlock htrue ds h.1).bind fun _ hbody =>
        .ok ⟨hx, isName_of_mem_params h.1, hbody⟩
    | statement => exact gives_stated htrue ds h.1
    | _ => exact .error _
  | [], _ | [.leaf _ _], _ => .error _
  | t :: u :: rest, _ => by
    rw [decl_of_many]
    exact .error _

private theorem gives_stated (htrue : P (.bool true)) : (ds : List Tree) → AllSpelled P ds →
    Gives (Stmt.Legible P) (decl (.node .declaration [.node .statement ds]))
  | [t], h => gives_stmt htrue t h.1
  | [], _ | _ :: _ :: _, _ => .error _

private theorem gives_block (htrue : P (.bool true)) : (t : Tree) → t.Spelled P →
    Gives (Stmt.AllLegible P) (block t)
  | .node r cs, h => by
    cases r with
    | block => exact gives_stmts htrue cs h
    | _ => exact .error _
  | .leaf _ _, _ => .error _

private theorem gives_lastBlock (htrue : P (.bool true)) : (cs : List Tree) → AllSpelled P cs →
    Gives (Stmt.AllLegible P) (lastBlock cs)
  | [], _ => .error _
  | t :: rest, h => by
    rw [lastBlock]
    split
    · exact gives_block htrue t h.1
    · exact gives_lastBlock htrue rest h.2

private theorem gives_blockAt (htrue : P (.bool true)) : (count : Nat) → (cs : List Tree) →
    AllSpelled P cs → Gives (Stmt.AllLegible P) (blockAt count cs)
  | _, [], _ => .error _
  | count, .leaf _ _ :: rest, h => gives_blockAt htrue count rest h.2
  | 0, .node r ds :: _, h => gives_block htrue (.node r ds) h.1
  | count + 1, .node _ _ :: rest, h => gives_blockAt htrue count rest h.2

private theorem gives_bareStmts (htrue : P (.bool true)) : (cs : List Tree) → AllSpelled P cs →
    Gives (Stmt.AllLegible P) (bareStmts cs)
  | [], _ => .ok trivial
  | .leaf _ _ :: rest, h => gives_bareStmts htrue rest h.2
  | .node r ds :: rest, h => by
    simp only [bareStmts]
    split
    · exact (gives_stmt htrue (.node r ds) h.1).bind fun _ hs =>
        (gives_bareStmts htrue rest h.2).bind fun _ hss => .ok ⟨hs, hss⟩
    · exact .error _

private theorem gives_firstBareStmts (htrue : P (.bool true)) : (cs : List Tree) → AllSpelled P cs →
    Gives (Stmt.AllLegible P) (firstBareStmts cs)
  | [], _ => .error _
  | .leaf _ _ :: rest, h => gives_firstBareStmts htrue rest h.2
  | .node _ ds :: _, h => gives_bareStmts htrue ds h.1

private theorem gives_stmt (htrue : P (.bool true)) : (t : Tree) → t.Spelled P →
    Gives (Stmt.Legible P) (stmt t)
  | .node r cs, h => by
    have hnodes := allSpelled_nodes h
    cases r with
    | exprStmt | printStmt => exact (gives_firstExpr hnodes).map fun e he => he
    | varDecl =>
      exact (gives_firstName h).bind fun x hx => (gives_firstExpr? hnodes).bind fun e he =>
        .ok (Stmt.legible_var hx he)
    | forStmt =>
      rw [stmt]
      split
      · exact .error _
      · exact (gives_firstBareStmts htrue cs h).bind fun inits hinits =>
          (gives_firstExpr? (allSpelled_nodesUnder h 1)).bind fun cond hcond =>
          (gives_blockAt htrue 3 cs h).bind fun body hbody =>
          (gives_exprs _ (allSpelled_nodesUnder h 2)).bind fun steps hsteps =>
          .ok (Stmt.legible_for htrue hinits hcond hbody hsteps)
    | ifStmt =>
      rw [stmt]
      split
      · exact .error _
      · have hbranch : ∀ no, Stmt.AllLegible P no → Gives (Stmt.Legible P) (do
            let cond ← firstExpr (nodes cs)
            let yes ← blockAt 1 cs
            return .branch cond yes no) := fun no hno =>
          (gives_firstExpr hnodes).bind fun cond hcond =>
          (gives_blockAt htrue 1 cs h).bind fun yes hyes => .ok ⟨hcond, hyes, hno⟩
        split
        · exact hbranch [] trivial
        · exact (gives_blockAt htrue 2 cs h).bind hbranch
    | whileStmt =>
      rw [stmt]
      split
      · exact .error _
      · exact (gives_firstExpr hnodes).bind fun cond hcond =>
          (gives_blockAt htrue 1 cs h).bind fun body hbody => .ok ⟨hcond, hbody⟩
    | returnStmt => exact (gives_firstExpr? hnodes).map fun e he => Stmt.legible_ret he
    | block => exact (gives_stmts htrue cs h).map fun ss hss => hss
    | _ => exact .error _
  | .leaf _ _, _ => .error _

end

end Building

end Tree

/-! ### Programs of source texts -/

/-- The program of a source text is legible: what is known of the literals of the tokens, and of the
one that a loop without a condition has, is known of all its literals. -/
theorem Source.legible_of_program {P : Literal → Prop} {source : String} {p : Program}
    (h : Source.program source = .ok p) (htrue : P (.bool true))
    (hP : ∀ t ∈ (Scanned.ofString source).tokens, t.kind.Writes t.text.toList →
      ∀ l, Tree.atom t.kind t.text = .ok (.literal l) → P l) : p.Legible P := by
  obtain ⟨t, htree, hp⟩ := Source.program_eq_ok_iff_tree.1 h
  obtain ⟨ts, hcuts, hts⟩ := Tree.ofSource_eq_ok_iff.1 htree
  have hscan : Scanned.ofString source = ⟨ts, none⟩ := Scanned.ofChars_eq_iff.2 hcuts
  rw [hscan] at hP
  have hspelled := hts.allSpelled (P := P) fun t ht =>
    ⟨hcuts.writes t ht, hP t ht (hcuts.writes t ht)⟩
  cases hts with
  | rule _ => exact Tree.gives_stmts htrue _ hspelled.1 p hp

/-- Whether a literal can be written and is no fraction. -/
def Literal.Plain (l : Literal) : Prop := l.Writable ∧ ∀ x, l ≠ float x

/-- The literals in the program of a source text without fractions are plain. -/
theorem Source.plain_of_program {source : String} {p : Program}
    (h : Source.program source = .ok p)
    (hfloat : ∀ t ∈ (Scanned.ofString source).tokens, t.kind ≠ .float) :
    p.Legible Literal.Plain := by
  refine Source.legible_of_program h ⟨trivial, fun x hx => by cases hx⟩ ?_
  intro t ht hwrites l hl
  refine ⟨Tree.writable_of_atom hwrites hl, ?_⟩
  rintro x rfl
  exact hfloat t ht (Tree.eq_float_of_atom hl)

/-- The programs of source texts are those that can be written. -/
theorem Program.writable_iff_exists_source {p : Program} :
    p.Writable ↔ ∃ source, Source.program source = .ok p := by
  constructor
  · intro h
    exact ⟨_, Program.program_unparse Decimal.spells_someText h⟩
  · rintro ⟨source, h⟩
    exact Stmt.AllLegible.writable p (Source.legible_of_program h trivial
      fun t _ hwrites l hl => Tree.writable_of_atom hwrites hl)

end Lox
