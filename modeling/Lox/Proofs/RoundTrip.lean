import Mathlib.Tactic.Choose
import Lox.Proofs.Prediction
import Lox.Proofs.Spine
import Lox.Source

/-!
# Building undoes unparsing

A program that can be written is the program of its source text. The text scans to the words of the
program, the words derive a parse tree, and the tree has the program. An expression is read as the
flat sequence of its spine, and grouping by precedence gives back the spine.
-/

namespace Lox

/-! ### Trees of words -/

/-- A token for a word, at some place. -/
def Word.token (w : Word) : Token := ⟨w.kind, w.text, .start⟩

/-- A derivation does not depend on the places of the tokens. -/
theorem Derives.of_words {a : Form} {ts : List Token} {cs : List Tree} (h : Derives a ts cs)
    {us : List Token} (hus : us.map Token.word = ts.map Token.word) : Derives a us cs := by
  induction h generalizing us with
  | @token t kind ht =>
    obtain ⟨u, rfl, hu⟩ := List.map_eq_singleton_iff.1 hus
    have hleaf : Tree.ofToken u = Tree.ofToken t :=
      congrArg (fun w : Word => Tree.leaf w.kind w.text) hu
    rw [← hleaf]
    exact .token ((congrArg Word.kind hu).trans ht)
  | @mark t kind ht =>
    obtain ⟨u, rfl, hu⟩ := List.map_eq_singleton_iff.1 hus
    exact .mark ((congrArg Word.kind hu).trans ht)
  | rule _ ih => exact .rule (ih hus)
  | empty =>
    rw [List.map_eq_nil_iff.1 hus]
    exact .empty
  | seq _ _ iha ihb =>
    rw [List.map_append] at hus
    obtain ⟨us₁, us₂, rfl, h₁, h₂⟩ := List.map_eq_append_iff.1 hus
    exact .seq (iha h₁) (ihb h₂)
  | altLeft _ ih => exact .altLeft (ih hus)
  | altRight _ ih => exact .altRight (ih hus)
  | optNone =>
    rw [List.map_eq_nil_iff.1 hus]
    exact .optNone
  | optSome _ ih => exact .optSome (ih hus)
  | manyNil =>
    rw [List.map_eq_nil_iff.1 hus]
    exact .manyNil
  | manyCons _ _ iha ihm =>
    rw [List.map_append] at hus
    obtain ⟨us₁, us₂, rfl, h₁, h₂⟩ := List.map_eq_append_iff.1 hus
    exact .manyCons (iha h₁) (ihm h₂)

/-- The words are an instance of a form, with these trees. -/
def Reads (a : Form) (ws : List Word) (cs : List Tree) : Prop :=
  Derives a (ws.map Word.token) cs

namespace Reads

variable {a b : Form} {ws vs : List Word} {cs ds : List Tree}

private theorem token (k : Kind) (text : String) :
    Reads (.token k) [⟨k, text⟩] [.leaf k text] := Derives.token (t := ⟨k, text, .start⟩) rfl

private theorem mark (k : Kind) : Reads (.mark k) [.ofKind k] [] :=
  Derives.mark (t := (Word.ofKind k).token) rfl

private theorem rule {r : Rule} (h : Reads r.form ws cs) : Reads (.rule r) ws [.node r cs] :=
  Derives.rule h

private theorem seq (ha : Reads a ws cs) (hb : Reads b vs ds) :
    Reads (.seq a b) (ws ++ vs) (cs ++ ds) := by
  rw [Reads, List.map_append]
  exact Derives.seq ha hb

private theorem manyCons (ha : Reads a ws cs) (hm : Reads (.many a) vs ds) :
    Reads (.many a) (ws ++ vs) (cs ++ ds) := by
  rw [Reads, List.map_append]
  exact Derives.manyCons ha hm

private theorem oneOf {first : Form} {rest : List Form} (hmem : a ∈ first :: rest)
    (h : Reads a ws cs) : Reads (Form.oneOf first rest) ws cs := by
  induction rest generalizing first with
  | nil =>
    obtain rfl := List.mem_singleton.1 hmem
    exact h
  | cons second rest ih =>
    rcases List.mem_cons.1 hmem with rfl | hmem
    · exact Derives.altLeft h
    · exact Derives.altRight (ih hmem)

private theorem mark_seq {k : Kind} (hb : Reads b vs ds) :
    Reads (.seq (.mark k) b) (.ofKind k :: vs) ds := seq (mark k) hb

private theorem token_seq {k : Kind} (text : String) (hb : Reads b vs ds) :
    Reads (.seq (.token k) b) (⟨k, text⟩ :: vs) (.leaf k text :: ds) := seq (token k text) hb

private theorem between {j k : Kind} (ha : Reads a ws cs) :
    Reads (Form.inOrder [.mark j, a, .mark k]) (.ofKind j :: ws ++ [.ofKind k]) cs := by
  have h : Reads (.seq (.mark j) (.seq a (.mark k))) (.ofKind j :: (ws ++ [.ofKind k]))
      (cs ++ []) := mark_seq (seq ha (mark k))
  rw [List.append_nil] at h
  exact h

private theorem parens_seq (ha : Reads a ws cs) (hb : Reads b vs ds) :
    Reads (.seq (.mark .leftParen) (.seq a (.seq (.mark .rightParen) b)))
      (Word.parens ws ++ vs) (cs ++ ds) := by
  rw [Word.parens, List.cons_append, List.cons_append, List.append_assoc]
  exact mark_seq (seq ha (mark_seq hb))

end Reads

/-! ### Operands -/

namespace Expr

/-- The words are a term, and its tree has the expression. -/
def IsTerm (e : Expr) (ws : List Word) : Prop :=
  ∃ cs, Reads Rule.term.form ws cs ∧ cs ≠ [] ∧ Tree.term (.node .term cs) = .ok e

/-- The words are an expression, and its tree has the expression. -/
def IsExpr (e : Expr) (ws : List Word) : Prop :=
  ∃ cs, Reads Rule.expr.form ws cs ∧ Tree.expr (.node .expr cs) = .ok e

private theorem reads_term {r : Rule} {ws : List Word} {cs : List Tree}
    (hr : Form.rule r ∈ [Form.rule .call, Form.rule .value]) (h : Reads r.form ws cs) :
    Reads Rule.term.form ws [.node r cs] := by
  have hnone : Reads (.many .prefixOperator) [] [] := Derives.manyNil
  exact hnone.seq (Reads.oneOf hr (Reads.rule h))

private theorem isTerm_atom {k : Kind} {text : String} {e : Expr}
    (hk : Form.token k ∈ [.token .float, .token .int, .token .string, .token .yes, .token .no,
      .token .nil, .token .ident,
      Form.inOrder [.mark .leftParen, .rule .expr, .mark .rightParen]])
    (h : Tree.atom k text = .ok e) : e.IsTerm [⟨k, text⟩] := by
  refine ⟨[.node .value [.leaf k text]], ?_, List.cons_ne_nil _ _, ?_⟩
  · exact reads_term (by decide) (Reads.oneOf hk (Reads.token k text))
  · rw [Tree.term, Tree.lastOperand, Tree.value, h]
    rfl

/-- A literal is read back from its word. -/
theorem atom_word {spell : Float → String} (hspell : Decimal.Spells spell) {l : Literal}
    (h : l.Writable) : Tree.atom (l.word spell).kind (l.word spell).text = .ok (literal l) := by
  cases l with
  | int n =>
    have hn : Decimal.readWhole (toString n.toNat).toList = .ok n.toNat := by
      apply Decimal.readWhole_toString
      have hbound := of_decide_eq_true h.2
      have hpos : 0 ≤ n := h.1
      have hnat : n.natAbs = n.toNat := by omega
      rwa [hnat] at hbound
    rw [Literal.word, Tree.atom, hn]
    show Except.ok (literal (.int (n.toNat : Int))) = _
    rw [Int.toNat_of_nonneg h.1]
  | float x => rw [Literal.word, Tree.atom, (hspell x h).2]
  | str s =>
    rw [Literal.word, Tree.atom, String.toList_ofList, List.drop_one, List.tail_cons,
      List.dropLast_concat, String.ofList_toList]
  | bool b => cases b <;> rfl
  | unit => rfl

/-- A literal is a term. -/
theorem isTerm_literal {spell : Float → String} (hspell : Decimal.Spells spell)
    {l : Literal} (h : l.Writable) : (literal l).IsTerm [l.word spell] := by
  have hread := atom_word hspell h
  cases l with
  | bool b => cases b <;> exact isTerm_atom (by decide) hread
  | _ => exact isTerm_atom (by decide) hread

/-- An expression in parentheses has the form of a term. -/
theorem reads_parens {ws : List Word} {t : Tree} (h : Reads (.rule .expr) ws [t]) :
    Reads Rule.term.form (Word.parens ws) [.node .value [t]] := by
  refine reads_term (by decide) (Reads.oneOf ?_ (Reads.between h))
  decide

/-- An expression in parentheses is a term. -/
theorem isTerm_parens {e : Expr} {ws : List Word} (h : e.IsExpr ws) :
    e.IsTerm (Word.parens ws) := by
  obtain ⟨cs, hcs, he⟩ := h
  have hvalue : Tree.value [.node .expr cs] = .ok e := by
    rw [Tree.value, he]
    exact nofun
  refine ⟨[.node .value [.node .expr cs]], reads_parens (Reads.rule hcs), List.cons_ne_nil _ _, ?_⟩
  rw [Tree.term, Tree.lastOperand, hvalue]
  rfl

private theorem derives_term_cons {t : Token} {ts : List Token} {c : Tree} {cs : List Tree}
    (ht : Derives .prefixOperator [t] [c]) (h : Derives Rule.term.form ts cs) :
    Derives Rule.term.form (t :: ts) (c :: cs) := by
  cases h with
  | seq hmany hrest => exact .seq (.manyCons ht hmany) hrest

private theorem reads_prefixOperator {k : Kind} {op : UnaryOp} (h : UnaryOp.ofKind? k = some op) :
    Reads .prefixOperator [.ofKind k] [.leaf k (Word.ofKind k).text] := by
  refine Reads.oneOf ?_ (Reads.token _ _)
  cases k <;> cases h <;> decide

/-- A prefix operator before a term makes a term. -/
theorem isTerm_unary {k : Kind} {op : UnaryOp} (hk : UnaryOp.ofKind? k = some op) {e : Expr}
    {ws : List Word} (h : e.IsTerm ws) : (unary op e).IsTerm (.ofKind k :: ws) := by
  obtain ⟨cs, hcs, hne, he⟩ := h
  have hread : UnaryOp.read k = .ok op := by rw [UnaryOp.read, hk]
  refine ⟨.leaf k (Word.ofKind k).text :: cs, derives_term_cons (reads_prefixOperator hk) hcs,
    List.cons_ne_nil _ _, ?_⟩
  cases cs with
  | nil => exact (hne rfl).elim
  | cons c cs =>
    rw [Tree.term] at he
    rw [Tree.term, Tree.lastOperand, List.dropLast_cons_cons]
    cases hlast : Tree.lastOperand (c :: cs) with
    | error d =>
      rw [hlast] at he
      exact nomatch he
    | ok operand =>
      rw [hlast] at he
      have hprefixes : Tree.applyPrefixes operand (c :: cs).dropLast = .ok e := he
      show Tree.applyPrefixes operand (_ :: (c :: cs).dropLast) = _
      rw [Tree.applyPrefixes, hprefixes, hread]

private theorem isTerm_call (f : String) {args : List Expr} {ws : List Word} {cs : List Tree}
    (hcs : Reads (.opt (Form.commaSeparated (.rule .expr))) ws cs)
    (hargs : Tree.exprs cs = .ok args) : (call f args).IsTerm (⟨.ident, f⟩ :: Word.parens ws) := by
  refine ⟨[.node .call (.leaf .ident f :: cs)], ?_, List.cons_ne_nil _ _, ?_⟩
  · exact reads_term (by decide) (Reads.token_seq f (Reads.between hcs))
  · have hname : Tree.firstName (.leaf .ident f :: cs) = .ok f := rfl
    rw [Tree.term, Tree.lastOperand, hname, Tree.exprs, hargs]
    rfl

private theorem derives_expr_cons {ts us : List Token} {t : Token} {c d : Tree} {cs : List Tree}
    (hterm : Derives (.rule .term) ts [c]) (ht : Derives .infixOperator [t] [d])
    (h : Derives Rule.expr.form us cs) :
    Derives Rule.expr.form (ts ++ t :: us) (c :: d :: cs) := by
  cases h with
  | seq hfirst hmany => exact .seq hterm (.manyCons (.seq ht hfirst) hmany)

private theorem reads_infixOperator (op : Infix) :
    Reads .infixOperator [.ofKind op.kind] [.leaf op.kind (Word.ofKind op.kind).text] := by
  refine Reads.oneOf ?_ (Reads.token _ _)
  cases op with
  | binary op => cases op <;> decide
  | access | assign => decide

end Expr

namespace Tree

variable {ι : Type}

/-- The child of an `expr` node for an operand or an infix operator, where `operand` gives the trees
of operands. -/
def piece (operand : ι → Tree) : ι ⊕ Infix → Tree :=
  Sum.elim operand fun op => .leaf op.kind (Word.ofKind op.kind).text

private theorem operands_sequence {operand : ι → Tree} {e : ι → Expr} (pairs : List (ι × Infix))
    (last : ι) (h : ∀ i, .inl i ∈ Tiers.sequence pairs last → term (operand i) = .ok (e i)) :
    ∃ s, operands ((Tiers.sequence pairs last).map (piece operand)) = .ok s ∧
      Infix.tiers.steps Infix.kind (some (e last)) (pairs.map fun p => (e p.1, p.2)) = .ok s := by
  induction pairs with
  | nil =>
    refine ⟨(e last, []), ?_, rfl⟩
    show operands [operand last] = _
    rw [operands, h last List.mem_cons_self]
    rfl
  | cons p pairs ih =>
    obtain ⟨i, op⟩ := p
    obtain ⟨s, hs, hsteps⟩ := ih fun j hj =>
      h j (List.mem_cons_of_mem _ (List.mem_cons_of_mem _ hj))
    refine ⟨(e i, ⟨op.rank, op, s.1⟩ :: s.2), ?_, ?_⟩
    · show operands (operand i :: .leaf op.kind _ ::
        (Tiers.sequence pairs last).map (piece operand)) = _
      rw [operands, h i List.mem_cons_self, op.rank?_kind, op.ofKind?_kind, hs]
      rfl
    · rw [List.map_cons, Tiers.steps, op.rank?_kind, hsteps]

/-- An `expr` node whose children read as an operator tree that respects the ranks has the value of
that tree. -/
theorem expr_reading {t : OpTree ι Infix} (ht : t.WellGrouped Expr.rankOf) {operand : ι → Tree}
    {e : ι → Expr} (h : ∀ i, .inl i ∈ t.reading → term (operand i) = .ok (e i)) :
    expr (.node .expr (t.reading.map (piece operand))) = .ok (t.fold e Expr.infixed) := by
  obtain ⟨pairs, last, hread⟩ := Tiers.exists_sequence t
  have hgroup := Tiers.group_eq_fold Infix.uniform_tiers ht hread e Expr.infixed
  rw [hread] at h ⊢
  obtain ⟨⟨first, steps⟩, hoperands, hsteps⟩ := operands_sequence pairs last h
  rw [Tiers.group, hsteps] at hgroup
  rw [expr, hoperands]
  exact congrArg Except.ok (Except.ok.inj hgroup)

end Tree

namespace Expr

/-- Terms with infix operators between them are an expression. -/
theorem reads_sequence {ι : Type} {operand : ι → Tree} {words : ι → List Word}
    (pairs : List (ι × Infix)) (last : ι)
    (h : ∀ i, .inl i ∈ Tiers.sequence pairs last → Reads (.rule .term) (words i) [operand i]) :
    Reads Rule.expr.form
      ((Tiers.sequence pairs last).flatMap (Sum.elim words fun op => [.ofKind op.kind]))
      ((Tiers.sequence pairs last).map (Tree.piece operand)) := by
  induction pairs with
  | nil =>
    have hnone : Reads (.many (.seq .infixOperator (.rule .term))) [] [] := Derives.manyNil
    exact (h last List.mem_cons_self).seq hnone
  | cons p pairs ih =>
    obtain ⟨i, op⟩ := p
    have hrest := ih fun j hj => h j (List.mem_cons_of_mem _ (List.mem_cons_of_mem _ hj))
    have hwords :
        ((Tiers.sequence ((i, op) :: pairs) last).flatMap
          (Sum.elim words fun op => [.ofKind op.kind])).map Word.token =
          (words i).map Word.token ++ (Word.ofKind op.kind).token ::
          ((Tiers.sequence pairs last).flatMap
            (Sum.elim words fun op => [.ofKind op.kind])).map Word.token := by
      simp [Tiers.sequence]
    rw [Reads, hwords]
    exact derives_expr_cons (h i List.mem_cons_self) (reads_infixOperator op) hrest

/-- The words that an operator tree reads as are an expression, which is the value of the tree, if
the tree respects the ranks and its operands are terms. -/
theorem isExpr_of_tree {ι : Type} {t : OpTree ι Infix} (ht : t.WellGrouped rankOf) {e : ι → Expr}
    {words : ι → List Word} (h : ∀ i, .inl i ∈ t.reading → (e i).IsTerm (words i)) :
    (t.fold e infixed).IsExpr
      (t.reading.flatMap (Sum.elim words fun op => [.ofKind op.kind])) := by
  have htrees : ∀ i, .inl i ∈ t.reading → ∃ operand,
      Reads (.rule .term) (words i) [operand] ∧ Tree.term operand = .ok (e i) := by
    intro i hi
    obtain ⟨cs, hcs, -, he⟩ := h i hi
    exact ⟨_, Reads.rule hcs, he⟩
  choose! operand hreads hterm using htrees
  refine ⟨t.reading.map (Tree.piece operand), ?_, Tree.expr_reading ht hterm⟩
  obtain ⟨pairs, last, hread⟩ := Tiers.exists_sequence t
  rw [hread] at hreads ⊢
  exact reads_sequence pairs last hreads

private theorem isExpr_words {spell : Float → String} {e : Expr}
    (h : ∀ a, .inl a ∈ e.spine.reading → a.IsTerm (a.operandWords spell)) :
    e.IsExpr (e.words spell) := by
  have hpiece : piece spell = Sum.elim (operandWords spell) fun op => [.ofKind op.kind] := by
    funext x
    cases x <;> rfl
  have hwords := isExpr_of_tree (e := id) e.wellGrouped_spine h
  rwa [e.fold_spine, ← hpiece, ← e.words_eq_spine] at hwords

/-! ### Expressions -/

/-- The operands of the spine are terms. -/
def HasTerms (spell : Float → String) (e : Expr) : Prop :=
  ∀ a, .inl a ∈ e.spine.reading → a.IsTerm (a.operandWords spell)

section HasTerms

variable {spell : Float → String}

private theorem HasTerms.isTerm {e : Expr} (h : e.HasTerms spell) :
    e.IsTerm (e.operandWords spell) := by
  cases he : e.infix? with
  | none =>
    apply h
    rw [spine_eq_leaf he]
    exact List.mem_cons_self
  | some op =>
    have hwords : e.operandWords spell = Word.parens (e.words spell) := by
      rw [operandWords, enclose, isBare, he]
      rfl
    rw [hwords]
    exact isTerm_parens (isExpr_words h)

private theorem hasTerms_of_isTerm {e : Expr} (he : e.infix? = none)
    (h : e.IsTerm (e.words spell)) : e.HasTerms spell := by
  intro a ha
  rw [spine_eq_leaf he, OpTree.reading, List.mem_singleton] at ha
  obtain rfl := Sum.inl.inj ha
  rwa [operandWords, enclose, isBare, he]

private theorem hasTerms_infix {op : Infix} {e a b : Expr} (ha : a.HasTerms spell)
    (hb : b.HasTerms spell) (he : e.spine = infixSpine op a a.spine b b.spine) :
    e.HasTerms spell := by
  have hside {fits : Rank → Bool} {c d : Expr} (hc : c.HasTerms spell)
      (hd : .inl d ∈ (c.spineIn fits c.spine).reading) : d.IsTerm (d.operandWords spell) := by
    rw [spineIn] at hd
    split at hd
    · exact hc d hd
    · rw [OpTree.reading, List.mem_singleton] at hd
      obtain rfl := Sum.inl.inj hd
      exact hc.isTerm
  intro d hd
  rw [he, infixSpine, OpTree.reading, List.mem_append, List.mem_cons] at hd
  rcases hd with hd | hd | hd
  · exact hside ha hd
  · cases hd
  · exact hside hb hd

mutual

private theorem hasTerms (hspell : Decimal.Spells spell) :
    (e : Expr) → e.Writable → e.HasTerms spell
  | literal l, h => hasTerms_of_isTerm rfl (isTerm_literal hspell h)
  | name x, h => hasTerms_of_isTerm rfl (isTerm_atom (by decide) rfl)
  | unary op e, h =>
    hasTerms_of_isTerm rfl (isTerm_unary op.ofKind?_kind (hasTerms hspell e h).isTerm)
  | binary op a b, h => hasTerms_infix (hasTerms hspell a h.1) (hasTerms hspell b h.2) rfl
  | access a b, h => hasTerms_infix (hasTerms hspell a h.1) (hasTerms hspell b h.2) rfl
  | assign a b, h => hasTerms_infix (hasTerms hspell a h.1) (hasTerms hspell b h.2) rfl
  | call f args, h => by
    obtain ⟨cs, hcs, hargs⟩ := reads_listWords hspell args h.2
    exact hasTerms_of_isTerm rfl (isTerm_call f hcs hargs)
  | hole, h => h.elim
termination_by structural e => e

private theorem reads_listWords (hspell : Decimal.Spells spell) :
    (es : List Expr) → AllWritable es →
      ∃ cs, Reads (.opt (Form.commaSeparated (.rule .expr))) (listWords spell es) cs ∧
        Tree.exprs cs = .ok es
  | [], _ => ⟨[], Derives.optNone, rfl⟩
  | e :: es, h => by
    obtain ⟨cs, hcs, he⟩ := isExpr_words (hasTerms hspell e h.1)
    obtain ⟨ds, hds, hes⟩ := reads_moreWords hspell es h.2
    refine ⟨.node .expr cs :: ds, Derives.optSome ((Reads.rule hcs).seq hds), ?_⟩
    rw [Tree.exprs, he, hes]
    · rfl
    · exact nofun
termination_by structural es => es

private theorem reads_moreWords (hspell : Decimal.Spells spell) :
    (es : List Expr) → AllWritable es →
      ∃ cs, Reads (.many (.seq (.mark .comma) (.rule .expr))) (moreWords spell es) cs ∧
        Tree.exprs cs = .ok es
  | [], _ => ⟨[], Derives.manyNil, rfl⟩
  | e :: es, h => by
    obtain ⟨cs, hcs, he⟩ := isExpr_words (hasTerms hspell e h.1)
    obtain ⟨ds, hds, hes⟩ := reads_moreWords hspell es h.2
    refine ⟨.node .expr cs :: ds, (Reads.mark_seq (Reads.rule hcs)).manyCons hds, ?_⟩
    rw [Tree.exprs, he, hes]
    · rfl
    · exact nofun
termination_by structural es => es

end

/-- An expression that can be written is read from its words. -/
theorem isExpr_of_writable (hspell : Decimal.Spells spell) {e : Expr} (h : e.Writable) :
    e.IsExpr (e.words spell) := isExpr_words (hasTerms hspell e h)

end HasTerms

end Expr

/-! ### Statements -/

namespace Stmt

/-- The words are a declaration, and its tree has the statement. -/
def IsDecl (s : Stmt) (ws : List Word) : Prop :=
  ∃ cs, Reads Rule.declaration.form ws cs ∧ Tree.decl (.node .declaration cs) = .ok s

/-- The words are declarations, and their trees have the statements. -/
def AreDecls (ss : List Stmt) (ws : List Word) : Prop :=
  ∃ cs, Reads (.many (.rule .declaration)) ws cs ∧ Tree.stmts cs = .ok ss

/-- No words are no declarations. -/
theorem areDecls_nil : AreDecls [] [] := ⟨[], Derives.manyNil, rfl⟩

/-- A declaration is put in front of others. -/
theorem IsDecl.cons {s : Stmt} {ss : List Stmt} {ws vs : List Word} (h : s.IsDecl ws)
    (hss : AreDecls ss vs) : AreDecls (s :: ss) (ws ++ vs) := by
  obtain ⟨cs, hcs, hs⟩ := h
  obtain ⟨ds, hds, hss⟩ := hss
  refine ⟨.node .declaration cs :: ds, (Reads.rule hcs).manyCons hds, ?_⟩
  rw [Tree.stmts, hs, hss]
  · rfl
  · exact nofun

private theorem isDecl_stmt (r : Rule) {s : Stmt} {ws : List Word} {cs : List Tree}
    (hr : Form.rule r ∈ [.rule .exprStmt, .rule .printStmt, .rule .varDecl, .rule .forStmt,
      .rule .ifStmt, .rule .returnStmt, .rule .whileStmt, .rule .block])
    (h : Reads r.form ws cs) (hs : Tree.stmt (.node r cs) = .ok s) : s.IsDecl ws := by
  have hstmt : Reads (.rule .statement) ws [.node .statement [.node r cs]] :=
    Reads.rule (Reads.oneOf hr (Reads.rule h))
  refine ⟨[.node .statement [.node r cs]], Reads.oneOf ?_ hstmt, ?_⟩
  · decide
  · rw [Tree.decl, hs]

private theorem reads_braces {ws : List Word} {cs : List Tree}
    (h : Reads (.many (.rule .declaration)) ws cs) :
    Reads (.rule .block) (braces ws) [.node .block cs] := Reads.rule (Reads.between h)

section Cases

variable {e : Expr} {ws : List Word}

private theorem isDecl_expr (h : e.IsExpr ws) :
    (expr e).IsDecl (ws ++ [.ofKind .semicolon]) := by
  obtain ⟨cs, hcs, he⟩ := h
  refine isDecl_stmt .exprStmt (by decide) ((Reads.rule hcs).seq (Reads.mark _)) ?_
  show expr <$> Tree.expr (.node .expr cs) = _
  rw [he]
  rfl

theorem isDecl_print (h : e.IsExpr ws) :
    (print e).IsDecl (.ofKind .printWord :: ws ++ [.ofKind .semicolon]) := by
  obtain ⟨cs, hcs, he⟩ := h
  refine isDecl_stmt .printStmt (by decide) (Reads.between (Reads.rule hcs)) ?_
  show print <$> Tree.expr (.node .expr cs) = _
  rw [he]
  rfl

private theorem isDecl_block {body : List Stmt} (h : AreDecls body ws) :
    (block body).IsDecl (braces ws) := by
  obtain ⟨cs, hcs, hbody⟩ := h
  refine isDecl_stmt .block (by decide) (Reads.between hcs) ?_
  rw [Tree.stmt, hbody]
  rfl

private theorem isDecl_var (x : String) :
    (var x none).IsDecl [.ofKind .varWord, ⟨.ident, x⟩, .ofKind .semicolon] := by
  have hnone : Reads (.opt (Form.inOrder [.mark .assign, .rule .expr])) [] [] := Derives.optNone
  exact isDecl_stmt .varDecl (by decide)
    (Reads.mark_seq (Reads.token_seq x (hnone.seq (Reads.mark .semicolon)))) rfl

private theorem isDecl_var_some (x : String) (h : e.IsExpr ws) :
    (var x (some e)).IsDecl (.ofKind .varWord :: ⟨.ident, x⟩ :: .ofKind .assign :: ws ++
      [.ofKind .semicolon]) := by
  obtain ⟨cs, hcs, he⟩ := h
  have hinit : Reads (.opt (Form.inOrder [.mark .assign, .rule .expr])) (.ofKind .assign :: ws)
      [.node .expr cs] := Derives.optSome (Reads.mark_seq (Reads.rule hcs))
  refine isDecl_stmt .varDecl (by decide)
    (Reads.mark_seq (Reads.token_seq x (hinit.seq (Reads.mark .semicolon)))) ?_
  show (do let init ← some <$> Tree.expr (.node .expr cs); pure (var x init)) = _
  rw [he]
  rfl

private theorem isDecl_ret :
    (ret none).IsDecl [.ofKind .returnWord, .ofKind .semicolon] := by
  have hnone : Reads (.opt (.rule .expr)) [] [] := Derives.optNone
  exact isDecl_stmt .returnStmt (by decide) (Reads.mark_seq (hnone.seq (Reads.mark .semicolon))) rfl

private theorem isDecl_ret_some (h : e.IsExpr ws) :
    (ret (some e)).IsDecl (.ofKind .returnWord :: ws ++ [.ofKind .semicolon]) := by
  obtain ⟨cs, hcs, he⟩ := h
  have hvalue : Reads (.opt (.rule .expr)) ws [.node .expr cs] := Derives.optSome (Reads.rule hcs)
  refine isDecl_stmt .returnStmt (by decide)
    (Reads.mark_seq (hvalue.seq (Reads.mark .semicolon))) ?_
  show ret <$> (some <$> Tree.expr (.node .expr cs)) = _
  rw [he]
  rfl

private theorem isDecl_loop {body : List Stmt} {vs : List Word} (h : e.IsExpr ws)
    (hbody : AreDecls body vs) :
    (loop e body).IsDecl (.ofKind .whileWord :: Word.parens ws ++ braces vs) := by
  obtain ⟨cs, hcs, he⟩ := h
  obtain ⟨ds, hds, hbody⟩ := hbody
  refine isDecl_stmt .whileStmt (by decide)
    (Reads.mark_seq ((Reads.rule hcs).parens_seq (reads_braces hds))) ?_
  show (do let cond ← Tree.expr (.node .expr cs); let ss ← Tree.stmts ds; pure (loop cond ss)) = _
  rw [he, hbody]
  rfl

private theorem isDecl_branch {yes : List Stmt} {vs : List Word} (h : e.IsExpr ws)
    (hyes : AreDecls yes vs) :
    (branch e yes []).IsDecl (.ofKind .ifWord :: Word.parens ws ++ braces vs ++ []) := by
  obtain ⟨cs, hcs, he⟩ := h
  obtain ⟨ds, hds, hyes⟩ := hyes
  have hnone : Reads (.opt (Form.inOrder [.mark .elseWord, .rule .block])) [] [] :=
    Derives.optNone
  rw [List.append_assoc]
  refine isDecl_stmt .ifStmt (by decide)
    (Reads.mark_seq ((Reads.rule hcs).parens_seq ((reads_braces hds).seq hnone))) ?_
  show (do
    let cond ← Tree.expr (.node .expr cs)
    let ss ← Tree.stmts ds
    pure (branch cond ss [])) = _
  rw [he, hyes]
  rfl

private theorem isDecl_branch_else {yes no : List Stmt} {vs us : List Word} (h : e.IsExpr ws)
    (hyes : AreDecls yes vs) (hno : AreDecls no us) :
    (branch e yes no).IsDecl
      (.ofKind .ifWord :: Word.parens ws ++ braces vs ++ .ofKind .elseWord :: braces us) := by
  obtain ⟨cs, hcs, he⟩ := h
  obtain ⟨ds, hds, hyes⟩ := hyes
  obtain ⟨fs, hfs, hno⟩ := hno
  have helse : Reads (.opt (Form.inOrder [.mark .elseWord, .rule .block]))
      (.ofKind .elseWord :: braces us) [.node .block fs] :=
    Derives.optSome (Reads.mark_seq (reads_braces hfs))
  rw [List.append_assoc]
  refine isDecl_stmt .ifStmt (by decide)
    (Reads.mark_seq ((Reads.rule hcs).parens_seq ((reads_braces hds).seq helse))) ?_
  show (do
    let otherwise ← Tree.stmts fs
    let cond ← Tree.expr (.node .expr cs)
    let ss ← Tree.stmts ds
    pure (branch cond ss otherwise)) = _
  rw [he, hyes, hno]
  rfl

private theorem reads_names (xs : List String) :
    Reads (.many (.seq (.mark .comma) (.token .ident)))
      (xs.flatMap fun y => [.ofKind .comma, ⟨.ident, y⟩]) (xs.map (Tree.leaf .ident)) := by
  induction xs with
  | nil => exact Derives.manyNil
  | cons x xs ih => exact (Reads.mark_seq (Reads.token .ident x)).manyCons ih

private theorem texts_names (xs : List String) :
    Tree.texts .ident (xs.map (Tree.leaf .ident)) = xs := by
  induction xs with
  | nil => rfl
  | cons x xs ih => exact congrArg (x :: ·) ih

private theorem isDecl_func (name : String) (params : List String) {body : List Stmt}
    (h : AreDecls body ws) :
    (func name params body).IsDecl (.ofKind .funWord :: ⟨.ident, name⟩ ::
      Word.parens (nameWords params) ++ braces ws) := by
  obtain ⟨ds, hds, hbody⟩ := h
  have hparams : ∃ cs, Reads (.opt (.rule .parameters)) (nameWords params) cs ∧
      Tree.params (.leaf .ident name :: (cs ++ [.node .block ds])) = params ∧
      Tree.lastBlock (.leaf .ident name :: (cs ++ [.node .block ds])) = .ok body := by
    cases params with
    | nil => exact ⟨[], Derives.optNone, rfl, hbody⟩
    | cons x xs =>
      refine ⟨[.node .parameters (.leaf .ident x :: xs.map (Tree.leaf .ident))], ?_, ?_, hbody⟩
      · exact Derives.optSome (Reads.rule (Reads.token_seq x (reads_names xs)))
      · exact congrArg (x :: ·) (texts_names xs)
  obtain ⟨cs, hcs, hnames, hlast⟩ := hparams
  have hfun : Reads (.rule .funDecl) (.ofKind .funWord :: ⟨.ident, name⟩ ::
      (Word.parens (nameWords params) ++ braces ws))
      [.node .funDecl (.leaf .ident name :: (cs ++ [.node .block ds]))] :=
    Reads.rule (Reads.mark_seq (Reads.token_seq name (hcs.parens_seq (reads_braces hds))))
  refine ⟨_, Reads.oneOf ?_ hfun, ?_⟩
  · decide
  · rw [Tree.decl, hlast, hnames]
    rfl

end Cases

section Statements

variable {spell : Float → String}

mutual

/-- A statement that can be written is read from its words. -/
theorem isDecl_of_writable (hspell : Decimal.Spells spell) :
    (s : Stmt) → s.Writable → s.IsDecl (s.words spell)
  | expr e, h => isDecl_expr (Expr.isExpr_of_writable hspell h)
  | print e, h => isDecl_print (Expr.isExpr_of_writable hspell h)
  | block body, h => isDecl_block (areDecls_of_writable hspell body h)
  | var x none, _ => isDecl_var x
  | var x (some e), h => isDecl_var_some x (Expr.isExpr_of_writable hspell h.2)
  | branch cond yes no, h => by
    have hcond := Expr.isExpr_of_writable hspell h.1
    have hyes := areDecls_of_writable hspell yes h.2.1
    cases no with
    | nil => exact isDecl_branch hcond hyes
    | cons s ss =>
      exact isDecl_branch_else hcond hyes (areDecls_of_writable hspell (s :: ss) h.2.2)
  | loop cond body, h =>
    isDecl_loop (Expr.isExpr_of_writable hspell h.1) (areDecls_of_writable hspell body h.2)
  | func name params body, h => isDecl_func name params (areDecls_of_writable hspell body h.2.2)
  | builtin _ _, h => h.elim
  | ret none, _ => isDecl_ret
  | ret (some e), h => isDecl_ret_some (Expr.isExpr_of_writable hspell h)
termination_by structural s => s

/-- Statements that can be written are read from their words. -/
theorem areDecls_of_writable (hspell : Decimal.Spells spell) :
    (ss : List Stmt) → AllWritable ss → AreDecls ss (listWords spell ss)
  | [], _ => areDecls_nil
  | s :: ss, h => (isDecl_of_writable hspell s h.1).cons (areDecls_of_writable hspell ss h.2)
termination_by structural ss => ss

end

end Statements

end Stmt

/-! ### Programs -/

/-- A source text that scans to words that are declarations is the program of these. -/
theorem Source.program_of_words {p : Program} {ws : List Word} (h : Stmt.AreDecls p ws)
    {source : String} {ts : List Token} (hscan : Scanned.ofString source = ⟨ts, none⟩)
    (hts : ts.map Token.word = ws) : Source.program source = .ok p := by
  obtain ⟨cs, hcs, hp⟩ := h
  have hwords : ts.map Token.word = (ws.map Word.token).map Token.word := by
    rw [hts, List.map_map]
    exact (List.map_id _).symm
  have hprogram : Reads (.rule .program) ws [.node .program cs] := Reads.rule hcs
  have hderives : Derives (.rule .program) ts [.node .program cs] := hprogram.of_words hwords
  have htree : Tree.ofSource source = .ok (.node .program cs) := by
    rw [Tree.ofSource, hscan]
    simp only [Tree.ofTokens_of_derives hderives]
  have hbuilt : Tree.toProgram (.node .program cs) = .ok p := hp
  rw [Source.program, htree]
  simp only [hbuilt]

/-- A source text that scans to the words of a program that can be written is that program. -/
theorem Source.program_of_scan {spell : Float → String} (hspell : Decimal.Spells spell)
    {p : Program} (h : p.Writable) {source : String} {ts : List Token}
    (hscan : Scanned.ofString source = ⟨ts, none⟩)
    (hts : ts.map Token.word = Stmt.listWords spell p) : Source.program source = .ok p :=
  program_of_words (Stmt.areDecls_of_writable hspell p h) hscan hts

/-- Building undoes unparsing: however floats are spelled, the source text of a program that can be
written, with parentheses only where the ranks of the operators ask for them, is that program. -/
theorem Program.program_unparse {spell : Float → String} (hspell : Decimal.Spells spell)
    {p : Program} (h : p.Writable) : Source.program (p.unparse spell) = .ok p := by
  obtain ⟨ts, hscan, hts⟩ := Program.scan_unparse hspell h
  exact Source.program_of_scan hspell h hscan hts

/-- A program with nested operators, optional parts and literals of every kind. -/
def Program.sample : Program :=
  [.func "fold" ["a", "b"]
    [.ret (some (.binary .minus (.name "a")
      (.binary .minus (.unary .minus (.binary .times (.name "b") (.literal (.int 2))))
        (.access (.name "a") (.access (.name "b") (.name "c"))))))],
   .var "x" (some (.call "fold" [.literal (.int 0), .literal (.float (Decimal.toDouble 15 (-1)))])),
   .branch (.binary .or (.binary .and (.name "x") (.literal (.bool true))) (.literal .unit))
    [.loop (.literal (.bool false)) [.print (.literal (.str "say"))]]
    [.expr (.assign (.assign (.name "x") (.name "y")) (.unary .not (.name "z"))), .ret none],
   .branch (.name "x") [.block []] []]

/-- The sample can be written, and is read back. -/
theorem Program.program_unparse_sample :
    Decimal.Spells Decimal.someText ∧ Program.sample.Writable ∧
      Source.program (Program.sample.unparse Decimal.someText) = .ok Program.sample := by
  have hread : Decimal.IsRead (Decimal.toDouble 15 (-1)) :=
    ⟨"1.5", ⟨['1'], ['5'], rfl, nofun, List.forall_mem_singleton.2 rfl,
      nofun, List.forall_mem_singleton.2 rfl⟩, rfl⟩
  have hzero : Decimal.isWritable 0 = true := by decide +kernel
  have htwo : Decimal.isWritable 2 = true := by decide +kernel
  have hnames : ∀ x ∈ ["fold", "a", "b", "c", "x", "y", "z"], Scan.isName x = true := by
    decide +kernel
  have hwritable : Program.sample.Writable := by
    simp only [List.forall_mem_cons] at hnames
    simp [Program.Writable, Program.sample, Stmt.AllWritable, Stmt.Writable, Expr.Writable,
      Expr.AllWritable, Literal.Writable, hread, hzero, htwo, hnames]
  exact ⟨Decimal.spells_someText, hwritable,
    Program.program_unparse Decimal.spells_someText hwritable⟩

end Lox
