import Lox.Proofs.Joining

/-!
# Integer arithmetic

Expressions over integer literals: their value in the integers, the division that spoils it if there
is one, and their text, with parentheses only where precedence and the grouping to the left ask for
them. Printing such an expression prints its value. The argument meets in the middle: evaluation
follows the value, and the text is read back as the expression.
-/

namespace Lox

/-- The operators of arithmetic that stand between two integers. -/
inductive ArithOp where
  | plus | minus | times | divide
  deriving DecidableEq, Repr

/-- Expressions over integer literals. -/
inductive Arith where
  | num (n : Nat)
  | unary (op : UnaryOp) (e : Arith)
  | binary (op : ArithOp) (a b : Arith)
  deriving DecidableEq, Repr

/-! ### Values in the integers -/

/-- The quotient of `m` and `n`, truncated toward zero: what remains is smaller than the divisor,
and is zero or has the sign of the dividend. There is none if the divisor is zero. -/
def TruncatedQuotient (m n q : Int) : Prop :=
  ∃ r, m = q * n + r ∧ r.natAbs < n.natAbs ∧ (r = 0 ∨ r.sign = m.sign)

/-- What an operator makes of two integers. -/
def ArithOp.Yields : ArithOp → Int → Int → Int → Prop
  | plus, m, n, k => k = m + n
  | minus, m, n, k => k = m - n
  | times, m, n, k => k = m * n
  | divide, m, n, k => TruncatedQuotient m n k

namespace Arith

/-- The value of an expression. There is none if it divides by zero somewhere. -/
def Yields : Arith → Int → Prop
  | num n, k => k = n
  | unary .minus e, k => ∃ m, e.Yields m ∧ k = -m
  | unary .not e, k => ∃ m, e.Yields m ∧ k = -m - 1
  | binary op a b, k => ∃ m n, a.Yields m ∧ b.Yields n ∧ op.Yields m n k

/-- The divisions of an expression as dividend and divisor, from left to right, those of the
operands first. -/
def divisions : Arith → List (Arith × Arith)
  | num _ => []
  | unary _ e => e.divisions
  | binary op a b => a.divisions ++ (b.divisions ++ if op = .divide then [(a, b)] else [])

/-- The first of some divisions whose divisor is zero has the dividend `d`. -/
def FirstFailing (ds : List (Arith × Arith)) (d : Int) : Prop :=
  ∃ before p after, ds = before ++ p :: after ∧ (∀ q ∈ before, ¬q.2.Yields 0) ∧
    p.2.Yields 0 ∧ p.1.Yields d

end Arith

/-- Truncated division computes the truncated quotient. -/
theorem truncatedQuotient_iff {m n q : Int} :
    TruncatedQuotient m n q ↔ n ≠ 0 ∧ q = m.tdiv n := by
  constructor
  · rintro ⟨r, hm, hr, hsign⟩
    have hn : n ≠ 0 := by omega
    have hrn : r + n * q = m := by rw [hm, Int.mul_comm, Int.add_comm]
    refine ⟨hn, Eq.symm ?_⟩
    rcases Int.le_total 0 m with hpos | hneg
    · have hle : 0 ≤ r := by
        rcases hsign with rfl | hsign
        · exact Int.le_refl 0
        · rwa [← Int.sign_nonneg_iff, hsign, Int.sign_nonneg_iff]
      exact ((Int.tdiv_tmod_unique hpos hn).2 ⟨hrn, hle, by omega⟩).1
    · have hle : r ≤ 0 := by
        rcases hsign with rfl | hsign
        · exact Int.le_refl 0
        · rwa [← Int.sign_nonpos_iff, hsign, Int.sign_nonpos_iff]
      exact ((Int.tdiv_tmod_unique' hneg hn).2 ⟨hrn, by omega, hle⟩).1
  · rintro ⟨hn, rfl⟩
    refine ⟨m.tmod n, (Int.tdiv_mul_add_tmod m n).symm, ?_, ?_⟩
    · rw [Int.natAbs_tmod]
      exact Nat.mod_lt _ (by omega)
    · rw [Int.sign_tmod]
      split
      · next hdvd => exact .inl (Int.tmod_eq_zero_of_dvd hdvd)
      · exact .inr rfl

/-- Dividing minus seven by two leaves minus one. -/
example : TruncatedQuotient (-7) 2 (-3) := ⟨-1, by decide⟩

namespace ArithOp

/-- The operator as it stands in programs. -/
def op : ArithOp → BinaryOp
  | plus => .plus | minus => .minus | times => .times | divide => .divide

variable {o : ArithOp} {m n k : Int}

/-- An operator yields one integer at most. -/
theorem Yields.unique {k' : Int} (h : o.Yields m n k) (h' : o.Yields m n k') : k = k' := by
  cases o with
  | plus | minus | times => exact h.trans h'.symm
  | divide => exact (truncatedQuotient_iff.1 h).2.trans (truncatedQuotient_iff.1 h').2.symm

/-- Where an operator yields an integer, the operation on values has that result. -/
theorem Yields.binary_eq (h : o.Yields m n k) :
    Value.binary o.op (.int m) (.int n) = .ok (.int k) := by
  cases o with
  | plus | minus | times =>
    cases h
    rfl
  | divide =>
    obtain ⟨hn, rfl⟩ := truncatedQuotient_iff.1 h
    simp [Value.binary, op, Value.binaryInt?, Value.divideInt, hn, Except.map]

/-- An operator yields an integer, unless it divides by zero. -/
theorem exists_yields_or (o : ArithOp) (m n : Int) :
    (∃ k, o.Yields m n k) ∨ o = divide ∧ n = 0 := by
  cases o with
  | plus | minus | times => exact .inl ⟨_, rfl⟩
  | divide =>
    by_cases hn : n = 0
    · exact .inr ⟨rfl, hn⟩
    · exact .inl ⟨_, truncatedQuotient_iff.2 ⟨hn, rfl⟩⟩

end ArithOp

namespace Arith

/-- An expression has one value at most. -/
theorem Yields.unique {e : Arith} {n n' : Int} (h : e.Yields n) (h' : e.Yields n') : n = n' := by
  induction e generalizing n n' with
  | num k => exact Eq.trans h (Eq.symm h')
  | unary op e ih =>
    cases op <;>
    · obtain ⟨m, hm, rfl⟩ := h
      obtain ⟨m', hm', rfl⟩ := h'
      rw [ih hm hm']
  | binary op a b iha ihb =>
    obtain ⟨k, l, ha, hb, hn⟩ := h
    obtain ⟨k', l', ha', hb', hn'⟩ := h'
    cases iha ha ha'
    cases ihb hb hb'
    exact hn.unique hn'

/-- Where an expression has a value, no divisor is zero. -/
theorem Yields.divisor_ne_zero {e : Arith} {n : Int} (h : e.Yields n) :
    ∀ p ∈ e.divisions, ¬p.2.Yields 0 := by
  induction e generalizing n with
  | num k => simp [divisions]
  | unary op e ih =>
    cases op <;>
    · obtain ⟨m, hm, -⟩ := h
      exact ih hm
  | binary op a b iha ihb =>
    obtain ⟨k, l, ha, hb, hn⟩ := h
    intro p hp hzero
    simp only [divisions, List.mem_append] at hp
    rcases hp with hp | hp | hp
    · exact iha ha p hp hzero
    · exact ihb hb p hp hzero
    · split at hp
      · next hop =>
        subst hop
        obtain rfl := List.mem_singleton.1 hp
        exact (truncatedQuotient_iff.1 hn).1 (hb.unique hzero)
      · cases hp

section FirstFailing

variable {ds es : List (Arith × Arith)} {d d' : Int}

/-- What comes after the first failing division does not count. -/
theorem FirstFailing.append (h : FirstFailing ds d) (es : List (Arith × Arith)) :
    FirstFailing (ds ++ es) d := by
  obtain ⟨before, p, after, rfl, hbefore, hp⟩ := h
  exact ⟨before, p, after ++ es, by simp, hbefore, hp⟩

/-- Neither do divisions before it that do not fail. -/
theorem FirstFailing.after (h : FirstFailing es d) (hds : ∀ q ∈ ds, ¬q.2.Yields 0) :
    FirstFailing (ds ++ es) d := by
  obtain ⟨before, p, after, rfl, hbefore, hp⟩ := h
  refine ⟨ds ++ before, p, after, by simp, fun q hq => ?_, hp⟩
  rcases List.mem_append.1 hq with hq | hq
  · exact hds q hq
  · exact hbefore q hq

/-- A failing division has a divisor that is zero. -/
theorem FirstFailing.exists_zero (h : FirstFailing ds d) : ∃ p ∈ ds, p.2.Yields 0 := by
  obtain ⟨before, p, after, rfl, -, hp, -⟩ := h
  exact ⟨p, by simp, hp⟩

/-- There is one first failing division at most. -/
theorem FirstFailing.unique (h : FirstFailing ds d) (h' : FirstFailing ds d') : d = d' := by
  obtain ⟨before, p, after, rfl, hbefore, hp, hd⟩ := h
  obtain ⟨before', p', after', hds, hbefore', hp', hd'⟩ := h'
  rcases List.append_eq_append_iff.1 hds with ⟨more, rfl, hrest⟩ | ⟨more, rfl, hrest⟩
  · cases more with
    | nil =>
      cases hrest
      exact hd.unique hd'
    | cons q more =>
      cases hrest
      exact (hbefore' p (by simp) hp).elim
  · cases more with
    | nil =>
      cases hrest
      exact hd.unique hd'
    | cons q more =>
      cases hrest
      exact (hbefore p' (by simp) hp').elim

end FirstFailing

/-! ### Evaluation -/

/-- The expression as it stands in programs. -/
def expr : Arith → Expr
  | num n => .literal (.int n)
  | unary op e => .unary op e.expr
  | binary op a b => .binary op.op a.expr b.expr

private theorem eval_binary (ctx : Context) (o : ArithOp) (a b : Expr) :
    (Expr.binary o.op a b).eval ctx = (do
      let lhs ← a.eval ctx
      let rhs ← b.eval ctx
      Eval.lift (Value.binary o.op lhs rhs)) := by
  cases o <;> rfl

/-- An expression has a value, and evaluates to it, or it has a first division by zero, and stops
there. Evaluation changes nothing. -/
theorem eval_cases (e : Arith) :
    (∃ n, e.Yields n ∧ ∀ ctx w, e.expr.eval ctx w = .ok (.int n) w) ∨
    ∃ d, FirstFailing e.divisions d ∧
      ∀ ctx w, e.expr.eval ctx w = Eval.raise (.divisionByZero (.int d)) w := by
  induction e with
  | num n => exact .inl ⟨n, rfl, fun _ _ => rfl⟩
  | unary op e ih =>
    have heval (ctx : Context) : (unary op e).expr.eval ctx = (do
        let v ← e.expr.eval ctx
        Eval.lift (v.unary op)) := rfl
    simp only [heval, bind, EStateM.bind]
    rcases ih with ⟨n, hn, he⟩ | ⟨d, hd, he⟩
    · simp only [he]
      cases op with
      | minus => exact .inl ⟨-n, ⟨n, hn, rfl⟩, fun _ _ => rfl⟩
      | not => exact .inl ⟨-n - 1, ⟨n, hn, rfl⟩, fun _ _ => rfl⟩
    · simp only [he]
      exact .inr ⟨d, hd, fun _ _ => rfl⟩
  | binary op a b iha ihb =>
    simp only [expr, eval_binary, bind, EStateM.bind]
    rcases iha with ⟨m, hm, ha⟩ | ⟨d, hd, ha⟩
    · simp only [ha]
      rcases ihb with ⟨n, hn, hb⟩ | ⟨d, hd, hb⟩
      · simp only [hb]
        rcases op.exists_yields_or m n with ⟨k, hk⟩ | ⟨rfl, rfl⟩
        · rw [hk.binary_eq]
          exact .inl ⟨k, ⟨m, n, hm, hn, hk⟩, fun _ _ => rfl⟩
        · have hhere : FirstFailing [(a, b)] m := ⟨[], (a, b), [], rfl, by simp, hn, hm⟩
          exact .inr ⟨m, (hhere.after hn.divisor_ne_zero).after hm.divisor_ne_zero,
            fun _ _ => rfl⟩
      · simp only [hb]
        exact .inr ⟨d, (hd.append _).after hm.divisor_ne_zero, fun _ _ => rfl⟩
    · simp only [ha]
      exact .inr ⟨d, hd.append _, fun _ _ => rfl⟩

/-! ### Text -/

/-- How tight the outermost operator binds. Multiplication and division bind tighter than addition
and subtraction, and operands without an operator between them tightest. -/
def level : Arith → Nat
  | binary .plus _ _ | binary .minus _ _ => 1
  | binary .times _ _ | binary .divide _ _ => 2
  | num _ | unary _ _ => 3

/-- Words, in parentheses if these are needed. -/
def enclosed (needed : Bool) (ws : List Word) : List Word := if needed then Word.parens ws else ws

/-- The kind of token that writes a prefix operator of integers. -/
def prefixKind : UnaryOp → Kind
  | .not => .tilde
  | .minus => .minus

/-- The words of an expression. An operand on the left has parentheses if it binds looser than the
operator, one on the right also if it binds equally tight. -/
def words : Arith → List Word
  | num n => [⟨.int, toString n⟩]
  | unary op e => .ofKind (prefixKind op) :: enclosed (e.level < 3) e.words
  | binary op a b =>
    let here := (binary op a b).level
    enclosed (a.level < here) a.words ++ .ofKind op.op.kind :: enclosed (b.level ≤ here) b.words

/-- The words of the statement that prints an expression. -/
def printWords (e : Arith) : List Word :=
  .ofKind .printWord :: e.words ++ [.ofKind .semicolon]

/-- The literals of an expression. -/
def literals : Arith → List Nat
  | num n => [n]
  | unary _ e => e.literals
  | binary _ a b => a.literals ++ b.literals

end Arith

namespace Expr

/-- The words are terms with infix operators between them that are grouped as the expression;
`root?` is the outermost of these operators. -/
def Groups (e : Expr) (root? : Option Infix) (ws : List Word) : Prop :=
  ∃ t : OpTree (Expr × List Word) Infix, t.root? = root? ∧ t.WellGrouped rankOf ∧
    (∀ p, .inl p ∈ t.reading → p.1.IsTerm p.2) ∧ t.fold Prod.fst infixed = e ∧
    t.reading.flatMap (Sum.elim Prod.snd fun op => [.ofKind op.kind]) = ws

variable {e a b : Expr} {p q : Option Infix} {ws vs : List Word}

/-- A term stands alone. -/
theorem IsTerm.groups (h : e.IsTerm ws) : e.Groups none ws :=
  ⟨.leaf (e, ws), rfl, trivial, by simpa [OpTree.reading], rfl, by simp [OpTree.reading]⟩

/-- What stands alone is a term. -/
theorem Groups.isTerm (h : e.Groups none ws) : e.IsTerm ws := by
  obtain ⟨t, hroot, -, hterms, rfl, rfl⟩ := h
  cases t with
  | leaf p => simpa [OpTree.reading, OpTree.fold] using hterms
  | node l op r => cases hroot

/-- What is grouped as an expression is read as that expression. -/
theorem Groups.isExpr (h : e.Groups p ws) : e.IsExpr ws := by
  obtain ⟨t, -, ht, hterms, rfl, rfl⟩ := h
  exact isExpr_of_tree ht hterms

/-- An infix operator goes between expressions whose outermost operators fit beside it. -/
theorem Groups.infixed {op : Infix} (ha : a.Groups p ws) (hb : b.Groups q vs)
    (hp : ∀ o ∈ p, op.rank.FitsLeft o.rank) (hq : ∀ o ∈ q, op.rank.FitsRight o.rank) :
    (infixed a op b).Groups (some op) (ws ++ .ofKind op.kind :: vs) := by
  obtain ⟨s, rfl, hs, hsterms, rfl, rfl⟩ := ha
  obtain ⟨t, rfl, ht, htterms, rfl, rfl⟩ := hb
  have hfits {fits : Rank → Prop} {root? : Option Infix} (h : ∀ o ∈ root?, fits o.rank) (r : Rank)
      (hr : root?.bind rankOf = some r) : fits r := by
    obtain ⟨o, ho, hrank⟩ := Option.bind_eq_some_iff.1 hr
    obtain rfl := Option.some.inj (o.rank?_kind.symm.trans hrank)
    exact h o ho
  refine ⟨.node s op t, rfl, ⟨⟨op.rank, op.rank?_kind, hfits hp, hfits hq⟩, hs, ht⟩, ?_, rfl, ?_⟩
  · intro x hx
    simp only [OpTree.reading, List.mem_append, List.mem_cons, reduceCtorEq, false_or] at hx
    rcases hx with hx | hx
    · exact hsterms x hx
    · exact htterms x hx
  · simp [OpTree.reading]

end Expr

namespace Arith

private theorem groups_enclosed {e : Expr} {p : Option Infix} {ws : List Word}
    (h : e.Groups p ws) (needed : Bool) :
    e.Groups (if needed then none else p) (enclosed needed ws) := by
  cases needed with
  | true => exact (Expr.isTerm_parens h.isExpr).groups
  | false => exact h

private theorem infix?_eq_none {e : Arith} (h : 3 ≤ e.level) : e.expr.infix? = none := by
  cases e with
  | num | unary => rfl
  | binary op => cases op <;> simp [level] at h

private theorem rank_le {e : Arith} {o : Infix} (h : o ∈ e.expr.infix?) :
    o.rank = ⟨e.level + 5, .left⟩ := by
  cases e with
  | num | unary => cases h
  | binary op =>
    cases h
    cases op <;> rfl

/-- The words of an expression are grouped as that expression. -/
theorem groups (e : Arith) (h : ∀ n ∈ e.literals, Decimal.isWritable n = true) :
    e.expr.Groups e.expr.infix? e.words := by
  induction e with
  | num n =>
    have hn : (Literal.int n).Writable := ⟨Int.natCast_nonneg n, h n (by simp [literals])⟩
    exact (Expr.isTerm_literal Decimal.spells_someText hn).groups
  | unary op e ih =>
    have hoperand := groups_enclosed (ih h) (e.level < 3)
    have hnone : (if decide (e.level < 3) then none else e.expr.infix?) = none := by
      split
      · rfl
      · next hlevel => exact infix?_eq_none (by simpa using hlevel)
    rw [hnone] at hoperand
    have hkind : UnaryOp.ofKind? (prefixKind op) = some op := by cases op <;> rfl
    exact (Expr.isTerm_unary hkind hoperand.isTerm).groups
  | binary op a b iha ihb =>
    simp only [literals, List.mem_append] at h
    have ha := groups_enclosed (iha fun n hn => h n (.inl hn)) (a.level < (binary op a b).level)
    have hb := groups_enclosed (ihb fun n hn => h n (.inr hn)) (b.level ≤ (binary op a b).level)
    have hop : (Infix.binary op.op).rank = ⟨(binary op a b).level + 5, .left⟩ := by
      cases op <;> rfl
    refine ha.infixed hb ?_ ?_
    · intro o ho
      split at ho
      · cases ho
      · next hlevel =>
        rw [Rank.FitsLeft, hop, rank_le ho]
        simp at hlevel ⊢
        omega
    · intro o ho
      split at ho
      · cases ho
      · next hlevel =>
        rw [Rank.FitsRight, hop, rank_le ho]
        simp at hlevel ⊢
        omega

/-- The words of an expression are spelled. -/
theorem spelled_words (e : Arith) : ∀ w ∈ e.words, w.Spelled := by
  have henclosed {needed : Bool} {ws : List Word} (h : ∀ w ∈ ws, w.Spelled) :
      ∀ w ∈ enclosed needed ws, w.Spelled := by
    cases needed with
    | false => exact h
    | true =>
      have hleft : (Word.ofKind .leftParen).Spelled := Word.spelled_ofKind rfl
      have hright : (Word.ofKind .rightParen).Spelled := Word.spelled_ofKind rfl
      simpa [enclosed, Word.parens, or_imp, forall_and, hleft, hright] using h
  induction e with
  | num n =>
    have hn : (Word.mk .int (toString n)).Spelled :=
      Word.spelled_int (Decimal.toList_toString_ne_nil n)
        fun _ hc => Decimal.isDigit_of_mem_toString hc
    simpa [words] using hn
  | unary op e ih =>
    have hop : (Word.ofKind (prefixKind op)).Spelled := by
      cases op <;> exact Word.spelled_ofKind rfl
    exact List.forall_mem_cons.2 ⟨hop, henclosed ih⟩
  | binary op a b iha ihb =>
    have hop : (Word.ofKind op.op.kind).Spelled := by cases op <;> exact Word.spelled_ofKind rfl
    exact List.forall_mem_append.2 ⟨henclosed iha, List.forall_mem_cons.2 ⟨hop, henclosed ihb⟩⟩

/-- The statement that prints an expression, with a blank after each word. -/
def source (e : Arith) : String := String.ofList (Word.spaced e.printWords)

/-- Its text scans to its words. -/
theorem scan_source (e : Arith) :
    ∃ ts, Scanned.ofString e.source = ⟨ts, none⟩ ∧ ts.map Token.word = e.printWords := by
  have hprint : (Word.ofKind .printWord).Spelled := Word.spelled_ofKind rfl
  have hend : (Word.ofKind .semicolon).Spelled := Word.spelled_ofKind rfl
  rw [Scanned.ofString, source, String.toList_ofList]
  refine Word.ofChars_spaced ?_ .start
  simpa [printWords, or_imp, forall_and, hprint, hend] using e.spelled_words

/-- Every text of the words is the program that prints the expression. -/
theorem program_of_scan {e : Arith} (h : ∀ n ∈ e.literals, Decimal.isWritable n = true)
    {source : String} {ts : List Token} (hscan : Scanned.ofString source = ⟨ts, none⟩)
    (hts : ts.map Token.word = e.printWords) :
    Source.program source = .ok [.print e.expr] := by
  have hprint := (Stmt.isDecl_print (e.groups h).isExpr).cons Stmt.areDecls_nil
  rw [List.append_nil] at hprint
  exact Source.program_of_words hprint hscan hts

/-! ### Printing -/

private theorem exec_print_of_ok {ctx : Context} {e : Expr} {w : World} {n : Int}
    (he : e.eval ctx w = .ok (.int n) w) (hn : Decimal.isWritable n = true) :
    Stmt.execAll ctx .next [.print e] w =
      .ok .next { w with printed := w.printed ++ (toString n ++ "\n") } := by
  have htext : (Value.int n).text? = some (toString n) := by
    rw [Value.text?, Value.isWritable, if_pos hn, Value.text]
  have hprint : Eval.print (.int n) = Eval.write (toString n ++ "\n") := by
    rw [Eval.print, htext]
  have hexec : (Stmt.print e).exec ctx w =
      .ok .next { w with printed := w.printed ++ (toString n ++ "\n") } := by
    rw [Stmt.exec]
    simp only [bind, EStateM.bind, he, hprint]
    rfl
  exact Stmt.execAll_cons_of_goesOn hexec trivial

private theorem exec_print_of_error {ctx : Context} {e : Expr} {w : World} {d : Int}
    (he : e.eval ctx w = Eval.raise (.divisionByZero (.int d)) w)
    (hd : Decimal.isWritable d = true) :
    Stmt.execAll ctx .next [.print e] w = .error (.fault (.divisionByZero (.int d))) w := by
  have hwritable : (Fault.divisionByZero (.int d)).isWritable = true := hd
  have hexec : (Stmt.print e).exec ctx w = .error (.fault (.divisionByZero (.int d))) w := by
    rw [Eval.raise, if_pos hwritable] at he
    rw [Stmt.exec]
    simp only [bind, EStateM.bind, he]
    rfl
  exact Stmt.execAll_cons_of_error hexec

end Arith

/-- Integer arithmetic from end to end. The text that prints an expression, with parentheses only
where they are needed and with any blanks and comments, prints the value of the expression in the
integers if no divisor is zero. Else it prints nothing and fails for the dividend of the first
division by zero, from left to right and operands first. Only the literals and the integer that is
shown have to be short enough to be read and written. -/
theorem print_arithmetic (limits : Limits) (e : Arith)
    (h : ∀ n ∈ e.literals, Decimal.isWritable n = true) :
    (∃ ts, Scanned.ofString e.source = ⟨ts, none⟩ ∧ ts.map Token.word = e.printWords) ∧
    ∀ (source : String) (ts : List Token), Scanned.ofString source = ⟨ts, none⟩ →
      ts.map Token.word = e.printWords →
      ((∀ p ∈ e.divisions, ¬p.2.Yields 0) →
        ∃ n, (∀ m, e.Yields m ↔ m = n) ∧ ∀ w, Decimal.isWritable n = true →
          Source.exec limits {} source w =
            .ok .next { w with printed := w.printed ++ (toString n ++ "\n") }) ∧
      ((∃ p ∈ e.divisions, p.2.Yields 0) →
        (∀ m, ¬e.Yields m) ∧
        ∃ d, (∀ m, Arith.FirstFailing e.divisions m ↔ m = d) ∧ ∀ w, Decimal.isWritable d = true →
          Source.exec limits {} source w =
            .error (.stopped (.fault (.divisionByZero (.int d)))) w) := by
  refine ⟨e.scan_source, fun source ts hscan hts => ?_⟩
  have hexec := Source.exec_of_program limits (Arith.program_of_scan h hscan hts)
  rcases e.eval_cases with ⟨n, hn, heval⟩ | ⟨d, hd, heval⟩
  · refine ⟨fun _ => ⟨n, fun m => ⟨fun hm => hm.unique hn, fun hm => hm ▸ hn⟩, fun w hw => ?_⟩, ?_⟩
    · rw [hexec, Source.run_eq_ok_iff]
      exact Arith.exec_print_of_ok (heval _ w) hw
    · rintro ⟨p, hp, hzero⟩
      exact (hn.divisor_ne_zero p hp hzero).elim
  · obtain ⟨p, hp, hzero⟩ := hd.exists_zero
    refine ⟨fun hnone => (hnone p hp hzero).elim, fun _ => ⟨fun m hm => ?_, d, fun m => ?_, ?_⟩⟩
    · exact hm.divisor_ne_zero p hp hzero
    · exact ⟨fun hm => hm.unique hd, fun hm => hm ▸ hd⟩
    · intro w hw
      rw [hexec, Source.run_eq_error_iff]
      exact ⟨_, rfl, Arith.exec_print_of_error (heval _ w) hw⟩

/-- A sum in which a quotient is truncated toward zero, and a division by zero in the dividend of
another. -/
theorem print_arithmetic_signs :
    (let e : Arith := .binary .minus (.binary .minus (.num 10) (.num 3))
      (.binary .times (.binary .divide (.unary .minus (.num 7)) (.num 2))
        (.unary .not (.binary .plus (.num 1) (.num 4))))
    e.source = "print 10 - 3 - - 7 / 2 * ~ ( 1 + 4 ) ; " ∧
      ∃ w, w.printed = "-11\n" ∧ Source.exec .standard {} e.source .start = .ok .next w) ∧
    (let e : Arith := .binary .divide (.binary .divide (.unary .minus (.num 8)) (.num 0)) (.num 0)
    e.source = "print - 8 / 0 / 0 ; " ∧
      Source.exec .standard {} e.source .start =
        .error (.stopped (.fault (.divisionByZero (.int (-8))))) .start) := by
  have hshort : ∀ n ∈ [10, 3, 7, 2, 1, 4, 8, 0], Decimal.isWritable (n : Nat) = true := by
    decide +kernel
  constructor
  · intro e
    have hlits : ∀ n ∈ e.literals, Decimal.isWritable n = true :=
      fun n hn => hshort n (List.mem_append_left [8, 0] hn)
    have hvalue : e.Yields (-11) :=
      ⟨7, 18, ⟨10, 3, rfl, rfl, rfl⟩, ⟨-3, -6, ⟨-7, 2, ⟨7, rfl, rfl⟩, rfl, ⟨-1, by decide⟩⟩,
        ⟨5, ⟨1, 4, rfl, rfl, rfl⟩, rfl⟩, rfl⟩, rfl⟩
    obtain ⟨⟨ts, hscan, hts⟩, hrun⟩ := print_arithmetic .standard e hlits
    obtain ⟨n, hn, hexec⟩ := (hrun _ ts hscan hts).1 hvalue.divisor_ne_zero
    obtain rfl := (hn _).1 hvalue
    exact ⟨rfl, _, rfl, hexec .start (by decide +kernel)⟩
  · intro e
    have hlits : ∀ n ∈ e.literals, Decimal.isWritable n = true := by
      intro n hn
      refine hshort n ?_
      simp [e, Arith.literals] at hn
      rcases hn with rfl | rfl <;> decide
    have hfails : Arith.FirstFailing e.divisions (-8) :=
      ⟨[], (.unary .minus (.num 8), .num 0), _, rfl, List.forall_mem_nil _, rfl, 8, rfl, rfl⟩
    obtain ⟨⟨ts, hscan, hts⟩, hrun⟩ := print_arithmetic .standard e hlits
    obtain ⟨-, d, hd, hexec⟩ := (hrun _ ts hscan hts).2 hfails.exists_zero
    obtain rfl := (hd _).1 hfails
    exact ⟨rfl, hexec .start (by decide +kernel)⟩

end Lox
