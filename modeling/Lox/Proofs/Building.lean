import Lox.Proofs.Completeness
import Lox.Proofs.Derivation
import Lox.Proofs.Grouping
import Lox.Source

/-!
# Every parse tree of a source text has a program

Building follows the grammar rule by rule: what the grammar derives has the children that building
looks for, and the operators that it knows. Only the text of an integer can be refused, for its
length. So the program of a parsed source text is there, and complete, unless some integer is too
long; then one of those is blamed.
-/

namespace Lox

/-! ### Literals -/

namespace Decimal

/-- A number with a fraction is read. -/
theorem exists_double {s : String} (h : Scan.IsFraction s) : ∃ x, double? s = some x := by
  obtain ⟨whole, fraction, hs, hne, hwhole, -, hfraction⟩ := h
  have htake : (whole ++ '.' :: fraction).takeWhile Text.isDigit = whole := by
    rw [List.takeWhile_append_of_pos hwhole]
    exact List.append_nil whole
  have hdrop : (whole ++ '.' :: fraction).dropWhile Text.isDigit = '.' :: fraction := by
    rw [List.dropWhile_append_of_pos hwhole]
    rfl
  have hrest : fraction.dropWhile Text.isDigit = [] := List.dropWhile_eq_nil_iff.2 hfraction
  have hfraction' : fraction.takeWhile Text.isDigit = fraction :=
    List.takeWhile_eq_self_iff.2 hfraction
  have hunsigned : unsigned? s.toList = some (ofPoint whole fraction 0) := by
    rw [unsigned?, hs]
    simp only [htake, hdrop, splitFraction, hfraction', hrest, exponent?, Option.map_some]
    rw [if_neg]
    simp [hne]
  -- A digit is no sign, and none of the names begins with one.
  cases whole with
  | nil => exact (hne rfl).elim
  | cons c cs =>
    have hc := hwhole c List.mem_cons_self
    have hapart (d : Char) (hd : Text.isDigit d = false) : c ≠ d := by
      intro hcd
      rw [hcd, hd] at hc
      cases hc
    have hstart (d : Char) (ds : List Char) (hd : Text.isDigit d = false) : s.toList ≠ d :: ds := by
      intro heq
      rw [hs, List.cons_append] at heq
      exact hapart d hd (List.cons.inj heq).1
    refine ⟨ofPoint (c :: cs) fraction 0, ?_⟩
    unfold double?
    split
    · rename_i heq
      exact (hstart '-' _ (by decide) heq).elim
    · rename_i heq
      exact (hstart '+' _ (by decide) heq).elim
    · have hinf : s.toList ≠ "inf".toList := hstart 'i' ['n', 'f'] (by decide)
      have hnan : s.toList ≠ "nan".toList := hstart 'n' ['a', 'n'] (by decide)
      simp only [if_neg hinf, if_neg hnan, hunsigned]

end Decimal

namespace Token

/-- The lengths of the integers among tokens that are too long to be read. -/
def longInts (ts : List Token) : List Nat :=
  ts.filterMap fun t =>
    if t.kind = .int ∧ Decimal.maxDigits < t.text.length then some t.text.length else none

/-- A token that is no integer is no long one. -/
theorem longInts_of_ne {t : Token} (h : t.kind ≠ .int) : longInts [t] = [] := by
  simp [longInts, h]

theorem longInts_append (ts us : List Token) : longInts (ts ++ us) = longInts ts ++ longInts us :=
  List.filterMap_append

/-- A length is that of a long integer. -/
theorem mem_longInts {ts : List Token} {n : Nat} :
    n ∈ longInts ts ↔ ∃ t ∈ ts, t.kind = .int ∧ Decimal.maxDigits < n ∧ n = t.text.length := by
  rw [longInts, List.mem_filterMap]
  constructor
  · rintro ⟨t, ht, hn⟩
    split at hn
    · rename_i hlong
      obtain rfl := Option.some.inj hn
      exact ⟨t, ht, hlong.1, hlong.2, rfl⟩
    · cases hn
  · rintro ⟨t, ht, hkind, hlong, rfl⟩
    exact ⟨t, ht, if_pos ⟨hkind, hlong⟩⟩

/-- No integer is too long if each is short enough. -/
theorem longInts_eq_nil_iff {ts : List Token} :
    longInts ts = [] ↔ ∀ t ∈ ts, t.kind = .int → t.text.length ≤ Decimal.maxDigits := by
  rw [List.eq_nil_iff_forall_not_mem]
  constructor
  · intro h t ht hkind
    by_contra hlong
    exact h _ (mem_longInts.2 ⟨t, ht, hkind, by omega, rfl⟩)
  · intro h n hn
    obtain ⟨t, ht, hkind, hlong, rfl⟩ := mem_longInts.1 hn
    have hshort := h t ht hkind
    omega

end Token

/-! ### What building gives -/

/-- The outcome of building where the integers with the lengths `long` are too long: something as
`P` says if there are none, and else the blame on one of them. -/
inductive Builds {α : Type} (P : α → Prop) : List Nat → Except Defect α → Prop
  | built {a : α} (h : P a) : Builds P [] (.ok a)
  | refused {n : Nat} {long : List Nat} (h : n ∈ long) : Builds P long (.error (.longInteger n))

namespace Builds

variable {α β : Type} {P : α → Prop} {Q : β → Prop} {long more : List Nat} {x : Except Defect α}

/-- What is built from two parts in turn. -/
theorem bind {next : α → Except Defect β} (hx : Builds P long x)
    (hnext : ∀ a, P a → Builds Q more (next a)) : Builds Q (long ++ more) (x >>= next) := by
  cases hx with
  | built h => exact hnext _ h
  | refused h => exact .refused (List.mem_append_left _ h)

/-- What is made of one part. -/
theorem map {f : α → β} (hx : Builds P long x) (hf : ∀ a, P a → Q (f a)) :
    Builds Q long (f <$> x) := by
  cases hx with
  | built h => exact .built (hf _ h)
  | refused h => exact .refused h

/-- What is made of one part at the end. -/
theorem bind_pure {f : α → β} (hx : Builds P long x) (hf : ∀ a, P a → Q (f a)) :
    Builds Q long (x >>= fun a => pure (f a)) := by
  cases hx with
  | built h => exact .built (hf _ h)
  | refused h => exact .refused h

/-- The order of the parts does not matter. -/
theorem comm (hx : Builds P (long ++ more) x) : Builds P (more ++ long) x := by
  generalize hlong : long ++ more = all at hx
  cases hx with
  | built h =>
    obtain ⟨rfl, rfl⟩ := List.append_eq_nil_iff.1 hlong
    exact .built h
  | refused h =>
    subst hlong
    exact .refused (List.mem_append.2 (List.mem_append.1 h).symm)

/-- Something is built just if no integer is too long. -/
theorem exists_ok_iff (hx : Builds P long x) : (∃ a, x = .ok a) ↔ long = [] := by
  cases hx with
  | built h => exact iff_of_true ⟨_, rfl⟩ rfl
  | refused h =>
    refine iff_of_false ?_ (List.ne_nil_of_mem h)
    rintro ⟨a, ha⟩
    cases ha

/-- Only integers that are too long are to blame. -/
theorem of_error {d : Defect} (hx : Builds P long (.error d)) : ∃ n ∈ long, d = .longInteger n := by
  cases hx with
  | refused h => exact ⟨_, h, rfl⟩

/-- What is built is as it should be. -/
theorem of_ok {a : α} (hx : Builds P long (.ok a)) : P a := by
  cases hx with
  | built h => exact h

end Builds

/-! ### Shapes -/

/-- Trees have the shape of a form, and the integers with the lengths `long` under them are too
long: tokens are spelled as their kinds are, and what is under a rule is as `P` says. -/
inductive Shaped (P : Rule → List Nat → List Tree → Prop) :
    Form → List Nat → List Tree → Prop where
  | token {t : Token} {kind : Kind} (h : t.kind = kind) (ht : t.kind.Writes t.text.toList) :
      Shaped P (.token kind) (Token.longInts [t]) [Tree.ofToken t]
  | mark {t : Token} {kind : Kind} (h : t.kind = kind) :
      Shaped P (.mark kind) (Token.longInts [t]) []
  | rule {r : Rule} {long : List Nat} {cs : List Tree} (h : P r long cs) :
      Shaped P (.rule r) long [.node r cs]
  | empty : Shaped P .empty [] []
  | seq {a b : Form} {long more : List Nat} {cs ds : List Tree} (ha : Shaped P a long cs)
      (hb : Shaped P b more ds) : Shaped P (.seq a b) (long ++ more) (cs ++ ds)
  | altLeft {a b : Form} {long : List Nat} {cs : List Tree} (h : Shaped P a long cs) :
      Shaped P (.alt a b) long cs
  | altRight {a b : Form} {long : List Nat} {cs : List Tree} (h : Shaped P b long cs) :
      Shaped P (.alt a b) long cs
  | optNone {a : Form} : Shaped P (.opt a) [] []
  | optSome {a : Form} {long : List Nat} {cs : List Tree} (h : Shaped P a long cs) :
      Shaped P (.opt a) long cs
  | manyNil {a : Form} : Shaped P (.many a) [] []
  | manyCons {a : Form} {long more : List Nat} {cs ds : List Tree} (ha : Shaped P a long cs)
      (hm : Shaped P (.many a) more ds) : Shaped P (.many a) (long ++ more) (cs ++ ds)

/-- What each rule hands on from its form holds under every rule. -/
theorem Derives.shaped {P : Rule → List Nat → List Tree → Prop}
    (hrule : ∀ {r long cs}, Shaped P r.form long cs → P r long cs) {a : Form} {ts : List Token}
    {cs : List Tree} (h : Derives a ts cs) (hts : ∀ t ∈ ts, t.kind.Writes t.text.toList) :
    Shaped P a (Token.longInts ts) cs := by
  induction h with
  | token h => exact .token h (hts _ List.mem_cons_self)
  | mark h => exact .mark h
  | rule _ ih => exact .rule (hrule (ih hts))
  | empty => exact .empty
  | seq _ _ iha ihb =>
    obtain ⟨hts, hus⟩ := List.forall_mem_append.1 hts
    rw [Token.longInts_append]
    exact .seq (iha hts) (ihb hus)
  | altLeft _ ih => exact .altLeft (ih hts)
  | altRight _ ih => exact .altRight (ih hts)
  | optNone => exact .optNone
  | optSome _ ih => exact .optSome (ih hts)
  | manyNil => exact .manyNil
  | manyCons _ _ iha ihm =>
    obtain ⟨hts, hus⟩ := List.forall_mem_append.1 hts
    rw [Token.longInts_append]
    exact .manyCons (iha hts) (ihm hus)

namespace Shaped

variable {P : Rule → List Nat → List Tree → Prop} {a b : Form} {j k : Kind} {r : Rule}
  {long : List Nat} {cs : List Tree}

/-- A mark leaves nothing. -/
theorem of_mark (hk : k ≠ .int) (h : Shaped P (.mark k) long cs) : long = [] ∧ cs = [] := by
  cases h with
  | mark ht => exact ⟨Token.longInts_of_ne (ht ▸ hk), rfl⟩

/-- A token that is no integer leaves its text. -/
theorem of_token (hk : k ≠ .int) (h : Shaped P (.token k) long cs) :
    long = [] ∧ ∃ text, cs = [.leaf k text] ∧ k.Writes text.toList := by
  cases h with
  | @token t _ ht hwrites =>
    subst ht
    exact ⟨Token.longInts_of_ne hk, t.text, rfl, hwrites⟩

/-- A rule leaves a node. -/
theorem of_rule (h : Shaped P (.rule r) long cs) :
    ∃ ds, cs = [.node r ds] ∧ P r long ds := by
  cases h with
  | rule h => exact ⟨_, rfl, h⟩

/-- A sequence leaves what both of its parts leave. -/
theorem of_seq (h : Shaped P (.seq a b) long cs) :
    ∃ long₁ long₂ cs₁ cs₂, long = long₁ ++ long₂ ∧ cs = cs₁ ++ cs₂ ∧ Shaped P a long₁ cs₁ ∧
      Shaped P b long₂ cs₂ := by
  cases h with
  | seq ha hb => exact ⟨_, _, _, _, rfl, rfl, ha, hb⟩

/-- A mark at the beginning leaves nothing. -/
theorem of_mark_seq (hk : k ≠ .int) (h : Shaped P (.seq (.mark k) b) long cs) :
    Shaped P b long cs := by
  obtain ⟨_, _, _, _, rfl, rfl, ha, hb⟩ := h.of_seq
  obtain ⟨rfl, rfl⟩ := ha.of_mark hk
  exact hb

/-- A mark at the end leaves nothing. -/
theorem of_seq_mark (hk : k ≠ .int) (h : Shaped P (.seq a (.mark k)) long cs) :
    Shaped P a long cs := by
  obtain ⟨_, _, _, _, rfl, rfl, ha, hb⟩ := h.of_seq
  obtain ⟨rfl, rfl⟩ := hb.of_mark hk
  rw [List.append_nil, List.append_nil]
  exact ha

/-- A token at the beginning leaves its text. -/
theorem of_token_seq (hk : k ≠ .int) (h : Shaped P (.seq (.token k) b) long cs) :
    ∃ text ds, cs = .leaf k text :: ds ∧ Shaped P b long ds := by
  obtain ⟨_, _, _, ds, rfl, rfl, ha, hb⟩ := h.of_seq
  obtain ⟨rfl, text, rfl, -⟩ := ha.of_token hk
  exact ⟨text, ds, rfl, hb⟩

/-- A rule at the beginning leaves a node. -/
theorem of_rule_seq (h : Shaped P (.seq (.rule r) b) long cs) :
    ∃ long₁ long₂ ds es, long = long₁ ++ long₂ ∧ cs = .node r ds :: es ∧ P r long₁ ds ∧
      Shaped P b long₂ es := by
  obtain ⟨_, _, _, es, rfl, rfl, ha, hb⟩ := h.of_seq
  obtain ⟨ds, rfl, hr⟩ := ha.of_rule
  exact ⟨_, _, ds, es, rfl, rfl, hr, hb⟩

/-- One of the alternatives has the shape. -/
theorem of_oneOf {first : Form} {rest : List Form}
    (h : Shaped P (Form.oneOf first rest) long cs) : ∃ a ∈ first :: rest, Shaped P a long cs := by
  induction rest generalizing first with
  | nil => exact ⟨first, List.mem_cons_self, h⟩
  | cons second rest ih =>
    cases h with
    | altLeft h => exact ⟨first, List.mem_cons_self, h⟩
    | altRight h =>
      obtain ⟨a, ha, h⟩ := ih h
      exact ⟨a, List.mem_cons_of_mem _ ha, h⟩

/-- What a repetition has at its end, and each repeated form keeps, it has. -/
theorem of_many {M : List Nat → List Tree → Prop} (hnil : M [] [])
    (hcons : ∀ {long more cs ds}, Shaped P a long cs → M more ds → M (long ++ more) (cs ++ ds))
    (h : Shaped P (.many a) long cs) : M long cs := by
  generalize hb : Form.many a = b at h
  induction h with
  | manyNil => exact hnil
  | manyCons hhead _ _ ih =>
    obtain rfl := Form.many.inj hb
    exact hcons hhead (ih rfl)
  | _ => cases hb

end Shaped

/-! ### Expressions -/

namespace Tree

private theorem builds_int {t : Token} (hkind : t.kind = .int) (hne : t.text.toList ≠ [])
    (hdigits : ∀ c ∈ t.text.toList, Text.isDigit c = true) :
    Builds Expr.Complete (Token.longInts [t]) (atom .int t.text) := by
  have hempty : t.text.toList.isEmpty = false := List.isEmpty_eq_false_iff.2 hne
  have hall : t.text.toList.all Text.isDigit = true := List.all_eq_true.2 hdigits
  rw [atom, Decimal.readWhole, hempty, hall, if_neg (by decide)]
  by_cases hlong : Decimal.maxDigits < t.text.toList.length
  · rw [if_pos hlong]
    rw [String.length_toList] at hlong ⊢
    exact .refused (Token.mem_longInts.2 ⟨t, List.mem_cons_self, hkind, hlong, rfl⟩)
  · have hnil : Token.longInts [t] = [] := by
      rw [String.length_toList] at hlong
      simp [Token.longInts, hlong]
    rw [if_neg hlong, hnil]
    exact .built trivial

private theorem builds_atom {t : Token} (ht : t.kind.Writes t.text.toList)
    (hkind : t.kind ∈ [Kind.float, .int, .string, .yes, .no, .nil, .ident]) :
    Builds Expr.Complete (Token.longInts [t]) (atom t.kind t.text) := by
  have hother {k : Kind} {e : Expr} (htk : t.kind = k) (hk : k ≠ .int) (he : e.Complete) :
      Builds Expr.Complete (Token.longInts [t]) (.ok e) := by
    rw [Token.longInts_of_ne (htk ▸ hk)]
    exact .built he
  simp only [List.mem_cons, List.not_mem_nil, or_false] at hkind
  rcases hkind with h | h | h | h | h | h | h <;> rw [h] at ht ⊢
  · have hfraction : Scan.IsFraction (String.ofList t.text.toList) := ht
    rw [String.ofList_toList] at hfraction
    obtain ⟨x, hx⟩ := Decimal.exists_double hfraction
    rw [atom, hx]
    exact hother h (by decide) trivial
  · exact builds_int h ht.1 ht.2
  all_goals exact hother h (by decide) trivial

private theorem exists_applyPrefixes {e : Expr} (he : e.Complete) {cs : List Tree}
    (hcs : ∀ c ∈ cs, ∃ k text op, c = .leaf k text ∧ UnaryOp.ofKind? k = some op) :
    ∃ e', e'.Complete ∧ applyPrefixes e cs = .ok e' := by
  induction cs with
  | nil => exact ⟨e, he, rfl⟩
  | cons c cs ih =>
    obtain ⟨hc, hcs⟩ := List.forall_mem_cons.1 hcs
    obtain ⟨e', he', happly⟩ := ih hcs
    obtain ⟨k, text, op, rfl, hop⟩ := hc
    refine ⟨.unary op e', he', ?_⟩
    rw [applyPrefixes, happly, UnaryOp.read, hop]

/-- The last operand is that of the last child. -/
theorem lastOperand_append (cs : List Tree) (t : Tree) :
    lastOperand (cs ++ [t]) = lastOperand [t] := by
  induction cs with
  | nil => rfl
  | cons c cs ih =>
    cases cs with
    | nil => rw [List.singleton_append, lastOperand]
    | cons d cs =>
      rw [← ih, List.cons_append, List.cons_append, lastOperand]

end Tree

/-- What building a child needs of the part of the source under each rule. -/
def Rule.Built (r : Rule) (long : List Nat) (cs : List Tree) : Prop :=
  match r with
  | program | block => Builds Stmt.AllComplete long (Tree.stmts cs)
  | declaration => Builds Stmt.Complete long (Tree.decl (.node .declaration cs))
  | funDecl | statement => Builds Stmt.Complete long (Tree.decl (.node .declaration [.node r cs]))
  | parameters => long = []
  | exprStmt | printStmt | varDecl | forStmt | ifStmt | whileStmt | returnStmt =>
    Builds Stmt.Complete long (Tree.stmt (.node r cs))
  | forInit => Builds Stmt.AllComplete long (Tree.bareStmts cs)
  | forCond => Builds (fun e => ∀ c ∈ e, c.Complete) long (Tree.firstExpr? (Tree.nodes cs))
  | forStep => Builds Expr.AllComplete long (Tree.exprs (Tree.nodes cs))
  | expr => Builds Expr.Complete long (Tree.expr (.node .expr cs))
  | term => Builds Expr.Complete long (Tree.term (.node .term cs))
  | call | value => Builds Expr.Complete long (Tree.lastOperand [.node r cs])
  | foreign _ => True

namespace Rule

section Built

variable {long : List Nat} {cs : List Tree}

open Shaped Lox.Tree

/-- Of several kinds of tokens it is one. -/
theorem of_oneOf_token {P : Rule → List Nat → List Tree → Prop} (k : Kind)
    (ks : List Kind) (h : Shaped P (Form.oneOf (.token k) (ks.map .token)) long cs) :
    ∃ t : Token, t.kind ∈ k :: ks ∧ t.kind.Writes t.text.toList ∧ long = Token.longInts [t] ∧
      cs = [ofToken t] := by
  obtain ⟨a, ha, h⟩ := h.of_oneOf
  have hmem : a ∈ (k :: ks).map Form.token := ha
  obtain ⟨j, hj, rfl⟩ := List.mem_map.1 hmem
  cases h with
  | token ht hwrites => exact ⟨_, ht ▸ hj, hwrites, rfl, rfl⟩

/-- Of several rules it is one. -/
theorem of_oneOf_rule {P : Rule → List Nat → List Tree → Prop} (r : Rule) (rs : List Rule)
    (h : Shaped P (Form.oneOf (.rule r) (rs.map .rule)) long cs) :
    ∃ r' ∈ r :: rs, ∃ ds, cs = [.node r' ds] ∧ P r' long ds := by
  obtain ⟨a, ha, h⟩ := h.of_oneOf
  have hmem : a ∈ (r :: rs).map Form.rule := ha
  obtain ⟨r', hr', rfl⟩ := List.mem_map.1 hmem
  exact ⟨r', hr', h.of_rule⟩

private theorem built_value (h : Shaped Built value.form long cs) : value.Built long cs := by
  obtain ⟨a, ha, h⟩ := h.of_oneOf
  have ha : a ∈ [Kind.float, .int, .string, .yes, .no, .nil, .ident].map Form.token ++
    [Form.inOrder [.mark .leftParen, .rule .expr, .mark .rightParen]] := ha
  rcases List.mem_append.1 ha with ha | ha
  · obtain ⟨k, hk, rfl⟩ := List.mem_map.1 ha
    cases h with
    | token ht hwrites => exact builds_atom hwrites (ht ▸ hk)
  · obtain rfl := List.mem_singleton.1 ha
    obtain ⟨ds, rfl, hds⟩ := ((h.of_mark_seq (by decide)).of_seq_mark (by decide)).of_rule
    exact hds

private theorem builds_exprs_cons {more : List Nat} {ds : List Tree} (h : expr.Built long ds)
    (hcs : Builds Expr.AllComplete more (exprs cs)) :
    Builds Expr.AllComplete (long ++ more) (exprs (.node .expr ds :: cs)) :=
  h.bind fun _ he => hcs.bind_pure fun _ hes => ⟨he, hes⟩

private theorem builds_exprs (h : Shaped Built (Form.commaSeparated (.rule .expr)) long cs) :
    Builds Expr.AllComplete long (exprs cs) := by
  obtain ⟨_, _, ds, es, rfl, rfl, hfirst, hmany⟩ := h.of_rule_seq
  refine builds_exprs_cons hfirst ?_
  refine hmany.of_many (M := fun long cs => Builds Expr.AllComplete long (exprs cs))
    (.built trivial) fun h ih => ?_
  obtain ⟨ds, rfl, hds⟩ := (h.of_mark_seq (by decide)).of_rule
  exact builds_exprs_cons hds ih

private theorem built_call (h : Shaped Built call.form long cs) : call.Built long cs := by
  obtain ⟨x, ds, rfl, hrest⟩ := h.of_token_seq (by decide)
  have hopt := (hrest.of_mark_seq (by decide)).of_seq_mark (by decide)
  have hargs : Builds Expr.AllComplete long (exprs ds) := by
    cases hopt with
    | optNone => exact .built trivial
    | optSome h => exact builds_exprs h
  show Builds Expr.Complete long (do let args ← exprs ds; pure (.call x args))
  exact hargs.bind_pure fun _ => id

private theorem built_term (h : Shaped Built term.form long cs) : term.Built long cs := by
  obtain ⟨_, more, ps, ds, rfl, rfl, hmany, hlast⟩ := h.of_seq
  obtain ⟨rfl, hprefix⟩ := hmany.of_many
    (M := fun long cs => long = [] ∧
      ∀ c ∈ cs, ∃ k text op, c = .leaf k text ∧ UnaryOp.ofKind? k = some op)
    ⟨rfl, List.forall_mem_nil _⟩ fun h ih => by
      obtain ⟨t, ht, -, rfl, rfl⟩ := of_oneOf_token .bang [.tilde, .minus] h
      obtain ⟨rfl, hcs⟩ := ih
      have hkinds : ∀ k ∈ [Kind.bang, .tilde, .minus],
          k ≠ .int ∧ (UnaryOp.ofKind? k).isSome = true := by decide
      obtain ⟨hint, hsome⟩ := hkinds _ ht
      obtain ⟨op, hop⟩ := Option.isSome_iff_exists.1 hsome
      rw [Token.longInts_of_ne hint]
      exact ⟨rfl, List.forall_mem_cons.2 ⟨⟨_, _, op, rfl, hop⟩, hcs⟩⟩
  have hoperand : ∃ t, ds = [t] ∧ Builds Expr.Complete more (lastOperand [t]) := by
    obtain ⟨r, hr, es, rfl, hes⟩ := of_oneOf_rule .call [.value] hlast
    simp only [List.mem_cons, List.not_mem_nil, or_false] at hr
    rcases hr with rfl | rfl <;> exact ⟨_, rfl, hes⟩
  obtain ⟨t, rfl, hoperand⟩ := hoperand
  show Builds Expr.Complete ([] ++ more) (Tree.term (.node .term (ps ++ [t])))
  rw [Tree.term, lastOperand_append, List.dropLast_concat]
  have hprefixes (e : Expr) (he : e.Complete) : Builds Expr.Complete [] (applyPrefixes e ps) := by
    obtain ⟨e', he', happly⟩ := exists_applyPrefixes he hprefix
    rw [happly]
    exact .built he'
  exact (hoperand.bind hprefixes).comm

private theorem builds_operands
    (h : Shaped Built (.many (.seq .infixOperator (.rule .term))) long cs) {before : List Nat}
    {ds : List Tree} (hds : term.Built before ds) :
    Builds (fun s : Expr × List (Step Expr Infix) => s.1.Complete ∧ ∀ t ∈ s.2, t.rhs.Complete)
      (before ++ long) (operands (.node .term ds :: cs)) := by
  revert before ds
  refine h.of_many (M := fun long cs => ∀ {before ds}, term.Built before ds →
    Builds (fun s : Expr × List (Step Expr Infix) => s.1.Complete ∧ ∀ t ∈ s.2, t.rhs.Complete)
      (before ++ long) (operands (.node .term ds :: cs))) ?_ ?_
  · intro before ds hds
    rw [List.append_nil]
    exact hds.bind_pure fun e he => ⟨he, List.forall_mem_nil _⟩
  · intro _ more cs es h ih before ds hds
    obtain ⟨_, _, _, _, rfl, rfl, hop, hterm⟩ := h.of_seq
    obtain ⟨t, ht, -, rfl, rfl⟩ := of_oneOf_token .assign [.or, .and, .equal, .notEqual, .greater,
      .greaterEqual, .lower, .lowerEqual, .plus, .minus, .times, .divide, .dot] hop
    obtain ⟨fs, rfl, hfs⟩ := hterm.of_rule
    have hkinds : ∀ k ∈ [Kind.assign, .or, .and, .equal, .notEqual, .greater, .greaterEqual, .lower,
        .lowerEqual, .plus, .minus, .times, .divide, .dot],
        k ≠ .int ∧ (Infix.tiers.rank? k).isSome = true ∧ (Infix.ofKind? k).isSome = true := by
      decide
    obtain ⟨hint, hrank, hinfix⟩ := hkinds _ ht
    obtain ⟨rank, hrank⟩ := Option.isSome_iff_exists.1 hrank
    obtain ⟨op, hinfix⟩ := Option.isSome_iff_exists.1 hinfix
    rw [Token.longInts_of_ne hint]
    rw [ofToken, List.cons_append, List.nil_append, List.cons_append, List.nil_append, operands,
      hrank, hinfix]
    refine Builds.bind hds fun e he => (ih hfs).bind_pure fun s hs => ?_
    exact ⟨he, List.forall_mem_cons.2 hs⟩

private theorem built_expr (h : Shaped Built expr.form long cs) : expr.Built long cs := by
  obtain ⟨_, _, ds, es, rfl, rfl, hfirst, hmany⟩ := h.of_rule_seq
  refine (builds_operands hmany hfirst).bind_pure fun s hs => ?_
  exact Precedence.group_of_forall (fun _ op _ => Expr.complete_infixed op) hs.1 hs.2

private theorem builds_firstExpr? (h : expr.Built long cs) :
    Builds (fun e => ∀ c ∈ e, c.Complete) long (firstExpr? [.node .expr cs]) :=
  Builds.map h fun e he => by
    rintro _ ⟨⟩
    exact he

private theorem builds_option (h : Shaped Built (.opt (.rule .expr)) long cs) :
    Builds (fun e => ∀ c ∈ e, c.Complete) long (firstExpr? (nodes cs)) := by
  cases h with
  | optNone =>
    refine .built fun c hc => ?_
    cases hc
  | optSome h =>
    obtain ⟨ds, rfl, hds⟩ := h.of_rule
    exact builds_firstExpr? hds

private theorem builds_stmts (h : Shaped Built (.many (.rule .declaration)) long cs) :
    Builds Stmt.AllComplete long (stmts cs) := by
  refine h.of_many (M := fun long cs => Builds Stmt.AllComplete long (stmts cs))
    (.built trivial) fun h ih => ?_
  obtain ⟨ds, rfl, hds⟩ := h.of_rule
  exact Builds.bind hds fun _ hs => ih.bind_pure fun _ hss => ⟨hs, hss⟩

private theorem built_declaration (h : Shaped Built declaration.form long cs) :
    declaration.Built long cs := by
  obtain ⟨r, hr, ds, rfl, hds⟩ := of_oneOf_rule .funDecl [.statement] h
  simp only [List.mem_cons, List.not_mem_nil, or_false] at hr
  rcases hr with rfl | rfl <;> exact hds

private theorem built_funDecl (h : Shaped Built funDecl.form long cs) :
    funDecl.Built long cs := by
  obtain ⟨x, ds, rfl, hrest⟩ := (h.of_mark_seq (by decide)).of_token_seq (by decide)
  obtain ⟨_, _, ps, es, rfl, rfl, hopt, hbody⟩ := (hrest.of_mark_seq (by decide)).of_seq
  obtain ⟨fs, rfl, hfs⟩ := (hbody.of_mark_seq (by decide)).of_rule
  cases hopt with
  | optNone => exact Builds.bind_pure hfs fun _ => id
  | optSome h =>
    obtain ⟨qs, rfl, hqs⟩ := h.of_rule
    obtain rfl := hqs
    exact Builds.bind_pure hfs fun _ => id

private theorem built_parameters (h : Shaped Built parameters.form long cs) :
    parameters.Built long cs := by
  obtain ⟨_, _, _, _, rfl, rfl, hfirst, hmany⟩ := h.of_seq
  obtain ⟨rfl, -⟩ := hfirst.of_token (by decide)
  refine hmany.of_many (M := fun long _ => long = []) rfl fun h ih => ?_
  obtain ⟨rfl, -⟩ := (h.of_mark_seq (by decide)).of_token (by decide)
  exact ih

private theorem built_statement (h : Shaped Built statement.form long cs) :
    statement.Built long cs := by
  obtain ⟨r, hr, ds, rfl, hds⟩ := of_oneOf_rule .exprStmt
    [.printStmt, .varDecl, .forStmt, .ifStmt, .returnStmt, .whileStmt, .block] h
  simp only [List.mem_cons, List.not_mem_nil, or_false] at hr
  rcases hr with rfl | rfl | rfl | rfl | rfl | rfl | rfl | rfl
  case inr.inr.inr.inr.inr.inr.inr => exact hds.map fun _ => id
  all_goals exact hds

private theorem built_varDecl (h : Shaped Built varDecl.form long cs) :
    varDecl.Built long cs := by
  obtain ⟨x, ds, rfl, hrest⟩ := (h.of_mark_seq (by decide)).of_token_seq (by decide)
  have hopt := hrest.of_seq_mark (by decide)
  cases hopt with
  | optNone => exact .built trivial
  | optSome h =>
    obtain ⟨es, rfl, hes⟩ := (h.of_mark_seq (by decide)).of_rule
    exact (builds_firstExpr? hes).bind_pure fun _ => Stmt.complete_var

private theorem built_forStmt (h : Shaped Built forStmt.form long cs) :
    forStmt.Built long cs := by
  obtain ⟨_, _, inits, _, rfl, rfl, hinits, hrest⟩ :=
    ((h.of_mark_seq (by decide)).of_mark_seq (by decide)).of_rule_seq
  obtain ⟨_, _, conds, _, rfl, rfl, hcond, hrest⟩ := hrest.of_rule_seq
  obtain ⟨_, _, steps, _, rfl, rfl, hsteps, hrest⟩ := (hrest.of_mark_seq (by decide)).of_rule_seq
  obtain ⟨body, rfl, hbody⟩ := (hrest.of_mark_seq (by decide)).of_rule
  -- The body is built before the step.
  exact Builds.bind hinits fun _ hi => Builds.bind hcond fun _ hc => Builds.comm <|
    Builds.bind hbody fun _ hb => Builds.bind_pure hsteps fun _ hs =>
      Stmt.complete_for hi hc hb hs

private theorem built_forInit (h : Shaped Built forInit.form long cs) :
    forInit.Built long cs := by
  obtain ⟨a, ha, h⟩ := h.of_oneOf
  simp only [List.mem_cons, List.not_mem_nil, or_false] at ha
  rcases ha with rfl | rfl | rfl
  · obtain ⟨ds, rfl, hds⟩ := h.of_rule
    exact Builds.bind_pure hds fun _ hs => ⟨hs, trivial⟩
  · obtain ⟨ds, rfl, hds⟩ := h.of_rule
    exact Builds.bind_pure hds fun _ hs => ⟨hs, trivial⟩
  · obtain ⟨rfl, rfl⟩ := h.of_mark (by decide)
    exact .built trivial

private theorem built_forStep (h : Shaped Built forStep.form long cs) :
    forStep.Built long cs := by
  cases h with
  | optNone => exact .built trivial
  | optSome h =>
    obtain ⟨ds, rfl, hds⟩ := h.of_rule
    exact Builds.bind_pure hds fun _ he => ⟨he, trivial⟩

private theorem built_ifStmt (h : Shaped Built ifStmt.form long cs) : ifStmt.Built long cs := by
  obtain ⟨_, _, conds, _, rfl, rfl, hcond, hrest⟩ :=
    ((h.of_mark_seq (by decide)).of_mark_seq (by decide)).of_rule_seq
  obtain ⟨_, _, yes, _, rfl, rfl, hyes, hopt⟩ := (hrest.of_mark_seq (by decide)).of_rule_seq
  -- The `else` block is built first.
  rw [← List.append_assoc]
  apply Builds.comm
  cases hopt with
  | optNone =>
    exact Builds.bind (P := Stmt.AllComplete) (.built trivial) fun _ hn =>
      Builds.bind hcond fun _ hc => Builds.bind_pure hyes fun _ hy => ⟨hc, hy, hn⟩
  | optSome h =>
    obtain ⟨no, rfl, hno⟩ := (h.of_mark_seq (by decide)).of_rule
    exact Builds.bind hno fun _ hn => Builds.bind hcond fun _ hc =>
      Builds.bind_pure hyes fun _ hy => ⟨hc, hy, hn⟩

private theorem built_whileStmt (h : Shaped Built whileStmt.form long cs) :
    whileStmt.Built long cs := by
  obtain ⟨_, _, conds, body, rfl, rfl, hcond, hrest⟩ :=
    ((h.of_mark_seq (by decide)).of_mark_seq (by decide)).of_rule_seq
  obtain ⟨es, rfl, hbody⟩ := (hrest.of_mark_seq (by decide)).of_rule
  exact Builds.bind hcond fun _ hc => Builds.bind_pure hbody fun _ hb => ⟨hc, hb⟩

end Built

/-- What is built under the parts of a rule is built under the rule. -/
theorem built {r : Rule} {long : List Nat} {cs : List Tree} (h : Shaped Built r.form long cs) :
    r.Built long cs := by
  cases r with
  | program => exact builds_stmts h
  | declaration => exact built_declaration h
  | funDecl => exact built_funDecl h
  | parameters => exact built_parameters h
  | statement => exact built_statement h
  | exprStmt =>
    obtain ⟨ds, rfl, hds⟩ := (h.of_seq_mark (by decide)).of_rule
    exact hds.map fun _ => id
  | printStmt =>
    obtain ⟨ds, rfl, hds⟩ := ((h.of_mark_seq (by decide)).of_seq_mark (by decide)).of_rule
    exact hds.map fun _ => id
  | varDecl => exact built_varDecl h
  | forStmt => exact built_forStmt h
  | forInit => exact built_forInit h
  | forCond => exact builds_option h
  | forStep => exact built_forStep h
  | ifStmt => exact built_ifStmt h
  | whileStmt => exact built_whileStmt h
  | returnStmt =>
    have hopt := (h.of_mark_seq (by decide)).of_seq_mark (by decide)
    exact (builds_option hopt).map fun _ => Stmt.complete_ret
  | block => exact builds_stmts ((h.of_mark_seq (by decide)).of_seq_mark (by decide))
  | expr => exact built_expr h
  | term => exact built_term h
  | call => exact built_call h
  | value => exact built_value h
  | foreign name => trivial

end Rule

/-! ### Programs -/

/-- The program of a source text that is parsed is built. -/
theorem Tree.builds_toProgram {source : String} {t : Tree} (h : ofSource source = .ok t) :
    Builds Program.Complete (Token.longInts (Scanned.ofString source).tokens) t.toProgram := by
  obtain ⟨ts, hcuts, hts⟩ := ofSource_eq_ok_iff.1 h
  have hscan : Scanned.ofString source = ⟨ts, none⟩ := Scanned.ofChars_eq_iff.2 hcuts
  have hshaped := hts.shaped Rule.built hcuts.writes
  rw [hscan]
  obtain ⟨cs, hcs, hbuilt⟩ := hshaped.of_rule
  obtain rfl := List.singleton_inj.1 hcs
  exact hbuilt

/-- A source text that is parsed is a program unless it has an integer with too many digits; then
the length of one of these is blamed. -/
theorem Tree.toProgram_of_source {source : String} {t : Tree} (h : ofSource source = .ok t) :
    ((∃ p, t.toProgram = .ok p) ↔
      ∀ u ∈ (Scanned.ofString source).tokens, u.kind = .int →
        u.text.length ≤ Decimal.maxDigits) ∧
    ∀ d, t.toProgram = .error d →
      ∃ u ∈ (Scanned.ofString source).tokens, u.kind = .int ∧
        Decimal.maxDigits < u.text.length ∧ d = .longInteger u.text.length := by
  have hbuilds := builds_toProgram h
  rw [hbuilds.exists_ok_iff, Token.longInts_eq_nil_iff]
  refine ⟨Iff.rfl, fun d hd => ?_⟩
  rw [hd] at hbuilds
  obtain ⟨n, hn, rfl⟩ := hbuilds.of_error
  obtain ⟨u, hu, hkind, hlong, rfl⟩ := Token.mem_longInts.1 hn
  exact ⟨u, hu, hkind, hlong, rfl⟩

/-- A loop without any of its parts, in a function, is built. -/
theorem Tree.toProgram_of_source_loop :
    ∃ t, ofSource "fun f(a) \x7b for (;;) \x7b return a + 1.5; \x7d \x7d" = .ok t ∧
      ∃ p, t.toProgram = .ok p := by
  have hok : (ofSource "fun f(a) \x7b for (;;) \x7b return a + 1.5; \x7d \x7d").isOk = true := by
    decide +kernel
  cases h : ofSource "fun f(a) \x7b for (;;) \x7b return a + 1.5; \x7d \x7d" with
  | error e =>
    rw [h] at hok
    cases hok
  | ok t =>
    refine ⟨t, rfl, (toProgram_of_source h).1.2 ?_⟩
    decide +kernel

end Lox
