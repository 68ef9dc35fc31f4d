import Lox.Grammar.Parse

/-!
# Prediction is complete

The parser decides on one token, and on the one after it where a call and a value both begin with a
name. That loses nothing: an instance of a form is found, with its trees, in front of any tokens
that could not belong to it as well. `Rule.goesOn` says which tokens those are, and
`Form.Predictive` what makes the choices of a form unambiguous. The nesting of forms is bounded by
the number of tokens, so the allowance of the parser suffices.
-/

namespace Lox

namespace Rule

/-- Whether an instance of the rule could be read on into a token of the kind `k` after it. -/
def goesOn (r : Rule) (k : Kind) : Bool :=
  match r with
  | program => k = .elseWord || k = .funWord || k.startsStatement
  | declaration | statement | ifStmt => k = .elseWord
  | parameters => k = .comma
  | forCond | forStep => k.startsTerm || Form.infixOperator.opens k none
  | expr => k = .leftParen || Form.infixOperator.opens k none
  | term | value => k = .leftParen
  | funDecl | exprStmt | printStmt | varDecl | forStmt | forInit | whileStmt | returnStmt | block
  | call | foreign _ => false

/-- How many forms an instance of the rule opens at most before its first token. -/
def weight : Rule → Nat
  | program => 25
  | declaration => 22
  | statement => 19
  | exprStmt => 17
  | forInit => 20
  | forCond | forStep => 17
  | expr => 15
  | term => 12
  | value => 9
  | _ => 3

end Rule

namespace Form

/-- Whether an instance of the form can begin with a token of the kind `k`, whatever is after it. -/
def mayOpen (a : Form) (k : Kind) : Bool := a.opens k (some .leftParen)

/-- Whether an instance of the form could be read on into a token of the kind `k` after it. -/
def goesOn (k : Kind) : Form → Bool
  | token _ | mark _ | empty => false
  | rule r => r.goesOn k
  | seq a b => b.goesOn k || (b.nullable && a.goesOn k)
  | alt a b => a.goesOn k || b.goesOn k
  | opt a | many a => a.mayOpen k || a.goesOn k

/-- How many forms an instance of the form opens at most before its first token. -/
def weight : Form → Nat
  | token _ | mark _ => 0
  | rule r => r.weight
  | empty => 1
  | seq a b => 1 + max a.weight (if a.nullable then b.weight else b.weight - 64)
  | alt a b => 1 + max a.weight b.weight
  | opt a | many a => 1 + a.weight

/-- Whether no instance of the form could be read on into the first of the tokens `rest`. -/
def Stops (a : Form) (rest : List Token) : Prop := ∀ t ∈ rest.head?, a.goesOn t.kind = false

/-- No instance of `b`, with what can follow it, looks like the beginning of one of `a`. -/
def Apart (a b : Form) : Prop :=
  ∀ {ts : List Token} {cs : List Tree}, Derives b ts cs →
    ∀ {rest : List Token}, (alt a b).Stops rest → a.opensOn (ts ++ rest) = false

/-- Every choice of the form is decided by what is next. -/
def Predictive : Form → Prop
  | token _ | mark _ | rule _ | empty => True
  | seq a b => a.Predictive ∧ b.Predictive ∧ ∀ k, (a.goesOn k && b.mayOpen k) = false
  | alt a b =>
    a.Predictive ∧ b.Predictive ∧ a.nullable = false ∧ b.nullable = false ∧ Apart a b
  | opt a => a.Predictive ∧ a.nullable = false
  | many a => a.Predictive ∧ a.nullable = false ∧ ∀ k, (a.goesOn k && a.mayOpen k) = false

end Form

/-! ### The tables of the rules -/

namespace Rule

private theorem goesOn_of_form {r : Rule} {k : Kind} (h : r.form.goesOn k = true) :
    r.goesOn k = true := by
  revert h
  cases r with
  | program | parameters | statement | forCond | forStep | ifStmt | expr | term | value =>
    cases k <;> first | exact id | exact nofun
  | _ => exact id

/-- The weight of a rule leaves room for its form. -/
theorem weight_form (r : Rule) : 1 + r.form.weight ≤ r.weight := by
  cases r with
  | foreign name => simp [form, Form.weight, weight]
  | _ => decide

private theorem nullable_form (r : Rule) : r.form.nullable = r.nullable := by
  cases r <;> rfl

-- A call is told from a name by one token more than its form asks for.
private theorem opens_of_form {r : Rule} (hr : r ≠ call) {k : Kind} {next : Option Kind}
    (h : r.form.opens k next = true) : r.opens k next = true := by
  revert h
  cases r with
  | call => exact (hr rfl).elim
  | program | declaration | foreign => exact id
  | statement | forInit | value | exprStmt | forCond | forStep | expr =>
    cases k <;> exact id
  | term =>
    simp only [form, Form.opens, Form.prefixOperator, Form.oneOf, Form.nullable, opens]
    cases k <;> simp [Kind.startsTerm, Kind.startsValue]
  | _ => simp [form, Form.inOrder, Form.commaSeparated, Form.opens, Form.nullable, opens]

-- Beginning a call is the only thing that depends on the second token.
private theorem opens_leftParen {r : Rule} {k : Kind} {next : Option Kind}
    (h : r.opens k next = true) : r.opens k (some .leftParen) = true := by
  cases r with
  | call =>
    simp only [opens, Bool.and_eq_true, decide_eq_true_eq] at h ⊢
    exact ⟨h.1, trivial⟩
  | _ => exact h

end Rule

namespace Form

/-- What begins in front of some token can begin. -/
theorem mayOpen_of_opens {a : Form} {k : Kind} {next : Option Kind} (h : a.opens k next = true) :
    a.mayOpen k = true := by
  induction a with
  | token j | mark j => exact h
  | rule r => exact Rule.opens_leftParen h
  | empty => exact h
  | seq a b iha ihb =>
    simp only [mayOpen, opens, Bool.or_eq_true, Bool.and_eq_true] at h iha ihb ⊢
    exact h.imp iha (And.imp_right ihb)
  | alt a b iha ihb =>
    simp only [mayOpen, opens, Bool.or_eq_true] at h iha ihb ⊢
    exact h.imp iha ihb
  | opt a ih | many a ih => exact ih h

/-- The first token, with the kind of the one after it, decides. -/
theorem opensOn_cons (a : Form) (t : Token) (ts : List Token) :
    a.opensOn (t :: ts) = a.opens t.kind (ts.head?.map Token.kind) := by
  cases ts <;> rfl

/-- A form that can begin with more begins where another does. -/
theorem opensOn_mono {a b : Form} {ts : List Token}
    (h : ∀ {k next}, a.opens k next = true → b.opens k next = true)
    (hopens : a.opensOn ts = true) : b.opensOn ts = true := by
  cases ts with
  | nil => exact hopens
  | cons t ts =>
    rw [opensOn_cons] at hopens ⊢
    exact h hopens

/-- What cannot begin with the first token does not begin there. -/
theorem opensOn_eq_false {a : Form} {ts : List Token}
    (h : ∀ t ∈ ts.head?, a.mayOpen t.kind = false) : a.opensOn ts = false := by
  cases ts with
  | nil => rfl
  | cons t ts =>
    rw [opensOn_cons, ← Bool.not_eq_true]
    intro hopens
    have hmay := mayOpen_of_opens hopens
    rw [h t rfl] at hmay
    exact nomatch hmay

end Form

/-! ### What ends a part of a form -/

namespace Form.Stops

variable {a b : Form} {rest : List Token}

/-- What ends an instance of a rule ends one of its form. -/
theorem form {r : Rule} (h : (Form.rule r).Stops rest) : r.form.Stops rest := by
  intro t ht
  rw [← Bool.not_eq_true]
  intro hgoes
  exact Bool.false_ne_true ((h t ht).symm.trans (Rule.goesOn_of_form hgoes))

theorem seqRight (h : (Form.seq a b).Stops rest) : b.Stops rest := fun t ht =>
  (Bool.or_eq_false_iff.1 (h t ht)).1

theorem altLeft (h : (Form.alt a b).Stops rest) : a.Stops rest := fun t ht =>
  (Bool.or_eq_false_iff.1 (h t ht)).1

theorem altRight (h : (Form.alt a b).Stops rest) : b.Stops rest := fun t ht =>
  (Bool.or_eq_false_iff.1 (h t ht)).2

theorem opt (h : (Form.opt a).Stops rest) : a.Stops rest := fun t ht =>
  (Bool.or_eq_false_iff.1 (h t ht)).2

theorem many (h : (Form.many a).Stops rest) : a.Stops rest := fun t ht =>
  (Bool.or_eq_false_iff.1 (h t ht)).2

/-- What ends an option is not the beginning of one. -/
theorem opensOn_opt (h : (Form.opt a).Stops rest) : a.opensOn rest = false :=
  opensOn_eq_false fun t ht => (Bool.or_eq_false_iff.1 (h t ht)).1

/-- What ends a repetition is not the beginning of one more. -/
theorem opensOn_many (h : (Form.many a).Stops rest) : a.opensOn rest = false :=
  opensOn_eq_false fun t ht => (Bool.or_eq_false_iff.1 (h t ht)).1

end Form.Stops

/-! ### Instances -/

namespace Derives

/-- A form with an instance without tokens is nullable. -/
theorem nullable {a : Form} {ts : List Token} {cs : List Tree} (h : Derives a ts cs)
    (hts : ts = []) : a.nullable = true := by
  induction h with
  | token | mark => exact nomatch hts
  | @rule r ts cs h ih => exact (Rule.nullable_form r).symm.trans (ih hts)
  | empty | optNone | optSome | manyNil | manyCons => rfl
  | seq _ _ iha ihb =>
    obtain ⟨hts, hus⟩ := List.append_eq_nil_iff.1 hts
    rw [Form.nullable, iha hts, ihb hus, Bool.and_self]
  | altLeft _ ih => rw [Form.nullable, ih hts, Bool.true_or]
  | altRight _ ih => rw [Form.nullable, ih hts, Bool.or_true]

private theorem call_eq {ts : List Token} {cs : List Tree} (h : Derives Rule.call.form ts cs) :
    ∃ t u us, ts = t :: u :: us ∧ t.kind = .ident ∧ u.kind = .leftParen := by
  cases h with
  | seq ha hb =>
    cases ha with
    | token ht =>
      cases hb with
      | seq hb hc =>
        cases hb with
        | mark hu => exact ⟨_, _, _, rfl, ht, hu⟩

/-- An instance begins as its form does. -/
theorem opensOn {a : Form} {ts : List Token} {cs : List Tree} (h : Derives a ts cs)
    (hts : ts ≠ []) (rest : List Token) : a.opensOn (ts ++ rest) = true := by
  induction h generalizing rest with
  | token ht | mark ht =>
    rw [List.singleton_append, Form.opensOn_cons, Form.opens, ht, decide_eq_true rfl]
  | @rule r ts cs h ih =>
    by_cases hr : r = .call
    · subst hr
      obtain ⟨t, u, us, rfl, ht, hu⟩ := call_eq h
      simp [Form.opensOn, Form.opens, Rule.opens, ht, hu]
    · exact Form.opensOn_mono (Rule.opens_of_form hr) (ih hts rest)
  | empty | optNone | manyNil => exact (hts rfl).elim
  | @seq a b ts us cs ds ha hb iha ihb =>
    rw [List.append_assoc]
    by_cases hnil : ts = []
    · subst hnil
      refine Form.opensOn_mono (fun h => ?_) (ihb hts rest)
      rw [Form.opens, ha.nullable rfl, h, Bool.and_self, Bool.or_true]
    · refine Form.opensOn_mono (fun h => ?_) (iha hnil _)
      rw [Form.opens, h, Bool.true_or]
  | altLeft _ ih =>
    refine Form.opensOn_mono (fun h => ?_) (ih hts rest)
    rw [Form.opens, h, Bool.true_or]
  | altRight _ ih =>
    refine Form.opensOn_mono (fun h => ?_) (ih hts rest)
    rw [Form.opens, h, Bool.or_true]
  | optSome _ ih => exact Form.opensOn_mono id (ih hts rest)
  | @manyCons a ts us cs ds ha hm iha ihm =>
    rw [List.append_assoc]
    by_cases hnil : ts = []
    · subst hnil
      exact ihm hts rest
    · exact Form.opensOn_mono id (iha hnil _)

/-- The first token of an instance is one that its form can begin with. -/
theorem mayOpen_head {a : Form} {ts : List Token} {cs : List Tree} (h : Derives a ts cs) :
    ∀ t ∈ ts.head?, a.mayOpen t.kind = true := by
  intro t ht
  obtain ⟨us, rfl⟩ := List.head?_eq_some_iff.1 ht
  have hopens := h.opensOn (List.cons_ne_nil _ _) []
  rw [List.append_nil, Form.opensOn_cons] at hopens
  exact Form.mayOpen_of_opens hopens

/-- An instance of a form that is not nullable has a token. -/
theorem ne_nil {a : Form} {ts : List Token} {cs : List Tree} (h : Derives a ts cs)
    (ha : a.nullable = false) : ts ≠ [] := by
  intro hts
  rw [h.nullable hts] at ha
  exact nomatch ha

end Derives

/-! ### Rules are predictive -/

namespace Form

section Predictive

variable {a b : Form} {j : Kind}

private theorem predictive_mark_seq (hb : b.Predictive) : (seq (mark j) b).Predictive :=
  ⟨trivial, hb, fun _ => rfl⟩

private theorem predictive_token_seq (hb : b.Predictive) : (seq (token j) b).Predictive :=
  ⟨trivial, hb, fun _ => rfl⟩

private theorem predictive_seq_mark (ha : a.Predictive) (hj : a.goesOn j = false) :
    (seq a (mark j)).Predictive := by
  refine ⟨ha, trivial, fun k => ?_⟩
  by_cases hk : k = j
  · rw [hk, hj, Bool.false_and]
  · rw [mayOpen, opens, decide_eq_false hk, Bool.and_false]

private theorem predictive_seq_mark_seq (ha : a.Predictive) (hj : a.goesOn j = false)
    (hb : b.Predictive) : (seq a (seq (mark j) b)).Predictive := by
  refine ⟨ha, predictive_mark_seq hb, fun k => ?_⟩
  by_cases hk : k = j
  · rw [hk, hj, Bool.false_and]
  · rw [mayOpen, opens, opens, nullable, decide_eq_false hk, Bool.false_and, Bool.or_self,
      Bool.and_false]

private theorem predictive_alt (ha : a.Predictive) (hb : b.Predictive)
    (hna : a.nullable = false) (hnb : b.nullable = false)
    (h : ∀ k, (a.mayOpen k && b.mayOpen k) = false) : (alt a b).Predictive := by
  refine ⟨ha, hb, hna, hnb, fun {ts cs} hts rest _ => opensOn_eq_false fun t ht => ?_⟩
  obtain ⟨u, us, rfl⟩ := List.exists_cons_of_ne_nil (hts.ne_nil hnb)
  obtain rfl := Option.some.inj ht
  have hk := h u.kind
  rwa [hts.mayOpen_head u rfl, Bool.and_true] at hk

private theorem predictive_token_alt (hb : b.Predictive) (hnb : b.nullable = false)
    (hj : b.mayOpen j = false) : (alt (token j) b).Predictive := by
  refine predictive_alt trivial hb rfl hnb fun k => ?_
  by_cases hk : k = j
  · rw [hk, hj, Bool.and_false]
  · rw [mayOpen, opens, decide_eq_false hk, Bool.false_and]

private theorem predictive_infixOperator : infixOperator.Predictive := by
  repeat refine predictive_token_alt ?_ rfl rfl
  trivial

private theorem predictive_prefixOperator : prefixOperator.Predictive := by
  repeat refine predictive_token_alt ?_ rfl rfl
  trivial

private theorem predictive_commaSeparated (ha : a.Predictive) (hna : a.nullable = false)
    (hcomma : a.goesOn .comma = false) : (commaSeparated a).Predictive := by
  have hbegins (k : Kind) : (a.goesOn k && (seq (mark .comma) a).mayOpen k) = false := by
    by_cases hk : k = .comma
    · rw [hk, hcomma, Bool.false_and]
    · rw [mayOpen, opens, opens, nullable, decide_eq_false hk, Bool.false_and, Bool.or_self,
        Bool.and_false]
  refine ⟨ha, ⟨predictive_mark_seq ha, rfl, fun k => ?_⟩, hbegins⟩
  rw [goesOn, hna, Bool.false_and, Bool.or_false]
  exact hbegins k

end Predictive

private theorem value_eq {ts : List Token} {cs : List Tree} (h : Derives Rule.value.form ts cs) :
    ∃ t us, ts = t :: us ∧ (t.kind = .ident → us = []) := by
  have htoken {j : Kind} {b : Form}
      (hb : Derives b ts cs → ∃ t us, ts = t :: us ∧ (t.kind = .ident → us = []))
      (h : Derives (alt (token j) b) ts cs) :
      ∃ t us, ts = t :: us ∧ (t.kind = .ident → us = []) := by
    cases h with
    | altLeft h =>
      cases h with
      | token _ => exact ⟨_, [], rfl, fun _ => rfl⟩
    | altRight h => exact hb h
  revert h
  repeat refine htoken ?_
  intro h
  cases h with
  | seq ha _ =>
    cases ha with
    | mark ht => exact ⟨_, _, rfl, fun hident => nomatch ht.symm.trans hident⟩

-- A call has a parenthesis after its name; a name that is a value is never followed by one.
private theorem apart_call_value : Apart (rule .call) (rule .value) := by
  intro ts cs h rest hrest
  cases h with
  | rule h =>
    obtain ⟨t, us, rfl, hident⟩ := value_eq h
    rw [List.cons_append, opensOn_cons, opens, Rule.opens, ← Bool.not_eq_true, Bool.and_eq_true]
    rintro ⟨hk, hnext⟩
    obtain rfl := hident (of_decide_eq_true hk)
    obtain ⟨u, hu, hparen⟩ := Option.map_eq_some_iff.1 (of_decide_eq_true hnext)
    have hgoes := hrest u hu
    rw [hparen] at hgoes
    exact nomatch hgoes

end Form

open Form in
/-- Every choice in the form of a rule is decided by what is next. -/
theorem Rule.predictive (r : Rule) : r.form.Predictive := by
  cases r with
  | program => exact ⟨trivial, rfl, fun k => by cases k <;> rfl⟩
  | declaration => exact predictive_alt trivial trivial rfl rfl fun k => by cases k <;> rfl
  | funDecl =>
    exact predictive_mark_seq <| predictive_token_seq <| predictive_mark_seq <|
      predictive_seq_mark_seq ⟨trivial, rfl⟩ rfl trivial
  | parameters => exact predictive_commaSeparated trivial rfl rfl
  | statement =>
    repeat refine predictive_alt trivial ?_ rfl rfl fun k => by cases k <;> rfl
    trivial
  | exprStmt => exact predictive_seq_mark trivial rfl
  | printStmt => exact predictive_mark_seq (predictive_seq_mark trivial rfl)
  | varDecl =>
    exact predictive_mark_seq <| predictive_token_seq <|
      predictive_seq_mark ⟨predictive_mark_seq trivial, rfl⟩ rfl
  | forStmt =>
    refine predictive_mark_seq <| predictive_mark_seq ⟨trivial, ?_, fun k => rfl⟩
    exact predictive_seq_mark_seq trivial rfl <| predictive_seq_mark_seq trivial rfl trivial
  | forInit =>
    repeat refine predictive_alt trivial ?_ rfl rfl fun k => by cases k <;> rfl
    trivial
  | forCond | forStep => exact ⟨trivial, rfl⟩
  | ifStmt =>
    refine predictive_mark_seq <| predictive_mark_seq <| predictive_seq_mark_seq trivial rfl ?_
    exact ⟨trivial, ⟨predictive_mark_seq trivial, rfl⟩, fun k => rfl⟩
  | whileStmt =>
    exact predictive_mark_seq <| predictive_mark_seq <| predictive_seq_mark_seq trivial rfl trivial
  | returnStmt => exact predictive_mark_seq (predictive_seq_mark ⟨trivial, rfl⟩ rfl)
  | block =>
    refine predictive_mark_seq (predictive_seq_mark ⟨trivial, rfl, fun k => ?_⟩ rfl)
    cases k <;> rfl
  | expr =>
    refine ⟨trivial, ⟨⟨predictive_infixOperator, trivial, fun k => ?_⟩, rfl, fun k => ?_⟩,
      fun k => ?_⟩
    all_goals cases k <;> rfl
  | term =>
    refine ⟨⟨predictive_prefixOperator, rfl, fun k => ?_⟩,
      ⟨trivial, trivial, rfl, rfl, apart_call_value⟩, fun k => ?_⟩
    all_goals cases k <;> rfl
  | call =>
    refine predictive_token_seq <| predictive_mark_seq <|
      predictive_seq_mark ⟨predictive_commaSeparated trivial rfl rfl, rfl⟩ rfl
  | value =>
    repeat refine predictive_token_alt ?_ rfl rfl
    exact predictive_mark_seq (predictive_seq_mark trivial rfl)
  | foreign name => trivial

/-! ### Parsing -/

namespace Derives

/-- What comes after an instance is the beginning of the next, or what comes after that. -/
theorem stops_append {a b : Form} {ts rest : List Token} {cs : List Tree}
    (h : Derives b ts cs) (hab : ∀ k, (a.goesOn k && b.mayOpen k) = false)
    (hrest : ts = [] → a.Stops rest) : a.Stops (ts ++ rest) := by
  intro t ht
  cases ts with
  | nil => exact hrest rfl t ht
  | cons u ts =>
    obtain rfl := Option.some.inj ht
    have hk := hab u.kind
    rwa [h.mayOpen_head u rfl, Bool.and_true] at hk

/-- What ends a sequence, with the second part before it, ends the first part. -/
theorem stops_left {a b : Form} {ts rest : List Token} {cs : List Tree} (h : Derives b ts cs)
    (hab : ∀ k, (a.goesOn k && b.mayOpen k) = false) (hrest : (Form.seq a b).Stops rest) :
    a.Stops (ts ++ rest) := by
  refine h.stops_append hab fun hnil t ht => ?_
  have hgoes := hrest t ht
  rw [Form.goesOn, h.nullable hnil, Bool.true_and, Bool.or_eq_false_iff] at hgoes
  exact hgoes.2

private theorem exists_succ {n depth : Nat} (h : n ≤ depth) (hn : 0 < n) :
    ∃ d, depth = d + 1 := ⟨depth - 1, by omega⟩

/-- An instance in front of tokens that cannot belong to it is found, if forms may nest deep
enough. -/
theorem parse {a : Form} {ts : List Token} {cs : List Tree} (h : Derives a ts cs)
    (ha : a.Predictive) {rest : List Token} (hrest : a.Stops rest) {depth : Nat}
    (hdepth : 64 * ts.length + a.weight ≤ depth) :
    a.parse depth (ts ++ rest) = .done cs rest := by
  induction h generalizing rest depth with
  | @token t kind ht =>
    obtain ⟨d, rfl⟩ := exists_succ hdepth (by rw [List.length_singleton]; omega)
    simp [Form.parse, Form.expect, ht]
  | @mark t kind ht =>
    obtain ⟨d, rfl⟩ := exists_succ hdepth (by rw [List.length_singleton]; omega)
    simp [Form.parse, Form.expect, ht]
  | @rule r ts cs h ih =>
    have hweight := r.weight_form
    rw [Form.weight] at hdepth
    obtain ⟨d, rfl⟩ := exists_succ hdepth (by omega)
    rw [Form.parse, ih r.predictive hrest.form (by omega)]
    rfl
  | empty =>
    rw [Form.weight] at hdepth
    obtain ⟨d, rfl⟩ := exists_succ hdepth (by omega)
    rfl
  | @seq a b ts us cs ds hl hr ihl ihr =>
    obtain ⟨hpa, hpb, hab⟩ := ha
    rw [Form.weight, List.length_append] at hdepth
    obtain ⟨d, rfl⟩ := exists_succ hdepth (by omega)
    have hleft : a.Stops (us ++ rest) := hr.stops_left hab hrest
    have hright : b.Stops rest := hrest.seqRight
    -- The second form has the allowance of the tokens before it, if there are any.
    have hdepth' : 64 * us.length + b.weight ≤ d := by
      by_cases hnil : ts = []
      · rw [hl.nullable hnil, if_pos rfl] at hdepth
        omega
      · have hpos := List.length_pos_iff.2 hnil
        split at hdepth <;> omega
    rw [Form.parse, List.append_assoc, ihl hpa hleft (by omega), Parsed.andThen]
    rw [ihr hpb hright hdepth']
  | @altLeft a b ts cs h ih =>
    obtain ⟨hpa, -, hna, -⟩ := ha
    rw [Form.weight] at hdepth
    obtain ⟨d, rfl⟩ := exists_succ hdepth (by omega)
    rw [Form.parse, if_pos (h.opensOn (h.ne_nil hna) rest)]
    exact ih hpa hrest.altLeft (by omega)
  | @altRight a b ts cs h ih =>
    obtain ⟨-, hpb, -, -, happart⟩ := ha
    rw [Form.weight] at hdepth
    obtain ⟨d, rfl⟩ := exists_succ hdepth (by omega)
    rw [Form.parse, happart h hrest, if_neg Bool.false_ne_true]
    exact ih hpb hrest.altRight (by omega)
  | @optNone a =>
    rw [Form.weight] at hdepth
    obtain ⟨d, rfl⟩ := exists_succ hdepth (by omega)
    rw [List.nil_append, Form.parse, hrest.opensOn_opt, if_neg Bool.false_ne_true]
  | @optSome a ts cs h ih =>
    obtain ⟨hpa, hna⟩ := ha
    rw [Form.weight] at hdepth
    obtain ⟨d, rfl⟩ := exists_succ hdepth (by omega)
    rw [Form.parse, if_pos (h.opensOn (h.ne_nil hna) rest)]
    exact ih hpa hrest.opt (by omega)
  | @manyNil a =>
    rw [Form.weight] at hdepth
    obtain ⟨d, rfl⟩ := exists_succ hdepth (by omega)
    rw [List.nil_append, Form.parse, hrest.opensOn_many, if_neg Bool.false_ne_true]
  | @manyCons a ts us cs ds hl hm ihl ihm =>
    obtain ⟨hpa, hna, haa⟩ := id ha
    have hpos := List.length_pos_iff.2 (hl.ne_nil hna)
    rw [Form.weight, List.length_append] at hdepth
    obtain ⟨d, rfl⟩ := exists_succ hdepth (by omega)
    have hstops : a.Stops (us ++ rest) := hm.stops_append haa fun _ => hrest.many
    rw [List.append_assoc, Form.parse, if_pos (hl.opensOn (hl.ne_nil hna) _),
      ihl hpa hstops (by omega), Parsed.andThen]
    rw [ihm ha hrest (by rw [Form.weight]; omega)]

end Derives

/-- A program is parsed to its tree. -/
theorem Tree.ofTokens_of_derives {ts : List Token} {t : Tree}
    (h : Derives (.rule .program) ts [t]) : Tree.ofTokens ts = .ok t := by
  have hstops : (Form.rule .program).Stops [] := fun _ h => nomatch h
  have hdepth : 64 * ts.length + (Form.rule .program).weight ≤ Form.depthFor ts.length := by
    rw [Form.weight, Rule.weight, Form.depthFor]
    omega
  have hparse := h.parse trivial hstops hdepth
  rw [List.append_nil] at hparse
  rw [Tree.ofTokens, hparse]

end Lox
