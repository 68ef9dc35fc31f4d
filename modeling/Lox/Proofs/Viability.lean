import Lox.Proofs.Derivation

/-!
# Viable prefixes

Which tokens can be the beginning of a program. The parser stops at the first token that cannot
follow those before it: what it has taken by then can be completed, since every form has an
instance, and it never looks further than one token behind the place where it is. So no tokens
after the one at which it stops would have let it go on (`Tree.ofTokens_eq_error`).
-/

namespace Lox

/-- The tokens are those of a program. -/
def IsProgram (ts : List Token) : Prop := ∃ t, Derives (.rule .program) ts [t]

/-- The tokens are the beginning of those of a program. -/
def Viable (ts : List Token) : Prop := ∃ us, IsProgram (ts ++ us)

/-! ### Every form has an instance -/

namespace Form

/-- Whether a form has an instance if every rule has one that `known` holds of. -/
def yields (known : Rule → Bool) : Form → Bool
  | token _ | mark _ | empty | opt _ | many _ => true
  | rule r => known r
  | seq a b => a.yields known && b.yields known
  | alt a b => a.yields known || b.yields known

end Form

/-- Whether a rule is found to have an instance in which at most `height` rules nest. -/
def Rule.yields : Nat → Rule → Bool
  | 0, _ => false
  | height + 1, r => r.form.yields (yields height)

private theorem Form.exists_derives_of_yields {known : Rule → Bool}
    (hknown : ∀ r, known r = true → ∃ ts cs, Derives r.form ts cs) {a : Form}
    (ha : a.yields known = true) : ∃ ts cs, Derives a ts cs := by
  induction a with
  | token kind => exact ⟨[⟨kind, "", .start⟩], _, .token rfl⟩
  | mark kind => exact ⟨[⟨kind, "", .start⟩], _, .mark rfl⟩
  | rule r =>
    obtain ⟨ts, cs, h⟩ := hknown r ha
    exact ⟨ts, _, .rule h⟩
  | empty => exact ⟨[], [], .empty⟩
  | seq a b iha ihb =>
    rw [yields, Bool.and_eq_true] at ha
    obtain ⟨ts, cs, h⟩ := iha ha.1
    obtain ⟨us, ds, h'⟩ := ihb ha.2
    exact ⟨_, _, .seq h h'⟩
  | alt a b iha ihb =>
    rw [yields, Bool.or_eq_true] at ha
    rcases ha with ha | ha
    · obtain ⟨ts, cs, h⟩ := iha ha
      exact ⟨ts, cs, .altLeft h⟩
    · obtain ⟨ts, cs, h⟩ := ihb ha
      exact ⟨ts, cs, .altRight h⟩
  | opt a _ => exact ⟨[], [], .optNone⟩
  | many a _ => exact ⟨[], [], .manyNil⟩

private theorem Rule.exists_derives_of_yields (height : Nat) {r : Rule}
    (h : r.yields height = true) : ∃ ts cs, Derives r.form ts cs := by
  induction height generalizing r with
  | zero => cases h
  | succ height ih => exact Form.exists_derives_of_yields (fun _ => ih) h

/-- Every form has an instance. -/
theorem Form.exists_derives (a : Form) : ∃ ts cs, Derives a ts cs := by
  have hrule (r : Rule) : ∃ ts cs, Derives r.form ts cs :=
    Rule.exists_derives_of_yields 4 (by cases r <;> rfl)
  have hall : a.yields (fun _ => true) = true := by
    induction a with
    | seq a b iha ihb => rw [yields, iha, ihb, Bool.and_self]
    | alt a b iha ihb => rw [yields, iha, ihb, Bool.or_self]
    | _ => rfl
  exact exists_derives_of_yields (fun r _ => hrule r) hall

/-! ### What was taken can be completed -/

namespace Parsed

@[simp] theorem andThen_stuck (rest : List Token) (next : List Token → Parsed) :
    (stuck rest).andThen next = .stuck rest := rfl

@[simp] theorem andThen_exhausted (next : List Token → Parsed) :
    exhausted.andThen next = .exhausted := rfl

theorem done_ne_exhausted (trees : List Tree) (rest : List Token) :
    done trees rest ≠ .exhausted := by
  intro h
  cases h

theorem stuck_ne_exhausted (rest : List Token) : stuck rest ≠ .exhausted := by
  intro h
  cases h

/-- A parse that goes on is stuck in its first part, or in its second. -/
theorem andThen_eq_stuck {p : Parsed} {next : List Token → Parsed} {rest : List Token}
    (h : p.andThen next = .stuck rest) :
    p = .stuck rest ∨ ∃ trees mid, p = .done trees mid ∧ next mid = .stuck rest := by
  cases p with
  | done trees mid =>
    right
    rw [andThen] at h
    split at h
    · cases h
    · exact ⟨trees, mid, rfl, h⟩
  | stuck => exact .inl h
  | exhausted => cases h

/-- A parse that goes on ends if its first part does, and its second part wherever that leaves
off. -/
theorem andThen_ne_exhausted {p : Parsed} {next : List Token → Parsed} (hp : p ≠ .exhausted)
    (hnext : ∀ trees mid, p = .done trees mid → next mid ≠ .exhausted) :
    p.andThen next ≠ .exhausted := by
  cases p with
  | done trees mid =>
    rw [andThen]
    split
    · exact done_ne_exhausted _ _
    · exact hnext trees mid rfl
  | stuck => exact stuck_ne_exhausted _
  | exhausted => exact (hp rfl).elim

/-- A parse with a node on top is stuck just where one without is. -/
theorem under_eq_stuck {r : Rule} {p : Parsed} {rest : List Token} :
    p.under r = .stuck rest ↔ p = .stuck rest := by
  cases p <;> simp [under]

/-- A parse with a node on top is exhausted just if one without is. -/
theorem under_eq_exhausted {r : Rule} {p : Parsed} : p.under r = .exhausted ↔ p = .exhausted := by
  cases p <;> simp [under]

end Parsed

namespace Form

private theorem expect_eq_stuck {kind : Kind} {trees : Token → List Tree} {ts rest : List Token}
    (h : expect kind trees ts = .stuck rest) :
    ts = rest ∧ ∀ t ∈ rest.head?, t.kind ≠ kind := by
  cases ts with
  | nil =>
    cases h
    refine ⟨rfl, fun t ht => ?_⟩
    cases ht
  | cons t ts =>
    rw [expect] at h
    split at h
    · cases h
    · rename_i hkind
      cases h
      refine ⟨rfl, fun u hu => ?_⟩
      obtain rfl := Option.some.inj hu
      exact hkind

/-- Where parsing is stuck, the tokens before are the beginning of an instance. -/
theorem starts_of_parse {depth : Nat} {a : Form} {ts rest : List Token}
    (h : a.parse depth ts = .stuck rest) :
    ∃ us vs cs, ts = us ++ rest ∧ Derives a (us ++ vs) cs := by
  have hstart {b : Form} {ts : List Token} (hts : ts = rest) :
      ∃ us vs cs, ts = us ++ rest ∧ Derives b (us ++ vs) cs := by
    obtain ⟨vs, cs, hb⟩ := b.exists_derives
    exact ⟨[], vs, cs, hts, hb⟩
  induction depth generalizing a ts with
  | zero =>
    rw [parse] at h
    cases h
  | succ depth ih =>
    cases a with
    | token kind | mark kind => exact hstart (expect_eq_stuck h).1
    | rule r =>
      obtain ⟨us, vs, cs, hts, hus⟩ := ih (Parsed.under_eq_stuck.1 h)
      exact ⟨us, vs, _, hts, .rule hus⟩
    | empty => cases h
    | seq a b =>
      rcases Parsed.andThen_eq_stuck h with ha | ⟨trees, mid, ha, hb⟩
      · obtain ⟨us, vs, cs, hts, hus⟩ := ih ha
        obtain ⟨ws, ds, hws⟩ := b.exists_derives
        have hboth := Derives.seq hus hws
        rw [List.append_assoc] at hboth
        exact ⟨us, vs ++ ws, _, hts, hboth⟩
      · obtain ⟨us, rfl, hus⟩ := derives_of_parse ha
        obtain ⟨vs, ws, ds, rfl, hvs⟩ := ih hb
        have hboth := Derives.seq hus hvs
        rw [← List.append_assoc] at hboth
        exact ⟨us ++ vs, ws, _, (List.append_assoc ..).symm, hboth⟩
    | alt a b =>
      rw [parse] at h
      split at h
      · obtain ⟨us, vs, cs, hts, hus⟩ := ih h
        exact ⟨us, vs, cs, hts, .altLeft hus⟩
      · obtain ⟨us, vs, cs, hts, hus⟩ := ih h
        exact ⟨us, vs, cs, hts, .altRight hus⟩
    | opt a =>
      rw [parse] at h
      split at h
      · obtain ⟨us, vs, cs, hts, hus⟩ := ih h
        exact ⟨us, vs, cs, hts, .optSome hus⟩
      · cases h
    | many a =>
      rw [parse] at h
      split at h
      · rcases Parsed.andThen_eq_stuck h with ha | ⟨trees, mid, ha, hm⟩
        · obtain ⟨us, vs, cs, hts, hus⟩ := ih ha
          have hone := Derives.manyCons hus .manyNil
          rw [List.append_nil] at hone
          exact ⟨us, vs, _, hts, hone⟩
        · obtain ⟨us, rfl, hus⟩ := derives_of_parse ha
          obtain ⟨vs, ws, ds, rfl, hvs⟩ := ih hm
          have hboth := Derives.manyCons hus hvs
          rw [← List.append_assoc] at hboth
          exact ⟨us ++ vs, ws, _, (List.append_assoc ..).symm, hboth⟩
      · cases h

/-! ### No token behind the next one counts -/

/-- Whether an instance of the form can begin with a token does not depend on the token after
it. -/
def Steady (a : Form) : Prop := ∀ k next next', a.opens k next = a.opens k next'

/-- Every choice of the form is decided by one token, but that between a call and a value. -/
def Decided : Form → Prop
  | token _ | mark _ | rule _ | empty => True
  | seq a b => a.Decided ∧ b.Decided
  | alt a b => a.Decided ∧ b.Decided ∧ (a.Steady ∨ a = rule .call ∧ b = rule .value)
  | opt a | many a => a.Decided ∧ a.Steady

end Form

open Form in
/-- Every choice in the form of a rule is decided by one token, or it is that between a call and a
value. -/
theorem Rule.decided (r : Rule) : r.form.Decided := by
  have hinfixed : infixOperator.Decided := by
    repeat refine ⟨trivial, ?_, .inl fun _ _ _ => rfl⟩
    trivial
  have hprefixed : prefixOperator.Decided := by
    repeat refine ⟨trivial, ?_, .inl fun _ _ _ => rfl⟩
    trivial
  have hcommas {a : Form} (ha : a.Decided) : (commaSeparated a).Decided :=
    ⟨ha, ⟨trivial, ha⟩, fun _ _ _ => rfl⟩
  cases r with
  | program => exact ⟨trivial, fun _ _ _ => rfl⟩
  | declaration => exact ⟨trivial, trivial, .inl fun _ _ _ => rfl⟩
  | funDecl => exact ⟨trivial, trivial, trivial, ⟨trivial, fun _ _ _ => rfl⟩, trivial, trivial⟩
  | parameters => exact hcommas trivial
  | statement =>
    repeat refine ⟨trivial, ?_, .inl fun _ _ _ => rfl⟩
    trivial
  | exprStmt => exact ⟨trivial, trivial⟩
  | printStmt => exact ⟨trivial, trivial, trivial⟩
  | varDecl => exact ⟨trivial, trivial, ⟨⟨trivial, trivial⟩, fun _ _ _ => rfl⟩, trivial⟩
  | forStmt => exact ⟨trivial, trivial, trivial, trivial, trivial, trivial, trivial, trivial⟩
  | forInit =>
    repeat refine ⟨trivial, ?_, .inl fun _ _ _ => rfl⟩
    trivial
  | forCond | forStep => exact ⟨trivial, fun _ _ _ => rfl⟩
  | ifStmt =>
    exact ⟨trivial, trivial, trivial, trivial, trivial, ⟨trivial, trivial⟩, fun _ _ _ => rfl⟩
  | whileStmt => exact ⟨trivial, trivial, trivial, trivial, trivial⟩
  | returnStmt => exact ⟨trivial, ⟨trivial, fun _ _ _ => rfl⟩, trivial⟩
  | block => exact ⟨trivial, ⟨trivial, fun _ _ _ => rfl⟩, trivial⟩
  | expr => exact ⟨trivial, ⟨hinfixed, trivial⟩, fun _ _ _ => rfl⟩
  | term => exact ⟨⟨hprefixed, fun _ _ _ => rfl⟩, trivial, trivial, .inr ⟨rfl, rfl⟩⟩
  | call => exact ⟨trivial, trivial, ⟨hcommas trivial, fun _ _ _ => rfl⟩, trivial⟩
  | value =>
    repeat refine ⟨trivial, ?_, .inl fun _ _ _ => rfl⟩
    exact ⟨trivial, trivial, trivial⟩
  | foreign name => trivial

namespace Form

variable {a b : Form} {x : Token} {vs ws xs xs' : List Token} {cs : List Tree} {depth depth' : Nat}

-- What is behind the second token does not matter for a choice, and for most not what is behind the
-- first.
private theorem opensOn_congr (h : ws ≠ [] ∨ a.Steady) (x : Token) (xs xs' : List Token) :
    a.opensOn (ws ++ x :: xs) = a.opensOn (ws ++ x :: xs') := by
  cases ws with
  | nil =>
    have hsteady := h.resolve_left fun hnil => hnil rfl
    rw [List.nil_append, List.nil_append, opensOn_cons, opensOn_cons]
    exact hsteady _ _ _
  | cons w ws =>
    rw [List.cons_append, List.cons_append, opensOn_cons, opensOn_cons]
    cases ws <;> rfl

-- A name begins a call as well as a value, so neither of them is stuck at one.
private theorem call_ne_stuck (hx : x.kind = .ident) :
    (rule .call).parse depth (x :: xs) ≠ .stuck (x :: xs) := by
  intro h
  cases depth with
  | zero => cases h
  | succ depth =>
    have hform := Parsed.under_eq_stuck.1 h
    cases depth with
    | zero => cases hform
    | succ depth =>
      rcases Parsed.andThen_eq_stuck hform with hname | ⟨trees, mid, hname, hrest⟩
      · cases depth with
        | zero => cases hname
        | succ depth => exact (expect_eq_stuck hname).2 x rfl hx
      · obtain ⟨us, hus, hderives⟩ := derives_of_parse hname
        obtain ⟨vs, -, -, rfl, -⟩ := starts_of_parse hrest
        have hlength := congrArg List.length hus
        have hpos := List.length_pos_iff.2 (hderives.ne_nil rfl)
        simp only [List.length_append, List.length_cons] at hlength
        omega

private theorem value_ne_stuck (hx : x.kind = .ident) :
    (rule .value).parse depth (x :: xs) ≠ .stuck (x :: xs) := by
  intro h
  cases depth with
  | zero => cases h
  | succ depth =>
    have hform := Parsed.under_eq_stuck.1 h
    -- the alternatives before the name are left out one by one
    have hskip {k : Kind} {b : Form} (hk : k ≠ .ident)
        (h : ∃ d, (alt (token k) b).parse d (x :: xs) = .stuck (x :: xs)) :
        ∃ d, b.parse d (x :: xs) = .stuck (x :: xs) := by
      obtain ⟨d, h⟩ := h
      cases d with
      | zero => cases h
      | succ d =>
        have hopens : (token k).opensOn (x :: xs) = false := by
          rw [opensOn_cons, opens, hx, decide_eq_false (Ne.symm hk)]
        rw [parse, hopens, if_neg Bool.false_ne_true] at h
        exact ⟨d, h⟩
    obtain ⟨d, hname⟩ := hskip (k := .nil) (by decide) <| hskip (k := .no) (by decide) <|
      hskip (k := .yes) (by decide) <| hskip (k := .string) (by decide) <|
      hskip (k := .int) (by decide) <| hskip (k := .float) (by decide) ⟨depth, hform⟩
    have hopens : (token .ident).opensOn (x :: xs) = true := by
      rw [opensOn_cons, opens, hx, decide_eq_true rfl]
    cases d with
    | zero => cases hname
    | succ d =>
      rw [oneOf, parse, hopens, if_pos rfl] at hname
      cases d with
      | zero => cases hname
      | succ d => exact (expect_eq_stuck hname).2 x rfl hx

private theorem expect_done_congr {kind : Kind} {trees : Token → List Tree}
    (h : expect kind trees (ws ++ x :: xs) = .done cs (vs ++ x :: xs)) :
    expect kind trees (ws ++ x :: xs') = .done cs (vs ++ x :: xs') := by
  obtain ⟨t, hts, hkind, rfl⟩ := expect_eq_done h
  cases ws with
  | nil =>
    have hlength := congrArg List.length hts
    simp only [List.nil_append, List.singleton_append, List.length_cons, List.length_append]
      at hlength
    omega
  | cons w ws =>
    obtain ⟨rfl, hrest⟩ := List.cons.inj hts
    obtain rfl := List.append_cancel_right hrest
    rw [List.cons_append, expect, if_pos hkind]

private theorem expect_stuck_congr {kind : Kind} {trees : Token → List Tree}
    (h : expect kind trees (ws ++ x :: xs) = .stuck (vs ++ x :: xs)) :
    expect kind trees (ws ++ x :: xs') = .stuck (vs ++ x :: xs') := by
  obtain ⟨hts, hkind⟩ := expect_eq_stuck h
  obtain rfl := List.append_cancel_right hts
  cases ws with
  | nil => rw [List.nil_append, expect, if_neg (hkind x rfl)]
  | cons w ws => rw [List.cons_append, expect, if_neg (hkind w rfl)]

private theorem alt_opensOn_of_done (xs' : List Token) (ha : (alt a b).Decided)
    (h : (alt a b).parse depth (ws ++ x :: xs) = .done cs (vs ++ x :: xs)) :
    a.opensOn (ws ++ x :: xs) = a.opensOn (ws ++ x :: xs') := by
  obtain ⟨-, -, hchoice⟩ := ha
  refine opensOn_congr (hchoice.symm.imp_left ?_) x xs xs'
  rintro ⟨rfl, rfl⟩ rfl
  -- neither a call nor a value is empty
  obtain ⟨us, hus, hderives⟩ := derives_of_parse h
  have hlength := congrArg List.length hus
  have hpos := List.length_pos_iff.2 (hderives.ne_nil rfl)
  simp only [List.length_append, List.length_cons, List.length_nil] at hlength
  omega

private theorem alt_opensOn_of_stuck (xs' : List Token) (ha : (alt a b).Decided)
    (h : (alt a b).parse (depth + 1) (ws ++ x :: xs) = .stuck (vs ++ x :: xs)) :
    a.opensOn (ws ++ x :: xs) = a.opensOn (ws ++ x :: xs') := by
  obtain ⟨-, -, hchoice⟩ := ha
  by_cases hws : ws = []
  · subst hws
    rcases hchoice with hsteady | ⟨rfl, rfl⟩
    · exact opensOn_congr (.inr hsteady) x xs xs'
    · -- a name would have been taken as a call or as a value
      have hvs : vs = [] := by
        obtain ⟨us, -, -, hus, -⟩ := starts_of_parse h
        have hlength := congrArg List.length hus
        simp only [List.length_append, List.length_cons, List.length_nil] at hlength
        exact List.length_eq_zero_iff.1 (by omega)
      subst hvs
      have hkind : x.kind ≠ .ident := by
        intro hx
        rw [parse] at h
        split at h
        · exact call_ne_stuck hx h
        · exact value_ne_stuck hx h
      simp only [List.nil_append, opensOn_cons, opens, Rule.opens, decide_eq_false hkind,
        Bool.false_and]
  · exact opensOn_congr (.inl hws) x xs xs'

private theorem parse_done_congr (ha : a.Decided)
    (h : a.parse depth (ws ++ x :: xs) = .done cs (vs ++ x :: xs))
    (h' : a.parse depth' (ws ++ x :: xs') ≠ .exhausted) :
    a.parse depth' (ws ++ x :: xs') = .done cs (vs ++ x :: xs') := by
  induction depth generalizing a ws vs cs depth' with
  | zero =>
    rw [parse] at h
    cases h
  | succ depth ih =>
    cases depth' with
    | zero => exact (h' (by rw [parse])).elim
    | succ depth' =>
      have hthen {a b : Form} (ha : a.Decided) (hb : b.Decided)
          (h : (a.parse depth (ws ++ x :: xs)).andThen (b.parse depth) = .done cs (vs ++ x :: xs))
          (h' : (a.parse depth' (ws ++ x :: xs')).andThen (b.parse depth') ≠ .exhausted) :
          (a.parse depth' (ws ++ x :: xs')).andThen (b.parse depth') =
            .done cs (vs ++ x :: xs') := by
        obtain ⟨trees, mid, more, hfirst, hnext, rfl⟩ := Parsed.andThen_eq_done h
        obtain ⟨us, rfl, -⟩ := derives_of_parse hnext
        rw [← List.append_assoc] at hfirst hnext
        have hfirst' := ih ha hfirst fun hnone => h' (by rw [hnone, Parsed.andThen_exhausted])
        rw [hfirst'] at h' ⊢
        have hnext' := ih hb hnext fun hnone => h' (by rw [Parsed.andThen, hnone])
        rw [Parsed.andThen, hnext']
      cases a with
      | token kind => exact expect_done_congr h
      | mark kind => exact expect_done_congr h
      | rule r =>
        obtain ⟨trees, hform, rfl⟩ := Parsed.under_eq_done h
        rw [parse] at h' ⊢
        rw [ih r.decided hform fun hexhausted => h' (Parsed.under_eq_exhausted.2 hexhausted)]
        rfl
      | empty =>
        obtain ⟨rfl, hrest⟩ := Parsed.done.inj h
        obtain rfl := List.append_cancel_right hrest
        rw [parse]
      | seq a b => exact hthen ha.1 ha.2 h h'
      | alt a b =>
        have hopens := alt_opensOn_of_done xs' ha h
        obtain ⟨hda, hdb, -⟩ := ha
        rw [parse] at h h' ⊢
        rw [← hopens] at h' ⊢
        split at h
        · rename_i hopen
          rw [if_pos hopen] at h' ⊢
          exact ih hda h h'
        · rename_i hopen
          rw [if_neg hopen] at h' ⊢
          exact ih hdb h h'
      | opt a =>
        rw [parse] at h h' ⊢
        rw [← opensOn_congr (.inr ha.2) x xs xs'] at h' ⊢
        split at h
        · rename_i hopen
          rw [if_pos hopen] at h' ⊢
          exact ih ha.1 h h'
        · rename_i hopen
          obtain ⟨rfl, hrest⟩ := Parsed.done.inj h
          obtain rfl := List.append_cancel_right hrest
          rw [if_neg hopen]
      | many a =>
        rw [parse] at h h' ⊢
        rw [← opensOn_congr (.inr ha.2) x xs xs'] at h' ⊢
        split at h
        · rename_i hopen
          rw [if_pos hopen] at h' ⊢
          exact hthen ha.1 ha h h'
        · rename_i hopen
          obtain ⟨rfl, hrest⟩ := Parsed.done.inj h
          obtain rfl := List.append_cancel_right hrest
          rw [if_neg hopen]

private theorem parse_stuck_congr (ha : a.Decided)
    (h : a.parse depth (ws ++ x :: xs) = .stuck (vs ++ x :: xs))
    (h' : a.parse depth' (ws ++ x :: xs') ≠ .exhausted) :
    a.parse depth' (ws ++ x :: xs') = .stuck (vs ++ x :: xs') := by
  induction depth generalizing a ws vs depth' with
  | zero =>
    rw [parse] at h
    cases h
  | succ depth ih =>
    cases depth' with
    | zero => exact (h' (by rw [parse])).elim
    | succ depth' =>
      have hthen {a b : Form} (ha : a.Decided) (hb : b.Decided)
          (h : (a.parse depth (ws ++ x :: xs)).andThen (b.parse depth) = .stuck (vs ++ x :: xs))
          (h' : (a.parse depth' (ws ++ x :: xs')).andThen (b.parse depth') ≠ .exhausted) :
          (a.parse depth' (ws ++ x :: xs')).andThen (b.parse depth') = .stuck (vs ++ x :: xs') := by
        have hne : a.parse depth' (ws ++ x :: xs') ≠ .exhausted := fun hnone =>
          h' (by rw [hnone, Parsed.andThen_exhausted])
        rcases Parsed.andThen_eq_stuck h with hfirst | ⟨trees, mid, hfirst, hnext⟩
        · rw [ih ha hfirst hne, Parsed.andThen_stuck]
        · obtain ⟨us, -, -, rfl, -⟩ := starts_of_parse hnext
          rw [← List.append_assoc] at hfirst hnext
          rw [parse_done_congr ha hfirst hne] at h' ⊢
          have hnext' := ih hb hnext fun hnone => h' (by rw [Parsed.andThen, hnone])
          rw [Parsed.andThen, hnext']
      cases a with
      | token kind => exact expect_stuck_congr h
      | mark kind => exact expect_stuck_congr h
      | rule r =>
        rw [parse] at h h' ⊢
        rw [Parsed.under_eq_stuck] at h ⊢
        exact ih r.decided h fun hexhausted => h' (Parsed.under_eq_exhausted.2 hexhausted)
      | empty => cases h
      | seq a b => exact hthen ha.1 ha.2 h h'
      | alt a b =>
        have hopens := alt_opensOn_of_stuck xs' ha h
        obtain ⟨hda, hdb, -⟩ := ha
        rw [parse] at h h' ⊢
        rw [← hopens] at h' ⊢
        split at h
        · rename_i hopen
          rw [if_pos hopen] at h' ⊢
          exact ih hda h h'
        · rename_i hopen
          rw [if_neg hopen] at h' ⊢
          exact ih hdb h h'
      | opt a =>
        rw [parse] at h h' ⊢
        rw [← opensOn_congr (.inr ha.2) x xs xs'] at h' ⊢
        split at h
        · rename_i hopen
          rw [if_pos hopen] at h' ⊢
          exact ih ha.1 h h'
        · cases h
      | many a =>
        rw [parse] at h h' ⊢
        rw [← opensOn_congr (.inr ha.2) x xs xs'] at h' ⊢
        split at h
        · rename_i hopen
          rw [if_pos hopen] at h' ⊢
          exact hthen ha.1 ha h h'
        · cases h

/-! ### The allowance suffices -/

private theorem expect_ne_exhausted (kind : Kind) (trees : Token → List Tree) (ts : List Token) :
    expect kind trees ts ≠ .exhausted := by
  cases ts with
  | nil => exact Parsed.stuck_ne_exhausted _
  | cons t ts =>
    rw [expect]
    split
    · exact Parsed.done_ne_exhausted _ _
    · exact Parsed.stuck_ne_exhausted _

/-- Parsing ends if forms may nest deep enough. -/
theorem parse_ne_exhausted {a : Form} (ha : a.Predictive) {ts : List Token} {depth : Nat}
    (hdepth : 64 * ts.length + a.weight < depth) : a.parse depth ts ≠ .exhausted := by
  induction depth generalizing a ts with
  | zero => omega
  | succ depth ih =>
    cases a with
    | token kind => exact expect_ne_exhausted kind _ ts
    | mark kind => exact expect_ne_exhausted kind _ ts
    | rule r =>
      have hweight := r.weight_form
      rw [weight] at hdepth
      rw [parse, Ne, Parsed.under_eq_exhausted]
      exact ih r.predictive (by omega)
    | empty => exact Parsed.done_ne_exhausted _ _
    | seq a b =>
      obtain ⟨hpa, hpb, -⟩ := ha
      rw [weight] at hdepth
      refine Parsed.andThen_ne_exhausted (ih hpa (by omega)) fun trees mid hdone => ih hpb ?_
      obtain ⟨us, rfl, hus⟩ := derives_of_parse hdone
      rw [List.length_append] at hdepth
      -- the second form has the allowance of the tokens before it, if there are any
      by_cases hnil : us = []
      · rw [hus.nullable hnil, if_pos rfl] at hdepth
        omega
      · have hpos := List.length_pos_iff.2 hnil
        split at hdepth <;> omega
    | alt a b =>
      obtain ⟨hpa, hpb, -⟩ := ha
      rw [weight] at hdepth
      rw [parse]
      split
      · exact ih hpa (by omega)
      · exact ih hpb (by omega)
    | opt a =>
      rw [weight] at hdepth
      rw [parse]
      split
      · exact ih ha.1 (by omega)
      · exact Parsed.done_ne_exhausted _ _
    | many a =>
      obtain ⟨hpa, hna, -⟩ := id ha
      rw [parse]
      split
      · refine Parsed.andThen_ne_exhausted ?_ fun trees mid hdone => ih ha ?_
        · rw [weight] at hdepth
          exact ih hpa (by omega)
        · obtain ⟨us, rfl, hus⟩ := derives_of_parse hdone
          have hpos := List.length_pos_iff.2 (hus.ne_nil hna)
          rw [List.length_append] at hdepth
          omega
      · exact Parsed.done_ne_exhausted _ _

end Form

/-! ### Where tokens go wrong -/

private theorem Derives.isProgram {ts : List Token} {cs : List Tree}
    (h : Derives (.rule .program) ts cs) : IsProgram ts := by
  cases h with
  | rule h => exact ⟨_, .rule h⟩

namespace Tree

-- A program is parsed to its end, so no program begins with tokens at which parsing comes to a
-- token and never further.
private theorem not_viable {us : List Token} {x : Token}
    (h : ∀ depth vs, (Form.rule .program).parse depth (us ++ x :: vs) ≠ .exhausted →
      ∀ t, (Form.rule .program).parse depth (us ++ x :: vs) ≠ .done [t] []) :
    ¬Viable (us ++ [x]) := by
  rintro ⟨vs, t, ht⟩
  rw [List.append_assoc, List.singleton_append] at ht
  have hstops : (Form.rule .program).Stops [] := fun _ hmem => by cases hmem
  have hparse := ht.parse trivial hstops (Nat.le_refl _)
  rw [List.append_nil] at hparse
  refine h _ vs ?_ t hparse
  rw [hparse]
  exact Parsed.done_ne_exhausted _ _

/-- Tokens that are no program are the beginning of one up to some place, and there they end or go
on with a token with which no program goes on. -/
theorem exists_of_ofTokens {ts rest : List Token} (h : ofTokens ts = .error rest) :
    ∃ us, ts = us ++ rest ∧ Viable us ∧ (rest = [] → ¬IsProgram us) ∧
      ∀ x ∈ rest.head?, ¬Viable (us ++ [x]) := by
  have hnone : ¬IsProgram ts := by
    rintro ⟨t, ht⟩
    rw [ofTokens_eq_ok_iff.2 ht] at h
    cases h
  have hend {us : List Token} (hts : ts = us ++ rest) : rest = [] → ¬IsProgram us := by
    rintro rfl
    rwa [hts, List.append_nil] at hnone
  have hdecided : (Form.rule .program).Decided := trivial
  rw [ofTokens] at h
  cases hparse : (Form.rule .program).parse (Form.depthFor ts.length) ts with
  | stuck rest' =>
    rw [hparse] at h
    obtain rfl := Except.error.inj h
    obtain ⟨us, vs, cs, rfl, hus⟩ := Form.starts_of_parse hparse
    refine ⟨us, rfl, ⟨vs, hus.isProgram⟩, hend rfl, fun x hx => not_viable fun depth ws hne t => ?_⟩
    obtain ⟨xs, rfl⟩ := List.head?_eq_some_iff.1 hx
    have hstuck : (Form.rule .program).parse depth (us ++ x :: ws) = .stuck ([] ++ x :: ws) :=
      Form.parse_stuck_congr hdecided hparse hne
    rw [hstuck]
    intro h
    cases h
  | done cs rest' =>
    have hrest : rest' = rest := by
      rw [hparse] at h
      split at h
      · cases h
      · rename_i hdone
        cases hdone
        exact Except.error.inj h
      · rename_i hstuck
        cases hstuck
      · rename_i hexhausted
        cases hexhausted
    subst hrest
    obtain ⟨us, rfl, hus⟩ := Form.derives_of_parse hparse
    have hprogram := hus.isProgram
    refine ⟨us, rfl, ⟨[], by rwa [List.append_nil]⟩, hend rfl,
      fun x hx => not_viable fun depth ws hne t => ?_⟩
    obtain ⟨xs, rfl⟩ := List.head?_eq_some_iff.1 hx
    have hdone : (Form.rule .program).parse depth (us ++ x :: ws) = .done cs ([] ++ x :: ws) :=
      Form.parse_done_congr hdecided hparse hne
    rw [hdone]
    intro h
    cases h
  | exhausted =>
    refine (Form.parse_ne_exhausted (a := .rule .program) trivial ?_ hparse).elim
    rw [Form.weight, Rule.weight, Form.depthFor]
    omega

end Tree

/-- The beginning of the beginning of a program is one. -/
theorem Viable.of_append {ts us : List Token} (h : Viable (ts ++ us)) : Viable ts := by
  obtain ⟨vs, hvs⟩ := h
  rw [List.append_assoc] at hvs
  exact ⟨us ++ vs, hvs⟩

/-- A program is its own beginning. -/
theorem IsProgram.viable {ts : List Token} (h : IsProgram ts) : Viable ts :=
  ⟨[], by rwa [List.append_nil]⟩

/-- Parsing fails at the first token with which no program goes on after the tokens before it, or
at the end of tokens that are the beginning of a program and no program. -/
theorem Tree.ofTokens_append_eq_error_iff {ts rest : List Token} (hts : Viable ts) :
    ofTokens (ts ++ rest) = .error rest ↔
      (rest = [] → ¬IsProgram ts) ∧ ∀ x ∈ rest.head?, ¬Viable (ts ++ [x]) := by
  constructor
  · intro h
    obtain ⟨us, hus, -, hend, hnext⟩ := exists_of_ofTokens h
    obtain rfl := List.append_cancel_right hus
    exact ⟨hend, hnext⟩
  · rintro ⟨hend, hnext⟩
    have hnone : ¬IsProgram (ts ++ rest) := by
      cases rest with
      | nil =>
        rw [List.append_nil]
        exact hend rfl
      | cons x xs =>
        intro hprogram
        rw [List.append_cons] at hprogram
        exact hnext x rfl hprogram.viable.of_append
    cases hparse : ofTokens (ts ++ rest) with
    | ok t => exact (hnone ⟨t, ofTokens_eq_ok_iff.1 hparse⟩).elim
    | error rest' =>
      obtain ⟨us, hus, hviable, -, hnext'⟩ := exists_of_ofTokens hparse
      -- neither of the two places is before the other
      rcases List.append_eq_append_iff.1 hus with ⟨mid, rfl, hmid⟩ | ⟨mid, rfl, hmid⟩
      · cases mid with
        | nil => rw [hmid, List.nil_append]
        | cons x mid =>
          subst hmid
          rw [List.append_cons] at hviable
          exact (hnext x rfl hviable.of_append).elim
      · cases mid with
        | nil => rw [hmid, List.nil_append]
        | cons x mid =>
          subst hmid
          rw [List.append_cons] at hts
          exact (hnext' x rfl hts.of_append).elim

/-! ### Beginnings of source texts -/

namespace Form

/-- Whether the tokens and rules of the form are those of the language. -/
def native : Form → Bool
  | token kind | mark kind => decide (kind ∈ Kind.all)
  | rule r => decide (r ∈ Rule.all)
  | empty => true
  | seq a b | alt a b => a.native && b.native
  | opt a | many a => a.native

end Form

private theorem Rule.native_form {r : Rule} (hr : r ∈ all) : r.form.native = true := by
  cases r with
  | foreign name => simp [all] at hr
  | _ => rfl

/-- A text for each kind of token. -/
def Kind.sample : Kind → String
  | float => "0.0"
  | int => "0"
  | string => "\"\""
  | ident => "x"
  | k => k.spelling?.getD ""

private theorem Kind.spelled_sample {k : Kind} (hk : k ∈ all) : (Word.mk k k.sample).Spelled := by
  cases k with
  | float =>
    exact Word.spelled_float ⟨['0'], ['0'], rfl, by decide, List.forall_mem_singleton.2 rfl,
      by decide, List.forall_mem_singleton.2 rfl⟩
  | int => exact Word.spelled_int (by decide) (List.forall_mem_singleton.2 rfl)
  | string => exact Word.spelled_string List.not_mem_nil
  | ident => exact Word.spelled_ident (by decide)
  | foreign name => simp [all] at hk
  | _ => exact Word.spelled_ofKind rfl

namespace Derives

private theorem kind_mem_all {a : Form} {ts : List Token} {cs : List Tree} (h : Derives a ts cs)
    (ha : a.native = true) : ∀ t ∈ ts, t.kind ∈ Kind.all := by
  have hmem {ts us : List Token} (hts : ∀ t ∈ ts, t.kind ∈ Kind.all)
      (hus : ∀ t ∈ us, t.kind ∈ Kind.all) : ∀ t ∈ ts ++ us, t.kind ∈ Kind.all := fun t ht =>
    (List.mem_append.1 ht).elim (hts t) (hus t)
  induction h with
  | token h | mark h => exact List.forall_mem_singleton.2 (h ▸ of_decide_eq_true ha)
  | rule _ ih => exact ih (Rule.native_form (of_decide_eq_true ha))
  | empty | optNone | manyNil => exact List.forall_mem_nil _
  | seq _ _ iha ihb =>
    obtain ⟨hna, hnb⟩ := (Bool.and_eq_true _ _).mp ha
    exact hmem (iha hna) (ihb hnb)
  | altLeft _ ih => exact ih ((Bool.and_eq_true _ _).mp ha).1
  | altRight _ ih => exact ih ((Bool.and_eq_true _ _).mp ha).2
  | optSome _ ih => exact ih ha
  | manyCons _ _ iha ihm => exact hmem (iha ha) (ihm ha)

private theorem of_kinds {a : Form} {ts us : List Token} {cs : List Tree} (h : Derives a ts cs)
    (hus : us.map Token.kind = ts.map Token.kind) : ∃ ds, Derives a us ds := by
  induction h generalizing us with
  | token ht =>
    obtain ⟨u, rfl, hu⟩ := List.map_eq_singleton_iff.1 hus
    exact ⟨_, .token (hu.trans ht)⟩
  | mark ht =>
    obtain ⟨u, rfl, hu⟩ := List.map_eq_singleton_iff.1 hus
    exact ⟨_, .mark (hu.trans ht)⟩
  | rule _ ih =>
    obtain ⟨ds, hds⟩ := ih hus
    exact ⟨_, .rule hds⟩
  | empty | optNone | manyNil =>
    rw [List.map_eq_nil_iff.1 hus]
    constructor
    constructor
  | seq _ _ iha ihb =>
    rw [List.map_append] at hus
    obtain ⟨us₁, us₂, rfl, h₁, h₂⟩ := List.map_eq_append_iff.1 hus
    obtain ⟨ds₁, hds₁⟩ := iha h₁
    obtain ⟨ds₂, hds₂⟩ := ihb h₂
    exact ⟨_, .seq hds₁ hds₂⟩
  | altLeft _ ih =>
    obtain ⟨ds, hds⟩ := ih hus
    exact ⟨_, .altLeft hds⟩
  | altRight _ ih =>
    obtain ⟨ds, hds⟩ := ih hus
    exact ⟨_, .altRight hds⟩
  | optSome _ ih =>
    obtain ⟨ds, hds⟩ := ih hus
    exact ⟨_, .optSome hds⟩
  | manyCons _ _ iha ihm =>
    rw [List.map_append] at hus
    obtain ⟨us₁, us₂, rfl, h₁, h₂⟩ := List.map_eq_append_iff.1 hus
    obtain ⟨ds₁, hds₁⟩ := iha h₁
    obtain ⟨ds₂, hds₂⟩ := ihm h₂
    exact ⟨_, .manyCons hds₁ hds₂⟩

end Derives

/-- Tokens are the beginning of a program just if some source text with a tree begins with tokens
of the same kinds. -/
theorem viable_iff_exists_source {ts : List Token} :
    Viable ts ↔ ∃ source t, Tree.ofSource source = .ok t ∧
      ts.map Token.kind <+: (Scanned.ofString source).tokens.map Token.kind := by
  constructor
  · rintro ⟨us, t, ht⟩
    let ws := (ts ++ us).map fun t => Word.mk t.kind t.kind.sample
    have hspelled : ∀ w ∈ ws, w.Spelled := by
      intro w hw
      obtain ⟨u, hu, rfl⟩ := List.mem_map.1 hw
      exact Kind.spelled_sample (ht.kind_mem_all rfl u hu)
    obtain ⟨vs, hscan, hwords⟩ := Word.ofChars_spaced hspelled .start
    have hkinds : vs.map Token.kind = (ts ++ us).map Token.kind := by
      have hmap := congrArg (List.map Word.kind) hwords
      rw [List.map_map, List.map_map] at hmap
      exact hmap
    obtain ⟨ds, hds⟩ := ht.of_kinds hkinds
    obtain ⟨t', ht'⟩ := hds.isProgram
    refine ⟨String.ofList (Word.spaced ws), t', Tree.ofSource_eq_ok_iff.2 ⟨vs, ?_, ht'⟩, ?_⟩
    · rw [String.toList_ofList]
      exact Scanned.ofChars_eq_iff.1 hscan
    · rw [Scanned.ofString, String.toList_ofList, hscan, hkinds, List.map_append]
      exact List.prefix_append _ _
  · rintro ⟨source, t, hsource, ks, hks⟩
    obtain ⟨vs, hcuts, ht⟩ := Tree.ofSource_eq_ok_iff.1 hsource
    rw [Scanned.ofString, Scanned.ofChars_eq_iff.2 hcuts] at hks
    obtain ⟨vs₁, vs₂, rfl, h₁, h₂⟩ := List.map_eq_append_iff.1 hks.symm
    have hkinds : (ts ++ vs₂).map Token.kind = (vs₁ ++ vs₂).map Token.kind := by
      rw [List.map_append, List.map_append, h₁]
    obtain ⟨ds, hds⟩ := ht.of_kinds hkinds
    exact ⟨vs₂, hds.isProgram⟩

end Lox
