import Lox.SyntaxError
import Lox.Proofs.Lexemes
import Lox.Proofs.Prediction

/-!
# Derivation trees

A derivation of a form says how tokens are an instance of it: which alternative is taken, and which
tokens and rules stand at each place. A parse tree is what is left of a derivation without the marks
and the choices. The parser accepts just the token sequences with a derivation and returns its
parse tree; since every rule is predictive, no token sequence has two derivations.
-/

namespace Lox

/-- A derivation tree of a form. -/
inductive Derivation : Form → Type where
  | token {kind : Kind} (t : Token) (h : t.kind = kind) : Derivation (.token kind)
  | mark {kind : Kind} (t : Token) (h : t.kind = kind) : Derivation (.mark kind)
  | rule {r : Rule} (d : Derivation r.form) : Derivation (.rule r)
  | empty : Derivation .empty
  | seq {a b : Form} (d : Derivation a) (e : Derivation b) : Derivation (.seq a b)
  | altLeft {a b : Form} (d : Derivation a) : Derivation (.alt a b)
  | altRight {a b : Form} (d : Derivation b) : Derivation (.alt a b)
  | optNone {a : Form} : Derivation (.opt a)
  | optSome {a : Form} (d : Derivation a) : Derivation (.opt a)
  | manyNil {a : Form} : Derivation (.many a)
  | manyCons {a : Form} (d : Derivation a) (e : Derivation (.many a)) : Derivation (.many a)

namespace Derivation

/-- The derived tokens. -/
def tokens {a : Form} : Derivation a → List Token
  | token t _ | mark t _ => [t]
  | rule d | altLeft d | altRight d | optSome d => d.tokens
  | empty | optNone | manyNil => []
  | seq d e | manyCons d e => d.tokens ++ e.tokens

/-- The parse trees of a derivation. -/
def trees {a : Form} : Derivation a → List Tree
  | token t _ => [Tree.ofToken t]
  | mark _ _ => []
  | @rule r d => [.node r d.trees]
  | altLeft d | altRight d | optSome d => d.trees
  | empty | optNone | manyNil => []
  | seq d e | manyCons d e => d.trees ++ e.trees

/-- An instance of a rule has one tree. -/
theorem exists_tree {r : Rule} (d : Derivation (.rule r)) : ∃ t, d.trees = [t] := by
  cases d with
  | rule d => exact ⟨.node r d.trees, rfl⟩

/-- The tokens of a derivation are an instance of its form, with its trees. -/
theorem derives {a : Form} (d : Derivation a) : Derives a d.tokens d.trees := by
  induction d with
  | token t h => exact .token h
  | mark t h => exact .mark h
  | rule d ih => exact .rule ih
  | empty => exact .empty
  | seq d e ihd ihe => exact .seq ihd ihe
  | altLeft d ih => exact .altLeft ih
  | altRight d ih => exact .altRight ih
  | optNone => exact .optNone
  | optSome d ih => exact .optSome ih
  | manyNil => exact .manyNil
  | manyCons d e ihd ihe => exact .manyCons ihd ihe

end Derivation

/-- An instance of a form has a derivation. -/
theorem Derives.exists_derivation {a : Form} {ts : List Token} {cs : List Tree}
    (h : Derives a ts cs) : ∃ d : Derivation a, d.tokens = ts ∧ d.trees = cs := by
  induction h with
  | token h => exact ⟨.token _ h, rfl, rfl⟩
  | mark h => exact ⟨.mark _ h, rfl, rfl⟩
  | empty => exact ⟨.empty, rfl, rfl⟩
  | optNone => exact ⟨.optNone, rfl, rfl⟩
  | manyNil => exact ⟨.manyNil, rfl, rfl⟩
  | rule _ ih =>
    obtain ⟨d, rfl, rfl⟩ := ih
    exact ⟨.rule d, rfl, rfl⟩
  | seq _ _ iha ihb =>
    obtain ⟨d, rfl, rfl⟩ := iha
    obtain ⟨e, rfl, rfl⟩ := ihb
    exact ⟨.seq d e, rfl, rfl⟩
  | altLeft _ ih =>
    obtain ⟨d, rfl, rfl⟩ := ih
    exact ⟨.altLeft d, rfl, rfl⟩
  | altRight _ ih =>
    obtain ⟨d, rfl, rfl⟩ := ih
    exact ⟨.altRight d, rfl, rfl⟩
  | optSome _ ih =>
    obtain ⟨d, rfl, rfl⟩ := ih
    exact ⟨.optSome d, rfl, rfl⟩
  | manyCons _ _ iha ihm =>
    obtain ⟨d, rfl, rfl⟩ := iha
    obtain ⟨e, rfl, rfl⟩ := ihm
    exact ⟨.manyCons d e, rfl, rfl⟩

/-! ### No token sequence has two derivations -/

namespace Derivation

private theorem opensOn {a : Form} (d : Derivation a) (ha : a.nullable = false)
    (rest : List Token) : a.opensOn (d.tokens ++ rest) = true :=
  d.derives.opensOn (d.derives.ne_nil ha) rest

private theorem alt_apart {a b : Form} (d : Derivation a) (d' : Derivation b)
    (hab : (Form.alt a b).Predictive) {rest rest' : List Token}
    (hrest' : (Form.alt a b).Stops rest') : d.tokens ++ rest ≠ d'.tokens ++ rest' := by
  obtain ⟨-, -, hna, -, happart⟩ := hab
  intro h
  have hopens := d.opensOn hna rest
  rw [h, happart d'.derives hrest'] at hopens
  cases hopens

private theorem opt_apart {a : Form} (d : Derivation a) (ha : (Form.opt a).Predictive)
    {rest rest' : List Token} (hrest' : (Form.opt a).Stops rest') : d.tokens ++ rest ≠ rest' := by
  intro h
  have hopens := d.opensOn ha.2 rest
  rw [h, hrest'.opensOn_opt] at hopens
  cases hopens

private theorem many_apart {a : Form} (d : Derivation a) (ha : (Form.many a).Predictive)
    {rest rest' : List Token} (hrest' : (Form.many a).Stops rest') : d.tokens ++ rest ≠ rest' := by
  intro h
  have hopens := d.opensOn ha.2.1 rest
  rw [h, hrest'.opensOn_many] at hopens
  cases hopens

/-- Two derivations with the same tokens at the start of a text are one, if each ends before tokens
that it could not be read on into. -/
theorem eq_of_append {a : Form} (d d' : Derivation a) (ha : a.Predictive) {rest rest' : List Token}
    (hrest : a.Stops rest) (hrest' : a.Stops rest')
    (h : d.tokens ++ rest = d'.tokens ++ rest') : d = d' ∧ rest = rest' := by
  induction d generalizing rest rest' with
  | token t ht | mark t ht =>
    cases d'
    obtain ⟨rfl, hrests⟩ := List.cons.inj h
    exact ⟨rfl, hrests⟩
  | @rule r d ih =>
    cases d' with
    | rule d' =>
      obtain ⟨rfl, hrests⟩ := ih d' r.predictive hrest.form hrest'.form h
      exact ⟨rfl, hrests⟩
  | empty =>
    cases d'
    exact ⟨rfl, h⟩
  | @seq a b d e ihd ihe =>
    cases d' with
    | seq d' e' =>
      obtain ⟨hpa, hpb, hab⟩ := ha
      rw [tokens, tokens, List.append_assoc, List.append_assoc] at h
      obtain ⟨rfl, hmid⟩ := ihd d' hpa (e.derives.stops_left hab hrest)
        (e'.derives.stops_left hab hrest') h
      obtain ⟨rfl, hrests⟩ := ihe e' hpb hrest.seqRight hrest'.seqRight hmid
      exact ⟨rfl, hrests⟩
  | @altLeft a b d ih =>
    cases d' with
    | altLeft d' =>
      obtain ⟨rfl, hrests⟩ := ih d' ha.1 hrest.altLeft hrest'.altLeft h
      exact ⟨rfl, hrests⟩
    | altRight d' => exact (alt_apart d d' ha hrest' h).elim
  | @altRight a b d ih =>
    cases d' with
    | altLeft d' => exact (alt_apart d' d ha hrest h.symm).elim
    | altRight d' =>
      obtain ⟨rfl, hrests⟩ := ih d' ha.2.1 hrest.altRight hrest'.altRight h
      exact ⟨rfl, hrests⟩
  | optNone =>
    cases d' with
    | optNone => exact ⟨rfl, h⟩
    | optSome d' => exact (opt_apart d' ha hrest h.symm).elim
  | @optSome a d ih =>
    cases d' with
    | optNone => exact (opt_apart d ha hrest' h).elim
    | optSome d' =>
      obtain ⟨rfl, hrests⟩ := ih d' ha.1 hrest.opt hrest'.opt h
      exact ⟨rfl, hrests⟩
  | manyNil =>
    cases d' with
    | manyNil => exact ⟨rfl, h⟩
    | manyCons d' e' =>
      rw [tokens, tokens, List.append_assoc] at h
      exact (many_apart d' ha hrest h.symm).elim
  | @manyCons a d e ihd ihe =>
    rw [tokens, List.append_assoc] at h
    cases d' with
    | manyNil => exact (many_apart d ha hrest' h).elim
    | manyCons d' e' =>
      obtain ⟨hpa, -, haa⟩ := id ha
      rw [tokens, List.append_assoc] at h
      obtain ⟨rfl, hmid⟩ := ihd d' hpa (e.derives.stops_append haa fun _ => hrest.many)
        (e'.derives.stops_append haa fun _ => hrest'.many) h
      obtain ⟨rfl, hrests⟩ := ihe e' ha hrest hrest' hmid
      exact ⟨rfl, hrests⟩

/-- The tokens of a derivation of a rule determine it. -/
theorem tokens_injective (r : Rule) : Function.Injective (tokens (a := .rule r)) := by
  intro d d' h
  have hend : (Form.rule r).Stops [] := by
    intro t ht
    cases ht
  exact (d.eq_of_append d' trivial hend hend (congrArg (· ++ []) h)).1

end Derivation

/-! ### What is parsed is derived -/

/-- A parse that goes on comes from two parses. -/
theorem Parsed.andThen_eq_done {p : Parsed} {next : List Token → Parsed} {cs : List Tree}
    {rest : List Token} (h : p.andThen next = .done cs rest) :
    ∃ trees mid more, p = .done trees mid ∧ next mid = .done more rest ∧ cs = trees ++ more := by
  cases p with
  | done trees mid =>
    rw [andThen] at h
    split at h
    · rename_i more rest' hnext
      cases h
      exact ⟨trees, mid, more, rfl, hnext, rfl⟩
    · rename_i hnext
      exact (hnext _ _ h).elim
  | stuck | exhausted => cases h

/-- A parse with a node on top comes from one without. -/
theorem Parsed.under_eq_done {r : Rule} {p : Parsed} {cs : List Tree} {rest : List Token}
    (h : p.under r = .done cs rest) : ∃ trees, p = .done trees rest ∧ cs = [.node r trees] := by
  cases p with
  | done trees mid =>
    cases h
    exact ⟨trees, rfl, rfl⟩
  | stuck | exhausted => cases h

/-- A token that is taken has the kind. -/
theorem Form.expect_eq_done {kind : Kind} {trees : Token → List Tree}
    {ts rest : List Token} {cs : List Tree} (h : expect kind trees ts = .done cs rest) :
    ∃ t, ts = [t] ++ rest ∧ t.kind = kind ∧ cs = trees t := by
  cases ts with
  | nil => cases h
  | cons t ts =>
    rw [expect] at h
    split at h
    · rename_i hkind
      cases h
      exact ⟨t, rfl, hkind, rfl⟩
    · cases h

/-- What is parsed is an instance of the form, in front of the tokens that are left. -/
theorem Form.derives_of_parse {depth : Nat} {a : Form} {ts rest : List Token} {cs : List Tree}
    (h : a.parse depth ts = .done cs rest) : ∃ us, ts = us ++ rest ∧ Derives a us cs := by
  induction depth generalizing a ts rest cs with
  | zero =>
    rw [parse] at h
    cases h
  | succ depth ih =>
    cases a with
    | token kind =>
      obtain ⟨t, hts, hkind, rfl⟩ := expect_eq_done h
      exact ⟨[t], hts, .token hkind⟩
    | mark kind =>
      obtain ⟨t, hts, hkind, rfl⟩ := expect_eq_done h
      exact ⟨[t], hts, .mark hkind⟩
    | rule r =>
      obtain ⟨trees, hform, rfl⟩ := Parsed.under_eq_done h
      obtain ⟨us, hts, hus⟩ := ih hform
      exact ⟨us, hts, .rule hus⟩
    | empty =>
      cases h
      exact ⟨[], rfl, .empty⟩
    | seq a b =>
      obtain ⟨trees, mid, more, ha, hb, rfl⟩ := Parsed.andThen_eq_done h
      obtain ⟨us, rfl, hus⟩ := ih ha
      obtain ⟨vs, rfl, hvs⟩ := ih hb
      exact ⟨us ++ vs, (List.append_assoc ..).symm, .seq hus hvs⟩
    | alt a b =>
      rw [parse] at h
      split at h
      · obtain ⟨us, hts, hus⟩ := ih h
        exact ⟨us, hts, .altLeft hus⟩
      · obtain ⟨us, hts, hus⟩ := ih h
        exact ⟨us, hts, .altRight hus⟩
    | opt a =>
      rw [parse] at h
      split at h
      · obtain ⟨us, hts, hus⟩ := ih h
        exact ⟨us, hts, .optSome hus⟩
      · cases h
        exact ⟨[], rfl, .optNone⟩
    | many a =>
      rw [parse] at h
      split at h
      · obtain ⟨trees, mid, more, ha, hm, rfl⟩ := Parsed.andThen_eq_done h
        obtain ⟨us, rfl, hus⟩ := ih ha
        obtain ⟨vs, rfl, hvs⟩ := ih hm
        exact ⟨us ++ vs, (List.append_assoc ..).symm, .manyCons hus hvs⟩
      · cases h
        exact ⟨[], rfl, .manyNil⟩

namespace Tree

/-- Tokens are a program with a tree just if they are derived with it. -/
theorem ofTokens_eq_ok_iff {ts : List Token} {t : Tree} :
    ofTokens ts = .ok t ↔ Derives (.rule .program) ts [t] := by
  constructor
  · intro h
    rw [ofTokens] at h
    split at h
    · rename_i hparse
      cases h
      obtain ⟨us, hts, hus⟩ := Form.derives_of_parse hparse
      rw [hts, List.append_nil]
      exact hus
    all_goals cases h
  · exact ofTokens_of_derives

/-- A source text is read as a tree just if it is cut into tokens, up to its end, that are derived
with the tree. -/
theorem ofSource_eq_ok_iff {source : String} {t : Tree} :
    ofSource source = .ok t ↔
      ∃ ts, Scanned.Cuts .start source.toList ⟨ts, none⟩ ∧ Derives (.rule .program) ts [t] := by
  constructor
  · intro h
    have hcuts := Scanned.cuts_ofChars .start source.toList
    rw [ofSource, Scanned.ofString] at h
    generalize Scanned.ofChars .start source.toList = s at h hcuts
    obtain ⟨ts, stop⟩ := s
    dsimp only at h
    split at h
    · cases h
    · cases h
    · rename_i htokens
      cases h
      exact ⟨ts, hcuts, ofTokens_eq_ok_iff.1 htokens⟩
  · rintro ⟨ts, hcuts, hts⟩
    have hscan := Scanned.ofChars_eq_iff.2 hcuts
    rw [ofSource, Scanned.ofString, hscan]
    dsimp only
    rw [ofTokens_eq_ok_iff.2 hts]

/-- Source text is read as a program just if all of it is cut into tokens that the grammar derives;
the tree is that of the derivation, and a rule has no other derivation of the same tokens. -/
theorem ofSource_unambiguous (source : String) :
    ((∃ t, ofSource source = .ok t) ↔
      ∃ ts, Scanned.Cuts .start source.toList ⟨ts, none⟩ ∧
        ∃ d : Derivation (.rule .program), d.tokens = ts) ∧
    (∀ t, ofSource source = .ok t ↔
      ∃ d : Derivation (.rule .program),
        Scanned.Cuts .start source.toList ⟨d.tokens, none⟩ ∧ d.trees = [t]) ∧
    ∀ r : Rule, Function.Injective (Derivation.tokens (a := .rule r)) := by
  have htree (t : Tree) : ofSource source = .ok t ↔
      ∃ d : Derivation (.rule .program),
        Scanned.Cuts .start source.toList ⟨d.tokens, none⟩ ∧ d.trees = [t] := by
    rw [ofSource_eq_ok_iff]
    constructor
    · rintro ⟨ts, hcuts, hts⟩
      obtain ⟨d, rfl, hd⟩ := hts.exists_derivation
      exact ⟨d, hcuts, hd⟩
    · rintro ⟨d, hcuts, hd⟩
      exact ⟨d.tokens, hcuts, hd ▸ d.derives⟩
  refine ⟨⟨?_, ?_⟩, htree, Derivation.tokens_injective⟩
  · rintro ⟨t, ht⟩
    obtain ⟨d, hcuts, -⟩ := (htree t).1 ht
    exact ⟨d.tokens, hcuts, d, rfl⟩
  · rintro ⟨ts, hcuts, d, rfl⟩
    obtain ⟨t, ht⟩ := d.exists_tree
    exact ⟨t, (htree t).2 ⟨d, hcuts, ht⟩⟩

end Tree

end Lox
