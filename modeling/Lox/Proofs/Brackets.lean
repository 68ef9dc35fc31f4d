import Lox.Entry
import Lox.Proofs.Derivation

/-!
# Brackets

The grammar has every opening parenthesis and brace closed again, so a program opens as many as it
closes. A text has as many brackets outside of quotation marks as its tokens have, unless a comment
stands in it: strings hold theirs between quotation marks, and nothing else that is read has a
bracket or a quotation mark in it.
-/

namespace Lox

/-! ### Tokens -/

/-- How many brackets a token opens; one that closes a bracket counts against it. -/
def Kind.opening : Kind → Int
  | leftParen | leftBrace => 1
  | rightParen | rightBrace => -1
  | _ => 0

/-- How many more brackets are opened by tokens than closed. -/
def Token.opening : List Token → Int
  | [] => 0
  | t :: ts => t.kind.opening + opening ts

namespace Token

@[simp] theorem opening_nil : opening [] = 0 := rfl

@[simp] theorem opening_cons (t : Token) (ts : List Token) :
    opening (t :: ts) = t.kind.opening + opening ts := rfl

@[simp] theorem opening_append (ts us : List Token) :
    opening (ts ++ us) = opening ts + opening us := by
  induction ts with
  | nil => simp
  | cons t ts ih => simp [ih, Int.add_assoc]

end Token

/-- How many more brackets every instance of a form opens than it closes, if all agree on it. What
can be left out or repeated has to close all that it opens, and so has a rule. -/
def Form.opening? : Form → Option Int
  | token k | mark k => some k.opening
  | rule _ | empty => some 0
  | seq a b =>
    match a.opening?, b.opening? with
    | some m, some n => some (m + n)
    | _, _ => none
  | alt a b => if a.opening? = b.opening? then a.opening? else none
  | opt a | many a => if a.opening? = some 0 then some 0 else none

/-- The right-hand side of a rule closes all brackets that it opens. -/
theorem Rule.opening?_form (r : Rule) : r.form.opening? = some 0 := by
  cases r <;> rfl

namespace Derives

/-- An instance of a form opens as many brackets as the form says. -/
theorem opening_eq {a : Form} {ts : List Token} {cs : List Tree} (h : Derives a ts cs) {n : Int}
    (hn : a.opening? = some n) : Token.opening ts = n := by
  induction h generalizing n with
  | token hk =>
    cases hn
    simp [hk]
  | mark hk =>
    cases hn
    simp [hk]
  | @rule r _ _ _ ih =>
    cases hn
    exact ih r.opening?_form
  | empty | optNone =>
    simp only [Form.opening?] at hn
    simp_all
  | @seq a b _ _ _ _ _ _ iha ihb =>
    simp only [Form.opening?] at hn
    split at hn
    · next l m hl hm =>
      cases hn
      rw [Token.opening_append, iha hl, ihb hm]
    · cases hn
  | altLeft _ ih =>
    simp only [Form.opening?] at hn
    split at hn
    · exact ih hn
    · cases hn
  | altRight _ ih =>
    simp only [Form.opening?] at hn
    split at hn
    · next heq => exact ih (heq ▸ hn)
    · cases hn
  | optSome _ ih =>
    simp only [Form.opening?] at hn
    split at hn
    · next hzero =>
      cases hn
      exact ih hzero
    · cases hn
  | manyNil =>
    simp only [Form.opening?] at hn
    simp_all
  | manyCons _ _ iha ihm =>
    have hm := ihm hn
    simp only [Form.opening?] at hn
    split at hn
    · next hzero =>
      cases hn
      rw [Token.opening_append, iha hzero, hm]
      rfl
    · cases hn

/-- What a rule stands for closes all brackets that it opens. -/
theorem opening_rule {r : Rule} {ts : List Token} {cs : List Tree} (h : Derives (.rule r) ts cs) :
    Token.opening ts = 0 := h.opening_eq rfl

end Derives

/-! ### Characters -/

namespace Entry

/-- Whether a text ends within quotation marks; `quoted` tells whether it begins within them. -/
def quotedAfter (quoted : Bool) : List Char → Bool
  | [] => quoted
  | c :: cs => quotedAfter (if c = '"' then !quoted else quoted) cs

/-- A text in two parts. -/
@[simp] theorem quotedAfter_append (q : Bool) (cs ds : List Char) :
    quotedAfter q (cs ++ ds) = quotedAfter (quotedAfter q cs) ds := by
  induction cs generalizing q with
  | nil => rfl
  | cons c cs ih => exact ih _

/-- A text in the other state at its beginning is in the other state at its end. -/
theorem quotedAfter_not (q : Bool) (cs : List Char) :
    quotedAfter (!q) cs = !quotedAfter q cs := by
  induction cs generalizing q with
  | nil => rfl
  | cons c cs ih =>
    simp only [quotedAfter]
    split
    · exact ih _
    · exact ih q

/-- The brackets of a text in two parts. -/
theorem openCount_append (q : Bool) (cs ds : List Char) :
    openCount q (cs ++ ds) = openCount q cs + openCount (quotedAfter q cs) ds := by
  induction cs generalizing q with
  | nil => simp [openCount, quotedAfter]
  | cons c cs ih =>
    simp only [List.cons_append, openCount, quotedAfter, ih]
    split <;> repeat' split
    all_goals omega

/-- Between quotation marks no bracket counts. -/
theorem openCount_quoted {cs : List Char} (h : '"' ∉ cs) :
    openCount true cs = 0 ∧ quotedAfter true cs = true := by
  induction cs with
  | nil => exact ⟨rfl, rfl⟩
  | cons c cs ih =>
    rw [List.mem_cons, not_or] at h
    simp [openCount, quotedAfter, Ne.symm h.1, ih h.2]

/-- The characters that change what is open, or whether the text is quoted. -/
def marks : List Char := ['"', '(', ')', '\x7b', '\x7d']

/-- A text without marks opens nothing and begins no quotation. -/
theorem openCount_unmarked {cs : List Char} (h : ∀ c ∈ cs, c ∉ marks) :
    openCount false cs = 0 ∧ quotedAfter false cs = false := by
  induction cs with
  | nil => exact ⟨rfl, rfl⟩
  | cons c cs ih =>
    obtain ⟨hc, hcs⟩ := List.forall_mem_cons.1 h
    simp only [marks, List.mem_cons, List.not_mem_nil, or_false, not_or] at hc
    simp [openCount, quotedAfter, hc, ih hcs]

/-- No mark is in a class of characters if all marks are outside of it. -/
theorem not_mem_marks {p : Char → Bool} (hp : (marks.all fun c => !p c) = true) {c : Char}
    (hc : p c = true) : c ∉ marks := by
  intro hmem
  have hout := List.all_eq_true.1 hp c hmem
  simp [hc] at hout

end Entry

/-! ### Lexemes -/

open Entry

private theorem openCount_spelling {k : Kind} {s : String} (h : k.spelling? = some s) :
    openCount false s.toList = k.opening ∧ quotedAfter false s.toList = false := by
  cases k <;> cases h <;> exact ⟨rfl, rfl⟩

/-- The text of a token opens what its kind says, and is not quoted after it. -/
theorem Kind.Writes.openCount_eq {k : Kind} {cs : List Char} (h : k.Writes cs) :
    openCount false cs = k.opening ∧ quotedAfter false cs = false := by
  have hdigit {c : Char} (hc : Text.isDigit c = true) : c ∉ marks := not_mem_marks (by decide) hc
  cases k with
  | float =>
    obtain ⟨whole, fraction, htext, -, hwhole, -, hfraction⟩ := h
    rw [String.toList_ofList] at htext
    subst htext
    refine openCount_unmarked fun c hc => ?_
    rw [List.mem_append, List.mem_cons] at hc
    rcases hc with hc | rfl | hc
    · exact hdigit (hwhole c hc)
    · decide
    · exact hdigit (hfraction c hc)
  | int => exact openCount_unmarked fun c hc => hdigit (h.2 c hc)
  | string =>
    obtain ⟨body, hbody, rfl⟩ := h
    obtain ⟨hcount, hquoted⟩ := openCount_quoted hbody
    simp [openCount, quotedAfter, openCount_append, hcount, hquoted, Kind.opening]
  | ident =>
    have hname := Scan.continuesName_of_isName h
    rw [String.toList_ofList] at hname
    exact openCount_unmarked fun c hc => not_mem_marks (by decide) (hname c hc)
  | _ =>
    obtain ⟨s, hs, rfl⟩ := Option.map_eq_some_iff.1 h
    exact openCount_spelling hs

/-- A text that is read to its end opens what its tokens open, unless a comment stands in it
outside of quotation marks. -/
theorem Scanned.Cuts.openCount_eq {p : Place} {cs : List Char} {s : Scanned} (h : Cuts p cs s)
    (hstop : s.stop = none) :
    openCount false cs = Token.opening s.tokens ∨
      ∃ front rest, cs = front ++ '/' :: '/' :: rest ∧ quotedAfter false front = false := by
  induction h with
  | done => exact .inl rfl
  | stuck => cases hstop
  | @lexeme p l cs rest s hl _ ih =>
    -- what is read before the rest decides whether the comment, if there is one, is in the rest
    have hnext (n : Int) (hcount : openCount false cs = n) (hquoted : quotedAfter false cs = false)
        (hs : s.stop = none) :
        openCount false (cs ++ rest) = n + Token.opening s.tokens ∨
          ∃ front more, cs ++ rest = front ++ '/' :: '/' :: more ∧
            quotedAfter false front = false := by
      rcases ih hs with hrest | ⟨front, more, rfl, hfront⟩
      · left
        rw [openCount_append, hcount, hquoted, hrest]
      · right
        refine ⟨cs ++ front, more, (List.append_assoc _ _ _).symm, ?_⟩
        rw [quotedAfter_append, hquoted, hfront]
    cases l with
    | token k =>
      obtain ⟨hcount, hquoted⟩ := Kind.Writes.openCount_eq (k := k) hl.written
      exact hnext _ hcount hquoted hstop
    | skipped =>
      rcases hl.written with ⟨-, hblank⟩ | ⟨line, -, rfl⟩
      · have hplain : ∀ c ∈ cs, c ∉ marks := fun c hc => not_mem_marks (by decide) (hblank c hc)
        obtain ⟨hcount, hquoted⟩ := openCount_unmarked hplain
        have hrest := hnext 0 hcount hquoted hstop
        rwa [Int.zero_add] at hrest
      · exact .inr ⟨[], line ++ rest, rfl, rfl⟩

/-- A source text that has a tree closes all brackets that it opens, unless a comment stands in it
outside of quotation marks. -/
theorem Tree.openCount_of_source {source : String} {t : Tree} (h : ofSource source = .ok t) :
    openCount false source.toList = 0 ∨
      ∃ front rest, source.toList = front ++ '/' :: '/' :: rest ∧
        quotedAfter false front = false := by
  obtain ⟨ts, hcuts, hts⟩ := ofSource_eq_ok_iff.1 h
  have hcount := hcuts.openCount_eq rfl
  rwa [hts.opening_rule] at hcount

end Lox
