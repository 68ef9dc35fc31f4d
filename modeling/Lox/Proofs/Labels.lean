import Lox.Proofs.Legible

/-!
# Labels of a dump

What a line of a dump says, apart from how far it is indented. Each label is told from its text if
its names are names, its strings have no quotation mark and it has no fraction
(`Dump.Label.text_inj`). Texts can have line feeds, but only in quotes, so they end at the first
line feed that is out of quotes (`Dump.isSealed`, `Dump.eq_of_isSealed`).
-/

namespace Lox

/-! ### What stands in an operand place -/

private theorem Literal.Plain.cases {l : Literal} (h : l.Plain) :
    (∃ n : Nat, l = int n) ∨ (∃ s, '"' ∉ s.toList ∧ l = str s) ∨ (∃ b, l = bool b) ∨
      l = unit := by
  cases l with
  | int n => exact .inl ⟨n.toNat, by rw [Int.toNat_of_nonneg h.1.1]⟩
  | float x => exact (h.2 x rfl).elim
  | str s => exact .inr (.inl ⟨s, h.1, rfl⟩)
  | bool b => exact .inr (.inr (.inl ⟨b, rfl⟩))
  | unit => exact .inr (.inr (.inr rfl))

private theorem Word.Spelled.ext {w v : Word} (hw : w.Spelled) (hv : v.Spelled)
    (h : w.text = v.text) : w = v := by
  obtain ⟨k, s⟩ := w
  obtain ⟨j, t⟩ := v
  obtain rfl : s = t := h
  have hkind := (hw []).symm.trans (hv [])
  simp only [Option.some.injEq, Prod.mk.injEq, Lexeme.token.injEq] at hkind
  rw [hkind.1]

namespace Atom

/-- The text in a dump. -/
def shown : Atom → String
  | literal l => l.shown
  | name x => x

/-- The word in a source text. -/
noncomputable def word : Atom → Word
  | literal l => l.word Decimal.someText
  | name x => ⟨.ident, x⟩

/-- Whether a name is one, or a literal is plain. -/
def Legible (a : Atom) : Prop := a.expr.Legible Literal.Plain

variable {a b : Atom}

private theorem spelled_word (h : a.Legible) : a.word.Spelled := by
  cases a with
  | literal l => exact Literal.spelled_word Decimal.spells_someText h.1
  | name x => exact Word.spelled_ident h

private theorem atom_word (h : a.Legible) : Tree.atom a.word.kind a.word.text = .ok a.expr := by
  cases a with
  | literal l => exact Expr.atom_word Decimal.spells_someText h.1
  | name x => rfl

private theorem text_word (h : a.Legible) (hunit : a ≠ .literal .unit) : a.word.text = a.shown := by
  cases a with
  | name x => rfl
  | literal l =>
    obtain ⟨n, rfl⟩ | ⟨s, -, rfl⟩ | ⟨b, rfl⟩ | rfl := Literal.Plain.cases h
    · rfl
    · rw [← String.toList_inj]
      simp [word, Literal.word, shown, Literal.shown]
    · cases b <;> rfl
    · exact (hunit rfl).elim

private theorem expr_inj (h : a.expr = b.expr) : a = b := by
  cases a <;> cases b <;> cases h <;> rfl

private theorem shown_ne_unit (h : a.Legible) (hunit : a ≠ .literal .unit) : a.shown ≠ "()" := by
  intro hshown
  have hlex := spelled_word h []
  have hparen : Scan.lexeme? ("()".toList ++ [' ']) = some (.token .leftParen, 1) := rfl
  rw [text_word h hunit, hshown, hparen] at hlex
  exact absurd (Prod.mk.inj (Option.some.inj hlex)).2 (by decide)

/-- A legible name or literal is told from what is shown. -/
theorem shown_inj (ha : a.Legible) (hb : b.Legible) (h : a.shown = b.shown) : a = b := by
  by_cases hunit : a = .literal .unit
  · subst hunit
    by_contra hne
    exact shown_ne_unit hb (Ne.symm hne) h.symm
  by_cases hunit' : b = .literal .unit
  · subst hunit'
    exact (shown_ne_unit ha hunit h).elim
  have htext : a.word.text = b.word.text := by rw [text_word ha hunit, text_word hb hunit', h]
  have hword : a.word = b.word := (spelled_word ha).ext (spelled_word hb) htext
  have hread := atom_word hb
  rw [← hword, atom_word ha] at hread
  exact expr_inj (Except.ok.inj hread)

end Atom

namespace Dump

/-! ### Labels -/

/-- The forms of statements. -/
inductive Heading where
  | expr | print | block | var | branch | loop | func | ret

namespace Heading

/-- All of them. -/
def all : List Heading := [expr, print, block, var, branch, loop, func, ret]

/-- The word for the form. -/
def word : Heading → String
  | expr => "expr" | print => "print" | block => "block" | var => "var"
  | branch => "if" | loop => "while" | func => "func" | ret => "return"

end Heading

/-- The beginnings of lines. -/
inductive Mark where
  | prgm | decl | stmt | blck | idnt | fn | objt | unop | bnop | accs | asgn | call

namespace Mark

/-- All of them. -/
def all : List Mark := [prgm, decl, stmt, blck, idnt, fn, objt, unop, bnop, accs, asgn, call]

/-- The characters of the beginning. -/
def text : Mark → String
  | prgm => "[prgm]" | decl => "[decl]: stmt" | stmt => "[stmt]: " | blck => "[blck]"
  | idnt => "[idnt]: " | fn => "<fn " | objt => "[objt]: " | unop => "[unop] "
  | bnop => "[bnop] " | accs => "[accs]" | asgn => "[asgn]" | call => "[call] "

end Mark

/-- What the line of a node says. A call is bare if it has no arguments. -/
inductive Label where
  | program
  | decl
  | stmt (form : Heading)
  | block
  | ident (x : String)
  | header (name : String) (arity : Nat)
  | atom (a : Atom)
  | unary (op : UnaryOp)
  | binary (op : BinaryOp)
  | access
  | assign
  | call (callee : String) (bare : Bool)

namespace Label

/-- The beginning of the line. -/
def mark : Label → Mark
  | program => .prgm | decl => .decl | stmt _ => .stmt | block => .blck | ident _ => .idnt
  | header _ _ => .fn | atom _ => .objt | unary _ => .unop | binary _ => .bnop
  | access => .accs | assign => .asgn | call _ _ => .call

/-- The rest of the line. -/
def detail : Label → String
  | stmt form => form.word
  | ident x => x
  | header name arity => name ++ (" (" ++ (toString arity ++ ")>"))
  | atom a => a.shown
  | unary op => op.sign
  | binary op => op.sign
  | call callee bare => callee ++ (" (" ++ if bare then ")" else "")
  | program | decl | block | access | assign => ""

/-- The line. -/
def text (l : Label) : String := l.mark.text ++ l.detail

/-- Whether the names of a label are names and its literal is plain. -/
def Legible : Label → Prop
  | ident x | header x _ | call x _ => Scan.isName x = true
  | atom a => a.Legible
  | program | decl | stmt _ | block | unary _ | binary _ | access | assign => True

end Label

/-! ### Labels are told from texts -/

private theorem injective_of_find {α β : Type} [BEq β] {f : α → β} (all : List α)
    (h : ∀ a, all.find? (fun b => f b == f a) = some a) {a b : α} (hab : f a = f b) : a = b := by
  have ha := h a
  rw [hab, h b] at ha
  exact (Option.some.inj ha).symm

private theorem Mark.eq_of_append {m n : Mark} {s t : String} (h : m.text ++ s = n.text ++ t) :
    m = n ∧ s = t := by
  have htake (m : Mark) (s : String) : (m.text ++ s).toList.take 4 = m.text.toList.take 4 := by
    have hlength : 4 ≤ m.text.toList.length := by cases m <;> decide
    rw [String.toList_append, List.take_append_of_le_length hlength]
  have hfind (m : Mark) :
      all.find? (fun n => n.text.toList.take 4 == m.text.toList.take 4) = some m := by
    cases m <;> rfl
  have hcode : m.text.toList.take 4 = n.text.toList.take 4 := by
    rw [← htake m s, ← htake n t, h]
  obtain rfl := injective_of_find (f := fun m : Mark => m.text.toList.take 4) all hfind hcode
  exact ⟨rfl, (String.append_right_inj _).1 h⟩

private theorem unarySign_inj {op op' : UnaryOp} (h : op.sign = op'.sign) : op = op' :=
  injective_of_find [.not, .minus] (fun op => by cases op <;> rfl) h

private theorem binarySign_inj {op op' : BinaryOp} (h : op.sign = op'.sign) : op = op' :=
  injective_of_find [.plus, .minus, .times, .divide, .gt, .ge, .lt, .le, .eq, .ne, .and, .or]
    (fun op => by cases op <;> rfl) h

private theorem Heading.word_inj {form form' : Heading} (h : form.word = form'.word) :
    form = form' :=
  injective_of_find all (fun form => by cases form <;> rfl) h

private theorem toString_inj {n k : Nat} (h : toString n = toString k) : n = k := by
  rw [← Decimal.digitsValue_toString n, h, Decimal.digitsValue_toString]

private theorem eq_of_name {x y s t : String} (hx : Scan.isName x = true)
    (hy : Scan.isName y = true) (h : x ++ (" (" ++ s) = y ++ (" (" ++ t)) : x = y ∧ s = t := by
  have hname {x : String} (hx : Scan.isName x = true) (s : String) :
      (x ++ (" (" ++ s)).toList.takeWhile Scan.continuesName = x.toList := by
    rw [String.toList_append, String.toList_append,
      List.takeWhile_append_of_pos (Scan.continuesName_of_isName hx)]
    exact List.append_nil _
  have hxy : x.toList = y.toList := by rw [← hname hx s, h, hname hy t]
  obtain rfl := String.toList_inj.1 hxy
  exact ⟨rfl, (String.append_right_inj _).1 ((String.append_right_inj _).1 h)⟩

namespace Label

/-- Legible labels are told from their texts. -/
theorem text_inj {l m : Label} (hl : l.Legible) (hm : m.Legible) (h : l.text = m.text) : l = m := by
  obtain ⟨hmark, hdetail⟩ := Mark.eq_of_append h
  cases l with
  | program | decl | block | access | assign => cases m <;> first | rfl | cases hmark
  | stmt form =>
    cases m with
    | stmt form' => rw [Heading.word_inj hdetail]
    | _ => cases hmark
  | ident x =>
    cases m with
    | ident y => rw [show x = y from hdetail]
    | _ => cases hmark
  | header x n =>
    cases m with
    | header y k =>
      obtain ⟨rfl, hrest⟩ := eq_of_name hl hm hdetail
      rw [toString_inj ((String.append_left_inj _).1 hrest)]
    | _ => cases hmark
  | atom a =>
    cases m with
    | atom b => rw [Atom.shown_inj hl hm hdetail]
    | _ => cases hmark
  | unary op =>
    cases m with
    | unary op' => rw [unarySign_inj hdetail]
    | _ => cases hmark
  | binary op =>
    cases m with
    | binary op' => rw [binarySign_inj hdetail]
    | _ => cases hmark
  | call f bare =>
    cases m with
    | call g bare' =>
      obtain ⟨rfl, hrest⟩ := eq_of_name hl hm hdetail
      have hbare : bare = bare' := by
        revert hrest
        cases bare <;> cases bare' <;> decide
      rw [hbare]
    | _ => cases hmark

end Label

/-! ### Texts end at line feeds -/

/-- Whether all line feeds stand in quotes, and no quote is open at the end; `quoted` tells whether
one is open at the beginning. -/
def isSealed (quoted : Bool) : List Char → Bool
  | [] => !quoted
  | c :: cs =>
    if c = '"' then isSealed (!quoted) cs else (quoted || c != '\n') && isSealed quoted cs

private theorem isSealed_cons {c : Char} (hc : c ≠ '"') (quoted : Bool) (cs : List Char) :
    isSealed quoted (c :: cs) = ((quoted || c != '\n') && isSealed quoted cs) := if_neg hc

private theorem isSealed_append {cs ds : List Char} {quoted : Bool}
    (hcs : isSealed quoted cs = true) (hds : isSealed false ds = true) :
    isSealed quoted (cs ++ ds) = true := by
  induction cs generalizing quoted with
  | nil =>
    cases quoted with
    | true => cases hcs
    | false => exact hds
  | cons c cs ih =>
    by_cases hc : c = '"'
    · subst hc
      have hcs : isSealed (!quoted) cs = true := hcs
      exact ih hcs
    · rw [isSealed_cons hc, Bool.and_eq_true_iff] at hcs
      rw [List.cons_append, isSealed_cons hc, Bool.and_eq_true_iff]
      exact ⟨hcs.1, ih hcs.2⟩

private theorem isSealed_of_plain {cs : List Char} (h : ∀ c ∈ cs, c ≠ '"' ∧ c ≠ '\n') :
    isSealed false cs = true := by
  induction cs with
  | nil => rfl
  | cons c cs ih =>
    obtain ⟨⟨hquote, hfeed⟩, h⟩ := List.forall_mem_cons.1 h
    rw [isSealed_cons hquote, ih h, Bool.and_true]
    exact bne_iff_ne.2 hfeed

private theorem isSealed_quoted {body : List Char} (h : '"' ∉ body) :
    isSealed false ('"' :: (body ++ ['"'])) = true := by
  show isSealed true (body ++ ['"']) = true
  induction body with
  | nil => rfl
  | cons c body ih =>
    rw [List.mem_cons, not_or] at h
    rw [List.cons_append, isSealed_cons (Ne.symm h.1), ih h.2]
    rfl

/-- Sealed texts are told apart by the line feeds after them. -/
theorem eq_of_isSealed {cs ds rest more : List Char} {quoted : Bool}
    (hcs : isSealed quoted cs = true) (hds : isSealed quoted ds = true)
    (h : cs ++ '\n' :: rest = ds ++ '\n' :: more) : cs = ds ∧ rest = more := by
  -- A text that goes on after the other has a line feed that is not quoted.
  have hopen {quoted : Bool} {cs : List Char} (hnil : isSealed quoted [] = true) :
      isSealed quoted ('\n' :: cs) = false := by
    cases quoted with
    | true => cases hnil
    | false => rfl
  induction cs generalizing ds quoted with
  | nil =>
    cases ds with
    | nil => exact ⟨rfl, (List.cons.inj h).2⟩
    | cons d ds =>
      obtain ⟨rfl, -⟩ := List.cons.inj h
      rw [hopen hcs] at hds
      cases hds
  | cons c cs ih =>
    cases ds with
    | nil =>
      obtain ⟨rfl, -⟩ := List.cons.inj h
      rw [hopen hds] at hcs
      cases hcs
    | cons d ds =>
      obtain ⟨rfl, htail⟩ := List.cons.inj h
      have heq : cs = ds ∧ rest = more := by
        by_cases hc : c = '"'
        · subst hc
          have hcs : isSealed (!quoted) cs = true := hcs
          exact ih hcs hds htail
        · rw [isSealed_cons hc, Bool.and_eq_true_iff] at hcs hds
          exact ih hcs.2 hds.2 htail
      exact ⟨by rw [heq.1], heq.2⟩

namespace Label

private theorem isSealed_name {x : String} (h : Scan.isName x = true) :
    isSealed false x.toList = true := by
  refine isSealed_of_plain fun c hc => ?_
  have hname := Scan.continuesName_of_isName h c hc
  constructor <;> rintro rfl <;> cases hname

private theorem isSealed_number (n : Nat) : isSealed false (toString n).toList = true := by
  refine isSealed_of_plain fun c hc => ?_
  have hdigit := Decimal.isDigit_of_mem_toString hc
  constructor <;> rintro rfl <;> cases hdigit

private theorem isSealed_atom {a : Atom} (h : a.Legible) :
    isSealed false a.shown.toList = true := by
  cases a with
  | name x => exact isSealed_name h
  | literal l =>
    obtain ⟨n, rfl⟩ | ⟨s, hs, rfl⟩ | ⟨b, rfl⟩ | rfl := Literal.Plain.cases h
    · exact isSealed_number n
    · rw [Atom.shown, Literal.shown, String.toList_append, String.toList_append]
      exact isSealed_quoted hs
    · cases b <;> rfl
    · rfl

/-- The text of a legible label is sealed. -/
theorem isSealed_text {l : Label} (h : l.Legible) : isSealed false l.text.toList = true := by
  rw [text, String.toList_append]
  refine isSealed_append (by cases l.mark <;> rfl) ?_
  cases l with
  | program | decl | block | access | assign => rfl
  | stmt form => cases form <;> rfl
  | ident x => exact isSealed_name h
  | header x n =>
    rw [detail, String.toList_append, String.toList_append, String.toList_append]
    exact isSealed_append (isSealed_name h)
      (isSealed_append rfl (isSealed_append (isSealed_number n) rfl))
  | atom a => exact isSealed_atom h
  | unary op => cases op <;> rfl
  | binary op => cases op <;> rfl
  | call f bare =>
    rw [detail, String.toList_append, String.toList_append]
    exact isSealed_append (isSealed_name h) (isSealed_append rfl (by cases bare <;> rfl))

end Label

end Dump

end Lox
