import Lox.Proofs.Derivation
import Lox.Proofs.Record
import Lox.Proofs.RoundTrip
import Lox.Proofs.Seam
import Lox.Proofs.Sequences

/-!
# Units joined

Two units entered one after the other, or as one text with a line feed between them. The words of
the joined text are those of both, a declaration needs nothing of what stands after it, and a
program is its declarations in their order; so the joined text is the declarations of the first unit
and then those of the second. It runs as the first unit does and, if that comes to its end, goes on
as the second does from there.
-/

namespace Lox

/-! ### Reading both -/

/-- Repetitions of a form one after the other. -/
theorem Derives.many_append {a : Form} {ts us : List Token} {cs ds : List Tree}
    (h : Derives (.many a) ts cs) (h' : Derives (.many a) us ds) :
    Derives (.many a) (ts ++ us) (cs ++ ds) := by
  generalize hform : Form.many a = form at h
  induction h with
  | manyNil =>
    cases hform
    exact h'
  | manyCons ha _ _ ih =>
    cases hform
    rw [List.append_assoc, List.append_assoc]
    exact .manyCons ha (ih rfl)
  | _ => cases hform

/-- A source text has a tree just if all of it is words from which the tree is derived. -/
theorem Tree.ofSource_eq_ok_iff_reading {source : String} {t : Tree} :
    Tree.ofSource source = .ok t ↔
      ∃ ts, Reading.ofChars source.toList = ⟨ts.map Token.word, true⟩ ∧
        Derives (.rule .program) ts [t] := by
  rw [Tree.ofSource_eq_ok_iff]
  constructor
  · rintro ⟨ts, hcuts, hts⟩
    refine ⟨ts, ?_, hts⟩
    rw [Reading.ofChars, Scanned.ofChars_eq_iff.2 hcuts]
    rfl
  · rintro ⟨ts, hread, hts⟩
    have hcuts := Scanned.cuts_ofChars .start source.toList
    rw [Reading.ofChars] at hread
    generalize Scanned.ofChars .start source.toList = s at hread hcuts
    obtain ⟨ts', stop⟩ := s
    obtain ⟨hwords, hstop⟩ := Reading.mk.inj hread
    cases stop with
    | some => cases hstop
    | none => exact ⟨ts', hcuts, hts.of_words hwords⟩

/-- The statements of some trees and then those of others. -/
theorem Tree.stmts_append {cs ds : List Tree} {ss ts : List Stmt} (h : stmts cs = .ok ss)
    (h' : stmts ds = .ok ts) : stmts (cs ++ ds) = .ok (ss ++ ts) := by
  induction cs generalizing ss with
  | nil =>
    cases h
    exact h'
  | cons c cs ih =>
    cases c with
    | leaf => exact ih h
    | node r children =>
      have hcons (rest : List Tree) : stmts (.node r children :: rest) =
          (do let s ← decl (.node r children); let ss ← stmts rest; pure (s :: ss)) := rfl
      rw [hcons] at h
      rw [List.cons_append, hcons]
      cases hs : decl (.node r children) with
      | error d =>
        rw [hs] at h
        cases h
      | ok s =>
        cases hss : stmts cs with
        | error d =>
          rw [hs, hss] at h
          cases h
        | ok ss' =>
          rw [hs, hss] at h
          cases h
          rw [ih hss]
          rfl

namespace Source

variable {source s₁ s₂ : String} {p p₁ p₂ : Program}

/-- A source text is a program just if it has a tree that is one. -/
theorem program_eq_ok_iff_tree :
    program source = .ok p ↔ ∃ t, Tree.ofSource source = .ok t ∧ t.toProgram = .ok p := by
  rw [program]
  cases Tree.ofSource source with
  | error e => simp
  | ok t => cases hp : t.toProgram <;> simp [hp]

/-- A source text is a program just if all of it is words that are declarations, and the program
is the statements of these. -/
theorem program_eq_ok_iff :
    program source = .ok p ↔
      ∃ ts cs, Reading.ofChars source.toList = ⟨ts.map Token.word, true⟩ ∧
        Derives (.many (.rule .declaration)) ts cs ∧ Tree.stmts cs = .ok p := by
  rw [program_eq_ok_iff_tree]
  constructor
  · rintro ⟨t, htree, hp⟩
    obtain ⟨ts, hread, hts⟩ := Tree.ofSource_eq_ok_iff_reading.1 htree
    cases hts with
    | @rule _ _ cs hts => exact ⟨ts, cs, hread, hts, hp⟩
  · rintro ⟨ts, cs, hread, hts, hp⟩
    exact ⟨.node .program cs, Tree.ofSource_eq_ok_iff_reading.2 ⟨ts, hread, .rule hts⟩, hp⟩

/-- Two source texts that are programs, with a line feed between them, are one program: the
statements of the first and then those of the second. -/
theorem program_newline (h₁ : program s₁ = .ok p₁) (h₂ : program s₂ = .ok p₂) :
    program (s₁ ++ "\n" ++ s₂) = .ok (p₁ ++ p₂) := by
  obtain ⟨ts, cs, hread, hts, hp₁⟩ := program_eq_ok_iff.1 h₁
  obtain ⟨us, ds, hread', hus, hp₂⟩ := program_eq_ok_iff.1 h₂
  refine program_eq_ok_iff.2 ⟨ts ++ us, cs ++ ds, ?_, hts.many_append hus,
    Tree.stmts_append hp₁ hp₂⟩
  have hchars : (s₁ ++ "\n" ++ s₂).toList = s₁.toList ++ '\n' :: s₂.toList := by
    rw [String.toList_append, String.toList_append, List.append_assoc]
    rfl
  have hwhole : (Reading.ofChars s₁.toList).whole = true := by rw [hread]
  rw [hchars, Reading.ofChars_newline hwhole, hread, hread', Reading.prepend, List.map_append]

end Source

/-! ### Running both -/

namespace Program

variable {limits : Limits} {tracing : Bool} {p q : Program} {flow : Flow} {w w₁ : World}

/-- After a program that has come to its end, the statements after it are run. -/
theorem exec_append_of_goesOn (h : p.exec limits tracing w = .ok flow w₁) (hflow : flow.GoesOn)
    (hq : q ≠ []) : exec limits tracing (p ++ q) w = q.exec limits tracing w₁ := by
  rw [exec, Stmt.execAll_append_of_goesOn h hflow, Stmt.execAll_of_ne_nil hq flow .next]
  rfl

/-- After a program that returns or fails, nothing is run. -/
theorem exec_append_of_ends (h : Stmt.Ends (p.exec limits tracing w)) (q : Program) :
    exec limits tracing (p ++ q) w = p.exec limits tracing w := by
  have hlast : Flow.next.GoesOn := trivial
  exact Stmt.execAll_append_of_ends hlast h

end Program

namespace Source

variable {source s₁ s₂ : String} {p p₁ p₂ : Program}

/-- A program that can be written is the program of its text. -/
theorem program_of_writable (h : p.Writable) : program (p.unparse Decimal.someText) = .ok p := by
  obtain ⟨ts, hscan, hts⟩ := Program.scan_unparse Decimal.spells_someText h
  exact program_of_scan Decimal.spells_someText h hscan hts

/-- A source text that is a program is run as that. -/
theorem exec_of_program (limits : Limits) (h : program source = .ok p) :
    exec limits {} source = run (p.exec limits false) := by
  obtain ⟨t, htree, hp⟩ := program_eq_ok_iff_tree.1 h
  rw [exec, htree]
  funext w
  simp only [bind, EStateM.bind, lift, pure, EStateM.pure, showTree, noteProgram, showDump, hp]
  rfl

/-- A unit that is a program leads to the world in which the program ends. -/
theorem execAll_cons_of_program (limits : Limits) (h : program source = .ok p) (jobs : List Job)
    (w : World) :
    execAll limits (⟨{}, source⟩ :: jobs) w =
      execAll limits jobs (endState (p.exec limits false w)) := by
  rw [execAll, exec_of_program limits h, endState_run]

/-- A step that gives a result does so as a stage. -/
theorem run_eq_ok_iff {α : Type} {act : Eval α} {a : α} {w w₁ : World} :
    run act w = .ok a w₁ ↔ act w = .ok a w₁ := by
  rw [run]
  cases act w <;> simp

/-- A step that stops is a stage that fails for it. -/
theorem run_eq_error_iff {α : Type} {act : Eval α} {failure : Failure} {w w₁ : World} :
    run act w = .error failure w₁ ↔ ∃ stop, failure = .stopped stop ∧ act w = .error stop w₁ := by
  rw [run]
  cases act w with
  | ok a w' => simp
  | error stop w' =>
    simp only [EStateM.Result.error.injEq]
    constructor
    · rintro ⟨rfl, rfl⟩
      exact ⟨stop, rfl, rfl, rfl⟩
    · rintro ⟨stop', rfl, rfl, rfl⟩
      exact ⟨rfl, rfl⟩

/-- Two units, one after the other, agree with one unit that is both with a line feed between them.
The joined text is the program of both. If the first unit comes to its end, the joined text ends as
the second does from there, in all that is printed, in the environment and in why it fails if it
does; a second unit without declarations leaves everything as it is. If the first unit returns or
fails, the joined text does the same, and the second does not count. -/
theorem exec_joined (h₁ : program s₁ = .ok p₁) (h₂ : program s₂ = .ok p₂) :
    program (s₁ ++ "\n" ++ s₂) = .ok (p₁ ++ p₂) ∧
    ∀ (limits : Limits) (w w₁ : World),
      (∀ flow, exec limits {} s₁ w = .ok flow w₁ → flow.GoesOn →
        (p₂ ≠ [] → exec limits {} (s₁ ++ "\n" ++ s₂) w = exec limits {} s₂ w₁) ∧
        (p₂ = [] → exec limits {} (s₁ ++ "\n" ++ s₂) w = .ok flow w₁ ∧
          exec limits {} s₂ w₁ = .ok .next w₁)) ∧
      (∀ v, exec limits {} s₁ w = .ok (.returned v) w₁ →
        exec limits {} (s₁ ++ "\n" ++ s₂) w = .ok (.returned v) w₁) ∧
      ∀ failure, exec limits {} s₁ w = .error failure w₁ →
        exec limits {} (s₁ ++ "\n" ++ s₂) w = .error failure w₁ := by
  have hjoined := program_newline h₁ h₂
  refine ⟨hjoined, fun limits w w₁ => ?_⟩
  rw [exec_of_program limits h₁, exec_of_program limits h₂, exec_of_program limits hjoined]
  simp only [run_eq_ok_iff, run_eq_error_iff]
  refine ⟨fun flow hend hflow => ⟨fun hne => ?_, fun hnil => ?_⟩, fun v hend => ?_, ?_⟩
  · simp only [run, Program.exec_append_of_goesOn hend hflow hne]
  · subst hnil
    rw [List.append_nil]
    exact ⟨hend, rfl⟩
  · rw [Program.exec_append_of_ends (fun flow w' h => ?_), hend]
    rw [hend] at h
    cases h
    exact id
  · rintro failure ⟨stop, hfailure, hend⟩
    refine ⟨stop, hfailure, ?_⟩
    rw [Program.exec_append_of_ends (fun flow w' h => ?_), hend]
    rw [hend] at h
    cases h

/-- A declaration that comes to its end, an unknown name and a return, each with a unit after it. -/
theorem exec_joined_units :
    program "var x ; " = .ok [.var "x" none] ∧ program "x ; " = .ok [.expr (.name "x")] ∧
    program "return ; " = .ok [.ret none] ∧
    (∃ w₁, exec .standard {} "var x ; " .start = .ok .next w₁ ∧
      exec .standard {} ("var x ; " ++ "\n" ++ "x ; ") .start = .ok (.value .unit) w₁) ∧
    exec .standard {} ("x ; " ++ "\n" ++ "var x ; ") .start =
      .error (.stopped (.fault (.undefinedVariable "x"))) .start ∧
    exec .standard {} ("return ; " ++ "\n" ++ "x ; ") .start = .ok (.returned .unit) .start := by
  have hname : Scan.isName "x" = true := by decide
  have hvar : program "var x ; " = .ok [.var "x" none] :=
    program_of_writable (p := [.var "x" none]) ⟨hname, trivial⟩
  have hread : program "x ; " = .ok [.expr (.name "x")] :=
    program_of_writable (p := [.expr (.name "x")]) ⟨hname, trivial⟩
  have hreturn : program "return ; " = .ok [.ret none] :=
    program_of_writable (p := [.ret none]) ⟨trivial, trivial⟩
  have hdeclared : exec .standard {} "var x ; " .start =
      .ok .next ⟨Env.initial.define "x" .unit, "", #[]⟩ := by
    rw [exec_of_program _ hvar]
    rfl
  have hvalue : exec .standard {} "x ; " ⟨Env.initial.define "x" .unit, "", #[]⟩ =
      .ok (.value .unit) ⟨Env.initial.define "x" .unit, "", #[]⟩ := by
    rw [exec_of_program _ hread]
    rfl
  have hunknown : exec .standard {} "x ; " .start =
      .error (.stopped (.fault (.undefinedVariable "x"))) .start := by
    rw [exec_of_program _ hread]
    rfl
  have hreturned : exec .standard {} "return ; " .start = .ok (.returned .unit) .start := by
    rw [exec_of_program _ hreturn]
    rfl
  refine ⟨hvar, hread, hreturn, ⟨_, hdeclared, ?_⟩, ?_, ?_⟩
  · obtain ⟨hgoes, -, -⟩ := (exec_joined hvar hread).2 .standard .start _
    rw [(hgoes _ hdeclared trivial).1 (List.cons_ne_nil _ _), hvalue]
  · exact ((exec_joined hread hvar).2 .standard .start _).2.2 _ hunknown
  · exact ((exec_joined hreturn hread).2 .standard .start _).2.1 _ hreturned

end Source

end Lox
