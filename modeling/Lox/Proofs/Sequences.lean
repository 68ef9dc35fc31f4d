import Lox.Eval

/-!
# Statements one after the other

A list of statements is run up to the first that returns or fails, and that one decides how the
list ends. So a list in two parts is run as its first part and then, if that has come to its end,
as its second part.
-/

namespace Lox

/-- Whether what stands after a statement that ends like this is run. -/
def Flow.GoesOn : Flow → Prop
  | next | value _ => True
  | returned _ => False

namespace Stmt

variable {ctx : Context} {last flow : Flow} {s : Stmt} {ss ts : List Stmt} {w w₁ : World}
  {v : Value} {stop : Stop}

/-- After a statement that does not return, the others are run. -/
theorem execAll_cons_of_goesOn (h : s.exec ctx w = .ok flow w₁) (hflow : flow.GoesOn) :
    execAll ctx last (s :: ss) w = execAll ctx flow ss w₁ := by
  rw [execAll]
  simp only [bind, EStateM.bind, h]
  cases flow with
  | next | value => rfl
  | returned => exact hflow.elim

/-- A statement that returns ends the list. -/
theorem execAll_cons_of_returned (h : s.exec ctx w = .ok (.returned v) w₁) :
    execAll ctx last (s :: ss) w = .ok (.returned v) w₁ := by
  rw [execAll]
  simp only [bind, EStateM.bind, h]
  rfl

/-- A statement that fails ends the list. -/
theorem execAll_cons_of_error (h : s.exec ctx w = .error stop w₁) :
    execAll ctx last (s :: ss) w = .error stop w₁ := by
  rw [execAll]
  simp only [bind, EStateM.bind, h]

/-- Whether what ends like this ends the list that it stands in. -/
def Ends (res : EStateM.Result Stop World Flow) : Prop :=
  ∀ flow w, res = .ok flow w → ¬flow.GoesOn

/-- Either all statements are run, or the first of them that returns or fails ends the list. -/
theorem execAll_cases (ctx : Context) (ss : List Stmt) {last : Flow} (hlast : last.GoesOn)
    (w : World) :
    (∃ flow w₁, execAll ctx last ss w = .ok flow w₁ ∧ flow.GoesOn) ∨
    ∃ done s rest flow w₁, ss = done ++ s :: rest ∧ execAll ctx last done w = .ok flow w₁ ∧
      flow.GoesOn ∧ Ends (s.exec ctx w₁) ∧ execAll ctx last ss w = s.exec ctx w₁ := by
  induction ss generalizing last w with
  | nil => exact .inl ⟨last, w, rfl, hlast⟩
  | cons s ss ih =>
    -- where the list ends with its first statement
    have hfirst (hs : Ends (s.exec ctx w)) (h : execAll ctx last (s :: ss) w = s.exec ctx w) :
        ∃ done s' rest flow w₁, s :: ss = done ++ s' :: rest ∧
          execAll ctx last done w = .ok flow w₁ ∧ flow.GoesOn ∧ Ends (s'.exec ctx w₁) ∧
          execAll ctx last (s :: ss) w = s'.exec ctx w₁ :=
      ⟨[], s, ss, last, w, rfl, rfl, hlast, hs, h⟩
    cases hs : s.exec ctx w with
    | error stop w₁ =>
      refine .inr (hfirst (fun flow w₂ h => ?_) ((execAll_cons_of_error hs).trans hs.symm))
      rw [hs] at h
      cases h
    | ok flow w₁ =>
      by_cases hflow : flow.GoesOn
      · rw [execAll_cons_of_goesOn hs hflow]
        rcases ih hflow w₁ with hall | ⟨done, s', rest, flow', w₂, rfl, hdone, hflow', hend⟩
        · exact .inl hall
        · refine .inr ⟨s :: done, s', rest, flow', w₂, rfl, ?_, hflow', hend⟩
          rw [execAll_cons_of_goesOn hs hflow, hdone]
      · cases flow with
        | next | value => exact (hflow trivial).elim
        | returned v =>
          refine .inr (hfirst (fun flow w₂ h => ?_) ((execAll_cons_of_returned hs).trans hs.symm))
          rw [hs] at h
          cases h
          exact id

/-- Statements after a list that has been run to its end. -/
theorem execAll_append_of_goesOn (h : execAll ctx last ss w = .ok flow w₁)
    (hflow : flow.GoesOn) : execAll ctx last (ss ++ ts) w = execAll ctx flow ts w₁ := by
  induction ss generalizing last w with
  | nil =>
    cases h
    rfl
  | cons s ss ih =>
    rw [List.cons_append]
    cases hs : s.exec ctx w with
    | error stop w₂ =>
      rw [execAll_cons_of_error hs] at h
      cases h
    | ok flow' w₂ =>
      by_cases hflow' : flow'.GoesOn
      · rw [execAll_cons_of_goesOn hs hflow'] at h ⊢
        exact ih h
      · cases flow' with
        | next | value => exact (hflow' trivial).elim
        | returned v =>
          rw [execAll_cons_of_returned hs] at h
          cases h
          exact hflow.elim

/-- How the last statement before a list ended does not matter to a list that has statements. -/
theorem execAll_of_ne_nil (h : ss ≠ []) (last last' : Flow) :
    execAll ctx last ss w = execAll ctx last' ss w := by
  cases ss with
  | nil => exact (h rfl).elim
  | cons s ss => rfl

/-- A statement that ends the list ends it whatever stands after it. -/
theorem execAll_cons_of_ends (h : Ends (s.exec ctx w)) :
    execAll ctx last (s :: ss) w = s.exec ctx w := by
  cases hs : s.exec ctx w with
  | error stop w₁ => exact execAll_cons_of_error hs
  | ok flow w₁ =>
    cases flow with
    | next | value => exact (h _ _ hs trivial).elim
    | returned v => exact execAll_cons_of_returned hs

/-- Statements after a list that has not been run to its end are not run. -/
theorem execAll_append_of_ends (hlast : last.GoesOn) (h : Ends (execAll ctx last ss w)) :
    execAll ctx last (ss ++ ts) w = execAll ctx last ss w := by
  rcases execAll_cases ctx ss hlast w with
    ⟨flow, w₁, hall, hflow⟩ | ⟨done, s, rest, flow, w₁, rfl, hdone, hflow, hs, hend⟩
  · exact (h flow w₁ hall hflow).elim
  · rw [List.append_assoc, List.cons_append, execAll_append_of_goesOn hdone hflow,
      execAll_cons_of_ends hs, hend]

end Stmt

end Lox
