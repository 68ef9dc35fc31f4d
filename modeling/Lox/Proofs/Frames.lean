import Lox.Proofs.Balance
import Lox.Proofs.Joining
import Lox.Proofs.Separation
import Lox.Proofs.Sequences

/-!
# Where names are bound

A declaration binds its name in the innermost scope, a call binds parameters in a scope that was
made for them, and no binding is ever taken away. So an expression, a block, a branch or a loop
binds no name in a scope that was there before, whatever is called inside it and however it ends;
a declaration binds its own name at most, in the innermost scope. The scope that a function has
captured is innermost only where nothing is declared, so it binds the same names for ever.
-/

namespace Lox

namespace Env

/-- The innermost scope is the first of the stack. -/
theorem top_congr {e e' : Env} (h : e'.inner = e.inner) : e'.top = e.top := by
  rw [top, top, h]

/-- The same scopes lie on the stack, and the scopes that there were bind the same names, except
that the innermost one binds `xs` as well. -/
structure Adds (xs : List String) (e e' : Env) : Prop where
  inner : e'.inner = e.inner
  size : e.scopes.size ≤ e'.scopes.size
  binds : ∀ id < e.scopes.size, ∀ x,
    (e'.scope id).binds x = true ↔ (e.scope id).binds x = true ∨ id = e.top ∧ x ∈ xs

namespace Adds

variable {e e' e'' : Env} {xs ys : List String}

/-- Where nothing is done, nothing is bound. -/
theorem refl (e : Env) : Adds [] e e := ⟨rfl, Nat.le_refl _, fun _ _ _ => by simp⟩

/-- What is bound one after the other is bound in the end. -/
theorem trans (h : Adds xs e e') (h' : Adds ys e' e'') : Adds (xs ++ ys) e e'' where
  inner := h'.inner.trans h.inner
  size := Nat.le_trans h.size h'.size
  binds id hid x := by
    rw [h'.binds id (Nat.lt_of_lt_of_le hid h.size), h.binds id hid, top_congr h.inner,
      List.mem_append, or_assoc, and_or_left]

/-- A definition binds its name in the innermost scope. -/
theorem define (e : Env) (x : String) (v : Value) : Adds [x] e (e.define x v) where
  inner := rfl
  size := Nat.le_of_eq (size_define ..).symm
  binds id hid y := by
    rw [Env.define, List.mem_singleton]
    by_cases htop : id = e.top
    · subst htop
      rw [scope_putIn_self hid, Scope.binds_put]
      simp [or_comm]
    · rw [scope_putIn_of_ne htop]
      simp [htop]

/-- A new value for a variable that exists binds no name. -/
theorem assign {x : String} {id : ScopeId} (h : e.owner? x = some id) (v : Value) :
    Adds [] e (e.putIn id x v) where
  inner := rfl
  size := Nat.le_of_eq (size_putIn ..).symm
  binds other _ y := by
    rw [binds_putIn_of_binds (binds_of_owner? h)]
    simp

/-- A copy of a scope binds no name in another. -/
theorem snapshot (e : Env) : Adds [] e e.snapshot.2 where
  inner := rfl
  size := by
    rw [size_snapshot]
    exact Nat.le_succ _
  binds id hid x := by
    rw [scope_snapshot_of_lt hid]
    simp

/-- What is bound in a new scope is not seen below it. -/
theorem leave (h : Adds xs e.push e') : Adds [] e ⟨e'.scopes, e.inner⟩ where
  inner := rfl
  size := Nat.le_trans (by rw [size_push]; exact Nat.le_succ _) h.size
  binds id hid x := by
    have hnew : id ≠ e.push.top := Nat.ne_of_lt hid
    have hbinds := h.binds id (by rw [size_push]; exact Nat.lt_succ_of_lt hid) x
    rw [scope_push] at hbinds
    show (e'.scope id).binds x = true ↔ _
    simpa [hnew] using hbinds

/-- Where nothing is bound on top of a shared scope, nothing is bound below it. -/
theorem leaveShared {c : ScopeId} (h : Adds [] (e.pushShared c) e') :
    Adds [] e ⟨e'.scopes, e.inner⟩ where
  inner := rfl
  size := h.size
  binds id hid x := by
    show (e'.scope id).binds x = true ↔ _
    rw [h.binds id hid x]
    simp only [List.not_mem_nil, and_false]
    rfl

end Adds

end Env

/-- Expressions and blocks bind nothing, and statements bind in the innermost scope only. -/
def Discipline.frames : Discipline where
  __ := Discipline.balance
  outer r s := r.env.Adds [] s.env
  inner r s := ∃ xs, r.env.Adds xs s.env
  outer_refl r := .refl r.env
  outer_trans h h' := h.trans h'
  inner_of_outer h := ⟨[], h⟩
  inner_trans := by
    rintro r s t ⟨xs, h⟩ ⟨ys, h'⟩
    exact ⟨xs ++ ys, h.trans h'⟩
  stack := by
    rintro r s ⟨xs, h⟩
    exact h.inner
  known_mono _ _ := trivial
  shown {r s} _ henv _ := ⟨trivial, henv ▸ .refl r.env⟩
  bound {r x v} _ _ := ⟨trivial, [x], .define r.env x v⟩
  assigned _ _ hx := ⟨trivial, .assign hx _⟩
  declared {r f} _ _ _ := ⟨trivial, .snapshot r.env, trivial⟩
  closed := by
    rintro r s l - - - ⟨xs, h⟩ -
    exact ⟨trivial, h.leave⟩
  ended _ _ _ h _ := ⟨trivial, h.leaveShared⟩

/-- An evaluation that began in the world `w` has bound the names `xs` in the innermost scope, or
none if it failed, and it has bound no name in any other scope that there was. -/
def Adding {α : Type} (xs : List String) (w : World) : EStateM.Result Stop World α → Prop
  | .ok _ w' => w.env.Adds xs w'.env
  | .error _ w' => w.env.Adds [] w'.env

private theorem adding_forget {α : Type} {P : α → Run → Prop} {r : Run}
    {res : EStateM.Result Stop Run α}
    (h : Discipline.frames.Ends Discipline.frames.outer P r res) :
    Adding [] r.world (Recorded.forget res) := by
  cases res with
  | ok a s => exact h.2.1
  | error stop s => exact h.2.1

private theorem adding_define {α : Type} {act : Eval α} {next : α → Eval Flow} {w : World}
    {x : String} (h : Adding [] w (act w))
    (hnext : ∀ a w', ∃ v, next a w' =
      .ok .next ⟨w'.env.define x v, w'.printed, w'.trace⟩) :
    Adding [x] w ((act >>= next) w) := by
  simp only [bind, EStateM.bind]
  cases hact : act w with
  | error stop w' =>
    rw [hact] at h
    exact h
  | ok a w' =>
    rw [hact] at h
    obtain ⟨v, hv⟩ := hnext a w'
    simp only [hv]
    exact h.trans (.define w'.env x v)

section Kinds

variable (limits : Limits) (tracing : Bool) (w : World)

/-- An expression binds nothing. -/
theorem Expr.adding_eval (e : Expr) :
    Adding [] w (e.eval (.ofCalls limits.rounds tracing limits.calls) w) := by
  rw [Expr.eval_eq_forget limits tracing ⟨w, []⟩]
  exact adding_forget (r := ⟨w, []⟩)
    (Discipline.ends_expr (Discipline.calls_call limits tracing) e (.inl trivial) trivial)

/-- A block on its own binds nothing. -/
theorem Block.adding_exec (body : Block) :
    Adding [] w (body.exec (.ofCalls limits.rounds tracing limits.calls) w) := by
  rw [Block.exec_eq_forget limits tracing ⟨w, []⟩]
  exact adding_forget (r := ⟨w, []⟩)
    (Discipline.ends_body limits tracing (.inl trivial) trivial)

/-- A call binds nothing that is there after it. -/
theorem Eval.adding_apply (f : Function) (args : List Value) :
    Adding [] w (Eval.apply (.ofCalls limits.rounds tracing limits.calls) f args w) := by
  rw [Eval.apply_eq_forget limits tracing ⟨w, []⟩]
  exact adding_forget (r := ⟨w, []⟩)
    (Discipline.calls_call limits tracing trivial trivial fun _ _ => trivial)

private theorem Stmt.adding_unbinding {s : Stmt} (hs : s.binds = []) :
    Adding [] w (s.exec (.ofCalls limits.rounds tracing limits.calls) w) := by
  rw [Stmt.exec_eq_forget limits tracing ⟨w, []⟩]
  exact adding_forget (r := ⟨w, []⟩)
    (Discipline.ends_unbinding (Discipline.calls_call limits tracing) hs (.inl trivial) trivial)

/-- A statement that completes has bound the names that it declares; one that fails has bound
nothing. -/
theorem Stmt.adding_exec (s : Stmt) :
    Adding s.binds w (s.exec (.ofCalls limits.rounds tracing limits.calls) w) := by
  cases s with
  | var x value =>
    cases value with
    | none => exact .define w.env x .unit
    | some e => exact adding_define (e.adding_eval limits tracing w) fun v _ => ⟨v, rfl⟩
  | func name params body =>
    have hcapture : Adding [] w (Eval.capture w) := Env.Adds.snapshot w.env
    exact adding_define hcapture fun _ _ => ⟨_, rfl⟩
  | builtin name fn => exact .define w.env name (.func (.builtin fn))
  | _ => exact Stmt.adding_unbinding limits tracing w rfl

end Kinds

variable {limits : Limits} {tracing : Bool} {w w' : World}

/-- Statements that have all been run have bound the names that they declare. -/
theorem Stmt.adds_execAll {ss : List Stmt} {last flow : Flow}
    (h : Stmt.execAll (.ofCalls limits.rounds tracing limits.calls) last ss w = .ok flow w')
    (hflow : flow.GoesOn) : w.env.Adds (ss.flatMap Stmt.binds) w'.env := by
  induction ss generalizing last w with
  | nil =>
    cases h
    exact .refl _
  | cons s ss ih =>
    have hs := s.adding_exec limits tracing w
    cases hres : s.exec (.ofCalls limits.rounds tracing limits.calls) w with
    | error stop w₁ =>
      rw [Stmt.execAll_cons_of_error hres] at h
      cases h
    | ok flow' w₁ =>
      rw [hres] at hs
      cases flow' with
      | returned v =>
        rw [Stmt.execAll_cons_of_returned hres] at h
        cases h
        exact hflow.elim
      | next | value =>
        rw [Stmt.execAll_cons_of_goesOn hres trivial] at h
        exact hs.trans (ih h)

/-- A program that fails has bound the names that the statements before the failing one declare. -/
theorem Program.adds_of_error {p : Program} {stop : Stop}
    (h : p.exec limits tracing w = .error stop w') :
    ∃ done s rest flow w₁, p = done ++ s :: rest ∧
      Program.exec limits tracing done w = .ok flow w₁ ∧ flow.GoesOn ∧
      s.exec (.ofCalls limits.rounds tracing limits.calls) w₁ = .error stop w' ∧
      w.env.Adds (done.flatMap Stmt.binds) w'.env := by
  let ctx : Context := .ofCalls limits.rounds tracing limits.calls
  have hnext : Flow.next.GoesOn := trivial
  rcases Stmt.execAll_cases ctx p hnext w with
    ⟨flow, w₁, hp, -⟩ | ⟨done, s, rest, flow, w₁, hsplit, hdone, hflow, -, hp⟩
  · cases hp.symm.trans h
  · have hs := s.adding_exec limits tracing w₁
    have hfail := hp.symm.trans h
    rw [hfail] at hs
    have hadds := (Stmt.adds_execAll hdone hflow).trans hs
    rw [List.append_nil] at hadds
    exact ⟨done, s, rest, flow, w₁, hsplit, hdone, hflow, hfail, hadds⟩

/-- However a program ends, it has bound names that statements at its beginning declare. -/
theorem Program.exists_adds_exec (limits : Limits) (tracing : Bool) (w : World) (p : Program) :
    ∃ done, done <+: p ∧
      w.env.Adds (done.flatMap Stmt.binds) (endState (p.exec limits tracing w)).env := by
  cases hp : p.exec limits tracing w with
  | error stop w' =>
    obtain ⟨done, s, rest, -, -, rfl, -, -, -, hadds⟩ := Program.adds_of_error hp
    exact ⟨done, List.prefix_append _ _, hadds⟩
  | ok flow w' =>
    let ctx : Context := .ofCalls limits.rounds tracing limits.calls
    have hnext : Flow.next.GoesOn := trivial
    rcases Stmt.execAll_cases ctx p hnext w with
      ⟨flow', w₁, hall, hflow⟩ | ⟨done, s, rest, flow', w₁, rfl, hdone, hflow, -, hend⟩
    · cases hall.symm.trans hp
      exact ⟨p, List.prefix_refl p, Stmt.adds_execAll hp hflow⟩
    · have hs := s.adding_exec limits tracing w₁
      rw [hend.symm.trans hp] at hs
      have hadds := (Stmt.adds_execAll hdone hflow).trans hs
      refine ⟨done ++ [s], ⟨rest, ?_⟩, ?_⟩
      · rw [List.append_assoc, List.singleton_append]
      · rw [List.flatMap_append, List.flatMap_singleton]
        exact hadds

namespace History

/-- The innermost layer is not the scope that a function has captured. -/
def Declaring (past : History) : Prop := ∀ f c ls, past.layers ≠ .call f c :: ls

/-- No name was ever bound while a captured scope was innermost. -/
def Settled (past : History) : Prop :=
  ∀ x v e (earlier : History), ⟨.bound x v, e⟩ :: earlier <:+ past → earlier.Declaring

/-- What was never bound is not bound earlier. -/
theorem Settled.suffix {earlier past : History} (h : past.Settled) (hsub : earlier <:+ past) :
    earlier.Settled := fun x v e before hbefore => h x v e before (hbefore.trans hsub)

private theorem Settled.bind {past : History} {x : String} {v : Value} {e : Env}
    (h : past.Settled) (hdecl : past.Declaring) : Settled (⟨.bound x v, e⟩ :: past) := by
  intro y u e' earlier hsub
  rcases List.suffix_cons_iff.1 hsub with heq | hsub
  · cases heq
    exact hdecl
  · exact h y u e' earlier hsub

private theorem Settled.step {past : History} {event : Event} {e : Env} (h : past.Settled)
    (hevent : ∀ x v, event ≠ .bound x v) : Settled (⟨event, e⟩ :: past) := by
  intro x v e' earlier hsub
  rcases List.suffix_cons_iff.1 hsub with heq | hsub
  · cases heq
    exact (hevent x v rfl).elim
  · exact h x v e' earlier hsub

-- A layer whose scope was made for it is not that of a call.
private theorem declaring_opened {past : History} {l : Layer} {id : ScopeId} {e : Env}
    (hl : l.made? = some id) : Declaring (⟨.opened l, e⟩ :: past) := by
  intro f c ls hcall
  cases hcall
  cases hl

end History

open History in
/-- A statement binds names only in a scope that is not a captured one. -/
def Discipline.settling : Discipline where
  holds := Discipline.history.holds
  outer r s := r.Continues s ∧ (r.past.Settled → s.past.Settled)
  inner r s := r.Continues s ∧ (r.past.Declaring → r.past.Settled → s.past.Settled)
  known := Discipline.history.known
  holes := True
  known_complete _ := .inl trivial
  outer_refl r := ⟨Discipline.history.outer_refl r, id⟩
  outer_trans h h' := ⟨Discipline.history.outer_trans h.1 h'.1, h'.2 ∘ h.2⟩
  inner_of_outer h := ⟨h.1, fun _ => h.2⟩
  inner_trans {r s t} h h' := by
    refine ⟨Discipline.history.outer_trans h.1 h'.1, fun hdecl hr => h'.2 ?_ (h.2 hdecl hr)⟩
    rwa [History.Declaring, h.1.2.1]
  stack h := h.1.2.2
  known_mono h hv := Discipline.history.known_mono h.1 hv
  known_step := Discipline.history.known_step
  known_atom := Discipline.history.known_atom
  known_builtin := Discipline.history.known_builtin
  known_get := Discipline.history.known_get
  shown h henv hpast := by
    obtain ⟨hs, hcontinues⟩ := Discipline.history.shown h henv hpast
    exact ⟨hs, hcontinues, fun hr => hpast ▸ hr⟩
  bound h hv := by
    obtain ⟨hs, hcontinues⟩ := Discipline.history.bound h hv
    exact ⟨hs, hcontinues, fun hdecl hr => hr.bind hdecl⟩
  assigned h hv hx := by
    obtain ⟨hs, hcontinues⟩ := Discipline.history.assigned h hv hx
    exact ⟨hs, hcontinues, fun hr => hr.step (by simp)⟩
  declared h hf hc := by
    obtain ⟨hs, hcontinues, hknown⟩ := Discipline.history.declared h hf hc
    exact ⟨hs, ⟨hcontinues, fun hr => hr.step (by simp)⟩, hknown⟩
  opened := Discipline.history.opened
  closed hr hl hfilled h hs := by
    obtain ⟨ht, hcontinues⟩ := Discipline.history.closed hr hl (hfilled.imp And.left) h.1 hs
    refine ⟨ht, hcontinues, fun hsettled => Settled.step ?_ (by simp)⟩
    exact h.2 (declaring_opened hl) (hsettled.step (by simp))
  begun := Discipline.history.begun
  ended hr hc hf h hs := by
    obtain ⟨ht, hcontinues⟩ := Discipline.history.ended hr hc hf h.1 hs
    refine ⟨ht, hcontinues, fun hsettled => Settled.step ?_ (by simp)⟩
    exact h.2 (hsettled.step (by simp))

/-- Between units: no layer is open, and all names were bound where declarations or parameters bind
them. -/
structure Run.AtRest (r : Run) : Prop where
  faithful : r.Faithful
  layers : r.past.layers = []
  settled : r.past.Settled

namespace Source

private theorem atRest_record (limits : Limits) (job : Job) {r : Run} (h : r.AtRest) :
    (endState (record limits job r)).AtRest := by
  refine kept_record (D := .settling) trivial Run.AtRest.faithful (fun henv h => ?_)
    (fun h hinner hs => ?_) limits job h
  · exact ⟨⟨h.faithful.1, h.faithful.2.trans henv.symm⟩, h.layers, h.settled⟩
  · refine ⟨hs, hinner.1.2.1.trans h.layers, hinner.2 ?_ h.settled⟩
    intro f c ls hcall
    cases h.layers.symm.trans hcall

/-- Units come to rest one after the other. -/
theorem atRest_recordAll (limits : Limits) (jobs : List Job) {r : Run} (h : r.AtRest) :
    (recordAll limits jobs r).AtRest := by
  induction jobs generalizing r with
  | nil => exact h
  | cons job jobs ih => exact ih (atRest_record limits job h)

end Source

/-- At first nothing has been bound. -/
theorem Run.atRest_start : Run.start.AtRest where
  faithful := ⟨.start, rfl⟩
  layers := rfl
  settled x v e earlier h := by cases List.suffix_nil.1 h

namespace History

/-- A scope that a function has captured is innermost only in a call of the function. -/
theorem Invariant.top_ne_closure {past : History} (h : past.Invariant) (hdecl : past.Declaring)
    {f : Function} {c : ScopeId} (hf : f ∈ past.declared) (hc : f.closure? = some c) :
    past.env.top ≠ c := by
  intro htop
  rw [Env.top, h.stack] at htop
  cases hlayers : past.layers with
  | nil =>
    rw [hlayers] at htop
    obtain ⟨d, hd, hpos, -⟩ := h.closure f hf
    obtain rfl := Option.some.inj (hc.symm.trans hd)
    exact Nat.ne_of_lt hpos htop
  | cons l ls =>
    rw [hlayers] at htop
    have howned := h.layers l (hlayers ▸ List.mem_cons_self)
    have hcallee := (h.scope_eq_iff hf hc howned).1 htop
    cases l with
    | block id | parameters id => cases hcallee
    | call g d => exact hdecl g d ls hlayers

private theorem binds_step {past : History} {event : Event} {e : Env} (h : past.Invariant)
    (he : event.Leads past e) (hsettled : Settled (⟨event, e⟩ :: past)) {f : Function}
    {c : ScopeId} (hf : f ∈ past.declared) (hc : f.closure? = some c) (x : String) :
    (e.scope c).binds x = (past.env.scope c).binds x := by
  cases he with
  | bound _ =>
    have hdecl := hsettled _ _ _ past (List.suffix_refl _)
    rw [Env.define, Env.scope_putIn_of_ne (h.top_ne_closure hdecl hf hc).symm]
  | assigned _ howner => exact Env.binds_putIn_of_binds (Env.binds_of_owner? howner) _ _ _
  | declared _ =>
    obtain ⟨d, hd, -, hlt⟩ := h.closure f hf
    obtain rfl := Option.some.inj (hc.symm.trans hd)
    rw [Env.scope_snapshot_of_lt hlt]
  | opened _ => rw [Env.scope_push]
  | begun _ _ => rfl
  | closed _ => rfl

/-- The scope that a function has captured binds the names that the innermost scope bound where the
function was declared. -/
def CapturesFixed (past : History) : Prop :=
  ∀ (later earlier : History) f c e, past = later ++ ⟨.declared f, e⟩ :: earlier →
    f.closure? = some c → ∀ x,
    (past.env.scope c).binds x = (earlier.env.scope earlier.env.top).binds x

private theorem binds_during {f : Function} {c : ScopeId} {e : Env} {earlier : History}
    (later : History) (h : Valid (later ++ ⟨.declared f, e⟩ :: earlier))
    (hsettled : Settled (later ++ ⟨.declared f, e⟩ :: earlier)) (hc : f.closure? = some c)
    (x : String) :
    ((env (later ++ ⟨.declared f, e⟩ :: earlier)).scope c).binds x =
      (earlier.env.scope earlier.env.top).binds x := by
  induction later with
  | nil =>
    cases h with
    | step _ he =>
      cases he with
      | declared hf =>
        rw [hc, Env.fst_snapshot] at hf
        cases hf
        exact congrArg (fun s : Scope => s.binds x) (Env.scope_snapshot_self earlier.env)
  | cons m later ih =>
    have hf : f ∈ declared (later ++ ⟨.declared f, e⟩ :: earlier) := by
      simp [declared]
    have hbefore : Settled (later ++ ⟨.declared f, e⟩ :: earlier) :=
      hsettled.suffix (List.suffix_cons m _)
    cases h with
    | step hpast he =>
      exact (binds_step hpast.invariant he hsettled hf hc x).trans (ih hpast hbefore)

/-- Captured scopes bind the same names for ever, where names are bound as declarations and
parameters bind them. -/
theorem Valid.capturesFixed {past : History} (h : past.Valid) (hsettled : past.Settled) :
    past.CapturesFixed := by
  intro later earlier f c e hpast hc x
  subst hpast
  exact binds_during later h hsettled hc x

end History

namespace Source

private theorem inner_execAll (limits : Limits) (jobs : List Job) (w : World) :
    (execAll limits jobs w).env.inner = w.env.inner ∧
      w.env.scopes.size ≤ (execAll limits jobs w).env.scopes.size := by
  induction jobs generalizing w with
  | nil => exact ⟨rfl, Nat.le_refl _⟩
  | cons job jobs ih =>
    obtain ⟨xs, hadds⟩ : ∃ xs, w.env.Adds xs
        (endState (exec limits job.flags job.source w)).env := by
      have henv := env_prepare job w
      rw [exec_eq_prepare]
      simp only [bind, EStateM.bind]
      cases hp : prepare job w with
      | error failure w₁ =>
        rw [hp] at henv
        exact ⟨[], henv ▸ Env.Adds.refl _⟩
      | ok p w₁ =>
        rw [hp] at henv
        obtain ⟨done, -, hdone⟩ := p.exists_adds_exec limits job.flags.tracing w₁
        rw [show w₁.env = w.env from henv] at hdone
        refine ⟨done.flatMap Stmt.binds, ?_⟩
        simp only [run]
        cases hres : p.exec limits job.flags.tracing w₁ with
        | ok flow w₂ | error stop w₂ =>
          rw [hres] at hdone
          exact hdone
    obtain ⟨hinner, hsize⟩ := ih (endState (exec limits job.flags job.source w))
    exact ⟨hinner.trans hadds.inner, Nat.le_trans hadds.size hsize⟩

/-- The unit fails in the world `w`, after its statements `done` have been run, and leaves the world
`w'`. -/
inductive FailsAfter (limits : Limits) (job : Job) (w w' : World) : Program → Failure → Prop
  /-- It is no program. -/
  | unread {failure : Failure} (h : program job.source = .error failure) :
      FailsAfter limits job w w' [] failure
  /-- The statement after them fails. -/
  | stopped {done rest : Program} {s : Stmt} {flow : Flow} {w₀ w₁ : World} {stop : Stop}
      (hp : program job.source = .ok (done ++ s :: rest)) (hw : w₀.env = w.env)
      (hdone : done.exec limits job.flags.tracing w₀ = .ok flow w₁) (hflow : flow.GoesOn)
      (hs : s.exec (.ofCalls limits.rounds job.flags.tracing limits.calls) w₁ = .error stop w') :
      FailsAfter limits job w w' done (.stopped stop)

private theorem adds_of_error {limits : Limits} {job : Job} {w w' : World} {failure : Failure}
    (h : exec limits job.flags job.source w = .error failure w') :
    ∃ done, FailsAfter limits job w w' done failure ∧
      w.env.Adds (done.flatMap Stmt.binds) w'.env := by
  have henv := env_prepare job w
  rw [exec_eq_prepare] at h
  simp only [bind, EStateM.bind] at h
  rcases prepare_cases job w with ⟨p, w₀, hp, hprepare⟩ | ⟨failure', w₀, hp, hprepare⟩
  · rw [hprepare] at h henv
    simp only [run] at h
    cases hres : p.exec limits job.flags.tracing w₀ with
    | ok flow w₁ =>
      rw [hres] at h
      cases h
    | error stop w₁ =>
      rw [hres] at h
      cases h
      obtain ⟨done, s, rest, flow, w₁, rfl, hdone, hflow, hs, hadds⟩ :=
        Program.adds_of_error hres
      rw [show w₀.env = w.env from henv] at hadds
      exact ⟨done, .stopped hp henv hdone hflow hs, hadds⟩
  · rw [hprepare] at h henv
    cases h
    exact ⟨[], .unread hp, henv ▸ Env.Adds.refl _⟩

end Source

/-- What binds names. An evaluation binds no name in a scope that was there before, except that a
declaration which completes binds its own name in the innermost scope; no binding is ever taken
away. A captured scope binds the same names for ever. After a unit that fails the global names are
those from before it and those that its statements before the failing one declare. -/
theorem names_framed (limits : Limits) :
    (∀ (tracing : Bool) (w : World),
      (∀ e : Expr, Adding [] w (e.eval (.ofCalls limits.rounds tracing limits.calls) w)) ∧
      (∀ (f : Function) (args : List Value),
        Adding [] w (Eval.apply (.ofCalls limits.rounds tracing limits.calls) f args w)) ∧
      (∀ body : Block,
        Adding [] w (body.exec (.ofCalls limits.rounds tracing limits.calls) w)) ∧
      (∀ s : Stmt,
        Adding s.binds w (s.exec (.ofCalls limits.rounds tracing limits.calls) w)) ∧
      (∀ p : Program, ∃ done, done <+: p ∧
        w.env.Adds (done.flatMap Stmt.binds) (endState (p.exec limits tracing w)).env)) ∧
    (∀ jobs : List Source.Job,
      (Source.recordAll limits jobs .start).world = Source.execAll limits jobs .start ∧
      (Source.recordAll limits jobs .start).past.env =
        (Source.execAll limits jobs .start).env ∧
      (Source.recordAll limits jobs .start).past.Always History.CapturesFixed) ∧
    (∀ (jobs : List Source.Job) (job : Source.Job) (failure : Failure) (w' : World),
      Source.exec limits job.flags job.source (Source.execAll limits jobs .start) =
        .error failure w' →
      ∃ done,
        Source.FailsAfter limits job (Source.execAll limits jobs .start) w' done failure ∧
        ∀ x, (w'.env.scope Env.global).binds x = true ↔
          ((Source.execAll limits jobs .start).env.scope Env.global).binds x = true ∨
            x ∈ done.flatMap Stmt.binds) := by
  refine ⟨fun tracing w => ⟨Expr.adding_eval limits tracing w, Eval.adding_apply limits tracing w,
    Block.adding_exec limits tracing w, Stmt.adding_exec limits tracing w,
    Program.exists_adds_exec limits tracing w⟩, fun jobs => ?_, fun jobs job failure w' h => ?_⟩
  · obtain ⟨hworld, henv, hvalid⟩ := Source.always_recordAll id limits jobs
    have hrest := Source.atRest_recordAll limits jobs Run.atRest_start
    refine ⟨hworld, henv, fun past hsub => ?_⟩
    exact (hvalid past hsub).capturesFixed (hrest.settled.suffix hsub)
  · obtain ⟨done, hfails, hadds⟩ := Source.adds_of_error h
    obtain ⟨hinner, hsize⟩ := Source.inner_execAll limits jobs .start
    have htop : (Source.execAll limits jobs .start).env.top = Env.global := by
      rw [Env.top, hinner]
      rfl
    refine ⟨done, hfails, fun x => ?_⟩
    have hbinds := hadds.binds Env.global (Nat.lt_of_lt_of_le Nat.zero_lt_one hsize) x
    simpa only [htop, true_and] using hbinds

/-- A unit that declares a name, calls a function and then reads a name which nothing binds fails.
After it the names are global that were so before, and the one that it has declared; the name that
the function declares is not. -/
theorem names_framed_declared :
    let before := Source.execAll ⟨2, 2⟩ [⟨{}, "var z ; fun f ( ) \x7b var a ; \x7d "⟩] .start
    (before.env.scope Env.global).binds "z" = true ∧
    ∃ w', Source.exec ⟨2, 2⟩ {} "var y ; f ( ) ; x ; " before =
        .error (.stopped (.fault (.undefinedVariable "x"))) w' ∧
      (w'.env.scope Env.global).names = (before.env.scope Env.global).names ++ ["y"] ∧
      ∃ done,
        Source.FailsAfter ⟨2, 2⟩ ⟨{}, "var y ; f ( ) ; x ; "⟩ before w' done
          (.stopped (.fault (.undefinedVariable "x"))) ∧
        ∀ x, (w'.env.scope Env.global).binds x = true ↔
          (before.env.scope Env.global).binds x = true ∨ x ∈ done.flatMap Stmt.binds := by
  intro before
  have hdeclares : Source.program "var z ; fun f ( ) \x7b var a ; \x7d " =
      .ok [.var "z" none, .func "f" [] [.var "a" none]] :=
    Source.program_of_writable (p := [.var "z" none, .func "f" [] [.var "a" none]])
      ⟨rfl, ⟨rfl, List.forall_mem_nil _, rfl, trivial⟩, trivial⟩
  have hfails : Source.program "var y ; f ( ) ; x ; " =
      .ok [.var "y" none, .expr (.call "f" []), .expr (.name "x")] :=
    Source.program_of_writable (p := [.var "y" none, .expr (.call "f" []), .expr (.name "x")])
      ⟨rfl, ⟨rfl, trivial⟩, rfl, trivial⟩
  have hbefore : before = endState (Program.exec ⟨2, 2⟩ false
      [.var "z" none, .func "f" [] [.var "a" none]] .start) :=
    Source.execAll_cons_of_program _ hdeclares [] .start
  obtain ⟨w', hunit, hnames⟩ : ∃ w', Source.exec ⟨2, 2⟩ {} "var y ; f ( ) ; x ; " before =
      .error (.stopped (.fault (.undefinedVariable "x"))) w' ∧
        (w'.env.scope Env.global).names = (before.env.scope Env.global).names ++ ["y"] := by
    rw [Source.exec_of_program _ hfails, hbefore]
    exact ⟨_, rfl, by decide +kernel⟩
  refine ⟨?_, w', hunit, hnames, (names_framed ⟨2, 2⟩).2.2 [⟨{}, _⟩] ⟨{}, _⟩ _ _ hunit⟩
  rw [hbefore]
  decide +kernel

end Lox
