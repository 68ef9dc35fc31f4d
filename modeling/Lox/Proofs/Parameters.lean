import Lox.Proofs.Recursion

/-!
# Parameters in recursive calls

The scope for the parameters of a call is no other than that: only parameters are bound in it, all
of them before the body is run. So while a function is called again during one of its own calls, no
name that the older scope for parameters binds is looked up there: the newer one, which lies above
it, binds the same names. Whatever the inner call assigns, and whatever the functions assign that it
calls, the parameters of the outer call are what they were.
-/

namespace Lox

namespace History

/-- No scope for parameters is innermost. -/
def Evaluating (past : History) : Prop := ∀ p ls, past.layers ≠ .parameters p :: ls

/-- While a scope for parameters was innermost, nothing but parameters was bound. -/
def Passing (past : History) : Prop :=
  ∀ x v e (earlier : History), ⟨.bound x v, e⟩ :: earlier <:+ past →
    ∀ p f c ls, earlier.layers = .parameters p :: .call f c :: ls → x ∈ f.params

/-- From `start` to `now` no layer was closed that was open at the start. -/
def Stays (start now : History) : Prop :=
  ∀ past : History, start <:+ past → past <:+ now → start.layers <:+ past.layers

variable {past start now later : History} {event : Event} {e : Env}

/-- What was never bound was not bound before. -/
theorem Passing.suffix (h : now.Passing) (hsub : past <:+ now) : past.Passing :=
  fun x v e earlier hearlier => h x v e earlier (hearlier.trans hsub)

private theorem Passing.step (h : past.Passing) (hbound : ∀ x v, event = .bound x v →
    ∀ p f c ls, past.layers = .parameters p :: .call f c :: ls → x ∈ f.params) :
    Passing (⟨event, e⟩ :: past) := by
  intro x v e' earlier hsub
  rcases List.suffix_cons_iff.1 hsub with heq | hsub
  · cases heq
    exact hbound x v rfl
  · exact h x v e' earlier hsub

/-- Where nothing has happened nothing was closed. -/
theorem Stays.refl (past : History) : past.Stays past := by
  intro earlier hsub hsub'
  have heq : past = earlier := hsub.eq_of_length_le hsub'.length_le
  exact heq ▸ List.suffix_refl _

/-- What stays open for longer stays open for less long. -/
theorem Stays.suffix (h : start.Stays now) (hsub : past <:+ now) : start.Stays past :=
  fun earlier hstart hearlier => h earlier hstart (hearlier.trans hsub)

/-- What stays open to some moment and from there on stays open. -/
theorem Stays.trans (h : start.Stays past) (h' : past.Stays now) (hsub : past <:+ now)
    (hlayers : start.layers <:+ past.layers) : start.Stays now := by
  intro earlier hstart hearlier
  rcases List.suffix_or_suffix_of_suffix hsub hearlier with hpast | hpast
  · exact hlayers.trans (h' earlier hpast hearlier)
  · exact h earlier hstart hpast

private theorem Stays.step (h : start.Stays past)
    (hlayers : start.layers <:+ layers (⟨event, e⟩ :: past)) :
    start.Stays (⟨event, e⟩ :: past) := by
  intro earlier hstart hearlier
  rcases List.suffix_cons_iff.1 hearlier with rfl | hearlier
  · exact hlayers
  · exact h earlier hstart hearlier

end History

/-- What an evaluation keeps: its history goes on, and all layers stay open that were open. -/
structure Run.Lasts (r s : Run) : Prop where
  continues : r.Continues s
  stays : r.past.Stays s.past

namespace Run.Lasts

variable {r s t : Run}

private theorem refl (r : Run) : r.Lasts r := ⟨Discipline.history.outer_refl r, .refl r.past⟩

private theorem trans (h : r.Lasts s) (h' : s.Lasts t) : r.Lasts t where
  continues := Discipline.history.outer_trans h.continues h'.continues
  stays := h.stays.trans h'.stays h'.continues.1 (h.continues.2.1 ▸ List.suffix_refl _)

private theorem step {event : Event} {e : Env} (h : r.Continues (r.step event e)) :
    r.Lasts (r.step event e) :=
  ⟨h, (History.Stays.refl r.past).step (h.2.1 ▸ List.suffix_refl _)⟩

private theorem close {l : Layer} {e e' : Env} (hrs : (r.step (.opened l) e).Lasts s)
    (h : r.Continues (s.step (.closed l) e')) : r.Lasts (s.step (.closed l) e') := by
  have hopened : r.past.Stays (r.step (.opened l) e).past :=
    (History.Stays.refl r.past).step (List.suffix_cons _ _)
  have hs : r.past.Stays s.past := hopened.trans hrs.stays hrs.continues.1 (List.suffix_cons _ _)
  exact ⟨h, hs.step (h.2.1 ▸ List.suffix_refl _)⟩

end Run.Lasts

/-! ### How parameters are bound -/

namespace Run

variable {r : Run}

/-- The world in which parameters were bound. -/
theorem world_bindAll (xs : List String) (vs : List Value) (r : Run) :
    (r.bindAll xs vs).world = ⟨r.env.bindAll xs vs, r.world.printed, r.world.trace⟩ := by
  induction xs generalizing vs r with
  | nil => rfl
  | cons x xs ih =>
    cases vs with
    | nil => rfl
    | cons v vs => exact ih vs (r.step (.bound x v) (r.env.define x v))

/-- Binding parameters opens and closes nothing. -/
theorem layers_bindAll (xs : List String) (vs : List Value) (r : Run) :
    (r.bindAll xs vs).past.layers = r.past.layers := by
  induction xs generalizing vs r with
  | nil => rfl
  | cons x xs ih =>
    cases vs with
    | nil => rfl
    | cons v vs => exact ih vs (r.step (.bound x v) (r.env.define x v))

/-- Parameters may be bound in the scope that was opened for them. -/
theorem passing_bindAll {p : ScopeId} {f : Function} {c : ScopeId} {ls : List Layer}
    {xs : List String} (hxs : xs ⊆ f.params) (vs : List Value)
    (hl : r.past.layers = .parameters p :: .call f c :: ls) (h : r.past.Passing) :
    (r.bindAll xs vs).past.Passing := by
  induction xs generalizing vs r with
  | nil => exact h
  | cons x xs ih =>
    cases vs with
    | nil => exact h
    | cons v vs =>
      obtain ⟨hx, hxs⟩ := List.cons_subset.1 hxs
      refine ih hxs vs hl (h.step fun y u hy p' g d ls' hl' => ?_)
      cases hl.symm.trans hl'
      cases hy
      exact hx

end Run

open History in
/-- In the scope for the parameters of a call nothing else is bound. -/
def Discipline.passing : Discipline where
  __ := Discipline.history
  outer r s := r.Lasts s ∧ (r.past.Passing → s.past.Passing)
  inner r s := r.Lasts s ∧ (r.past.Evaluating → r.past.Passing → s.past.Passing)
  outer_refl r := ⟨.refl r, id⟩
  outer_trans h h' := ⟨h.1.trans h'.1, h'.2 ∘ h.2⟩
  inner_of_outer h := ⟨h.1, fun _ => h.2⟩
  inner_trans h h' := by
    refine ⟨h.1.trans h'.1, fun heval hr => h'.2 ?_ (h.2 heval hr)⟩
    rwa [Evaluating, h.1.continues.2.1]
  stack h := h.1.continues.2.2
  known_mono h hv := Discipline.history.known_mono h.1.continues hv
  shown h henv hpast := by
    obtain ⟨hs, hcontinues⟩ := Discipline.history.shown h henv hpast
    exact ⟨hs, ⟨hcontinues, hpast ▸ .refl _⟩, fun hr => hpast ▸ hr⟩
  bound h hv := by
    obtain ⟨hs, hcontinues⟩ := Discipline.history.bound h hv
    refine ⟨hs, .step hcontinues, fun heval hr => hr.step ?_⟩
    exact fun x v _ p f c ls hl => (heval p _ hl).elim
  assigned h hv hx := by
    obtain ⟨hs, hcontinues⟩ := Discipline.history.assigned h hv hx
    exact ⟨hs, .step hcontinues, fun hr => hr.step (by simp)⟩
  declared h hf hc := by
    obtain ⟨hs, hcontinues, hknown⟩ := Discipline.history.declared h hf hc
    exact ⟨hs, ⟨.step hcontinues, fun hr => hr.step (by simp)⟩, hknown⟩
  closed {r s l} hr hl hfilled h hs := by
    obtain ⟨ht, hcontinues⟩ := Discipline.history.closed hr hl
      (hfilled.imp fun h => h.1.continues) h.1.continues hs
    refine ⟨ht, h.1.close hcontinues, fun hpassing => Passing.step ?_ (by simp)⟩
    have hopened : Passing (⟨.opened l, r.env.push⟩ :: r.past) := hpassing.step (by simp)
    cases l with
    | call f c => cases hl
    | block id =>
      refine h.2 (fun p ls hlayers => ?_) hopened
      cases hlayers
    | parameters id =>
      obtain ⟨f, c, args, before, hcall, hbody⟩ := hfilled
      have hlayers : r.past.layers = .call f c :: layers before := hcall ▸ rfl
      exact hbody.2 (Run.passing_bindAll (List.Subset.refl _) args (congrArg _ hlayers) hopened)
  ended hr hc hf h hs := by
    obtain ⟨ht, hcontinues⟩ := Discipline.history.ended hr hc hf h.1.continues hs
    refine ⟨ht, h.1.close hcontinues, fun hpassing => Passing.step ?_ (by simp)⟩
    exact h.2 (hpassing.step (by simp))

/-- Between programs: no layer is open, and parameters have been bound like this. -/
structure Run.Idle (r : Run) : Prop where
  faithful : r.Faithful
  layers : r.past.layers = []
  passing : r.past.Passing

namespace Run.Idle

variable {r s : Run}

/-- At first nothing has been bound. -/
theorem start : Run.start.Idle where
  faithful := ⟨.start, rfl⟩
  layers := rfl
  passing x v e earlier hsub := by cases List.suffix_nil.1 hsub

private theorem inner (h : r.Idle) (hinner : Discipline.passing.inner r s) (hs : s.Faithful) :
    s.Idle := by
  refine ⟨hs, hinner.1.continues.2.1.trans h.layers, hinner.2 (fun p ls hl => ?_) h.passing⟩
  cases h.layers.symm.trans hl

private theorem shown {w : World} (henv : w.env = r.env) (h : r.Idle) : Run.Idle ⟨w, r.past⟩ :=
  ⟨⟨h.faithful.1, h.faithful.2.trans henv.symm⟩, h.layers, h.passing⟩

end Run.Idle

/-- So it is after a program, whatever becomes of it. -/
theorem Program.idle_record (limits : Limits) (tracing : Bool) (p : Program) {r : Run}
    (h : r.Idle) : (endState (p.record limits tracing r)).Idle :=
  p.kept_record (D := .passing) trivial Run.Idle.faithful Run.Idle.inner limits tracing h

namespace Source

/-- So it is after a unit, whatever becomes of it. -/
theorem idle_record (limits : Limits) (job : Job) {r : Run} (h : r.Idle) :
    (endState (record limits job r)).Idle :=
  kept_record (D := .passing) trivial Run.Idle.faithful Run.Idle.shown Run.Idle.inner limits job h

/-- At every moment of a run of units parameters have been bound like this. -/
theorem passing_recordAll (limits : Limits) (jobs : List Job) :
    (recordAll limits jobs .start).past.Passing := by
  have h (r : Run) (hr : r.Idle) : (recordAll limits jobs r).Idle := by
    induction jobs generalizing r with
    | nil => exact hr
    | cons job jobs ih => exact ih _ (idle_record limits job hr)
  exact (h .start .start).passing

end Source

namespace History

variable {past start now : History} {f : Function} {c p : ScopeId} {x : String}

/-- A scope that was made for a layer lies on the stack for no other. -/
theorem Valid.scope_ne (h : past.Valid) {ys zs : List Layer} {l : Layer}
    (hl : past.layers = ys ++ l :: zs) (hp : l.made? = some p) {l' : Layer} (hl' : l' ∈ ys) :
    l'.scope ≠ p := by
  intro hscope
  have hnodup := h.nodup_made
  rw [hl, List.filterMap_append, List.filterMap_cons_some hp] at hnodup
  have hdisjoint := (List.nodup_append.1 hnodup).2.2
  have hmem : l' ∈ past.layers := hl ▸ List.mem_append_left _ hl'
  have howned := h.invariant.layers l' hmem
  cases l' with
  | block id | parameters id =>
    exact hdisjoint p (List.mem_filterMap.2 ⟨_, hl', congrArg some hscope⟩) p
      List.mem_cons_self rfl
  | call g d =>
    have hlowned := h.invariant.layers l (hl ▸ List.mem_append_right _ List.mem_cons_self)
    have hmade : p ∈ past.made := by
      cases l with
      | block id | parameters id =>
        cases hp
        exact hlowned
      | call => cases hp
    exact h.invariant.disjoint g howned.1 p hmade (howned.2.trans (congrArg some hscope))

/-- The scope for the parameters of a call binds nothing else. -/
theorem Valid.mem_params (h : past.Valid) (hpass : past.Passing) {ys ls : List Layer}
    (hl : past.layers = ys ++ .parameters p :: .call f c :: ls)
    (hx : (past.env.scope p).binds x = true) : x ∈ f.params := by
  induction h generalizing ys with
  | start => simp [layers] at hl
  | @step past event e hpast he ih =>
    have hbefore := hpass.suffix (List.suffix_cons _ past)
    cases he with
    | @bound y v _ =>
      rcases Classical.em (past.env.top = p) with htop | htop
      · -- the scope for the parameters is innermost, so `y` is one of them
        cases ys with
        | cons l ys =>
          rw [hpast.invariant.top_eq hl] at htop
          exact (hpast.scope_ne hl rfl List.mem_cons_self htop).elim
        | nil =>
          rw [env, Env.define, htop, Env.scope_putIn_self, Scope.binds_put] at hx
          · rcases hx with rfl | hx
            · exact hpass x v _ past (List.suffix_refl _) p f c ls hl
            · exact ih hbefore hl hx
          · have hmem : Layer.parameters p ∈ past.layers := hl.symm ▸ List.mem_cons_self
            exact hpast.invariant.scope_lt hmem
      · rw [env, Env.define, Env.scope_putIn_of_ne (Ne.symm htop)] at hx
        exact ih hbefore hl hx
    | assigned _ howner =>
      rw [env, Env.binds_putIn_of_binds (Env.binds_of_owner? howner)] at hx
      exact ih hbefore hl hx
    | declared _ =>
      have hmem : Layer.parameters p ∈ past.layers :=
        hl.symm ▸ List.mem_append_right _ List.mem_cons_self
      have hp : p < past.env.scopes.size := hpast.invariant.scope_lt hmem
      rw [env, Env.scope_snapshot_of_lt hp] at hx
      exact ih hbefore hl hx
    | opened hmade =>
      rw [env, Env.scope_push] at hx
      cases ys with
      | nil =>
        cases (List.cons.inj hl).1
        cases hmade
        rw [Env.scope_of_size_le (Nat.le_refl _)] at hx
        cases hx
      | cons l ys => exact ih hbefore (List.cons.inj hl).2 hx
    | begun _ _ =>
      cases ys with
      | nil => cases (List.cons.inj hl).1
      | cons l ys => exact ih hbefore (List.cons.inj hl).2 hx
    | @closed l _ hopen =>
      rw [layers, hopen, List.tail_cons] at hl
      have hbelow : past.layers = (l :: ys) ++ .parameters p :: .call f c :: ls :=
        hopen.trans (congrArg _ hl)
      exact ih hbefore hbelow hx

private theorem parameters_step (h : past.Valid) (hpass : past.Passing) {event : Event} {e : Env}
    (he : event.Leads past e) {above ls : List Layer}
    (hl : past.layers = above ++ .parameters p :: .call f c :: ls) {q : ScopeId}
    (hq : .parameters q ∈ above) (hbinds : ∀ x ∈ f.params, (past.env.scope q).binds x = true) :
    e.scope p = past.env.scope p := by
  have hne {l : Layer} (hmem : l ∈ above) : l.scope ≠ p := h.scope_ne hl rfl hmem
  cases he with
  | bound _ =>
    cases above with
    | nil => cases hq
    | cons l above =>
      rw [Env.define, h.invariant.top_eq hl]
      exact Env.scope_putIn_of_ne (hne List.mem_cons_self).symm _ _
  | @assigned x v id _ howner =>
    refine Env.scope_putIn_of_ne (fun hid => ?_) x v
    subst hid
    have hx := hbinds x (h.mem_params hpass hl (Env.binds_of_owner? howner))
    -- the scope `q` comes first on the stack
    rw [Env.owner?_eq_find?, h.invariant.stack_eq, hl, List.map_append, List.append_assoc,
      List.find?_append] at howner
    cases hfind : (above.map Layer.scope).find? fun id => (past.env.scope id).binds x with
    | none =>
      exact List.find?_eq_none.1 hfind q (List.mem_map.2 ⟨_, hq, rfl⟩) hx
    | some other =>
      rw [hfind] at howner
      obtain rfl : other = p := Option.some.inj howner
      obtain ⟨l, hmem, hscope⟩ := List.mem_map.1 (List.mem_of_find?_eq_some hfind)
      exact hne hmem hscope
  | declared _ =>
    have hmem : Layer.parameters p ∈ past.layers :=
      hl.symm ▸ List.mem_append_right _ List.mem_cons_self
    exact Env.scope_snapshot_of_lt (h.invariant.scope_lt hmem)
  | opened _ => exact Env.scope_push _ _
  | begun _ _ => rfl
  | closed _ => rfl

/-- While parameters of the same names are bound in a scope that stays open, the parameters of an
outer call are what they were. -/
theorem Valid.scope_eq_of_stays (h : now.Valid) (hpass : now.Passing) (hsub : start <:+ now)
    (hstays : start.Stays now) {above ls : List Layer}
    (hl : start.layers = above ++ .parameters p :: .call f c :: ls) {q : ScopeId}
    (hq : .parameters q ∈ above) (hbinds : ∀ x ∈ f.params, (start.env.scope q).binds x = true) :
    now.env.scope p = start.env.scope p := by
  induction h with
  | start => rw [List.suffix_nil.1 hsub]
  | @step past event e hpast he ih =>
    rcases List.suffix_cons_iff.1 hsub with rfl | hsub
    · rfl
    · have hpass := hpass.suffix (List.suffix_cons _ past)
      obtain ⟨opened, hopened⟩ := hstays past hsub (List.suffix_cons _ _)
      rw [hl, ← List.append_assoc] at hopened
      have hstep := parameters_step hpast hpass he hopened.symm (List.mem_append_right _ hq)
        fun x hx => hpast.binds_mono hsub (hbinds x hx)
      exact hstep.trans (ih hpass hsub (hstays.suffix (List.suffix_cons _ _)))

end History

/-! ### Calls during a call -/

namespace Env

/-- Parameters are bound in the innermost scope and in no other. -/
theorem scope_bindAll (xs : List String) (vs : List Value) {e : Env} {id : ScopeId}
    (h : id ≠ e.top) : (e.bindAll xs vs).scope id = e.scope id := by
  induction xs generalizing vs e with
  | nil => rfl
  | cons x xs ih =>
    cases vs with
    | nil => rfl
    | cons v vs =>
      have htop : (e.define x v).top = e.top := top_congr (inner_putIn e e.top x v)
      exact (ih vs (by rwa [htop])).trans (scope_putIn_of_ne h x v)

end Env

/-- Where parameters have been bound, the scopes that there were are what they were. -/
theorem World.scope_passed (params : List String) (closure : ScopeId) (args : List Value)
    {w : World} {id : ScopeId} (h : id < w.env.scopes.size) :
    (w.passed params closure args).env.scope id = w.env.scope id := by
  have hne : id ≠ (w.env.pushShared closure).push.top := Nat.ne_of_lt h
  exact (Env.scope_bindAll params args hne).trans (Env.scope_push _ _)

namespace Run

variable {f : Function} {c : ScopeId} {args : List Value} {r : Run}

/-- The run in which the body of a function starts that is called with these arguments. -/
def atBody (f : Function) (c : ScopeId) (args : List Value) (r : Run) : Run :=
  let called := r.step (.opened (.call f c)) (r.env.pushShared c)
  let bound := (called.step (.opened (.parameters r.env.scopes.size)) called.env.push).bindAll
    f.params args
  bound.step (.opened (.block bound.env.scopes.size)) bound.env.push

/-- The body starts where calls start it. -/
theorem world_atBody (hc : f.closure? = some c) (args : List Value) (r : Run) :
    (r.atBody f c args).world = r.world.atBody f args := by
  cases f with
  | builtin fn => cases hc
  | user name params body closure =>
    cases hc
    rw [atBody, step, env, world_bindAll]
    rfl

/-- The layers that are open there. -/
theorem layers_atBody (f : Function) (c : ScopeId) (args : List Value) (r : Run) :
    ∃ b, (r.atBody f c args).past.layers =
      .block b :: .parameters r.env.scopes.size :: .call f c :: r.past.layers :=
  ⟨_, congrArg (List.cons _) (layers_bindAll f.params args _)⟩

/-- With an argument for each, all parameters are bound there. -/
theorem binds_atBody (hlength : args.length = f.arity) {x : String} (hx : x ∈ f.params) :
    ((r.atBody f c args).env.scope r.env.scopes.size).binds x = true := by
  have htop : (r.env.pushShared c).push.top < (r.env.pushShared c).push.scopes.size := by
    rw [Env.size_push]
    exact Nat.lt_succ_self _
  rw [atBody, env_step, Env.scope_push, env, world_bindAll]
  exact Env.binds_params hlength htop hx

/-- Of known values a faithful run is made. -/
theorem Faithful.atBody (h : r.Faithful) (hc : f.closure? = some c)
    (hf : r.past.Knows (.func f)) (hargs : ∀ v ∈ args, r.past.Knows v) :
    (r.atBody f c args).Faithful := by
  have hcalled := Discipline.history.begun h hc hf
  have hopened := Discipline.history.opened hcalled (l := .parameters r.env.scopes.size) rfl
  have hbound := (Discipline.bindAll f.params hopened fun v hv =>
    (hargs v hv).mono ((List.suffix_cons _ _).trans (List.suffix_cons _ _))).1
  exact Discipline.history.opened hbound rfl

/-- Only parameters have been bound for it. -/
theorem passing_atBody (f : Function) (c : ScopeId) (args : List Value)
    (h : r.past.Passing) : (r.atBody f c args).past.Passing := by
  refine History.Passing.step ?_ (by simp)
  refine passing_bindAll (List.Subset.refl _) args rfl ?_
  exact (h.step (by simp)).step (by simp)

end Run

private theorem endState_bind_pure {α β : Type} (act : Eval α) (g : α → β) (w : World) :
    endState ((do let a ← act; pure (g a) : Eval β) w) = endState (act w) := by
  simp only [bind, EStateM.bind]
  cases act w <;> rfl

private theorem Eval.apply_cases (ctx : Context) (f : Function) (args : List Value) (w : World) :
    (endState (Eval.apply ctx f args w)).env = w.env ∨
      ∃ w', w'.env = w.env ∧ args.length = f.arity ∧
        Eval.apply ctx f args w = Eval.invoke ctx f args w' := by
  have htrace : (∃ w', Eval.traceCall ctx f args w = .ok () w' ∧ w'.env = w.env) ∨
      ∃ stop, Eval.traceCall ctx f args w = .error stop w := by
    unfold Eval.traceCall Eval.noteCall
    split
    · cases Eval.texts args with
      | none => exact .inr ⟨_, rfl⟩
      | some ss => exact .inl ⟨_, rfl, rfl⟩
    · exact .inl ⟨w, rfl, rfl⟩
  simp only [Eval.apply, Eval.checkArity, bind, EStateM.bind]
  rcases htrace with ⟨w', htrace, henv⟩ | ⟨stop, htrace⟩
  · rw [htrace]
    by_cases hlength : args.length = f.arity
    · rw [if_pos hlength]
      exact .inr ⟨w', henv, hlength, rfl⟩
    · rw [if_neg hlength]
      exact .inl henv
  · rw [htrace]
    exact .inl rfl

namespace History

/-- A call of a function that is being called already leaves the parameters of the outer call alone:
after it, however it ends, their scope is what it was where the body of the inner call started, and
that is what it was before. -/
def ParametersKept (past : History) : Prop :=
  ∀ (f : Function) (c p : ScopeId) (above below : List Layer),
    past.layers = above ++ .parameters p :: .call f c :: below →
    ∀ (rounds : Nat) (tracing : Bool) (calls : Nat) (args : List Value) (w : World),
      w.env = past.env → (∀ v ∈ args, past.Knows v) →
      (endState (Eval.apply (.ofCalls rounds tracing calls) f args w)).env.scope p =
          (w.atBody f args).env.scope p ∧
        (w.atBody f args).env.scope p = past.env.scope p

end History

private theorem Run.Faithful.scope_execAll {r : Run} (h : r.Faithful) (hpass : r.past.Passing)
    {f : Function} {c p : ScopeId} (hc : f.closure? = some c) {above below : List Layer}
    (hl : r.past.layers = above ++ .parameters p :: .call f c :: below) {args : List Value}
    (hargs : ∀ v ∈ args, r.past.Knows v) (hlength : args.length = f.arity) (rounds : Nat)
    (tracing : Bool) (calls : Nat) (body : Block) :
    (endState (Stmt.execAll (.ofCalls rounds tracing calls) .next body
      (r.world.atBody f args))).env.scope p = (r.world.atBody f args).env.scope p := by
  let start : Run := r.atBody f c args
  have hworld : start.world = r.world.atBody f args := Run.world_atBody hc args r
  have hcallee : .call f c ∈ r.past.layers :=
    hl.symm ▸ List.mem_append_right _ (List.mem_cons_of_mem _ List.mem_cons_self)
  have hf : r.past.Knows (.func f) := by
    rintro g d hg -
    cases hg
    exact (h.1.invariant.layers _ hcallee).1
  have hstart : start.Faithful := h.atBody hc hf hargs
  obtain ⟨b, hlayers⟩ := Run.layers_atBody f c args r
  have hends := Discipline.ends_program (D := .passing) ⟨calls, rounds⟩ tracing (p := body)
    (.inl trivial) hstart
  have hres : Stmt.execAll (.ofCalls rounds tracing calls) .next body start.world =
      Recorded.forget (Program.record ⟨calls, rounds⟩ tracing body start) :=
    Program.exec_eq_forget ⟨calls, rounds⟩ tracing start body
  rw [← hworld, hres]
  have hbinds (x : String) (hx : x ∈ f.params) :
      (start.past.env.scope r.env.scopes.size).binds x = true := by
    rw [hstart.2]
    exact Run.binds_atBody hlength hx
  -- how the body ends does not matter
  have hkept (s : Run) (hs : s.Faithful) (hrel : Discipline.passing.inner start s) :
      s.env.scope p = start.env.scope p := by
    have hpassing : s.past.Passing := hrel.2 (fun q ls hq => by cases hlayers.symm.trans hq)
      (Run.passing_atBody f c args hpass)
    have habove : start.past.layers =
        (.block b :: .parameters r.env.scopes.size :: .call f c :: above) ++
          .parameters p :: .call f c :: below := by
      rw [hlayers, hl]
      rfl
    have heq := hs.1.scope_eq_of_stays hpassing hrel.1.continues.1 hrel.1.stays habove
      (List.mem_cons_of_mem _ List.mem_cons_self) hbinds
    rwa [hs.2, hstart.2] at heq
  cases hend : Program.record ⟨calls, rounds⟩ tracing body start with
  | ok flow s | error stop s =>
    rw [hend] at hends
    exact hkept s hends.1 hends.2.1

/-- Calls leave the parameters of outer calls alone at the end of a valid history in which
parameters were bound by calls. -/
theorem History.Valid.parametersKept {past : History} (h : past.Valid) (hpass : past.Passing) :
    past.ParametersKept := by
  intro f c p above below hl rounds tracing calls args w henv hargs
  have hcallee : Layer.call f c ∈ past.layers :=
    hl.symm ▸ List.mem_append_right _ (List.mem_cons_of_mem _ List.mem_cons_self)
  have hparameters : Layer.parameters p ∈ past.layers :=
    hl.symm ▸ List.mem_append_right _ List.mem_cons_self
  have hp : p < past.env.scopes.size := h.invariant.scope_lt hparameters
  cases f with
  | builtin fn => cases (h.invariant.layers _ hcallee).2
  | user name params body closure =>
    obtain rfl : closure = c := Option.some.inj (h.invariant.layers _ hcallee).2
    have hpassed {w : World} (henv : w.env = past.env) :
        (w.passed params closure args).env.scope p = past.env.scope p := by
      rw [World.scope_passed params closure args (henv.symm ▸ hp), henv]
    have hbody {w : World} (henv : w.env = past.env) :
        (w.atBody (.user name params body closure) args).env.scope p = past.env.scope p :=
      (Env.scope_push _ p).trans (hpassed henv)
    refine ⟨?_, hbody henv⟩
    rw [hbody henv]
    rcases Eval.apply_cases (.ofCalls rounds tracing calls) (.user name params body closure) args w
      with hrefused | ⟨w', henv', hlength, happly⟩
    · rw [hrefused, henv]
    · rw [happly]
      cases calls with
      | zero =>
        have hdeep : (Context.ofCalls rounds tracing 0).enter body (w'.passed params closure args) =
            endOn (w'.passed params closure args).env.inner
              ((throw .tooDeep : Eval Flow) (w'.passed params closure args)) := rfl
        rw [Eval.invoke_eq_endOn hdeep name, endState_endOn]
        exact hpassed (henv'.trans henv)
      | succ calls =>
        have hkept := Run.Faithful.scope_execAll (r := ⟨w', past⟩) ⟨h, (henv'.trans henv).symm⟩
          hpass rfl hl hargs hlength rounds tracing calls body
        rw [hbody (henv'.trans henv)] at hkept
        rw [Eval.invoke_eq_atBody, endState_endOn, endState_bind_pure]
        exact hkept

/-- At every moment of every run of units on one interpreter at which a function is running, a call
of that function leaves the parameters of the running call alone, directly or through whatever
other calls it is made, whatever is assigned during the call, and however the call ends. -/
theorem parameters_kept (limits : Limits) (jobs : List Source.Job) :
    (Source.recordAll limits jobs .start).world = Source.execAll limits jobs .start ∧
      (Source.recordAll limits jobs .start).past.env =
        (Source.execAll limits jobs .start).env ∧
      (Source.recordAll limits jobs .start).past.Always History.ParametersKept := by
  have hworld := Source.world_recordAll limits jobs .start
  have h := Source.faithful_recordAll limits jobs (r := .start) ⟨.start, rfl⟩
  have hpass := Source.passing_recordAll limits jobs
  refine ⟨hworld, ?_, fun past hsub => (h.1.suffix hsub).parametersKept (hpass.suffix hsub)⟩
  rw [h.2, Run.env, hworld]
  rfl

/-- A call that assigns its parameter, made from a call of the same function. -/
example : ∃ w, Program.exec ⟨8, 8⟩ false
    [.func "f" ["n"]
      [.branch (.binary .eq (.name "n") (.literal (.int 0)))
        [.expr (.assign (.name "n") (.literal (.int 7)))]
        [.expr (.call "f" [.literal (.int 0)])],
       .ret (some (.name "n"))],
     .expr (.call "f" [.literal (.int 1)])] .start = .ok (.value (.int 1)) w :=
  ⟨_, rfl⟩

end Lox
