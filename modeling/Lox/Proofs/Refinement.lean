import Lox.Proofs.Merging
import Lox.Proofs.Tracing

/-!
# Shared scopes refine copies

Evaluation and the reading with copies side by side, over the syntax: what the one does with the
scopes that functions share, the other does with copies of them. As long as no function is called
while a call of it is running, both print the same and end alike, unit by unit, and what they leave
differs in nothing but what functions have captured under the names of their parameters.
-/

namespace Lox

/-! ### Steps side by side -/

/-- The reading with copies is in the world `w'` where the recorded run is at `r`. -/
structure Run.Matches (r : Run) (w' : World) : Prop where
  current : r.past.env = r.env
  printed : w'.printed = r.world.printed
  trace : w'.trace = r.world.trace
  copied : r.past.Copied w'.env

/-- From `r` on, a recorded run and the reading with copies do the same: both end alike, where no
function is called while a call of it is running. That is asked of the history at the end, since
what holds of it holds of every history before. -/
structure Run.Agrees {ε α : Type} (r : Run) (act : EStateM ε Run α) (act' : EStateM ε World α) :
    Prop where
  continues : r.Continues (endState (act r))
  same : (endState (act r)).past.Tame → ∀ w', r.Matches w' →
    ∃ w₁', act' w' = mapEnd (fun _ => w₁') (act r) ∧ (endState (act r)).Matches w₁'

namespace Run

variable {ε α β : Type} {r : Run} {w' : World}

namespace Agrees

private theorem of_eq {act : EStateM ε Run α} {act' : EStateM ε World α}
    {res : EStateM.Result ε Run α} (h : act r = res) (hcontinues : r.Continues (endState res))
    (hsame : (endState res).past.Tame → ∀ w', r.Matches w' →
      ∃ w₁', act' w' = mapEnd (fun _ => w₁') res ∧ (endState res).Matches w₁') :
    r.Agrees act act' := by
  subst h
  exact ⟨hcontinues, hsame⟩

private theorem pure (a : α) : r.Agrees (pure a : EStateM ε Run α) (pure a) where
  continues := Discipline.history.outer_refl r
  same _ w' hm := ⟨w', rfl, hm⟩

private theorem throw (e : ε) : r.Agrees (throw e : EStateM ε Run α) (throw e) where
  continues := Discipline.history.outer_refl r
  same _ w' hm := ⟨w', rfl, hm⟩

private theorem bind {act : EStateM ε Run α} {act' : EStateM ε World α}
    {next : α → EStateM ε Run β} {next' : α → EStateM ε World β} (h : r.Agrees act act')
    (hnext : ∀ a s, act r = .ok a s → s.past.layers = r.past.layers →
      s.Agrees (next a) (next' a)) :
    r.Agrees (act >>= next) (act' >>= next') := by
  obtain ⟨hcontinues, hsame⟩ := h
  cases hres : act r with
  | error e s =>
    have hbind : (act >>= next) r = .error e s := by simp only [Bind.bind, EStateM.bind, hres]
    rw [hres] at hcontinues hsame
    refine ⟨hbind ▸ hcontinues, fun htame w' hm => ?_⟩
    rw [hbind] at htame ⊢
    obtain ⟨w₁', hact', hm'⟩ := hsame htame w' hm
    exact ⟨w₁', by simp only [Bind.bind, EStateM.bind, hact', mapEnd], hm'⟩
  | ok a s =>
    have hbind : (act >>= next) r = next a s := by simp only [Bind.bind, EStateM.bind, hres]
    rw [hres] at hcontinues hsame
    obtain ⟨hcontinues', hsame'⟩ := hnext a s hres hcontinues.2.1
    refine ⟨hbind ▸ Discipline.history.outer_trans hcontinues hcontinues', fun htame w' hm => ?_⟩
    rw [hbind] at htame ⊢
    obtain ⟨w₁', hact', hm₁⟩ := hsame (htame.suffix hcontinues'.1) w' hm
    obtain ⟨w₂', hnext', hm₂⟩ := hsame' htame w₁' hm₁
    refine ⟨w₂', ?_, hm₂⟩
    rw [← hnext']
    simp only [Bind.bind, EStateM.bind, hact', mapEnd]

private theorem adapt {act : EStateM ε Run α} {act' : EStateM ε World α} (h : r.Agrees act act')
    {δ : Type} (f : ε → δ) :
    r.Agrees (EStateM.adaptExcept f act) (EStateM.adaptExcept f act') := by
  obtain ⟨hcontinues, hsame⟩ := h
  cases hres : act r with
  | ok a s =>
    rw [hres] at hcontinues hsame
    have hadapt : EStateM.adaptExcept f act r = .ok a s := by simp only [EStateM.adaptExcept, hres]
    refine of_eq hadapt hcontinues fun htame w' hm => ?_
    obtain ⟨w₁', hact', hm₁⟩ := hsame htame w' hm
    exact ⟨w₁', by simp only [EStateM.adaptExcept, hact', mapEnd], hm₁⟩
  | error e s =>
    rw [hres] at hcontinues hsame
    have hadapt : EStateM.adaptExcept f act r = .error (f e) s := by
      simp only [EStateM.adaptExcept, hres]
    refine of_eq hadapt hcontinues fun htame w' hm => ?_
    obtain ⟨w₁', hact', hm₁⟩ := hsame htame w' hm
    exact ⟨w₁', by simp only [EStateM.adaptExcept, hact', mapEnd], hm₁⟩

private theorem shown {act : Eval α}
    (h : ∀ w e, act ⟨e, w.printed, w.trace⟩ = mapEnd (fun s => ⟨e, s.printed, s.trace⟩) (act w)) :
    r.Agrees (Recorded.ofEval act) act := by
  have henv : (endState (act r.world)).env = r.env := by
    have hend : endState (act r.world) = _ := congrArg endState (h r.world r.env)
    rw [hend, endState_mapEnd]
  have hact : Recorded.ofEval act r = mapEnd (⟨·, r.past⟩) (act r.world) := by
    simp only [Recorded.ofEval]
    cases act r.world <;> rfl
  refine of_eq hact ?_ fun _ w' hm => ?_
  · rw [endState_mapEnd]
    exact ⟨List.suffix_refl _, rfl, congrArg Env.inner henv⟩
  · refine ⟨⟨w'.env, (endState (act r.world)).printed, (endState (act r.world)).trace⟩, ?_, ?_⟩
    · have hw' : w' = ⟨w'.env, r.world.printed, r.world.trace⟩ := by
        rw [← hm.printed, ← hm.trace]
      rw [hw', h r.world w'.env]
      cases act r.world <;> rfl
    · rw [endState_mapEnd]
      exact ⟨hm.current.trans henv.symm, rfl, rfl, hm.copied⟩

private theorem lift (result : Except Fault α) :
    r.Agrees (Recorded.lift result) (Eval.lift result) := by
  cases result with
  | ok a => exact shown fun _ _ => rfl
  | error f => exact shown fun _ _ => rfl

private theorem print (v : Value) : r.Agrees (Recorded.ofEval (Eval.print v)) (Eval.print v) := by
  unfold Eval.print
  cases v.text? with
  | some text => exact shown fun _ _ => rfl
  | none => exact shown fun _ _ => rfl

private theorem noteWhere (tracing : Bool) (f : Function) (args : List Value) :
    r.Agrees (Recorded.ofEval (Eval.noteWhere tracing f args)) (Eval.noteWhere tracing f args) := by
  unfold Eval.noteWhere Eval.noteCall
  cases tracing with
  | false => exact shown fun _ _ => rfl
  | true =>
    cases Eval.texts args with
    | some ss => exact shown fun _ _ => rfl
    | none => exact shown fun _ _ => rfl

private theorem lookup (x : String) :
    r.Agrees (Recorded.ofEval (Eval.lookup x)) (Eval.lookup x) := by
  cases hx : r.env.get? x with
  | none =>
    have hact : Recorded.ofEval (Eval.lookup x) r = .error (.ofFault (.undefinedVariable x)) r := by
      simp only [Recorded.ofEval, Eval.lookup]
      rw [show r.world.env.get? x = none from hx]
      rfl
    refine of_eq hact (Discipline.history.outer_refl r) fun htame w' hm => ⟨w', ?_, hm⟩
    rw [Eval.lookup, hm.copied.get?_eq htame, hm.current, hx]
    rfl
  | some v =>
    have hact : Recorded.ofEval (Eval.lookup x) r = .ok v r := by
      simp only [Recorded.ofEval, Eval.lookup]
      rw [show r.world.env.get? x = some v from hx]
    refine of_eq hact (Discipline.history.outer_refl r) fun htame w' hm => ⟨w', ?_, hm⟩
    rw [Eval.lookup, hm.copied.get?_eq htame, hm.current, hx]
    rfl

private theorem assign (x : String) (v : Value) :
    r.Agrees (Recorded.assign x v) (Eval.assign x v) := by
  cases hx : r.env.owner? x with
  | none =>
    have hact : Recorded.assign x v r = .error (.ofFault (.undefinedVariable x)) r := by
      simp only [Recorded.assign, Recorded.ofEval, Eval.assign, Bind.bind, EStateM.bind]
      rw [show r.world.env.owner? x = none from hx]
      rfl
    refine of_eq hact (Discipline.history.outer_refl r) fun htame w' hm => ⟨w', ?_, hm⟩
    rw [← hm.current] at hx
    simp only [Eval.assign, hm.copied.owner?_eq_none htame hx]
    rfl
  | some id =>
    let s : Run := r.step (.assigned x v) (r.env.putIn id x v)
    have hact : Recorded.assign x v r = .ok () s := by
      simp only [Recorded.assign, Recorded.ofEval, Eval.assign, Bind.bind, EStateM.bind]
      rw [show r.world.env.owner? x = some id from hx]
      rfl
    refine of_eq hact ⟨List.suffix_cons _ _, rfl, rfl⟩ fun htame w' hm => ?_
    rw [← hm.current] at hx
    obtain ⟨id', hx', hcopied⟩ :=
      hm.copied.assigned (htame.suffix (List.suffix_cons _ _)) hx v
    refine ⟨⟨w'.env.putIn id' x v, w'.printed, w'.trace⟩, ?_, rfl, hm.printed, hm.trace, ?_⟩
    · simp only [Eval.assign, hx']
      rfl
    · rw [hm.current] at hcopied
      exact hcopied

private theorem define (hstanding : r.past.Standing) (x : String) (v : Value) :
    r.Agrees (Recorded.define x v) (Eval.define x v) := by
  let s : Run := r.step (.bound x v) (r.env.define x v)
  have hact : Recorded.define x v r = .ok () s := rfl
  refine of_eq hact ⟨List.suffix_cons _ _, rfl, rfl⟩ fun htame w' hm => ?_
  have hcopied := hm.copied.bound (htame.suffix (List.suffix_cons _ _)) hstanding x v
  rw [hm.current] at hcopied
  exact ⟨⟨w'.env.define x v, w'.printed, w'.trace⟩, rfl, rfl, hm.printed, hm.trace, hcopied⟩

private theorem declare (hstanding : r.past.Standing) (name : String) (params : List String)
    (body : Block) :
    r.Agrees (Recorded.declare name params body) (do
      let closure ← Eval.capture
      Eval.define name (.func (.user name params body closure))) := by
  let f : Function := .user name params body r.env.snapshot.1
  let s : Run := r.step (.declared f) r.env.snapshot.2
  let t : Run := s.step (.bound name (.func f)) (s.env.define name (.func f))
  have hact : Recorded.declare name params body r = .ok () t := rfl
  refine of_eq hact ⟨?_, rfl, rfl⟩ fun htame w' hm => ?_
  · exact (List.suffix_cons _ _).trans (List.suffix_cons _ _)
  · have hs : s.past.Tame := htame.suffix (List.suffix_cons _ _)
    have hr : r.past.Tame := hs.suffix (List.suffix_cons _ _)
    have hclosure : f.closure? = some r.past.env.snapshot.1 := by
      rw [hm.current]
      rfl
    have hdeclared := hm.copied.declared hr hstanding hclosure
    rw [hm.current] at hdeclared
    have hbound := hdeclared.bound hs hstanding name (.func f)
    have hid : w'.env.snapshot.1 = r.env.snapshot.1 := by
      rw [← hm.current]
      exact hm.copied.size
    refine ⟨⟨w'.env.snapshot.2.define name (.func f), w'.printed, w'.trace⟩, ?_, rfl, hm.printed,
      hm.trace, hbound⟩
    simp only [f, ← hid]
    rfl

end Agrees

private theorem within_eq {layer : Env → Layer} {l : Layer} {act : Recorded α} {id : ScopeId}
    (hl : layer r.env = l)
    (h : (endState (act (r.step (.opened l) (l.push r.env)))).env.inner = id :: r.env.inner) :
    Recorded.within layer act r =
      mapEnd (fun s => s.step (.closed l) ⟨s.env.scopes, r.env.inner⟩)
        (act (r.step (.opened l) (l.push r.env))) := by
  subst hl
  have henter : (do Recorded.enter (layer r.world.env); act : Recorded α) r =
      act (r.step (.opened (layer r.env)) ((layer r.env).push r.env)) := rfl
  simp only [Recorded.within, bracket]
  rw [henter]
  cases hres : act (r.step (.opened (layer r.env)) ((layer r.env).push r.env)) with
  | ok a s =>
    obtain ⟨⟨⟨scopes, inner⟩, printed, trace⟩, past⟩ := s
    rw [hres] at h
    obtain rfl : inner = id :: r.env.inner := h
    rfl
  | error stop s =>
    obtain ⟨⟨⟨scopes, inner⟩, printed, trace⟩, past⟩ := s
    rw [hres] at h
    obtain rfl : inner = id :: r.env.inner := h
    rfl

namespace Agrees

private theorem block {act : Recorded Flow} {act' : Eval Flow}
    (h : ∀ s : Run, s.past.Standing → s.Agrees act act') :
    r.Agrees (Recorded.within Layer.forBlock act) (Eval.within Env.push act') := by
  let opened : Run := r.step (.opened (.forBlock r.env)) r.env.push
  have hstanding : opened.past.Standing := by
    intro l ls hl
    cases hl
    exact ⟨_, rfl⟩
  obtain ⟨⟨hsub, hlayers, hinner⟩, hsame⟩ := h opened hstanding
  have hact : Recorded.within Layer.forBlock act r =
      mapEnd (fun s => s.step (.closed (.forBlock r.env)) ⟨s.env.scopes, r.env.inner⟩)
        (act opened) := within_eq rfl hinner
  refine of_eq hact ?_ fun htame w' hm => ?_
  · rw [endState_mapEnd]
    refine ⟨((List.suffix_cons _ _).trans hsub).trans (List.suffix_cons _ _), ?_, rfl⟩
    rw [past_step, History.layers, hlayers]
    rfl
  · rw [endState_mapEnd] at htame ⊢
    have hs := htame.suffix (List.suffix_cons _ _)
    have hopened : opened.Matches w'.opened := by
      have hcopied := hm.copied.opened
      rw [hm.current] at hcopied
      exact ⟨rfl, hm.printed, hm.trace, hcopied⟩
    obtain ⟨w₁', hact', hm₁⟩ := hsame hs w'.opened hopened
    obtain ⟨ids, hids, hclosed⟩ := hm₁.copied.closed hlayers
    have hend : (endState (act' w'.opened)).env.inner = r.env.scopes.size :: ids := by
      rw [hact', endState_mapEnd]
      exact hids
    have hwithin : Eval.within Env.push act' w' = endOn ids (act' w'.opened) :=
      Callers.within_eq_endOn rfl hend
    refine ⟨w₁'.on ids, ?_, rfl, hm₁.printed, hm₁.trace, ?_⟩
    · rw [hwithin, hact']
      cases act opened <;> rfl
    · have hclosed' := hclosed r.env.inner
      rw [hm₁.current] at hclosed'
      exact hclosed'

end Agrees

/-! ### Calls side by side -/

/-- The run in which the parameters of a call have been bound. -/
def passed (f : Function) (c : ScopeId) (args : List Value) (r : Run) : Run :=
  let begun := r.step (.opened (.call f c)) (r.env.pushShared c)
  (begun.step (.opened (.parameters r.env.scopes.size)) begun.env.push).bindAll f.params args

/-- The run in which a call has ended that was begun at `r`, where its body has ended at `s`. -/
def finished (f : Function) (c : ScopeId) (r s : Run) : Run :=
  (s.step (.closed (.parameters r.env.scopes.size)) ⟨s.env.scopes, c :: r.env.inner⟩).step
    (.closed (.call f c)) ⟨s.env.scopes, r.env.inner⟩

private theorem past_bindAll (xs : List String) (vs : List Value) (r : Run) :
    r.past <:+ (r.bindAll xs vs).past ∧ (r.bindAll xs vs).past.declared = r.past.declared ∧
      (r.past.env = r.env → (r.bindAll xs vs).past.env = (r.bindAll xs vs).env) := by
  induction xs generalizing vs r with
  | nil => exact ⟨List.suffix_refl _, rfl, id⟩
  | cons x xs ih =>
    cases vs with
    | nil => exact ⟨List.suffix_refl _, rfl, id⟩
    | cons v vs =>
      obtain ⟨hsub, hdeclared, henv⟩ := ih vs (r.step (.bound x v) (r.env.define x v))
      exact ⟨(List.suffix_cons _ _).trans hsub, hdeclared, fun _ => henv rfl⟩

section Call

variable {f : Function} {c : ScopeId} {args : List Value} {s : Run}

private theorem world_passed (f : Function) (c : ScopeId) (args : List Value) (r : Run) :
    (r.passed f c args).world =
      ⟨(r.env.pushShared c).push.bindAll f.params args, r.world.printed, r.world.trace⟩ :=
  world_bindAll f.params args _

private theorem layers_passed (f : Function) (c : ScopeId) (args : List Value) (r : Run) :
    (r.passed f c args).past.layers =
      .parameters r.env.scopes.size :: .call f c :: r.past.layers :=
  layers_bindAll f.params args _

private theorem inner_passed (f : Function) (c : ScopeId) (args : List Value) (r : Run) :
    (r.passed f c args).env.inner = r.env.scopes.size :: c :: r.env.inner := by
  rw [env, world_passed]
  exact Env.inner_bindAll f.params args (r.env.pushShared c).push

private theorem within_call_eq (tracing : Bool) {act : Recorded α}
    (h : (endState (act (r.passed f c args))).env.inner = (r.passed f c args).env.inner) :
    Recorded.within (fun _ => .call f c) (Recorded.within Layer.forParameters do
      (Machine.record tracing).defineAll f.params args
      act) r = mapEnd (r.finished f c) (act (r.passed f c args)) := by
  let begun : Run := r.step (.opened (.call f c)) (r.env.pushShared c)
  let opened : Run := begun.step (.opened (.parameters r.env.scopes.size)) begun.env.push
  let bodyOf : Recorded α := do
    (Machine.record tracing).defineAll f.params args
    act
  have hbody : bodyOf opened = act (r.passed f c args) :=
    bind_of_ok (Machine.defineAll_record tracing f.params args opened) _
  have hinner : (endState (bodyOf opened)).env.inner = r.env.scopes.size :: begun.env.inner := by
    rw [hbody, h, inner_passed]
    rfl
  have hparams : Recorded.within Layer.forParameters bodyOf begun =
      mapEnd (fun s => s.step (.closed (.parameters r.env.scopes.size))
        ⟨s.env.scopes, begun.env.inner⟩) (bodyOf opened) := within_eq rfl hinner
  have hend : (endState (Recorded.within Layer.forParameters bodyOf begun)).env.inner =
      c :: r.env.inner := by
    rw [hparams, endState_mapEnd]
    rfl
  have hcall : Recorded.within (fun _ => .call f c)
      (Recorded.within Layer.forParameters bodyOf) r =
        mapEnd (fun s => s.step (.closed (.call f c)) ⟨s.env.scopes, r.env.inner⟩)
          (Recorded.within Layer.forParameters bodyOf begun) := within_eq rfl hend
  rw [hcall, hparams, hbody]
  cases act (r.passed f c args) <;> rfl

private theorem past_passed (f : Function) (c : ScopeId) (args : List Value) (r : Run) :
    ⟨.opened (.call f c), r.env.pushShared c⟩ :: r.past <:+ (r.passed f c args).past ∧
      (r.passed f c args).past.declared = r.past.declared ∧
      (r.passed f c args).past.env = (r.passed f c args).env := by
  let begun : Run := r.step (.opened (.call f c)) (r.env.pushShared c)
  let opened : Run := begun.step (.opened (.parameters r.env.scopes.size)) begun.env.push
  obtain ⟨hsub, hdeclared, hcurrent⟩ := past_bindAll f.params args opened
  exact ⟨(List.suffix_cons _ _).trans hsub, hdeclared, hcurrent rfl⟩

private theorem Continues.finished (h : (r.passed f c args).Continues s) :
    r.Continues (r.finished f c s) := by
  obtain ⟨hsub, hlayers, -⟩ := h
  have hpassed : r.past <:+ (r.passed f c args).past :=
    (List.suffix_cons _ _).trans (past_passed f c args r).1
  refine ⟨(hpassed.trans hsub).trans ((List.suffix_cons _ _).trans (List.suffix_cons _ _)), ?_, rfl⟩
  rw [layers_passed] at hlayers
  rw [Run.finished, past_step, past_step, History.layers, History.layers, hlayers]
  rfl

private theorem Matches.passed (h : r.Matches w') (htame : (r.passed f c args).past.Tame)
    (hlength : args.length = f.params.length) :
    (r.passed f c args).Matches (w'.copiedIn f.params c args) := by
  obtain ⟨hsub, hdeclared, hcurrent⟩ := past_passed f c args r
  have hworld := world_passed f c args r
  have hbegun := htame.suffix hsub
  have hr : r.past.Tame := hbegun.suffix (List.suffix_cons _ _)
  obtain ⟨hf, hc⟩ := hbegun.valid.of_begun
  have hidle : f ∉ r.past.active := hbegun.apart f c _ r.past (List.suffix_refl _)
  refine ⟨hcurrent, ?_, ?_, ?_⟩
  · rw [hworld]
    exact h.printed
  · rw [hworld]
    exact h.trace
  · refine h.copied.begun hr hf hc hidle hlength ?_ ?_ hdeclared
    · rw [hcurrent, env, hworld, h.current]
    · rw [layers_passed, h.current]

private theorem Matches.finished (h : s.Matches w') (htame : s.past.Tame)
    (hlayers : s.past.layers = .parameters r.env.scopes.size :: .call f c :: r.past.layers) :
    ∃ ids, w'.env.inner = r.env.scopes.size :: ids ∧
      (r.finished f c s).Matches (w'.copiedOut c r.env.scopes.size ids) := by
  obtain ⟨ids, hids, hended⟩ := h.copied.ended htame hlayers
  refine ⟨ids, hids, rfl, h.printed, h.trace, hended _ ?_ ?_ rfl⟩
  · rw [h.current]
    rfl
  · rw [Run.finished, past_step, past_step, History.layers, History.layers, hlayers]
    rfl

private theorem Agrees.called (tracing : Bool) {act : Recorded Flow} {act' : Eval Flow}
    (h : ∀ s : Run, s.Agrees act act') (hlength : args.length = f.params.length) :
    r.Agrees
      (Recorded.within (fun _ => .call f c) (Recorded.within Layer.forParameters do
        (Machine.record tracing).defineAll f.params args
        act))
      (Copying.within c do
        Eval.defineAll f.params args
        act') := by
  obtain ⟨hcontinues, hsame⟩ := h (r.passed f c args)
  refine of_eq (within_call_eq tracing hcontinues.2.2) ?_ fun htame w' hm => ?_
  · rw [endState_mapEnd]
    exact hcontinues.finished
  · rw [endState_mapEnd] at htame ⊢
    have hs := htame.suffix ((List.suffix_cons _ _).trans (List.suffix_cons _ _))
    have hpassed := hm.passed (hs.suffix hcontinues.1) hlength
    obtain ⟨w₁', hact', hm₁⟩ := hsame hs _ hpassed
    obtain ⟨ids, hids, hfinished⟩ := hm₁.finished hs (hcontinues.2.1.trans (layers_passed ..))
    have hend : (endState (act' (w'.copiedIn f.params c args))).env.inner =
        r.env.scopes.size :: ids := by
      rw [hact', endState_mapEnd]
      exact hids
    refine ⟨_, ?_, hfinished⟩
    rw [Copying.within_eq hend, hact']
    cases act (r.passed f c args) <;> rfl

end Call

private theorem Agrees.invoke {tracing : Bool} {enter : Block → Recorded Flow}
    {enter' : Block → Eval Flow}
    (h : ∀ (body : Block) (s : Run), s.Agrees (enter body) (enter' body)) (f : Function)
    {args : List Value} (hlength : args.length = f.arity) :
    r.Agrees ((Machine.record tracing).invoke enter f args) (Copying.invoke enter' f args) := by
  cases f with
  | builtin fn =>
    have hlift : r.Agrees _ (Eval.lift (fn.apply args) >>= Pure.pure) :=
      bind (lift (fn.apply args)) fun v _ _ _ => .pure v
    rw [bind_pure (Eval.lift (fn.apply args))] at hlift
    exact hlift
  | user name params body closure =>
    let f : Function := .user name params body closure
    exact bind (called tracing (f := f) (h body) hlength) fun flow _ _ _ => .pure flow.callValue

/-- Wherever a statement can stand, both do the same. -/
def Coincides (act : Recorded α) (act' : Eval α) : Prop :=
  ∀ r : Run, r.past.Standing → r.Agrees act act'

end Run

/-- The reading with copies goes along with the record, but for the scopes of calls. -/
def Machine.copying (tracing : Bool) : Simulation (.record tracing) (.eval tracing) where
  rel := Run.Coincides
  pure a _ _ := .pure a
  bind h hnext r hr := .bind (h r hr) fun a s _ hlayers => hnext a s (hr.congr hlayers)
  tooDeep _ _ := .throw _
  exhausted _ _ := .throw _
  raise f _ _ := .lift (.error f)
  ask _ result _ _ := .lift result
  give v _ _ := .pure v
  lookup x _ _ := .lookup x
  define x v _ hr := .define hr x v
  assign x v _ _ := .assign x v
  declare name params body _ hr := .declare hr name params body
  block h _ _ := .block h
  print v _ _ := .print v
  note f args _ _ := .noteWhere tracing f args

section Programs

variable (limits : Limits) (tracing : Bool)

private theorem Copying.calls_calling {enter : Block → Recorded Flow} {enter' : Block → Eval Flow}
    (h : ∀ (body : Block) (r : Run), r.Agrees (enter body) (enter' body)) :
    (Machine.copying tracing).Calls ((Machine.record tracing).calling
        ((Machine.record tracing).invoke enter))
      ((Machine.eval tracing).calling (Copying.invoke enter')) :=
  Machine.Simulation.calling fun f _ hlength _ _ => .invoke h f hlength

private theorem Copying.agrees_enter (rounds calls : Nat) (body : Block) (r : Run) :
    r.Agrees ((Machine.record tracing).enter (Machine.record tracing).invoke rounds calls body)
      ((Machine.eval tracing).enter Copying.invoke rounds calls body) := by
  induction calls generalizing body r with
  | zero => exact .throw _
  | succ calls ih =>
    exact .block (Machine.Simulation.stmts (calls_calling tracing ih) rounds .next body)

/-- A program does the same in both readings. -/
theorem Program.agrees (p : Program) {r : Run} (hr : r.past.Standing) :
    r.Agrees (p.record limits tracing) (p.execCopying limits tracing) :=
  Machine.Simulation.stmts (Copying.calls_calling tracing (Copying.agrees_enter tracing _ _)) _
    .next p r hr

end Programs

/-- A unit of source text does the same in both readings. -/
theorem Source.agrees (limits : Limits) (job : Job) {r : Run} (hr : r.past.Standing) :
    r.Agrees (record limits job) (execCopying limits job) := by
  have hshown (w' : World) (hm : r.Matches w') :
      Run.Matches ⟨opening job.flags job.source r.world, r.past⟩
        (opening job.flags job.source w') := by
    refine ⟨hm.current, ?_, ?_, hm.copied⟩
    · simp only [opening, hm.printed]
    · simp only [opening, hm.trace]
  cases hp : program job.source with
  | error failure =>
    have hrecord : record limits job r =
        .error failure ⟨opening job.flags job.source r.world, r.past⟩ := by
      simp only [record, prepare_eq_opening, hp]
    refine .of_eq hrecord ⟨List.suffix_refl _, rfl, rfl⟩ fun _ w' hm => ⟨_, ?_, hshown w' hm⟩
    simp only [execCopying, bind, EStateM.bind, prepare_eq_opening, hp, mapEnd]
  | ok p =>
    let opened : Run := ⟨opening job.flags job.source r.world, r.past⟩
    have hrecord : record limits job r =
        EStateM.adaptExcept Failure.stopped (p.record limits job.flags.tracing) opened := by
      simp only [record, prepare_eq_opening, hp]
      cases hres : p.record limits job.flags.tracing opened <;>
        simp only [EStateM.adaptExcept, opened, hres]
    have hcopying (w' : World) : execCopying limits job w' =
        EStateM.adaptExcept Failure.stopped (p.execCopying limits job.flags.tracing)
          (opening job.flags job.source w') := by
      simp only [execCopying, bind, EStateM.bind, prepare_eq_opening, hp, run, EStateM.adaptExcept]
      cases p.execCopying limits job.flags.tracing (opening job.flags job.source w') <;> rfl
    obtain ⟨hcontinues, hsame⟩ :=
      (p.agrees limits job.flags.tracing (r := opened) hr).adapt Failure.stopped
    refine .of_eq hrecord hcontinues fun htame w' hm => ?_
    obtain ⟨w₁', hact', hm₁⟩ := hsame htame _ (hshown w' hm)
    exact ⟨w₁', (hcopying w').trans hact', hm₁⟩

/-! ### Programs one after the other -/

/-- The state after steps were taken one after the other, each whatever became of those before. -/
def endStates {ι ε σ α : Type} (step : ι → EStateM ε σ α) : List ι → σ → σ
  | [], s => s
  | i :: is, s => endStates step is (endState (step i s))

/-- Nothing sets these worlds apart but what functions have captured under the names of their
parameters. -/
structure World.Alike (w w' : World) : Prop where
  printed : w'.printed = w.printed
  trace : w'.trace = w.trace
  stack : w'.env.inner = w.env.inner
  globals : w'.env.scope Env.global = w.env.scope Env.global
  captured : ∀ id x f c, (w.env.scope id).get? x = some (.func f) → f.closure? = some c →
    ∀ y ∉ f.params, (w'.env.scope c).get? y = (w.env.scope c).get? y

/-- Unit by unit both readings end in the same way, in worlds that are alike. -/
def SameUnits {ι ε : Type} (exec copying : ι → EStateM ε World Flow) (units : List ι) : Prop :=
  ∀ before unit after, units = before ++ unit :: after → ∃ w',
    copying unit (endStates copying before .start) =
        mapEnd (fun _ => w') (exec unit (endStates exec before .start)) ∧
      (endState (exec unit (endStates exec before .start))).Alike w'

private theorem Run.Matches.alike {r : Run} {w' : World} (h : r.Matches w') (hr : r.Idle) :
    r.world.Alike w' := by
  have hinv := hr.faithful.1.invariant
  have hcurrent : r.past.env = r.world.env := h.current
  have hmerged := h.copied.merged
  rw [hr.layers] at hmerged
  obtain ⟨hstack', hglobal⟩ := hmerged.of_nil
  have hstack : r.world.env.inner = [] := by
    rw [← hcurrent, hinv.stack, hr.layers]
    rfl
  refine ⟨h.printed, h.trace, hstack'.trans hstack.symm, hcurrent ▸ hglobal, ?_⟩
  intro id x f c hx hc y hy
  rw [← hcurrent] at hx ⊢
  refine h.copied.captured f (hinv.known hx f c rfl hc) (fun hactive => ?_) c hc y hy
  rw [History.active, hr.layers] at hactive
  cases hactive

section Units

variable {ι ε : Type} {record : ι → EStateM ε Run Flow} {exec copying : ι → EStateM ε World Flow}

private theorem world_endStates
    (hexec : ∀ unit r, Recorded.forget (record unit r) = exec unit r.world)
    (units : List ι) (r : Run) :
    (endStates record units r).world = endStates exec units r.world := by
  induction units generalizing r with
  | nil => rfl
  | cons unit units ih =>
    rw [endStates, endStates, ih, ← hexec]
    cases record unit r <;> rfl

private theorem matches_endStates (hidle : ∀ unit r, r.Idle → (endState (record unit r)).Idle)
    (hagrees : ∀ unit (r : Run), r.past.Standing → r.Agrees (record unit) (copying unit))
    (units : List ι) {r : Run} (hr : r.Idle) :
    (endStates record units r).Idle ∧ r.past <:+ (endStates record units r).past ∧
      ((endStates record units r).past.NoReentry → ∀ w', r.Matches w' →
        (endStates record units r).Matches (endStates copying units w')) := by
  induction units generalizing r with
  | nil => exact ⟨hr, List.suffix_refl _, fun _ _ hm => hm⟩
  | cons unit units ih =>
    have hstanding : r.past.Standing := fun l ls hl => by cases hr.layers.symm.trans hl
    obtain ⟨hcontinues, hsame⟩ := hagrees unit r hstanding
    have hr₁ := hidle unit r hr
    obtain ⟨hend, hsub, hmatches⟩ := ih hr₁
    refine ⟨hend, hcontinues.1.trans hsub, fun hreentry w' hm => ?_⟩
    have htame : (endState (record unit r)).past.Tame :=
      ⟨hr₁.faithful.1, hr₁.passing, hreentry.suffix hsub⟩
    obtain ⟨w₁', hw₁', hm₁⟩ := hsame htame w' hm
    have hend' : endState (copying unit w') = w₁' := by rw [hw₁', endState_mapEnd]
    rw [endStates, endStates, hend']
    exact hmatches hreentry w₁' hm₁

private theorem endStates_append {σ α : Type} (step : ι → EStateM ε σ α) (before after : List ι)
    (s : σ) :
    endStates step (before ++ after) s = endStates step after (endStates step before s) := by
  induction before generalizing s with
  | nil => rfl
  | cons unit before ih => exact ih _

private theorem sameUnits (hexec : ∀ unit r, Recorded.forget (record unit r) = exec unit r.world)
    (hidle : ∀ unit r, r.Idle → (endState (record unit r)).Idle)
    (hagrees : ∀ unit (r : Run), r.past.Standing → r.Agrees (record unit) (copying unit))
    {units : List ι} (h : (endStates record units .start).past.NoReentry) :
    SameUnits exec copying units := by
  rintro before unit after rfl
  rw [endStates_append, endStates] at h
  obtain ⟨hr, -, hmatches⟩ := matches_endStates hidle hagrees before .start
  have hr₁ := hidle unit _ hr
  have hreentry := h.suffix (matches_endStates hidle hagrees after hr₁).2.1
  have hstanding : (endStates record before .start).past.Standing :=
    fun l ls hl => by cases hr.layers.symm.trans hl
  obtain ⟨hcontinues, hsame⟩ := hagrees unit _ hstanding
  have hm := hmatches (hreentry.suffix hcontinues.1) .start ⟨rfl, rfl, rfl, .start⟩
  obtain ⟨w', hw', hm'⟩ := hsame ⟨hr₁.faithful.1, hr₁.passing, hreentry⟩ _ hm
  have halike := hm'.alike hr₁
  have hworld : (endStates record before .start).world = endStates exec before .start :=
    world_endStates hexec before .start
  rw [← hworld, ← hexec]
  refine ⟨w', ?_, ?_⟩
  · rw [hw']
    cases record unit (endStates record before .start) <;> rfl
  · cases hres : record unit (endStates record before .start) with
    | ok flow s | error e s =>
      rw [hres] at halike
      exact halike

end Units

/-- Sharing refines copying. Whatever programs, or units of source text, are run one after the
other: if in their run no function value is called while a call of it is running, then the reading
in which a call pushes a copy of what its function has captured, binds the parameters in it and
keeps it, prints the same, ends in the same way, unit by unit, and leaves the same global bindings;
functions have captured the same, but for the names of their parameters. -/
theorem sharing_refines_copying (limits : Limits) :
    (∀ (tracing : Bool) (ps : List Program),
      (endStates (Program.record limits tracing) ps .start).world =
          endStates (Program.exec limits tracing) ps .start ∧
        ((endStates (Program.record limits tracing) ps .start).past.NoReentry →
          SameUnits (Program.exec limits tracing) (Program.execCopying limits tracing) ps)) ∧
    ∀ jobs : List Source.Job,
      (endStates (Source.record limits) jobs .start).world =
          endStates (fun job => Source.exec limits job.flags job.source) jobs .start ∧
        ((endStates (Source.record limits) jobs .start).past.NoReentry →
          SameUnits (fun job => Source.exec limits job.flags job.source)
            (Source.execCopying limits) jobs) := by
  refine ⟨fun tracing ps => ?_, fun jobs => ?_⟩
  · have hexec (p : Program) (r : Run) := (p.exec_eq_forget limits tracing r).symm
    refine ⟨world_endStates hexec ps .start, sameUnits hexec (fun p r hr => ?_) fun p r hr => ?_⟩
    · exact p.idle_record limits tracing hr
    · exact p.agrees limits tracing hr
  · have hexec (job : Source.Job) (r : Run) := Source.forget_record limits job r
    refine ⟨world_endStates hexec jobs .start,
      sameUnits hexec (fun job r hr => ?_) fun job r hr => ?_⟩
    · exact Source.idle_record limits job hr
    · exact Source.agrees limits job hr

/-- A counter that is called once by each of two programs, the second time in a call of another
function. -/
def Program.counting : List Program :=
  [[.var "n" (some (.literal (.int 0))),
    .func "count" ["k"] [.expr (.assign (.name "n") (.binary .plus (.name "n") (.name "k")))],
    .func "twice" ["k"]
      [.ret (some (.call "count" [.binary .times (.literal (.int 2)) (.name "k")]))]],
   [.expr (.call "count" [.literal (.int 1)])],
   [.expr (.call "twice" [.literal (.int 3)])]]

/-- No function is called there while a call of it is running, and both readings end alike, but for
the parameter, which stays bound in a copy that is kept and never was in the shared scope. -/
theorem sharing_refines_copying_counting :
    (endStates (Program.record ⟨4, 4⟩ false) Program.counting .start).past.NoReentry ∧
      SameUnits (Program.exec ⟨4, 4⟩ false) (Program.execCopying ⟨4, 4⟩ false) Program.counting ∧
      ((endStates (Program.execCopying ⟨4, 4⟩ false) Program.counting .start).env.scope 1).binds
        "k" = true ∧
      ((endStates (Program.exec ⟨4, 4⟩ false) Program.counting .start).env.scope 1).binds "k" =
        false := by
  have hapart :
      (endStates (Program.record ⟨4, 4⟩ false) Program.counting .start).past.callsApart = true := by
    decide +kernel
  have hreentry := History.noReentry_of_callsApart hapart
  refine ⟨hreentry, ((sharing_refines_copying ⟨4, 4⟩).1 false Program.counting).2 hreentry, ?_⟩
  decide +kernel

end Lox
