import Mathlib.Data.List.Nodup
import Lox.Proofs.Discipline
import Lox.Proofs.Erasure
import Lox.Proofs.Scopes

/-!
# Closures are separate

Scopes are shared by reference: a call lays the captured scope of its function on the stack, and a
function value can be bound anywhere. Still no two function values share a captured scope, and a
captured scope lies on the stack once for each running call of its function and for no other
reason. So what a function has captured changes only while it is called.

The proof is by histories. `Event.Leads` says what each event does to the environment, a valid
history is a chain of such events, and every run writes a valid history. The invariants then follow
by induction over valid histories, one event at a time.
-/

namespace Lox

namespace History

/-- A function value that a declaration must have made was made by one. -/
def Knows (past : History) (v : Value) : Prop :=
  ∀ f c, v = .func f → f.closure? = some c → f ∈ past.declared

/-- What holds at the end of a history and held at every moment of it. -/
def Always (P : History → Prop) (past : History) : Prop := ∀ earlier, earlier <:+ past → P earlier

open Classical in
/-- The number of running calls of a function. -/
noncomputable def activeCalls (past : History) (f : Function) : Nat :=
  past.active.countP fun g => g = f

end History

/-- What each event does to the environment that a history has led to. -/
inductive Event.Leads (past : History) : Event → Env → Prop
  | bound {x : String} {v : Value} (hv : past.Knows v) :
      Leads past (.bound x v) (past.env.define x v)
  | assigned {x : String} {v : Value} {id : ScopeId} (hv : past.Knows v)
      (h : past.env.owner? x = some id) : Leads past (.assigned x v) (past.env.putIn id x v)
  | declared {f : Function} (h : f.closure? = some past.env.snapshot.1) :
      Leads past (.declared f) past.env.snapshot.2
  | opened {l : Layer} (h : l.made? = some past.env.scopes.size) :
      Leads past (.opened l) past.env.push
  | begun {f : Function} {c : ScopeId} (hf : f ∈ past.declared) (h : f.closure? = some c) :
      Leads past (.opened (.call f c)) (past.env.pushShared c)
  | closed {l : Layer} {ls : List Layer} (h : past.layers = l :: ls) :
      Leads past (.closed l) ⟨past.env.scopes, past.env.inner.tail⟩

namespace History

/-- Every moment follows from those before it. -/
inductive Valid : History → Prop
  | start : Valid []
  | step {past : History} {event : Event} {e : Env} (h : Valid past) (he : event.Leads past e) :
      Valid (⟨event, e⟩ :: past)

/-- What is known stays known. -/
theorem Knows.mono {past later : History} {v : Value} (h : past.Knows v)
    (hsub : past <:+ later) : later.Knows v :=
  fun f c hv hc => (hsub.sublist.filterMap _).subset (h f c hv hc)

/-- A value that is no function needs no declaration. -/
theorem knows_atom (past : History) {v : Value} (h : v.isAtom = true) : past.Knows v := by
  rintro f c rfl
  simp [Value.isAtom] at h

/-- A built-in function needs no declaration. -/
theorem knows_builtin (past : History) (fn : Builtin) : past.Knows (.func (.builtin fn)) := by
  rintro f c h hc
  obtain rfl := Value.func.inj h
  simp [Function.closure?] at hc

end History

/-- What a layer lies on the stack for. -/
def Layer.Owned (past : History) : Layer → Prop
  | block id | parameters id => id ∈ past.made
  | call f c => f ∈ past.declared ∧ f.closure? = some c

namespace History

/-- What valid histories keep. The scopes of new layers and of captured variables get identities
that were never used, so each has one purpose. -/
structure Invariant (past : History) : Prop where
  stack : past.env.inner = past.layers.map Layer.scope
  size : 0 < past.env.scopes.size
  known : ∀ {id x v}, (past.env.scope id).get? x = some v → past.Knows v
  closure : ∀ f ∈ past.declared, ∃ c, f.closure? = some c ∧ 0 < c ∧ c < past.env.scopes.size
  nodup : (past.declared.map Function.closure?).Nodup
  made : ∀ id ∈ past.made, 0 < id ∧ id < past.env.scopes.size
  disjoint : ∀ f ∈ past.declared, ∀ id ∈ past.made, f.closure? ≠ some id
  layers : ∀ l ∈ past.layers, l.Owned past

private theorem declared_mono {past later : History} (h : past <:+ later) :
    past.declared ⊆ later.declared := (h.sublist.filterMap _).subset

private theorem made_mono {past later : History} (h : past <:+ later) :
    past.made ⊆ later.made := (h.sublist.filterMap _).subset

private theorem owned_mono {past later : History} (h : past <:+ later) {l : Layer}
    (hl : l.Owned past) : l.Owned later := by
  cases l with
  | block id => exact made_mono h hl
  | parameters id => exact made_mono h hl
  | call f c => exact ⟨declared_mono h hl.1, hl.2⟩

namespace Invariant

variable {past : History}

private theorem start : Invariant [] where
  stack := rfl
  size := Nat.zero_lt_one
  known h := by
    obtain ⟨fn, rfl⟩ := Env.builtin_of_initial h
    exact knows_builtin _ fn
  closure _ h := nomatch h
  nodup := List.nodup_nil
  made _ h := nomatch h
  disjoint _ h := nomatch h
  layers _ h := nomatch h

private theorem put (h : past.Invariant) {event : Event} {id : ScopeId} {x : String} {v : Value}
    (hv : past.Knows v)
    (hl : History.layers (⟨event, past.env.putIn id x v⟩ :: past) = past.layers)
    (hd : declared (⟨event, past.env.putIn id x v⟩ :: past) = past.declared)
    (hm : History.made (⟨event, past.env.putIn id x v⟩ :: past) = past.made) :
    Invariant (⟨event, past.env.putIn id x v⟩ :: past) where
  stack := by rw [hl, env, Env.inner_putIn, h.stack]
  size := by rw [env, Env.size_putIn]; exact h.size
  known hx := by
    rcases Env.get?_scope_putIn hx with rfl | hx
    · exact hv.mono (List.suffix_cons _ _)
    · exact (h.known hx).mono (List.suffix_cons _ _)
  closure := by rw [hd, env, Env.size_putIn]; exact h.closure
  nodup := by rw [hd]; exact h.nodup
  made := by rw [hm, env, Env.size_putIn]; exact h.made
  disjoint := by rw [hd, hm]; exact h.disjoint
  layers := by rw [hl]; exact fun l hl => owned_mono (List.suffix_cons _ _) (h.layers l hl)

private theorem declare (h : past.Invariant) {f : Function}
    (hf : f.closure? = some past.env.snapshot.1) :
    Invariant (⟨.declared f, past.env.snapshot.2⟩ :: past) where
  stack := by
    rw [env, Env.inner_snapshot, h.stack]
    rfl
  size := by rw [env, Env.size_snapshot]; exact Nat.succ_pos _
  known hx := by
    obtain ⟨other, hx⟩ := Env.exists_of_snapshot hx
    exact (h.known hx).mono (List.suffix_cons _ _)
  closure g hg := by
    rw [env, Env.size_snapshot]
    rcases List.mem_cons.1 hg with rfl | hg
    · exact ⟨_, hf, h.size, Nat.lt_succ_self _⟩
    · obtain ⟨c, hc, hpos, hlt⟩ := h.closure g hg
      exact ⟨c, hc, hpos, Nat.lt_succ_of_lt hlt⟩
  nodup := by
    refine List.nodup_cons.2 ⟨fun hmem => ?_, h.nodup⟩
    obtain ⟨g, hg, hgf⟩ := List.mem_map.1 hmem
    obtain ⟨c, hc, -, hlt⟩ := h.closure g hg
    rw [hc, hf, Env.fst_snapshot] at hgf
    exact Nat.ne_of_lt hlt (Option.some.inj hgf)
  made id hid := by
    obtain ⟨hpos, hlt⟩ := h.made id hid
    rw [env, Env.size_snapshot]
    exact ⟨hpos, Nat.lt_succ_of_lt hlt⟩
  disjoint g hg id hid hc := by
    rcases List.mem_cons.1 hg with rfl | hg
    · rw [hf, Env.fst_snapshot] at hc
      exact Nat.ne_of_gt (h.made id hid).2 (Option.some.inj hc)
    · exact h.disjoint g hg id hid hc
  layers l hl := owned_mono (List.suffix_cons _ _) (h.layers l hl)

private theorem openLayer (h : past.Invariant) {l : Layer}
    (hl : l.made? = some past.env.scopes.size) :
    Invariant (⟨.opened l, past.env.push⟩ :: past) := by
  have hscope : l.scope = past.env.scopes.size := by
    cases l <;> simp only [Layer.made?, Option.some.injEq, reduceCtorEq] at hl <;> exact hl
  have hmade : History.made (⟨.opened l, past.env.push⟩ :: past) =
      past.env.scopes.size :: past.made := by
    simp [History.made, hl]
  exact {
    stack := by
      rw [env, Env.inner_push, History.layers, List.map_cons, hscope, h.stack]
    size := by rw [env, Env.size_push]; exact Nat.succ_pos _
    known := fun hx => by
      rw [env, Env.scope_push] at hx
      exact (h.known hx).mono (List.suffix_cons _ _)
    closure := fun g hg => by
      obtain ⟨c, hc, hpos, hlt⟩ := h.closure g hg
      rw [env, Env.size_push]
      exact ⟨c, hc, hpos, Nat.lt_succ_of_lt hlt⟩
    nodup := h.nodup
    made := fun id hid => by
      rw [hmade] at hid
      rw [env, Env.size_push]
      rcases List.mem_cons.1 hid with rfl | hid
      · exact ⟨h.size, Nat.lt_succ_self _⟩
      · exact ⟨(h.made id hid).1, Nat.lt_succ_of_lt (h.made id hid).2⟩
    disjoint := fun g hg id hid hc => by
      rw [hmade] at hid
      rcases List.mem_cons.1 hid with rfl | hid
      · obtain ⟨c, hc', -, hlt⟩ := h.closure g hg
        rw [hc] at hc'
        exact Nat.ne_of_gt hlt (Option.some.inj hc')
      · exact h.disjoint g hg id hid hc
    layers := fun l' hl' => by
      rcases List.mem_cons.1 hl' with rfl | hl'
      · have howned : past.env.scopes.size ∈
            History.made (⟨.opened l', past.env.push⟩ :: past) := by
          rw [hmade]
          exact List.mem_cons_self
        cases l' with
        | block id => exact Option.some.inj hl ▸ howned
        | parameters id => exact Option.some.inj hl ▸ howned
        | call f c => simp [Layer.made?] at hl
      · exact owned_mono (List.suffix_cons _ _) (h.layers l' hl') }

private theorem beginCall (h : past.Invariant) {f : Function} {c : ScopeId} (hf : f ∈ past.declared)
    (hc : f.closure? = some c) :
    Invariant (⟨.opened (.call f c), past.env.pushShared c⟩ :: past) where
  stack := by
    rw [env, Env.inner_pushShared, History.layers, List.map_cons, h.stack]
    rfl
  size := h.size
  known hx := (h.known hx).mono (List.suffix_cons _ _)
  closure := h.closure
  nodup := h.nodup
  made := h.made
  disjoint := h.disjoint
  layers l hl := by
    rcases List.mem_cons.1 hl with rfl | hl
    · exact ⟨hf, hc⟩
    · exact owned_mono (List.suffix_cons _ _) (h.layers l hl)

private theorem close (h : past.Invariant) {l : Layer} :
    Invariant (⟨.closed l, ⟨past.env.scopes, past.env.inner.tail⟩⟩ :: past) where
  stack := by
    rw [History.layers, List.map_tail, ← h.stack]
    rfl
  size := h.size
  known hx := (h.known hx).mono (List.suffix_cons _ _)
  closure := h.closure
  nodup := h.nodup
  made := h.made
  disjoint := h.disjoint
  layers l hl := owned_mono (List.suffix_cons _ _) (h.layers l (List.mem_of_mem_tail hl))

end Invariant

/-- Valid histories keep the invariant. -/
theorem Valid.invariant {past : History} (h : past.Valid) : past.Invariant := by
  induction h with
  | start => exact .start
  | step _ he ih =>
    cases he with
    | bound hv => exact ih.put hv rfl rfl rfl
    | assigned hv _ => exact ih.put hv rfl rfl rfl
    | declared hf => exact ih.declare hf
    | opened hl => exact ih.openLayer hl
    | begun hf hc => exact ih.beginCall hf hc
    | closed _ => exact ih.close

/-- What holds after every valid history held at every moment of one. -/
theorem Valid.always {P : History → Prop} (hP : ∀ {past : History}, past.Valid → P past)
    {past : History} (h : past.Valid) : past.Always P := by
  induction h with
  | start =>
    intro earlier hsub
    rw [List.suffix_nil.1 hsub]
    exact hP .start
  | step h he ih =>
    intro earlier hsub
    rcases List.suffix_cons_iff.1 hsub with rfl | hsub
    · exact hP (.step h he)
    · exact ih earlier hsub

/-- Up to each of its moments a valid history is valid. -/
theorem Valid.suffix {earlier past : History} (h : past.Valid) (hsub : earlier <:+ past) :
    earlier.Valid := h.always (fun h => h) earlier hsub

/-- The functions whose calls are running were declared. -/
theorem Invariant.declared_of_active {past : History} (h : past.Invariant) {f : Function}
    (hf : f ∈ past.active) : f ∈ past.declared := by
  obtain ⟨l, hl, hlf⟩ := List.mem_filterMap.1 hf
  cases l with
  | block _ => exact nomatch hlf
  | parameters _ => exact nomatch hlf
  | call g c =>
    obtain rfl := Option.some.inj hlf
    exact (h.layers _ hl).1

/-- A captured scope belongs to one function value. -/
theorem Invariant.closure_inj {past : History} (h : past.Invariant) {f g : Function}
    (hf : f ∈ past.declared) (hg : g ∈ past.declared) (hfg : f.closure? = g.closure?) : f = g :=
  List.inj_on_of_nodup_map h.nodup hf hg hfg

/-- A layer lies on the stack for a captured scope exactly if it is a call of its function. -/
theorem Invariant.scope_eq_iff {past : History} (h : past.Invariant) {f : Function} {c : ScopeId}
    (hf : f ∈ past.declared) (hc : f.closure? = some c) {l : Layer} (hl : l.Owned past) :
    l.scope = c ↔ l.callee? = some f := by
  have hmade : ∀ id ∈ past.made, id ≠ c := fun id hid heq => h.disjoint f hf id hid (heq ▸ hc)
  cases l with
  | block id => exact ⟨fun heq => (hmade id hl heq).elim, fun hcallee => nomatch hcallee⟩
  | parameters id => exact ⟨fun heq => (hmade id hl heq).elim, fun hcallee => nomatch hcallee⟩
  | call g d =>
    constructor
    · intro hdc
      exact congrArg some (h.closure_inj hl.1 hf (hl.2.trans ((congrArg some hdc).trans hc.symm)))
    · intro hgf
      obtain rfl := Option.some.inj hgf
      exact Option.some.inj (hl.2.symm.trans hc)

open Classical in
private theorem Invariant.count_layers {past : History} (h : past.Invariant) {f : Function}
    {c : ScopeId} (hf : f ∈ past.declared) (hc : f.closure? = some c) (ls : List Layer)
    (hls : ∀ l ∈ ls, l.Owned past) :
    (ls.map Layer.scope).count c = (ls.filterMap Layer.callee?).countP fun g => g = f := by
  induction ls with
  | nil => rfl
  | cons l ls ih =>
    obtain ⟨hl, hls⟩ := List.forall_mem_cons.1 hls
    have hiff := h.scope_eq_iff hf hc hl
    rw [List.map_cons, List.count_cons, ih hls, List.filterMap_cons]
    cases hcallee : l.callee? with
    | none =>
      rw [hcallee] at hiff
      simp [hiff]
    | some g =>
      rw [hcallee, Option.some.injEq] at hiff
      simp [hiff, List.countP_cons]

open Classical in
/-- A captured scope lies on the stack once for each running call of its function. -/
theorem Invariant.count_stack {past : History} (h : past.Invariant) {f : Function} {c : ScopeId}
    (hf : f ∈ past.declared) (hc : f.closure? = some c) :
    past.env.stack.count c = past.activeCalls f := by
  obtain ⟨d, hd, hpos, -⟩ := h.closure f hf
  obtain rfl := Option.some.inj (hc.symm.trans hd)
  have hglobal : Env.global ≠ c := Nat.ne_of_lt hpos
  rw [Env.stack, List.count_append, List.count_singleton, h.stack,
    h.count_layers hf hc _ h.layers]
  simp [hglobal, activeCalls, active]

/-- A scope that lies on the stack and was captured has a running call. -/
theorem Invariant.active_of_mem_stack {past : History} (h : past.Invariant) {f : Function}
    {c : ScopeId} (hf : f ∈ past.declared) (hc : f.closure? = some c) (hmem : c ∈ past.env.stack) :
    f ∈ past.active := by
  have hpos := List.count_pos_iff.2 hmem
  rw [h.count_stack hf hc, activeCalls, List.countP_pos_iff] at hpos
  obtain ⟨g, hg, hgf⟩ := hpos
  obtain rfl : g = f := by simpa using hgf
  exact hg

private theorem not_active_step {past : History} {m : Moment} {f : Function}
    (h : f ∉ past.active) (hm : ∀ c, m.event ≠ .opened (.call f c)) :
    f ∉ active (m :: past) := by
  obtain ⟨event, e⟩ := m
  intro hf
  obtain ⟨l, hl, hlf⟩ := List.mem_filterMap.1 hf
  cases event with
  | opened l' =>
    rcases List.mem_cons.1 hl with rfl | hl
    · cases l with
      | block _ => exact nomatch hlf
      | parameters _ => exact nomatch hlf
      | call g c =>
        obtain rfl := Option.some.inj hlf
        exact hm c rfl
    · exact h (List.mem_filterMap.2 ⟨l, hl, hlf⟩)
  | closed l' => exact h (List.mem_filterMap.2 ⟨l, List.mem_of_mem_tail hl, hlf⟩)
  | bound x v => exact h (List.mem_filterMap.2 ⟨l, hl, hlf⟩)
  | assigned x v => exact h (List.mem_filterMap.2 ⟨l, hl, hlf⟩)
  | declared g => exact h (List.mem_filterMap.2 ⟨l, hl, hlf⟩)

private theorem scope_step {past : History} {event : Event} {e : Env} {f : Function} {c : ScopeId}
    (h : past.Invariant) (he : event.Leads past e) (hf : f ∈ past.declared)
    (hc : f.closure? = some c) (hactive : f ∉ past.active) :
    e.scope c = past.env.scope c := by
  have hstack : c ∉ past.env.stack := fun hmem =>
    hactive (h.active_of_mem_stack hf hc hmem)
  cases he with
  | bound _ =>
    refine Env.scope_putIn_of_ne (fun hct => hstack ?_) _ _
    rw [hct, Env.stack, Env.top]
    cases past.env.inner with
    | nil => exact List.mem_cons_self
    | cons id inner => exact List.mem_cons_self
  | assigned _ hx =>
    refine Env.scope_putIn_of_ne (fun hcx => hstack ?_) _ _
    rw [hcx]
    exact Env.owner?_mem hx
  | declared _ =>
    obtain ⟨d, hd, -, hlt⟩ := h.closure f hf
    obtain rfl := Option.some.inj (hc.symm.trans hd)
    exact Env.scope_snapshot_of_lt hlt
  | opened _ => exact Env.scope_push _ _
  | begun _ _ => rfl
  | closed _ => rfl

private theorem scope_during {earlier : History} {f : Function} {c : ScopeId}
    (during : History) (h : Valid (during ++ earlier)) (hf : f ∈ earlier.declared)
    (hc : f.closure? = some c) (hactive : f ∉ earlier.active) (hcalls : ¬ during.calls f) :
    (env (during ++ earlier)).scope c = earlier.env.scope c ∧
      f ∉ active (during ++ earlier) := by
  induction during with
  | nil => exact ⟨rfl, hactive⟩
  | cons m during ih =>
    cases h with
    | step hpast he =>
      have hcalls' : ¬ calls during f := fun ⟨m', hm', hcall⟩ =>
        hcalls ⟨m', List.mem_cons_of_mem _ hm', hcall⟩
      obtain ⟨hscope, hidle⟩ := ih hpast hcalls'
      have hdecl := declared_mono (List.suffix_append during earlier) hf
      refine ⟨(scope_step hpast.invariant he hdecl hc hidle).trans hscope, ?_⟩
      exact not_active_step hidle fun d hd => hcalls ⟨_, List.mem_cons_self, d, hd⟩

/-- How the captured scopes stand at a moment of a run. -/
structure Separated (past : History) : Prop where
  /-- Each function value that is bound somewhere, with captured variables, was declared. -/
  bound : ∀ id x f c, (past.env.scope id).get? x = some (.func f) → f.closure? = some c →
    f ∈ past.declared
  /-- So was each that is being called. -/
  running : ∀ f ∈ past.active, f ∈ past.declared
  /-- A captured scope is neither the global one nor that of a block or of parameters. -/
  apart : ∀ f ∈ past.declared, ∃ c, f.closure? = some c ∧ c ≠ Env.global ∧ c ∉ past.made
  /-- No two executions of declarations share a captured scope. -/
  distinct : (past.declared.map Function.closure?).Nodup
  /-- It lies on the stack once for each running call. -/
  count : ∀ f ∈ past.declared, ∀ c, f.closure? = some c →
    past.env.stack.count c = past.activeCalls f
  /-- It is as it was at an earlier moment, if its function was not running then and was not
  called since. -/
  idle : ∀ during earlier : History, past = during ++ earlier → ∀ f ∈ earlier.declared,
    f ∉ earlier.active → ¬ calls during f → ∀ c, f.closure? = some c →
    past.env.scope c = earlier.env.scope c
  /-- An assignment, in a call, to a variable that is found in the scope that the function has
  captured changes no other scope. -/
  assigned : ∀ x v e (earlier : History), past = ⟨.assigned x v, e⟩ :: earlier →
    ∀ f ∈ earlier.active, ∀ c, f.closure? = some c → earlier.env.owner? x = some c →
    ∀ id, id ≠ c → past.env.scope id = earlier.env.scope id

/-- Closures are separate at the end of a valid history. -/
theorem Valid.separated {past : History} (h : past.Valid) : past.Separated where
  bound _ _ _ c hx hc := h.invariant.known hx _ c rfl hc
  running _ hf := h.invariant.declared_of_active hf
  apart f hf := by
    obtain ⟨c, hc, hpos, -⟩ := h.invariant.closure f hf
    refine ⟨c, hc, Nat.ne_of_gt hpos, fun hmade => ?_⟩
    exact h.invariant.disjoint f hf c hmade hc
  distinct := h.invariant.nodup
  count _ hf _ hc := h.invariant.count_stack hf hc
  idle during earlier hpast f hf hactive hcalls c hc := by
    subst hpast
    exact (scope_during during h hf hc hactive hcalls).1
  assigned x v e earlier hpast f _ c _ howner id hid := by
    subst hpast
    cases h with
    | step _ he =>
      cases he with
      | assigned _ hx =>
        obtain rfl := Option.some.inj (hx.symm.trans howner)
        exact Env.scope_putIn_of_ne hid x v

end History

/-- What an evaluation keeps: its history goes on from what it was, and ends with the same layers
open. -/
def Run.Continues (r s : Run) : Prop :=
  r.past <:+ s.past ∧ s.past.layers = r.past.layers ∧ s.env.inner = r.env.inner

/-- The history of a run is valid and leads to the environment of the run. -/
def Run.Faithful (r : Run) : Prop := r.past.Valid ∧ r.past.env = r.env

namespace Run

private theorem Continues.refl (r : Run) : r.Continues r := ⟨List.suffix_refl _, rfl, rfl⟩

private theorem Continues.trans {r s t : Run} (h : r.Continues s) (h' : s.Continues t) :
    r.Continues t :=
  ⟨h.1.trans h'.1, h'.2.1.trans h.2.1, h'.2.2.trans h.2.2⟩

private theorem Continues.step {r : Run} {event : Event} {e : Env}
    (hl : History.layers (⟨event, e⟩ :: r.past) = r.past.layers) (he : e.inner = r.env.inner) :
    r.Continues (r.step event e) := ⟨List.suffix_cons _ _, hl, he⟩

private theorem Faithful.step {r : Run} {event : Event} {e : Env} (h : r.Faithful)
    (he : event.Leads r.past e) : (r.step event e).Faithful := ⟨.step h.1 he, rfl⟩

private theorem Faithful.close {r s : Run} {l : Layer} {e : Env} {id : ScopeId}
    (hinner : e.inner = id :: r.env.inner) (hrs : (r.step (.opened l) e).Continues s)
    (hs : s.Faithful) :
    (s.step (.closed l) ⟨s.env.scopes, r.env.inner⟩).Faithful ∧
      r.Continues (s.step (.closed l) ⟨s.env.scopes, r.env.inner⟩) := by
  obtain ⟨hsub, hlayers, hstack⟩ := hrs
  have hopen : s.past.layers = l :: r.past.layers := hlayers
  have htail : s.past.env.inner.tail = r.env.inner := by
    rw [hs.2, hstack, env_step, hinner, List.tail_cons]
  have hleads : (Event.closed l).Leads s.past ⟨s.env.scopes, r.env.inner⟩ := by
    rw [← htail, ← hs.2]
    exact .closed hopen
  refine ⟨hs.step hleads, ?_, ?_, rfl⟩
  · exact ((List.suffix_cons _ _).trans hsub).trans (List.suffix_cons _ _)
  · rw [past_step, History.layers, hopen, List.tail_cons]

end Run

/-- Runs write valid histories. -/
def Discipline.history : Discipline where
  holds := Run.Faithful
  outer := Run.Continues
  inner := Run.Continues
  known r v := r.past.Knows v
  holes := True
  known_complete _ := .inl trivial
  outer_refl := Run.Continues.refl
  outer_trans := Run.Continues.trans
  inner_of_outer h := h
  inner_trans := Run.Continues.trans
  stack h := h.2.2
  known_mono h hv := hv.mono h.1
  known_step _ _ hv := hv.mono (List.suffix_cons _ _)
  known_atom r _ hv := History.knows_atom r.past hv
  known_builtin r fn := History.knows_builtin r.past fn
  known_get {r x v} h hx := by
    obtain ⟨id, hid⟩ := Env.exists_of_get? hx
    rw [← h.2] at hid
    exact h.1.invariant.known hid
  shown {r s} h henv hpast := by
    refine ⟨⟨hpast ▸ h.1, ?_⟩, ?_, ?_, ?_⟩
    · rw [hpast, henv, h.2]
    · exact hpast ▸ List.suffix_refl _
    · rw [hpast]
    · rw [henv]
  bound {r x v} h hv := by
    refine ⟨h.step ?_, .step rfl rfl⟩
    rw [← h.2]
    exact .bound hv
  assigned {r x v id} h hv hx := by
    refine ⟨h.step ?_, .step rfl rfl⟩
    rw [← h.2] at hx ⊢
    exact .assigned hv hx
  declared {r f} h _ hf := by
    refine ⟨h.step ?_, .step rfl rfl, ?_⟩
    · rw [← h.2] at hf ⊢
      exact .declared hf
    · rintro g c hg -
      obtain rfl := Value.func.inj hg
      exact List.mem_cons_self
  opened {r l} h hl := by
    refine h.step ?_
    rw [← h.2] at hl ⊢
    exact .opened hl
  closed _ _ _ hrs hs := hs.close (Env.inner_push _) hrs
  begun {r f c} h hc hf := by
    refine h.step ?_
    rw [← h.2]
    exact .begun (hf f c rfl hc) hc
  ended _ _ _ hrs hs := hs.close (Env.inner_pushShared _ _) hrs

/-- What programs keep that obey a discipline, a program keeps, whatever becomes of it. -/
theorem Program.kept_record {D : Discipline} (hholes : D.holes) {P : Run → Prop}
    (hholds : ∀ {r}, P r → D.holds r) (hinner : ∀ {r s}, P r → D.inner r s → D.holds s → P s)
    (limits : Limits) (tracing : Bool) (p : Program) {r : Run} (h : P r) :
    P (endState (p.record limits tracing r)) := by
  have hend := D.ends_program limits tracing (p := p) (.inl hholes) (hholds h)
  cases hres : p.record limits tracing r with
  | ok flow s =>
    rw [hres] at hend
    exact hinner h hend.2.1 hend.1
  | error stop s =>
    rw [hres] at hend
    exact hinner h hend.2.1 hend.1

namespace Source

/-- What programs keep that obey a discipline, units keep, whatever becomes of them. -/
theorem kept_record {D : Discipline} (hholes : D.holes) {P : Run → Prop}
    (hholds : ∀ {r}, P r → D.holds r)
    (hshown : ∀ {r : Run} {w : World}, w.env = r.env → P r → P ⟨w, r.past⟩)
    (hinner : ∀ {r s}, P r → D.inner r s → D.holds s → P s) (limits : Limits) (job : Job) {r : Run}
    (h : P r) : P (endState (record limits job r)) := by
  have henv := env_prepare job r.world
  simp only [record]
  cases hp : prepare job r.world with
  | error failure w =>
    rw [hp] at henv
    exact hshown henv h
  | ok p w =>
    rw [hp] at henv
    have hr : P ⟨w, r.past⟩ := hshown henv h
    have hkept := p.kept_record hholes hholds hinner limits job.flags.tracing hr
    simp only
    cases hres : p.record limits job.flags.tracing ⟨w, r.past⟩ with
    | ok flow s | error stop s =>
      rw [hres] at hkept
      exact hkept

/-- A unit keeps a run faithful, whatever becomes of it. -/
theorem faithful_record (limits : Limits) (job : Job) {r : Run} (h : r.Faithful) :
    (endState (record limits job r)).Faithful :=
  kept_record (D := .history) trivial id (fun henv h => ⟨h.1, h.2.trans henv.symm⟩)
    (fun _ _ hs => hs) limits job h

/-- Units keep a run faithful. -/
theorem faithful_recordAll (limits : Limits) (jobs : List Job) {r : Run} (h : r.Faithful) :
    (recordAll limits jobs r).Faithful := by
  induction jobs generalizing r with
  | nil => exact h
  | cons job jobs ih => exact ih (faithful_record limits job h)

/-- The recorded run of units is their run, its history ends in the environment of the run, and what
holds at the end of every valid history holds at every moment of it. -/
theorem always_recordAll {P : History → Prop} (hP : ∀ {past : History}, past.Valid → P past)
    (limits : Limits) (jobs : List Job) :
    (recordAll limits jobs .start).world = execAll limits jobs .start ∧
      (recordAll limits jobs .start).past.env = (execAll limits jobs .start).env ∧
      (recordAll limits jobs .start).past.Always P := by
  have hworld := world_recordAll limits jobs .start
  have h := faithful_recordAll limits jobs (r := .start) ⟨.start, rfl⟩
  refine ⟨hworld, ?_, h.1.always hP⟩
  rw [h.2, Run.env, hworld]
  rfl

end Source

/-- At every moment of every run of units on one interpreter closures are separate: no two function
values share a captured scope, it is no other scope either, it lies on the stack once for each
running call, and only calls of its function change it. -/
theorem closures_separated (limits : Limits) (jobs : List Source.Job) :
    (Source.recordAll limits jobs .start).world = Source.execAll limits jobs .start ∧
      (Source.recordAll limits jobs .start).past.env =
        (Source.execAll limits jobs .start).env ∧
      (Source.recordAll limits jobs .start).past.Always History.Separated := by
  have hworld := Source.world_recordAll limits jobs .start
  have h := Source.faithful_recordAll limits jobs (r := .start) ⟨.start, rfl⟩
  refine ⟨hworld, ?_, h.1.always History.Valid.separated⟩
  rw [h.2, Run.env, hworld]
  rfl

end Lox
