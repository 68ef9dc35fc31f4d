import Lox.Proofs.Separation

/-!
# References to scopes

The stack and the functions that scopes hold refer to scopes by their identities. Every scope that
is referred to exists, at every moment of every run; and wherever that is so, whatever is evaluated
keeps it so.
-/

namespace Lox

/-- Whether the scope of a function exists, if it has one, where there are `size` scopes. -/
def Value.RefersBelow (size : Nat) (v : Value) : Prop :=
  ∀ f c, v = .func f → f.closure? = some c → c < size

/-- Every scope that is referred to exists, from the stack or by a function in a scope. -/
structure Env.Sound (e : Env) : Prop where
  wf : e.WF
  refers : ∀ id, ∀ b ∈ e.scope id, b.2.RefersBelow e.scopes.size

/-- What stands in a scope after a name was bound is the new binding, or stood there before. -/
theorem Scope.mem_put {x : String} {v : Value} {s : Scope} {b : String × Value}
    (h : b ∈ s.put x v) : b.2 = v ∨ b ∈ s := by
  induction s with
  | nil =>
    rw [put, List.mem_singleton] at h
    exact .inl (congrArg Prod.snd h)
  | cons a s ih =>
    rw [put] at h
    split at h
    · rcases List.mem_cons.1 h with rfl | h
      · exact .inl rfl
      · exact .inr (List.mem_cons_of_mem _ h)
    · rcases List.mem_cons.1 h with rfl | h
      · exact .inr List.mem_cons_self
      · exact (ih h).imp_right (List.mem_cons_of_mem _)

namespace Env

/-- What stands in a scope after a name was bound somewhere is the new binding, or stood there
before. -/
theorem mem_scope_putIn {e : Env} {id other : ScopeId} {x : String} {v : Value}
    {b : String × Value} (h : b ∈ (e.putIn id x v).scope other) : b.2 = v ∨ b ∈ e.scope other := by
  by_cases hid : other = id
  · subst hid
    by_cases hlt : other < e.scopes.size
    · rw [scope_putIn_self hlt] at h
      exact Scope.mem_put h
    · rw [scope_of_size_le (by rw [size_putIn]; exact Nat.le_of_not_lt hlt)] at h
      exact (List.not_mem_nil h).elim
  · rw [scope_putIn_of_ne hid] at h
    exact .inr h

/-- What stands in a scope after a copy was made stood in one before. -/
theorem exists_mem_of_snapshot {e : Env} {id : ScopeId} {b : String × Value}
    (h : b ∈ e.snapshot.2.scope id) : ∃ other, b ∈ e.scope other := by
  by_cases hid : id = e.scopes.size
  · subst hid
    exact ⟨e.top, scope_snapshot_self e ▸ h⟩
  · exact ⟨id, scope_snapshot_of_ne hid ▸ h⟩

end Env

/-! ### Whatever is evaluated -/

/-- Where there were `size` scopes at the beginning: a function has a scope that was there then, or
a declaration has made it since. -/
def Run.Made (size : Nat) (r : Run) (v : Value) : Prop :=
  ∀ f c, v = .func f → f.closure? = some c → c < size ∨ f ∈ r.past.declared

/-- Every scope that is referred to exists, and functions come from the beginning or from
declarations. -/
structure Run.Refers (size : Nat) (r : Run) : Prop where
  wf : r.env.WF
  least : size ≤ r.env.scopes.size
  declared : ∀ f ∈ r.past.declared, ∀ c, f.closure? = some c → c < r.env.scopes.size
  made : ∀ id, ∀ b ∈ r.env.scope id, r.Made size b.2

/-- The same scopes lie on the stack, and none is lost; nor is it forgotten what was declared. -/
structure Run.Extends (r s : Run) : Prop where
  inner : s.env.inner = r.env.inner
  size : r.env.scopes.size ≤ s.env.scopes.size
  declared : r.past.declared ⊆ s.past.declared

namespace Run

variable {size : Nat} {r s t : Run}

private theorem Extends.refl (r : Run) : r.Extends r :=
  ⟨rfl, Nat.le_refl _, List.Subset.refl _⟩

private theorem Extends.trans (h : r.Extends s) (h' : s.Extends t) : r.Extends t :=
  ⟨h'.inner.trans h.inner, Nat.le_trans h.size h'.size, List.Subset.trans h.declared h'.declared⟩

private theorem declared_step (r : Run) (event : Event) (e : Env) :
    r.past.declared ⊆ (r.step event e).past.declared :=
  ((List.suffix_cons _ _).sublist.filterMap _).subset

private theorem Made.mono {v : Value} (h : r.Made size v)
    (hsub : r.past.declared ⊆ s.past.declared) : s.Made size v :=
  fun f c hf hc => (h f c hf hc).imp_right (hsub ·)

private theorem Refers.refersBelow (h : r.Refers size) {v : Value} (hv : r.Made size v) :
    v.RefersBelow r.env.scopes.size := by
  intro f c hf hc
  rcases hv f c hf hc with hlt | hdecl
  · exact Nat.lt_of_lt_of_le hlt h.least
  · exact h.declared f hdecl c hc

private theorem Refers.step (h : r.Refers size) {event : Event} {e : Env} (hwf : e.WF)
    (hsize : r.env.scopes.size ≤ e.scopes.size)
    (hdecl : ∀ f ∈ (r.step event e).past.declared,
      f ∈ r.past.declared ∨ ∀ c, f.closure? = some c → c < e.scopes.size)
    (hmade : ∀ id, ∀ b ∈ e.scope id, r.Made size b.2) : (r.step event e).Refers size where
  wf := hwf
  least := Nat.le_trans h.least hsize
  declared f hf c hc := by
    rcases hdecl f hf with hold | hnew
    · exact Nat.lt_of_lt_of_le (h.declared f hold c hc) hsize
    · exact hnew c hc
  made id b hb := (hmade id b hb).mono (r.declared_step event e)

private theorem Refers.putIn (h : r.Refers size) {v : Value} (hv : r.Made size v) (id : ScopeId)
    (x : String) {event : Event}
    (hdecl : (r.step event (r.env.putIn id x v)).past.declared = r.past.declared) :
    (r.step event (r.env.putIn id x v)).Refers size ∧
      r.Extends (r.step event (r.env.putIn id x v)) := by
  have hsize : r.env.scopes.size ≤ (r.env.putIn id x v).scopes.size :=
    Nat.le_of_eq (Env.size_putIn ..).symm
  refine ⟨h.step (h.wf.putIn id x v) hsize (fun f hf => .inl (hdecl ▸ hf)) fun other b hb => ?_,
    rfl, hsize, declared_step ..⟩
  rcases Env.mem_scope_putIn hb with hnew | hold
  · exact hnew ▸ hv
  · exact h.made other b hold

private theorem Refers.declare (h : r.Refers size) {f : Function}
    (hf : f.closure? = some r.env.snapshot.1) :
    (r.step (.declared f) r.env.snapshot.2).Refers size ∧
      r.Extends (r.step (.declared f) r.env.snapshot.2) := by
  have hsize : r.env.scopes.size ≤ r.env.snapshot.2.scopes.size := by
    rw [Env.size_snapshot]
    exact Nat.le_succ _
  refine ⟨h.step h.wf.snapshot.1 hsize (fun g hg => ?_) fun id b hb => ?_,
    rfl, hsize, declared_step ..⟩
  · rcases List.mem_cons.1 hg with rfl | hg
    · refine .inr fun c hc => ?_
      obtain rfl := Option.some.inj (hc.symm.trans hf)
      rw [Env.size_snapshot]
      exact Nat.lt_succ_self _
    · exact .inl hg
  · obtain ⟨other, hold⟩ := Env.exists_mem_of_snapshot hb
    exact h.made other b hold

private theorem Refers.open (h : r.Refers size) (l : Layer) :
    (r.step (.opened l) r.env.push).Refers size := by
  refine h.step (h.wf.pushCopy []) ?_ (fun f hf => .inl hf) fun id b hb => ?_
  · rw [Env.size_push]
    exact Nat.le_succ _
  · rw [Env.scope_push] at hb
    exact h.made id b hb

private theorem Refers.begin (h : r.Refers size) {f : Function} {c : ScopeId}
    (hc : f.closure? = some c) (hf : r.Made size (.func f)) :
    (r.step (.opened (.call f c)) (r.env.pushShared c)).Refers size :=
  h.step (h.wf.pushShared (h.refersBelow hf f c rfl hc)) (Nat.le_refl _) (fun _ hf => .inl hf)
    h.made

private theorem Refers.close (h : s.Refers size) (hr : r.Refers size) {e : Env} (l : Layer)
    (he : r.env.scopes.size ≤ e.scopes.size) (hrs : (r.step (.opened l) e).Extends s) :
    (s.step (.closed l) ⟨s.env.scopes, r.env.inner⟩).Refers size ∧
      r.Extends (s.step (.closed l) ⟨s.env.scopes, r.env.inner⟩) := by
  have hsize : r.env.scopes.size ≤ s.env.scopes.size := Nat.le_trans he hrs.size
  refine ⟨h.step ?_ (Nat.le_refl _) (fun f hf => .inl hf) h.made, rfl, hsize, hrs.declared⟩
  exact ⟨h.wf.1, fun id hid => Nat.lt_of_lt_of_le (hr.wf.2 id hid) hsize⟩

end Run

/-- Runs keep every scope that is referred to. -/
def Discipline.references (size : Nat) : Discipline where
  holds := Run.Refers size
  outer := Run.Extends
  inner := Run.Extends
  known := Run.Made size
  holes := True
  outer_refl := Run.Extends.refl
  outer_trans := Run.Extends.trans
  inner_of_outer h := h
  inner_trans := Run.Extends.trans
  stack h := h.inner
  known_mono h hv := hv.mono h.declared
  known_step {r _} event e hv := hv.mono (r.declared_step event e)
  known_atom _ v hv f c hf := by
    subst hf
    cases hv
  known_builtin r fn f c hf hc := by
    obtain rfl := Value.func.inj hf
    cases hc
  known_get {r x v} h hx := by
    obtain ⟨id, hid⟩ := Env.exists_of_get? hx
    obtain ⟨before, after, hscope, -⟩ := List.lookup_eq_some_iff.1 hid
    exact h.made id (x, v) (hscope ▸ List.mem_append_right _ List.mem_cons_self)
  known_complete _ := .inl trivial
  shown {r s} h henv hpast := by
    obtain ⟨⟨e, printed, trace⟩, past⟩ := s
    obtain rfl : e = r.env := henv
    obtain rfl : past = r.past := hpast
    exact ⟨⟨h.wf, h.least, h.declared, h.made⟩, rfl, Nat.le_refl _, List.Subset.refl _⟩
  bound h hv := h.putIn hv _ _ rfl
  assigned h hv _ := h.putIn hv _ _ rfl
  declared {r f} h _ hf := by
    refine ⟨(h.declare hf).1, (h.declare hf).2, fun g c hg hc => .inr ?_⟩
    exact Value.func.inj hg ▸ List.mem_cons_self
  opened h _ := h.open _
  closed {_ _ l} h _ _ hrs hs := hs.close h l (by rw [Env.size_push]; exact Nat.le_succ _) hrs
  begun h hc hf := h.begin hc hf
  ended {r _ f c} h _ _ hrs hs :=
    hs.close (e := r.env.pushShared c) h (.call f c) (Nat.le_refl _) hrs

/-- An evaluation that began in the world `w` has kept every scope that is referred to, it has lost
none, and the stack is as it was. -/
structure Keeping (w w' : World) : Prop where
  sound : w'.env.Sound
  size : w.env.scopes.size ≤ w'.env.scopes.size
  inner : w'.env.inner = w.env.inner

private theorem keeping_forget {α : Type} {P : α → Run → Prop} {size : Nat} {r : Run}
    {res : EStateM.Result Stop Run α}
    (h : (Discipline.references size).Ends Run.Extends P r res) :
    Keeping r.world (endState (Recorded.forget res)) := by
  have hends : (endState res).Refers size ∧ r.Extends (endState res) := by
    cases res with
    | ok a s => exact ⟨h.1, h.2.1⟩
    | error stop s => exact ⟨h.1, h.2.1⟩
  obtain ⟨hrefers, hextends⟩ := hends
  have hworld : endState (Recorded.forget res) = (endState res).world := by cases res <;> rfl
  rw [hworld]
  exact ⟨⟨hrefers.wf, fun id b hb => hrefers.refersBelow (hrefers.made id b hb)⟩, hextends.size,
    hextends.inner⟩

private theorem Run.refers_start {w : World} (h : w.env.Sound) :
    Run.Refers w.env.scopes.size ⟨w, []⟩ :=
  ⟨h.wf, Nat.le_refl _, fun _ hf => (List.not_mem_nil hf).elim,
    fun id b hb f c hf hc => .inl (h.refers id b hb f c hf hc)⟩

section Kinds

variable (limits : Limits) (tracing : Bool) {w : World} (hw : w.env.Sound)

include hw

/-- Expressions keep every scope that is referred to. -/
theorem Expr.keeping_eval (e : Expr) :
    Keeping w (endState (e.eval (.ofCalls limits.rounds tracing limits.calls) w)) := by
  rw [Expr.eval_eq_forget limits tracing ⟨w, []⟩]
  exact keeping_forget (r := ⟨w, []⟩) (Discipline.ends_expr
    (Discipline.calls_call limits tracing) e (.inl trivial) (Run.refers_start hw))

/-- Blocks keep every scope that is referred to. -/
theorem Block.keeping_exec (body : Block) :
    Keeping w (endState (body.exec (.ofCalls limits.rounds tracing limits.calls) w)) := by
  rw [Block.exec_eq_forget limits tracing ⟨w, []⟩]
  exact keeping_forget (r := ⟨w, []⟩) (Discipline.ends_body limits tracing (.inl trivial)
    (Run.refers_start hw))

/-- Statements one after the other keep every scope that is referred to. -/
theorem Program.keeping_exec (p : Program) : Keeping w (endState (p.exec limits tracing w)) := by
  rw [Program.exec_eq_forget limits tracing ⟨w, []⟩]
  exact keeping_forget (r := ⟨w, []⟩) (Discipline.ends_program limits tracing (.inl trivial)
    (Run.refers_start hw))

end Kinds

/-! ### Every moment of a run -/

namespace History

private theorem Invariant.refersBelow {past : History} (h : past.Invariant) {v : Value}
    (hv : past.Knows v) : v.RefersBelow past.env.scopes.size := by
  intro f c hf hc
  obtain ⟨c', hc', -, hlt⟩ := h.closure f (hv f c hf hc)
  obtain rfl := Option.some.inj (hc.symm.trans hc')
  exact hlt

private theorem sound_initial : Env.initial.Sound := by
  refine ⟨⟨Nat.zero_lt_one, fun id hid => (List.not_mem_nil hid).elim⟩, fun id b hb => ?_⟩
  cases id with
  | zero =>
    change b ∈ [("abs", .func (.builtin .abs)), ("min", .func (.builtin .min)),
      ("max", .func (.builtin .max))] at hb
    simp only [List.mem_cons, List.not_mem_nil, or_false] at hb
    rintro f c hf hc
    rcases hb with rfl | rfl | rfl <;> cases hf <;> cases hc
  | succ id =>
    rw [Env.scope_of_size_le (by rw [Env.size_initial]; exact Nat.succ_le_succ id.zero_le)] at hb
    exact (List.not_mem_nil hb).elim

private theorem sound_leads {past : History} {event : Event} {e : Env} (h : past.Invariant)
    (hsound : past.env.Sound) (he : event.Leads past e) : e.Sound := by
  have hput {v : Value} (hv : past.Knows v) (id : ScopeId) (x : String) :
      (past.env.putIn id x v).Sound := by
    refine ⟨hsound.wf.putIn id x v, fun other b hb => ?_⟩
    rw [Env.size_putIn]
    rcases Env.mem_scope_putIn hb with hnew | hold
    · exact hnew ▸ h.refersBelow hv
    · exact hsound.refers other b hold
  have hlater {v : Value} (hv : v.RefersBelow past.env.scopes.size) :
      v.RefersBelow (past.env.scopes.size + 1) :=
    fun f c hf hc => Nat.lt_succ_of_lt (hv f c hf hc)
  cases he with
  | bound hv => exact hput hv _ _
  | assigned hv _ => exact hput hv _ _
  | declared _ =>
    refine ⟨hsound.wf.snapshot.1, fun id b hb => ?_⟩
    obtain ⟨other, hold⟩ := Env.exists_mem_of_snapshot hb
    rw [Env.size_snapshot]
    exact hlater (hsound.refers other b hold)
  | opened _ =>
    refine ⟨hsound.wf.pushCopy [], fun id b hb => ?_⟩
    rw [Env.scope_push] at hb
    rw [Env.size_push]
    exact hlater (hsound.refers id b hb)
  | begun hf hc =>
    obtain ⟨c', hc', -, hlt⟩ := h.closure _ hf
    obtain rfl := Option.some.inj (hc.symm.trans hc')
    exact ⟨hsound.wf.pushShared hlt, hsound.refers⟩
  | closed _ =>
    exact ⟨⟨hsound.wf.1, fun id hid => hsound.wf.2 id (List.mem_of_mem_tail hid)⟩, hsound.refers⟩

/-- Where a valid history has led to, every scope that is referred to exists. -/
theorem Valid.sound {past : History} (h : past.Valid) : past.env.Sound := by
  induction h with
  | start => exact sound_initial
  | step hbefore he ih => exact sound_leads hbefore.invariant ih he

end History

end Lox
