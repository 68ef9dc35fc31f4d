import Lox.Fault
import Lox.Proofs.Scopes

/-!
# Aliasing of scopes

Sequences of operations on one environment, by someone who keeps every scope that was popped or
copied and may push it again, more than once and on top of itself. One scope can then be reached in
several ways. What is recorded beside the environment is how each scope came to lie on the stack:
the environment never looks at that.
-/

namespace Lox

/-- Another value for a name that is bound leaves the names of a scope as they are. -/
theorem Scope.names_put {x : String} {s : Scope} (h : s.binds x = true) (v : Value) :
    (s.put x v).names = s.names := by
  induction s with
  | nil => cases h
  | cons entry s ih =>
    obtain ⟨y, w⟩ := entry
    rw [put]
    split
    · rfl
    · next hne =>
      have hbinds : binds s x = true := by
        have hxy : (x == y) = false := by simpa using hne
        simpa [binds, get?, List.lookup_cons, hxy] using h
      exact congrArg (y :: ·) (ih hbinds)

namespace Aliasing

/-- A scope that was handed out. -/
inductive Handle where
  /-- It was taken from the stack. -/
  | popped (id : ScopeId)
  /-- It was made as a copy of the innermost scope. -/
  | copied (id : ScopeId)

/-- The scope itself. -/
def Handle.scope : Handle → ScopeId
  | popped id | copied id => id

/-- How a scope came to lie on the stack, above the global one. -/
inductive Entry where
  /-- It was made for that. -/
  | fresh (id : ScopeId)
  /-- It had been handed out and was pushed again. -/
  | pushed (id : ScopeId)

/-- The scope itself. -/
def Entry.scope : Entry → ScopeId
  | fresh id | pushed id => id

/-- An environment, how the scopes above the global one came to lie on its stack, the innermost
first, and the scopes that were handed out, in their order. -/
structure State where
  env : Env
  entries : List Entry
  handles : List Handle

/-- The operations on an environment. A scope that was handed out is pushed by its number. -/
inductive Operation where
  | define (x : String) (v : Value)
  | get (x : String)
  | set (x : String) (v : Value)
  | pushScope
  | pushClosure (handle : Nat)
  | popScope
  | snapshot

/-- What an operation answers. -/
inductive Reply where
  | done
  | value (v : Value)
  | scope (id : ScopeId)
  | fault (f : Fault)

namespace State

/-- A new environment. -/
def start : State := ⟨.empty, [], []⟩

/-- The answer to an operation, and the state after it. Numbers that no scope has are passed
over. -/
def step (s : State) : Operation → Reply × State
  | .define x v => (.done, { s with env := s.env.define x v })
  | .get x =>
    match s.env.get? x with
    | some v => (.value v, s)
    | none => (.fault (.undefinedVariable x), s)
  | .set x v =>
    match s.env.set? x v with
    | some env => (.done, { s with env })
    | none => (.fault (.undefinedVariable x), s)
  | .pushScope => (.done, ⟨s.env.push, .fresh s.env.scopes.size :: s.entries, s.handles⟩)
  | .pushClosure handle =>
    match s.handles[handle]? with
    | some h => (.done, ⟨s.env.pushShared h.scope, .pushed h.scope :: s.entries, s.handles⟩)
    | none => (.done, s)
  | .popScope =>
    match s.env.pop? with
    | some (id, env) => (.scope id, ⟨env, s.entries.tail, s.handles ++ [.popped id]⟩)
    | none => (.fault .lastScope, s)
  | .snapshot =>
    match s.env.snapshot with
    | (id, env) => (.scope id, ⟨env, s.entries, s.handles ++ [.copied id]⟩)

/-- The state after operations. -/
def run (s : State) (ops : List Operation) : State := ops.foldl (fun s op => (s.step op).2) s

/-- Some scope on the stack binds the name. -/
def Binds (s : State) (x : String) : Prop := ∃ id ∈ s.env.stack, (s.env.scope id).binds x = true

/-- The entry above the global scope that an operation writes through, if it writes through one: for
a definition the innermost, for an assignment the innermost that binds the name. -/
def target? (s : State) : Operation → Option Entry
  | .define _ _ => s.entries.head?
  | .set x _ => s.entries.find? fun e => (s.env.scope e.scope).binds x
  | _ => none

/-! ### What holds in every state -/

/-- The entries are those of the stack, the global scope lies nowhere else and is not handed out,
and copies lie on the stack only where they were pushed. -/
structure Coherent (s : State) : Prop where
  wf : s.env.WF
  inner_eq : s.env.inner = s.entries.map Entry.scope
  ne_global : ∀ e ∈ s.entries, e.scope ≠ Env.global
  handled : ∀ h ∈ s.handles, h.scope ≠ Env.global ∧ h.scope < s.env.scopes.size
  pushed_of_copied : ∀ e ∈ s.entries, .copied e.scope ∈ s.handles → e = .pushed e.scope

namespace Coherent

variable {s : State}

theorem start : start.Coherent where
  wf := Env.wf_empty
  inner_eq := rfl
  ne_global := by simp [State.start]
  handled := by simp [State.start]
  pushed_of_copied := by simp [State.start]

/-- The scopes of entries exist. -/
theorem scope_lt (h : s.Coherent) {e : Entry} (he : e ∈ s.entries) :
    e.scope < s.env.scopes.size :=
  h.wf.2 _ (h.inner_eq ▸ List.mem_map_of_mem he)

/-- A binding in a scope changes none of this. -/
theorem putIn (h : s.Coherent) (id : ScopeId) (x : String) (v : Value) :
    Coherent { s with env := s.env.putIn id x v } where
  wf := h.wf.putIn id x v
  inner_eq := h.inner_eq
  ne_global := h.ne_global
  handled := by simpa using h.handled
  pushed_of_copied := h.pushed_of_copied

private theorem size_ne_global (h : s.Coherent) : s.env.scopes.size ≠ Env.global :=
  Nat.ne_of_gt h.wf.1

theorem pushScope (h : s.Coherent) : (s.step .pushScope).2.Coherent where
  wf := h.wf.pushCopy []
  inner_eq := congrArg (s.env.scopes.size :: ·) h.inner_eq
  ne_global := List.forall_mem_cons.2 ⟨h.size_ne_global, h.ne_global⟩
  handled := by
    intro handle hhandle
    obtain ⟨hne, hlt⟩ := h.handled handle hhandle
    exact ⟨hne, Nat.lt_of_lt_of_eq (Nat.lt_succ_of_lt hlt) (Env.size_push s.env).symm⟩
  pushed_of_copied := by
    refine List.forall_mem_cons.2 ⟨fun hcopied => ?_, h.pushed_of_copied⟩
    exact (Nat.lt_irrefl _ (h.handled _ hcopied).2).elim

theorem pushShared (h : s.Coherent) {handle : Handle} (hhandle : handle ∈ s.handles) :
    Coherent ⟨s.env.pushShared handle.scope, .pushed handle.scope :: s.entries, s.handles⟩ where
  wf := h.wf.pushShared (h.handled handle hhandle).2
  inner_eq := congrArg (handle.scope :: ·) h.inner_eq
  ne_global := List.forall_mem_cons.2 ⟨(h.handled handle hhandle).1, h.ne_global⟩
  handled := h.handled
  pushed_of_copied := List.forall_mem_cons.2 ⟨fun _ => rfl, h.pushed_of_copied⟩

theorem popScope (h : s.Coherent) {id : ScopeId} {env : Env} (hpop : s.env.pop? = some (id, env)) :
    Coherent ⟨env, s.entries.tail, s.handles ++ [.popped id]⟩ := by
  obtain ⟨⟨scopes, inner⟩, entries, handles⟩ := s
  obtain ⟨hwf, hinner, hglobal, hhandled, hcopied⟩ := h
  obtain ⟨hwf', hid⟩ := hwf.pop? hpop
  cases inner with
  | nil => cases hpop
  | cons top inner =>
    cases entries with
    | nil => cases hinner
    | cons e entries =>
      cases hpop
      obtain ⟨htop, hinner'⟩ := List.cons.inj hinner
      rw [List.forall_mem_cons] at hglobal hcopied
      refine ⟨hwf', hinner', hglobal.2, ?_, ?_⟩
      · intro handle hhandle
        rcases List.mem_append.1 hhandle with hhandle | hhandle
        · exact hhandled handle hhandle
        · obtain rfl := List.mem_singleton.1 hhandle
          exact ⟨htop ▸ hglobal.1, hid⟩
      · intro e' he' hmem
        rcases List.mem_append.1 hmem with hmem | hmem
        · exact hcopied.2 e' he' hmem
        · cases List.mem_singleton.1 hmem

theorem snapshot (h : s.Coherent) : (s.step .snapshot).2.Coherent where
  wf := h.wf.snapshot.1
  inner_eq := h.inner_eq
  ne_global := h.ne_global
  handled := by
    have hsize := Env.size_snapshot s.env
    intro handle hhandle
    rcases List.mem_append.1 hhandle with hhandle | hhandle
    · obtain ⟨hne, hlt⟩ := h.handled handle hhandle
      exact ⟨hne, Nat.lt_of_lt_of_eq (Nat.lt_succ_of_lt hlt) hsize.symm⟩
    · obtain rfl := List.mem_singleton.1 hhandle
      exact ⟨h.size_ne_global, Nat.lt_of_lt_of_eq (Nat.lt_succ_self _) hsize.symm⟩
  pushed_of_copied := by
    intro e he hmem
    rcases List.mem_append.1 hmem with hmem | hmem
    · exact h.pushed_of_copied e he hmem
    · have hsize : e.scope = s.env.scopes.size := Handle.copied.inj (List.mem_singleton.1 hmem)
      exact (Nat.ne_of_lt (h.scope_lt he) hsize).elim

/-- Every operation keeps all of this. -/
theorem step (h : s.Coherent) (op : Operation) : (s.step op).2.Coherent := by
  cases op with
  | define x v => exact h.putIn s.env.top x v
  | get x =>
    rw [State.step]
    cases s.env.get? x <;> exact h
  | set x v =>
    rw [State.step, Env.set?]
    cases s.env.owner? x with
    | none => exact h
    | some id => exact h.putIn id x v
  | pushScope => exact h.pushScope
  | pushClosure handle =>
    rw [State.step]
    cases hhandle : s.handles[handle]? with
    | none => exact h
    | some found => exact h.pushShared (List.mem_of_getElem? hhandle)
  | popScope =>
    rw [State.step]
    cases hpop : s.env.pop? with
    | none => exact h
    | some popped => exact h.popScope hpop
  | snapshot => exact h.snapshot

/-- So do operations one after the other. -/
theorem run (h : s.Coherent) (ops : List Operation) : (s.run ops).Coherent := by
  induction ops generalizing s with
  | nil => exact h
  | cons op ops ih => exact ih (h.step op)

end Coherent

/-! ### Writing through an entry -/

variable {s : State}

private theorem head?_of_top (h : s.Coherent) (hglobal : s.env.top ≠ Env.global) :
    ∃ e, s.entries.head? = some e ∧ e.scope = s.env.top := by
  rw [Env.top, h.inner_eq] at hglobal ⊢
  cases hentries : s.entries with
  | nil =>
    rw [hentries] at hglobal
    exact (hglobal rfl).elim
  | cons e entries => exact ⟨e, rfl, rfl⟩

private theorem find?_of_owner? (h : s.Coherent) {x : String} {id : ScopeId}
    (howner : s.env.owner? x = some id) (hglobal : id ≠ Env.global) :
    ∃ e, s.entries.find? (fun e => (s.env.scope e.scope).binds x) = some e ∧ e.scope = id := by
  rw [Env.owner?, h.inner_eq, List.find?_map] at howner
  have hcomp : (fun id => (s.env.scope id).binds x) ∘ Entry.scope =
      fun e : Entry => (s.env.scope e.scope).binds x := rfl
  rw [hcomp] at howner
  cases hfind : s.entries.find? fun e => (s.env.scope e.scope).binds x with
  | some e =>
    rw [hfind] at howner
    exact ⟨e, rfl, Option.some.inj howner⟩
  | none =>
    rw [hfind, Option.map_none] at howner
    simp only at howner
    split at howner
    · exact (hglobal (Option.some.inj howner).symm).elim
    · cases howner

/-- An operation changes no scope that exists, other than the global one, but that of the entry
that it writes through. -/
theorem exists_target?_of_scope_ne (h : s.Coherent) {op : Operation} {id : ScopeId}
    (hid : id < s.env.scopes.size) (hglobal : id ≠ Env.global)
    (hchanged : (s.step op).2.env.scope id ≠ s.env.scope id) :
    ∃ e, s.target? op = some e ∧ e.scope = id := by
  cases op with
  | define x v =>
    by_cases htop : id = s.env.top
    · subst htop
      exact head?_of_top h hglobal
    · exact (hchanged (Env.scope_putIn_of_ne htop x v)).elim
  | get x =>
    rw [step] at hchanged
    cases hget : s.env.get? x <;> rw [hget] at hchanged <;> exact (hchanged rfl).elim
  | set x v =>
    rw [step, Env.set?] at hchanged
    cases howner : s.env.owner? x with
    | none =>
      rw [howner] at hchanged
      exact (hchanged rfl).elim
    | some owner =>
      rw [howner] at hchanged
      by_cases hne : id = owner
      · subst hne
        exact find?_of_owner? h howner hglobal
      · exact (hchanged (Env.scope_putIn_of_ne hne x v)).elim
  | pushScope => exact (hchanged (Env.scope_push s.env id)).elim
  | pushClosure handle =>
    rw [step] at hchanged
    cases hhandle : s.handles[handle]? <;> rw [hhandle] at hchanged <;> exact (hchanged rfl).elim
  | popScope =>
    obtain ⟨⟨scopes, inner⟩, entries, handles⟩ := s
    cases inner <;> exact (hchanged rfl).elim
  | snapshot => exact (hchanged (Env.scope_snapshot_of_lt hid)).elim

/-- A copy that was handed out is changed only through an entry for which it was pushed. -/
theorem target?_of_copied (h : s.Coherent) {id : ScopeId} (hid : .copied id ∈ s.handles)
    {op : Operation} (hchanged : (s.step op).2.env.scope id ≠ s.env.scope id) :
    s.target? op = some (.pushed id) := by
  obtain ⟨hglobal, hlt⟩ := h.handled _ hid
  obtain ⟨e, htarget, rfl⟩ := exists_target?_of_scope_ne h hlt hglobal hchanged
  have hmem : e ∈ s.entries := by
    cases op with
    | define x v => exact List.mem_of_mem_head? htarget
    | set x v => exact List.mem_of_find?_eq_some htarget
    | get | pushScope | pushClosure | popScope | snapshot => cases htarget
  rw [htarget, h.pushed_of_copied e hmem hid]
  rfl

/-! ### Assignment -/

/-- Two environments with the same stack, which agree on all names but one. -/
def AgreeBut (x : String) (e e' : Env) : Prop :=
  e.inner = e'.inner ∧ ∀ id y, y ≠ x → (e.scope id).get? y = (e'.scope id).get? y

/-- They give every other name the same value. -/
theorem AgreeBut.get?_eq {x y : String} {e e' : Env} (h : AgreeBut x e e') (hy : y ≠ x) :
    e.get? y = e'.get? y := by
  have hstack : e.stack = e'.stack := congrArg (· ++ [Env.global]) h.1
  have hscope : (fun id => (e.scope id).get? y) = fun id => (e'.scope id).get? y :=
    funext fun id => h.2 id y hy
  rw [Env.get?_eq_findSome?, Env.get?_eq_findSome?, hstack, hscope]

/-- Scopes that are taken away are taken away from both. -/
theorem AgreeBut.popAll {x : String} {s s' : State} (h : AgreeBut x s.env s'.env) (pops : Nat) :
    AgreeBut x (s.run (List.replicate pops .popScope)).env
      (s'.run (List.replicate pops .popScope)).env := by
  induction pops generalizing s s' with
  | zero => exact h
  | succ pops ih =>
    apply ih
    obtain ⟨⟨scopes, inner⟩, entries, handles⟩ := s
    obtain ⟨⟨scopes', inner'⟩, entries', handles'⟩ := s'
    obtain ⟨rfl, hscopes⟩ : inner = inner' ∧ _ := h
    cases inner with
    | nil => exact ⟨rfl, hscopes⟩
    | cons id inner => exact ⟨rfl, hscopes⟩

/-- A name was given another value, and nothing else was changed: the name has the value, the scopes
bind the names that they did, all but one have the contents that they had, and other names have the
values that they had, also when scopes are taken away. -/
structure Assigned (s : State) (x : String) (v : Value) (s' : State) : Prop where
  get_eq : s'.step (.get x) = (.value v, s')
  names_eq : ∀ id, (s'.env.scope id).names = (s.env.scope id).names
  scope_eq : ∃ id, (∀ other, other ≠ id → s'.env.scope other = s.env.scope other) ∧
    ∀ y, y ≠ x → (s'.env.scope id).get? y = (s.env.scope id).get? y
  get?_eq : ∀ pops y, y ≠ x → (s'.run (List.replicate pops .popScope)).env.get? y =
    (s.run (List.replicate pops .popScope)).env.get? y

/-- Assigning to the innermost binding of a name. -/
theorem assigned {x : String} {id : ScopeId} (howner : s.env.owner? x = some id) (v : Value) :
    s.Assigned x v { s with env := s.env.putIn id x v } := by
  have hbinds := Env.binds_of_owner? howner
  have hid := Env.lt_of_binds hbinds
  have hagree : AgreeBut x (s.env.putIn id x v) s.env :=
    ⟨rfl, fun other y hy => Env.get?_scope_putIn_ne hy s.env id other v⟩
  refine ⟨?_, fun other => ?_, ⟨id, fun other hother => ?_, fun y hy => ?_⟩, ?_⟩
  · have howner' : (s.env.putIn id x v).owner? x = some id := by
      have hsame : (fun other => ((s.env.putIn id x v).scope other).binds x) =
          fun other => (s.env.scope other).binds x :=
        funext fun other => Env.binds_putIn_of_binds hbinds v other x
      rw [Env.owner?_eq_find?] at howner ⊢
      rw [hsame]
      exact howner
    have hget : (s.env.putIn id x v).get? x = some v := by
      rw [Env.get?, howner', Option.bind_some, Env.scope_putIn_self hid, Scope.get?_put_self]
    simp only [step, hget]
  · by_cases hother : other = id
    · subst hother
      rw [Env.scope_putIn_self hid, Scope.names_put hbinds]
    · rw [Env.scope_putIn_of_ne hother]
  · exact Env.scope_putIn_of_ne hother x v
  · exact hagree.2 id y hy
  · intro pops y hy
    exact (hagree.popAll pops).get?_eq hy

private theorem exists_owner?_iff {x : String} :
    (∃ id, s.env.owner? x = some id) ↔ s.Binds x := by
  rw [Env.owner?_eq_find?, ← Option.isSome_iff_exists, List.find?_isSome]
  rfl

/-- A name that some scope on the stack binds has a value and can be assigned to. -/
theorem step_of_binds {x : String} (h : s.Binds x) :
    (∃ u, s.step (.get x) = (.value u, s)) ∧
      ∀ v, ∃ s', s.step (.set x v) = (.done, s') ∧ s.Assigned x v s' := by
  obtain ⟨id, howner⟩ := exists_owner?_iff.2 h
  constructor
  · obtain ⟨other, hmem, hbinds⟩ := h
    obtain ⟨u, hu⟩ := Env.exists_get?_of_binds hmem hbinds
    exact ⟨u, by simp only [step, hu]⟩
  · intro v
    refine ⟨_, ?_, assigned howner v⟩
    simp only [step, Env.set?, howner, Option.map_some]

/-- A name that no scope on the stack binds has no value and cannot be assigned to. -/
theorem step_of_not_binds {x : String} (h : ¬s.Binds x) :
    s.step (.get x) = (.fault (.undefinedVariable x), s) ∧
      ∀ v, s.step (.set x v) = (.fault (.undefinedVariable x), s) := by
  have howner : s.env.owner? x = none := by
    rw [Option.eq_none_iff_forall_not_mem]
    exact fun id hid => h (exists_owner?_iff.1 ⟨id, hid⟩)
  constructor
  · simp only [step, Env.get?, howner, Option.bind_none]
  · intro v
    simp only [step, Env.set?, howner, Option.map_none]

/-- Taking away the last scope fails, and changes nothing. -/
theorem step_popScope_of_fault {f : Fault} {s' : State} (h : s.step .popScope = (.fault f, s')) :
    f = .lastScope ∧ s' = s := by
  rw [step] at h
  cases hpop : s.env.pop? with
  | none =>
    rw [hpop] at h
    cases h
    exact ⟨rfl, rfl⟩
  | some popped =>
    rw [hpop] at h
    cases h

end State

/-- Whatever operations are done on a new environment, and however scopes that were popped or copied
are pushed again: the global scope lies at the bottom of the stack, and nowhere else; a name has a
value and can be assigned to just if a scope on the stack binds it, and else both fail and change
nothing; an assignment changes one name in one scope only; a copy is changed only through an entry
for which it was pushed; and the last scope stays. -/
theorem operations_coherent (ops : List Operation) :
    let s := State.start.run ops
    (1 ≤ s.env.depth ∧ s.env.stack = s.entries.map Entry.scope ++ [Env.global] ∧
      ∀ e ∈ s.entries, e.scope ≠ Env.global) ∧
    (∀ x, s.Binds x → (∃ u, s.step (.get x) = (.value u, s)) ∧
      ∀ v, ∃ s', s.step (.set x v) = (.done, s') ∧ s.Assigned x v s') ∧
    (∀ x, ¬s.Binds x → s.step (.get x) = (.fault (.undefinedVariable x), s) ∧
      ∀ v, s.step (.set x v) = (.fault (.undefinedVariable x), s)) ∧
    (∀ id, .copied id ∈ s.handles → ∀ op, (s.step op).2.env.scope id ≠ s.env.scope id →
      s.target? op = some (.pushed id)) ∧
    ∀ f s', s.step .popScope = (.fault f, s') → f = .lastScope ∧ s' = s := by
  intro s
  have hcoherent : s.Coherent := State.Coherent.start.run ops
  refine ⟨⟨Nat.le_add_left 1 _, ?_, hcoherent.ne_global⟩, fun x => State.step_of_binds,
    fun x => State.step_of_not_binds, fun id hid op => State.target?_of_copied hcoherent hid,
    fun f s' => State.step_popScope_of_fault⟩
  rw [Env.stack, hcoherent.inner_eq]

/-- A copy that lies on the stack twice: an assignment reaches it through the upper entry, and both
entries see it. -/
example :
    let s := State.start.run [.define "a" (.int 1), .snapshot, .pushClosure 0, .pushScope,
      .pushClosure 0, .set "a" (.int 2)]
    s.entries = [.pushed 1, .fresh 2, .pushed 1] ∧
      (s.step .popScope).2.env.get? "a" = some (.int 2) ∧ s.env.scope 0 = [("a", .int 1)] :=
  ⟨rfl, rfl, rfl⟩

end Aliasing

end Lox
