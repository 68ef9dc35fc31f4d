import Lox.Value

/-!
# Environments

Lexical scopes. Every scope has an identity, so that one scope can be reached in several ways: it
may lie on the stack more than once, and functions keep the scope of their captured variables. The
global scope is at the bottom of the stack and is never left.
-/

namespace Lox

/-- The bindings of one scope, each name bound once. -/
abbrev Scope := List (String × Value)

namespace Scope

/-- The value that a name is bound to. -/
def get? (s : Scope) (x : String) : Option Value := s.lookup x

/-- Whether a name is bound. -/
def binds (s : Scope) (x : String) : Bool := (s.get? x).isSome

/-- Binds a name, in place of the binding that it has. -/
def put (x : String) (v : Value) : Scope → Scope
  | [] => [(x, v)]
  | (y, w) :: s => if x == y then (y, v) :: s else (y, w) :: put x v s

/-- The bound names. -/
def names (s : Scope) : List String := s.map Prod.fst

/-- Names in the order of their characters' code points. -/
def sortNames (xs : List String) : List String := xs.mergeSort fun x y => !decide (y < x)

/-- The bindings in the order of their names. -/
def sorted (s : Scope) : Scope := s.mergeSort fun a b => !decide (b.1 < a.1)

/-- The bindings that are not those of the built-in functions under their own names. -/
def withoutBuiltins (s : Scope) : Scope :=
  s.filter fun
    | (x, .func (.builtin fn)) => x != fn.name
    | _ => true

/-- A name that was just bound has its new value. -/
theorem get?_put_self (x : String) (v : Value) (s : Scope) : (put x v s).get? x = some v := by
  induction s with
  | nil => simp [put, get?]
  | cons e s ih =>
    obtain ⟨y, w⟩ := e
    by_cases h : x = y
    · subst h
      simp [put, get?]
    · have h' : (x == y) = false := beq_eq_false_iff_ne.2 h
      simpa [put, get?, List.lookup_cons, h'] using ih

/-- Binding a name leaves the others alone. -/
theorem get?_put_ne {x y : String} (h : y ≠ x) (v : Value) (s : Scope) :
    (put x v s).get? y = s.get? y := by
  induction s with
  | nil =>
    have h' : (y == x) = false := beq_eq_false_iff_ne.2 h
    simp [put, get?, List.lookup_cons, h']
  | cons e s ih =>
    obtain ⟨z, w⟩ := e
    by_cases hx : x = z
    · subst hx
      have h' : (y == x) = false := beq_eq_false_iff_ne.2 h
      simp [put, get?, List.lookup_cons, h']
    · have h' : (x == z) = false := beq_eq_false_iff_ne.2 hx
      simp only [put, get?, h', Bool.false_eq_true, if_false] at ih ⊢
      rw [List.lookup_cons, List.lookup_cons, ih]

end Scope

/-- An environment: the contents of all scopes by identity, and the scopes that lie on the global
one, the innermost first. The global scope has the identity zero. Models `Environment`. -/
structure Env where
  scopes : Array Scope
  inner : List ScopeId

namespace Env

/-- The identity of the global scope. -/
def global : ScopeId := 0

/-- An environment with nothing bound. Models `Environment.__init__`. -/
def empty : Env := ⟨#[[]], []⟩

/-- The scopes that names are looked up in, the innermost first. -/
def stack (e : Env) : List ScopeId := e.inner ++ [global]

/-- The number of scopes on the stack. Models `Environment.depth`. -/
def depth (e : Env) : Nat := e.inner.length + 1

/-- The contents of a scope. -/
def scope (e : Env) (id : ScopeId) : Scope := e.scopes.getD id []

/-- The innermost scope. -/
def top (e : Env) : ScopeId := e.inner.headD global

/-- Binds a name in the scope `id`. -/
def putIn (id : ScopeId) (x : String) (v : Value) : Env → Env
  | ⟨scopes, inner⟩ => ⟨scopes.modify id (Scope.put x v), inner⟩

/-- Binds a name in the innermost scope. Models `Environment.define`. -/
def define (x : String) (v : Value) (e : Env) : Env := e.putIn e.top x v

/-- The innermost scope on the stack that binds a name. The search of `Environment.get` and
`Environment.set`. -/
def owner? (e : Env) (x : String) : Option ScopeId :=
  match e.inner.find? fun id => (e.scope id).binds x with
  | some id => some id
  | none => if (e.scope global).binds x then some global else none

/-- The value of the innermost binding of a name. Models `Environment.get`. -/
def get? (e : Env) (x : String) : Option Value := (e.owner? x).bind fun id => (e.scope id).get? x

/-- Replaces the innermost binding of a name, if there is one. Models `Environment.set`. -/
def set? (x : String) (v : Value) (e : Env) : Option Env :=
  (e.owner? x).map fun id => e.putIn id x v

/-- Lays a new scope with these contents on the stack. -/
def pushCopy (contents : Scope) : Env → Env
  | ⟨scopes, inner⟩ =>
    let id := scopes.size
    ⟨scopes.push contents, id :: inner⟩

/-- Lays a new empty scope on the stack. Models `Environment.push_scope`. -/
def push (e : Env) : Env := e.pushCopy []

/-- Lays a scope that exists already on the stack. Models `Environment.push_closure`. -/
def pushShared (id : ScopeId) : Env → Env
  | ⟨scopes, inner⟩ => ⟨scopes, id :: inner⟩

/-- Takes the innermost scope from the stack, unless it is the global one. Models
`Environment.pop_scope`. -/
def pop? : Env → Option (ScopeId × Env)
  | ⟨_, []⟩ => none
  | ⟨scopes, id :: inner⟩ => some (id, ⟨scopes, inner⟩)

/-- Makes a new scope with the contents of the innermost one; the stack stays as it is. Models
`Environment.snapshot`. -/
def snapshot (e : Env) : ScopeId × Env :=
  match e with
  | ⟨scopes, inner⟩ =>
    let id := scopes.size
    let contents := scopes.getD (inner.headD global) []
    (id, ⟨scopes.push contents, inner⟩)

/-- Every scope that is referred to exists. -/
def WF (e : Env) : Prop := 0 < e.scopes.size ∧ ∀ id ∈ e.inner, id < e.scopes.size

/-- In an environment with nothing bound every scope exists. -/
theorem wf_empty : empty.WF := ⟨by simp [empty], by simp [empty]⟩

/-- Binding a name keeps all scopes. -/
theorem WF.putIn {e : Env} (h : e.WF) (id : ScopeId) (x : String) (v : Value) :
    (e.putIn id x v).WF := by
  obtain ⟨hpos, hinner⟩ := h
  exact ⟨by simpa [Env.putIn] using hpos, by simpa [Env.putIn] using hinner⟩

/-- A new scope exists, and so do the others. -/
theorem WF.pushCopy {e : Env} (h : e.WF) (contents : Scope) : (e.pushCopy contents).WF := by
  obtain ⟨hpos, hinner⟩ := h
  refine ⟨by simp [Env.pushCopy], fun id hid => ?_⟩
  simp only [Env.pushCopy, List.mem_cons, Array.size_push] at hid ⊢
  rcases hid with rfl | hid
  · exact Nat.lt_succ_self _
  · exact Nat.lt_succ_of_lt (hinner id hid)

/-- A scope that exists can be laid on the stack. -/
theorem WF.pushShared {e : Env} (h : e.WF) {id : ScopeId} (hid : id < e.scopes.size) :
    (e.pushShared id).WF := by
  obtain ⟨hpos, hinner⟩ := h
  refine ⟨hpos, fun i hi => ?_⟩
  simp only [Env.pushShared, List.mem_cons] at hi ⊢
  rcases hi with rfl | hi
  · exact hid
  · exact hinner i hi

/-- Leaving a scope keeps it and all others. -/
theorem WF.pop? {e e' : Env} {id : ScopeId} (h : e.WF) (hp : e.pop? = some (id, e')) :
    e'.WF ∧ id < e'.scopes.size := by
  obtain ⟨scopes, inner⟩ := e
  obtain ⟨hpos, hinner⟩ := h
  cases inner with
  | nil => simp [Env.pop?] at hp
  | cons i inner =>
    simp only [Env.pop?, Option.some.injEq, Prod.mk.injEq] at hp
    obtain ⟨rfl, rfl⟩ := hp
    exact ⟨⟨hpos, fun j hj => hinner j (List.mem_cons_of_mem _ hj)⟩,
      hinner i (List.mem_cons_self ..)⟩

/-- A copy of the innermost scope is a scope that did not exist before. -/
theorem WF.snapshot {e : Env} (h : e.WF) :
    e.snapshot.2.WF ∧ e.snapshot.1 = e.scopes.size := by
  obtain ⟨hpos, hinner⟩ := h
  refine ⟨⟨by simp [Env.snapshot], fun id hid => ?_⟩, rfl⟩
  simpa [Env.snapshot] using Nat.lt_succ_of_lt (hinner id hid)

/-- The owner of a name is the first scope of the stack that binds it. -/
theorem owner?_eq_find? (e : Env) (x : String) :
    e.owner? x = e.stack.find? fun id => (e.scope id).binds x := by
  unfold owner? stack
  rw [List.find?_append]
  cases e.inner.find? fun id => (e.scope id).binds x with
  | some id => rfl
  | none => cases h : (e.scope global).binds x <;> simp [h]

/-- A new scope is left again without a trace on the stack. -/
theorem pop?_push (e : Env) :
    e.push.pop? = some (e.scopes.size, ⟨e.scopes.push [], e.inner⟩) := rfl

/-- The environment that every program starts in: the built-in functions are bound globally. The
environment of `Interpreter.__init__`. -/
def initial : Env :=
  Builtin.all.foldl (fun e fn => e.define fn.name (.func (.builtin fn))) empty

end Env

end Lox
