import Lox.Env

/-!
# Scopes under the operations of an environment

What each operation does to the stack, to the number of scopes, and to the contents of each scope.
-/

namespace Lox

namespace Scope

/-- In a scope in which a name is bound, another name is as before. -/
theorem get?_put {x y : String} {v w : Value} {s : Scope}
    (h : (s.put x v).get? y = some w) : w = v ∨ s.get? y = some w := by
  by_cases hy : y = x
  · subst hy
    rw [get?_put_self] at h
    exact .inl (Option.some.inj h).symm
  · rw [get?_put_ne hy] at h
    exact .inr h

/-- A scope binds the names that stand in it. -/
theorem binds_iff_mem_names {s : Scope} {x : String} : s.binds x = true ↔ x ∈ s.names := by
  rw [binds, get?, List.lookup_isSome_iff, names, List.mem_map]
  constructor
  · rintro ⟨e, he, hx⟩
    exact ⟨e, he, (beq_iff_eq.1 hx).symm⟩
  · rintro ⟨e, he, rfl⟩
    exact ⟨e, he, beq_self_eq_true _⟩

/-- A name that was just bound is bound, and the others are as before. -/
theorem binds_put {x y : String} {v : Value} {s : Scope} :
    (s.put x v).binds y = true ↔ y = x ∨ s.binds y = true := by
  by_cases hy : y = x
  · subst hy
    simp [binds, get?_put_self]
  · simp [binds, get?_put_ne hy, hy]

end Scope

namespace Env

/-- Binding a name leaves the stack alone. -/
@[simp] theorem inner_putIn (e : Env) (id : ScopeId) (x : String) (v : Value) :
    (e.putIn id x v).inner = e.inner := rfl

/-- Binding a name makes no scope. -/
@[simp] theorem size_putIn (e : Env) (id : ScopeId) (x : String) (v : Value) :
    (e.putIn id x v).scopes.size = e.scopes.size := by
  simp [putIn]

/-- Binding a name leaves the other scopes alone. -/
theorem scope_putIn_of_ne {e : Env} {id other : ScopeId} (h : other ≠ id) (x : String)
    (v : Value) : (e.putIn id x v).scope other = e.scope other := by
  simp [scope, putIn, Array.getD_eq_getD_getElem?, Array.getElem?_modify, Ne.symm h]

/-- Binding a name in a scope that exists. -/
theorem scope_putIn_self {e : Env} {id : ScopeId} (h : id < e.scopes.size) (x : String)
    (v : Value) : (e.putIn id x v).scope id = (e.scope id).put x v := by
  simp [scope, putIn, Array.getD_eq_getD_getElem?, h, Array.getElem_modify_self]

/-- A scope that does not exist has no contents. -/
theorem scope_of_size_le {e : Env} {id : ScopeId} (h : e.scopes.size ≤ id) : e.scope id = [] := by
  simp [scope, Array.getD_eq_getD_getElem?, h]

/-- A definition makes no scope. -/
@[simp] theorem size_define (e : Env) (x : String) (v : Value) :
    (e.define x v).scopes.size = e.scopes.size := size_putIn ..

/-- A new scope lies on the others. -/
@[simp] theorem inner_push (e : Env) : e.push.inner = e.scopes.size :: e.inner := rfl

/-- A new scope is one more. -/
@[simp] theorem size_push (e : Env) : e.push.scopes.size = e.scopes.size + 1 := by
  simp [push, pushCopy]

/-- A new scope is empty, and the others are as before. -/
@[simp] theorem scope_push (e : Env) (id : ScopeId) : e.push.scope id = e.scope id := by
  rcases Nat.lt_trichotomy id e.scopes.size with h | h | h
  · simp [scope, push, pushCopy, Array.getD_eq_getD_getElem?, Array.getElem?_push, Nat.ne_of_lt h]
  · simp [scope, push, pushCopy, Array.getD_eq_getD_getElem?, h]
  · simp [scope, push, pushCopy, Array.getD_eq_getD_getElem?, Array.getElem?_push, Nat.ne_of_gt h]

/-- A scope that exists already lies on the others. -/
@[simp] theorem inner_pushShared (e : Env) (id : ScopeId) :
    (e.pushShared id).inner = id :: e.inner := rfl

/-- A copy has the next identity. -/
@[simp] theorem fst_snapshot (e : Env) : e.snapshot.1 = e.scopes.size := rfl

/-- A copy does not lie on the stack. -/
@[simp] theorem inner_snapshot (e : Env) : e.snapshot.2.inner = e.inner := rfl

/-- A copy is one scope more. -/
@[simp] theorem size_snapshot (e : Env) : e.snapshot.2.scopes.size = e.scopes.size + 1 := by
  simp [snapshot]

/-- A copy leaves the scopes that exist as they are. -/
theorem scope_snapshot_of_lt {e : Env} {id : ScopeId} (h : id < e.scopes.size) :
    e.snapshot.2.scope id = e.scope id := by
  simp [scope, snapshot, Array.getD_eq_getD_getElem?, Array.getElem?_push, Nat.ne_of_lt h]

/-- A copy leaves all scopes but its own as they are. -/
theorem scope_snapshot_of_ne {e : Env} {id : ScopeId} (h : id ≠ e.scopes.size) :
    e.snapshot.2.scope id = e.scope id := by
  rcases Nat.lt_or_gt_of_ne h with hlt | hgt
  · exact scope_snapshot_of_lt hlt
  · rw [scope_of_size_le (Nat.le_of_lt hgt), scope_of_size_le]
    rw [size_snapshot]
    exact hgt

/-- A copy has the contents of the innermost scope. -/
theorem scope_snapshot_self (e : Env) : e.snapshot.2.scope e.scopes.size = e.scope e.top := by
  simp [scope, snapshot, top, Array.getD_eq_getD_getElem?]

/-- The depth counts the scopes on the stack. -/
theorem length_stack (e : Env) : e.stack.length = e.depth := by
  simp [stack, depth]

/-- The innermost scope lies on the stack. -/
theorem top_mem_stack (e : Env) : e.top ∈ e.stack := by
  rw [stack, top]
  cases e.inner <;> simp

/-- The owner of a name lies on the stack. -/
theorem owner?_mem {e : Env} {x : String} {id : ScopeId} (h : e.owner? x = some id) :
    id ∈ e.stack := by
  rw [owner?_eq_find?] at h
  exact List.mem_of_find?_eq_some h

/-- The owner of a name binds it. -/
theorem binds_of_owner? {e : Env} {x : String} {id : ScopeId} (h : e.owner? x = some id) :
    (e.scope id).binds x = true := by
  rw [owner?_eq_find?] at h
  have hbinds := List.find?_some h
  exact hbinds

/-- The value of a name stands in a scope. -/
theorem exists_of_get? {e : Env} {x : String} {v : Value} (h : e.get? x = some v) :
    ∃ id, (e.scope id).get? x = some v := by
  obtain ⟨id, -, hid⟩ := Option.bind_eq_some_iff.1 h
  exact ⟨id, hid⟩

/-- The value of a name is the one that it has in the first scope of the stack that binds it. -/
theorem get?_eq_findSome? (e : Env) (x : String) :
    e.get? x = e.stack.findSome? fun id => (e.scope id).get? x := by
  rw [get?, owner?_eq_find?]
  induction e.stack with
  | nil => rfl
  | cons id ids ih =>
    rw [List.find?_cons, List.findSome?_cons, ← ih, Scope.binds]
    cases hx : (e.scope id).get? x with
    | none => rfl
    | some v => exact hx

/-- A name that a scope on the stack binds has a value. -/
theorem exists_get?_of_binds {e : Env} {id : ScopeId} {x : String} (hmem : id ∈ e.stack)
    (h : (e.scope id).binds x = true) : ∃ v, e.get? x = some v := by
  rw [get?_eq_findSome?]
  apply Option.isSome_iff_exists.1
  exact List.findSome?_isSome_iff.2 ⟨id, hmem, h⟩

/-- There is no scope at first but the global one. -/
theorem size_initial : initial.scopes.size = 1 := rfl

/-- A binding makes a value stand in a scope only if it is the value that was bound. -/
theorem get?_scope_putIn {e : Env} {id other : ScopeId} {x y : String} {v w : Value}
    (h : ((e.putIn id x v).scope other).get? y = some w) :
    w = v ∨ (e.scope other).get? y = some w := by
  by_cases hid : other = id
  · subst hid
    by_cases hlt : other < e.scopes.size
    · rw [scope_putIn_self hlt] at h
      exact Scope.get?_put h
    · rw [scope_of_size_le (by rw [size_putIn]; exact Nat.le_of_not_lt hlt)] at h
      simp [Scope.get?] at h
  · rw [scope_putIn_of_ne hid] at h
    exact .inr h

/-- Binding a name leaves the values of other names alone. -/
theorem get?_scope_putIn_ne {x y : String} (h : y ≠ x) (e : Env) (id other : ScopeId) (v : Value) :
    ((e.putIn id x v).scope other).get? y = (e.scope other).get? y := by
  by_cases hid : other = id
  · subst hid
    by_cases hlt : other < e.scopes.size
    · rw [scope_putIn_self hlt, Scope.get?_put_ne h]
    · have hle : e.scopes.size ≤ other := Nat.le_of_not_lt hlt
      rw [scope_of_size_le hle, scope_of_size_le (by rw [size_putIn]; exact hle)]
  · rw [scope_putIn_of_ne hid]

/-- A scope that binds a name exists. -/
theorem lt_of_binds {e : Env} {id : ScopeId} {x : String} (h : (e.scope id).binds x = true) :
    id < e.scopes.size := by
  refine Nat.lt_of_not_le fun hid => ?_
  rw [scope_of_size_le hid] at h
  cases h

/-- A binding unbinds no name. -/
theorem binds_putIn {e : Env} {id other : ScopeId} {x y : String} {v : Value}
    (h : (e.scope other).binds y = true) : ((e.putIn id x v).scope other).binds y = true := by
  by_cases hid : other = id
  · subst hid
    rw [scope_putIn_self (lt_of_binds h)]
    exact Scope.binds_put.2 (.inr h)
  · rw [scope_putIn_of_ne hid]
    exact h

/-- Another value for a bound name binds no other name. -/
theorem binds_putIn_of_binds {e : Env} {id : ScopeId} {x : String}
    (h : (e.scope id).binds x = true) (v : Value) (other : ScopeId) (y : String) :
    ((e.putIn id x v).scope other).binds y = (e.scope other).binds y := by
  by_cases hid : other = id
  · subst hid
    rw [scope_putIn_self (lt_of_binds h), Bool.eq_iff_iff, Scope.binds_put]
    constructor
    · rintro (rfl | hy)
      · exact h
      · exact hy
    · exact .inr
  · rw [scope_putIn_of_ne hid]

/-- What stands in a scope after a copy was made stood in one before. -/
theorem exists_of_snapshot {e : Env} {id : ScopeId} {x : String} {v : Value}
    (h : (e.snapshot.2.scope id).get? x = some v) : ∃ other, (e.scope other).get? x = some v := by
  rcases Nat.lt_trichotomy id e.scopes.size with hid | rfl | hid
  · exact ⟨id, scope_snapshot_of_lt hid ▸ h⟩
  · exact ⟨e.top, scope_snapshot_self e ▸ h⟩
  · rw [scope_of_size_le (by rw [size_snapshot]; exact hid)] at h
    simp [Scope.get?] at h

/-- At first only built-in functions are bound. -/
theorem builtin_of_initial {id : ScopeId} {x : String} {v : Value}
    (h : (initial.scope id).get? x = some v) : ∃ fn, v = .func (.builtin fn) := by
  cases id with
  | zero =>
    obtain ⟨l, l', hl, -⟩ := List.lookup_eq_some_iff.1 h
    have hmem : (x, v) ∈ initial.scope global := hl ▸ by simp
    change (x, v) ∈ [("abs", .func (.builtin .abs)), ("min", .func (.builtin .min)),
      ("max", .func (.builtin .max))] at hmem
    simp only [List.mem_cons, Prod.mk.injEq, List.not_mem_nil, or_false] at hmem
    rcases hmem with ⟨-, rfl⟩ | ⟨-, rfl⟩ | ⟨-, rfl⟩ <;> exact ⟨_, rfl⟩
  | succ id =>
    rw [scope_of_size_le (by rw [size_initial]; exact Nat.succ_le_succ id.zero_le)] at h
    simp [Scope.get?] at h

/-! ### What holds of all values -/

/-- Whether the values of all scopes are as `P` says: of those on the stack, of those that functions
keep, and of those that were left. -/
def All (P : Value → Prop) (e : Env) : Prop :=
  ∀ (id : ScopeId) (x : String) (v : Value), (e.scope id).get? x = some v → P v

namespace All

variable {P : Value → Prop} {e : Env}

/-- What holds of built-in functions holds of all values at first. -/
theorem initial (h : ∀ fn, P (.func (.builtin fn))) : Env.initial.All P := by
  intro id x v hx
  obtain ⟨fn, rfl⟩ := builtin_of_initial hx
  exact h fn

/-- The value of a name is one of all values. -/
theorem of_get? (h : e.All P) {x : String} {v : Value} (hx : e.get? x = some v) : P v := by
  obtain ⟨id, hid⟩ := exists_of_get? hx
  exact h _ _ _ hid

/-- One more value is bound. -/
theorem putIn (h : e.All P) (id : ScopeId) (x : String) {v : Value} (hv : P v) :
    (e.putIn id x v).All P := by
  intro other y w hw
  rcases get?_scope_putIn hw with rfl | hw
  · exact hv
  · exact h _ _ _ hw

/-- A copy of a scope has no other values. -/
theorem snapshot (h : e.All P) : e.snapshot.2.All P := by
  intro id x v hx
  obtain ⟨other, hx⟩ := exists_of_snapshot hx
  exact h _ _ _ hx

/-- A new scope has no values. -/
theorem push (h : e.All P) : e.push.All P := by
  intro id x v hx
  rw [scope_push] at hx
  exact h _ _ _ hx

end All

end Env

end Lox
