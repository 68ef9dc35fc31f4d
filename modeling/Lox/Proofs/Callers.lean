import Lox.Proofs.FreeNames
import Lox.Proofs.Record

/-!
# Two callers of one function

A function can be called where different scopes lie on the stack. What has to be alike there is how
the names are bound that can be free during the call; what the call does to scopes keeps it so.
-/

namespace Lox

/-- The first of some scopes that binds a name. -/
def Env.binder? (e : Env) (ids : List ScopeId) (x : String) : Option ScopeId :=
  ids.find? fun id => (e.scope id).binds x

/-- Two stacks that a function can be called on, and what the call can come across. -/
structure Callers where
  one : List ScopeId
  other : List ScopeId
  /-- The number of scopes that there are before the call. -/
  size : Nat
  /-- The names that can be free in functions within reach of the call. -/
  names : List String
  /-- The scopes that can be kept by functions within reach of the call. -/
  keeps : ScopeId → Prop

namespace Callers

variable (σ : Callers)

/-- The scopes that bindings are made in for the call: those that its functions keep, and new
ones. -/
def Own (id : ScopeId) : Prop := σ.keeps id ∨ σ.size ≤ id

/-- Whether a function is within reach of the call. -/
def Reaches (e : Env) (f : Function) : Prop :=
  (∀ c ∈ f.closure?, σ.Own c) ∧ f.free e ⊆ σ.names

/-- Whether a value is within reach of the call, which a function can fail to be. -/
def ReachesValue (v : Value) (e : Env) : Prop := ∀ f, v = .func f → σ.Reaches e f

/-- The scopes of the one caller, and the global one. -/
def lower : List ScopeId := σ.one ++ [Env.global]

/-- The scopes of the other caller, and the global one. -/
def otherLower : List ScopeId := σ.other ++ [Env.global]

/-- What has to be so where the function is called, and stays so during the call. -/
structure Agree (e : Env) : Prop where
  size : σ.size ≤ e.scopes.size
  exist : ∀ id ∈ σ.lower ++ σ.otherLower, id < σ.size
  /-- The callers bind the names that can be free in the same scopes. -/
  alike : ∀ x ∈ σ.names, e.binder? σ.otherLower x = e.binder? σ.lower x
  /-- What is within reach by these names is within reach of the call. -/
  bound : ∀ x ∈ σ.names, ∀ id, e.binder? σ.lower x = some id →
    ∀ f, (e.scope id).get? x = some (.func f) → σ.Reaches e f
  /-- What is within reach in the scopes of the call is within reach of the call. -/
  kept : ∀ id, σ.Own id → ∀ x f, (e.scope id).get? x = some (.func f) → σ.Reaches e f

/-- During the call its own scopes lie on those of the one caller. -/
structure Holds (own : List ScopeId) (e : Env) : Prop extends σ.Agree e where
  stack : e.inner = own ++ σ.one
  own : ∀ id ∈ own, σ.Own id

/-- What a step of the call does to scopes. -/
structure Grows (e e' : Env) : Prop where
  size : e.scopes.size ≤ e'.scopes.size
  /-- What is bound stays bound. -/
  binds : ∀ id x, (e.scope id).binds x = true → (e'.scope id).binds x = true
  /-- In the scopes that functions do not keep, only names that can be free get other values. -/
  frame : ∀ id < σ.size, ¬σ.keeps id → ∀ x, x ∉ σ.names →
    (e'.scope id).get? x = (e.scope id).get? x

/-- A name that the call can look up: it can be free, or a scope of the call binds it. -/
def Sees (own : List ScopeId) (e : Env) (x : String) : Prop :=
  x ∈ σ.names ∨ ∃ id ∈ own, (e.scope id).binds x = true

variable {σ} {own : List ScopeId} {e e' e'' : Env}

namespace Grows

/-- Nothing is done. -/
theorem refl (e : Env) : σ.Grows e e :=
  ⟨Nat.le_refl _, fun _ _ h => h, fun _ _ _ _ _ => rfl⟩

/-- Two steps are one. -/
theorem trans (h : σ.Grows e e') (h' : σ.Grows e' e'') : σ.Grows e e'' := by
  refine ⟨Nat.le_trans h.size h'.size, fun id x hx => h'.binds id x (h.binds id x hx), ?_⟩
  intro id hid hkeeps x hx
  rw [h'.frame id hid hkeeps x hx, h.frame id hid hkeeps x hx]

/-- Only scopes count. -/
theorem of_scope (hsize : e.scopes.size ≤ e'.scopes.size) (h : ∀ id, e'.scope id = e.scope id) :
    σ.Grows e e' :=
  ⟨hsize, fun id _ hx => h id ▸ hx, fun id _ _ _ _ => by rw [h id]⟩

/-- Functions within reach stay so: as scopes come to bind more, less is free. -/
theorem reaches (h : σ.Grows e e') {f : Function} (hf : σ.Reaches e f) : σ.Reaches e' f := by
  refine ⟨hf.1, List.Subset.trans ?_ hf.2⟩
  cases f with
  | builtin fn => exact List.Subset.refl _
  | user name params body closure =>
    exact Function.free_subset (fun x hx => h.binds closure x (Scope.binds_iff_mem_names.2 hx))
      name params body

/-- Values within reach stay so. -/
theorem reachesValue (h : σ.Grows e e') {v : Value} (hv : σ.ReachesValue v e) :
    σ.ReachesValue v e' := fun f hf => h.reaches (hv f hf)

/-- Names that are seen stay so. -/
theorem sees (h : σ.Grows e e') {x : String} (hx : σ.Sees own e x) : σ.Sees own e' x := by
  rcases hx with hx | ⟨id, hid, hbinds⟩
  · exact .inl hx
  · exact .inr ⟨id, hid, h.binds id x hbinds⟩

end Grows

/-! ### Environments during the call -/

private theorem binder?_congr {ids : List ScopeId}
    (h : ∀ id ∈ ids, ∀ x, (e'.scope id).binds x = (e.scope id).binds x) (x : String) :
    e'.binder? ids x = e.binder? ids x := by
  induction ids with
  | nil => rfl
  | cons id ids ih =>
    obtain ⟨hid, hids⟩ := List.forall_mem_cons.1 h
    have hrest := ih hids
    simp only [Env.binder?, List.find?_cons] at hrest ⊢
    rw [hid x, hrest]

namespace Agree

private theorem step (h : σ.Agree e) (hgrows : σ.Grows e e')
    (hbinds : ∀ id < σ.size, ∀ x, (e'.scope id).binds x = (e.scope id).binds x)
    (hget : ∀ id x f, (e'.scope id).get? x = some (.func f) →
      σ.Reaches e f ∨ (e.scope id).get? x = some (.func f)) : σ.Agree e' := by
  have hlower (x : String) : e'.binder? σ.lower x = e.binder? σ.lower x :=
    binder?_congr (fun id hid => hbinds id (h.exist id (List.mem_append_left _ hid))) x
  have hother (x : String) : e'.binder? σ.otherLower x = e.binder? σ.otherLower x :=
    binder?_congr (fun id hid => hbinds id (h.exist id (List.mem_append_right _ hid))) x
  refine ⟨Nat.le_trans h.size hgrows.size, h.exist, ?_, ?_, ?_⟩
  · intro x hx
    rw [hlower, hother]
    exact h.alike x hx
  · intro x hx id hid f hf
    rw [hlower] at hid
    rcases hget id x f hf with hreach | hold
    · exact hgrows.reaches hreach
    · exact hgrows.reaches (h.bound x hx id hid f hold)
  · intro id hid x f hf
    rcases hget id x f hf with hreach | hold
    · exact hgrows.reaches hreach
    · exact hgrows.reaches (h.kept id hid x f hold)

/-- Only scopes count. -/
theorem of_scope (h : σ.Agree e) (hsize : e.scopes.size ≤ e'.scopes.size)
    (hscope : ∀ id, e'.scope id = e.scope id) : σ.Agree e' :=
  h.step (.of_scope hsize hscope) (fun id _ _ => by rw [hscope id])
    fun id _ _ hf => .inr (hscope id ▸ hf)

end Agree

/-- Where a binding can be made for the call: in a scope that is new, or for a name that is bound
there and within reach. -/
def Place (σ : Callers) (e : Env) (id : ScopeId) (x : String) : Prop :=
  σ.size ≤ id ∨ (e.scope id).binds x = true ∧ (σ.keeps id ∨ x ∈ σ.names)

/-- Making a binding is a step of the call. -/
theorem Grows.putIn {id : ScopeId} {x : String} (hplace : Place σ e id x) (v : Value) :
    σ.Grows e (e.putIn id x v) := by
  refine ⟨Nat.le_of_eq (Env.size_putIn ..).symm, fun _ _ hbinds => Env.binds_putIn hbinds, ?_⟩
  intro other hother hkeeps y hy
  by_cases hid : other = id
  · subst hid
    rcases hplace with hnew | ⟨hbinds, hkept | hx⟩
    · exact (Nat.not_le_of_lt hother hnew).elim
    · exact (hkeeps hkept).elim
    · have hne : y ≠ x := by
        intro heq
        exact hy (heq ▸ hx)
      rw [Env.scope_putIn_self (Env.lt_of_binds hbinds), Scope.get?_put_ne hne]
  · rw [Env.scope_putIn_of_ne hid]

private theorem Agree.putIn (h : σ.Agree e) {id : ScopeId} {x : String}
    (hplace : Place σ e id x) {v : Value} (hv : σ.ReachesValue v e) :
    σ.Agree (e.putIn id x v) := by
  refine h.step (Grows.putIn hplace v) ?_ ?_
  · intro other hother y
    rcases hplace with hnew | ⟨hbinds, -⟩
    · rw [Env.scope_putIn_of_ne (Nat.ne_of_lt (Nat.lt_of_lt_of_le hother hnew))]
    · exact Env.binds_putIn_of_binds hbinds v other y
  · intro other y f hf
    rcases Env.get?_scope_putIn hf with heq | hold
    · exact .inl (hv f heq.symm)
    · exact .inr hold

/-- The call can bind what is within reach. -/
theorem Holds.putIn (h : σ.Holds own e) {id : ScopeId} {x : String}
    (hplace : Place σ e id x) {v : Value} (hv : σ.ReachesValue v e) :
    σ.Holds own (e.putIn id x v) :=
  ⟨Agree.putIn h.toAgree hplace hv, h.stack, h.own⟩

/-- Copying the innermost scope is a step of the call. -/
theorem Grows.snapshot (h : σ.size ≤ e.scopes.size) : σ.Grows e e.snapshot.2 := by
  refine ⟨?_, fun id x hbinds => ?_, fun id hid _ _ _ => ?_⟩
  · rw [Env.size_snapshot]
    exact Nat.le_succ _
  · rw [Env.scope_snapshot_of_lt (Env.lt_of_binds hbinds)]
    exact hbinds
  · rw [Env.scope_snapshot_of_lt (Nat.lt_of_lt_of_le hid h)]

/-- The call can copy a scope of its own. -/
theorem Holds.snapshot (h : σ.Holds own e) (htop : σ.Own e.top) :
    σ.Holds own e.snapshot.2 := by
  refine ⟨h.toAgree.step (Grows.snapshot h.size) ?_ ?_, h.stack, h.own⟩
  · intro id hid x
    rw [Env.scope_snapshot_of_lt (Nat.lt_of_lt_of_le hid h.size)]
  · intro id x f hf
    by_cases hid : id = e.scopes.size
    · subst hid
      rw [Env.scope_snapshot_self] at hf
      exact .inl (h.kept e.top htop x f hf)
    · rw [Env.scope_snapshot_of_ne hid] at hf
      exact .inr hf

/-! ### Looking names up -/

private theorem owner?_eq_binder? (h : e.inner = own ++ σ.one) (x : String) :
    e.owner? x = (e.binder? own x).or (e.binder? σ.lower x) := by
  rw [Env.owner?_eq_find?, Env.stack, h, List.append_assoc, List.find?_append]
  rfl

/-- Both callers have the names that the call sees bound in the same scopes. -/
theorem owner?_on (h : σ.Holds own e) {x : String} (hx : σ.Sees own e x) :
    Env.owner? ⟨e.scopes, own ++ σ.other⟩ x = e.owner? x := by
  have hother : Env.owner? ⟨e.scopes, own ++ σ.other⟩ x =
      (e.binder? own x).or (e.binder? σ.otherLower x) := by
    rw [Env.owner?_eq_find?, Env.stack, List.append_assoc, List.find?_append]
    rfl
  rw [hother, owner?_eq_binder? h.stack]
  rcases hx with hx | ⟨id, hid, hbinds⟩
  · rw [h.alike x hx]
  · have hsome : (e.binder? own x).isSome = true := List.find?_isSome.2 ⟨id, hid, hbinds⟩
    obtain ⟨owner, howner⟩ := Option.isSome_iff_exists.1 hsome
    rw [howner, Option.some_or, Option.some_or]

/-- Both callers have the names that the call sees bound to the same values. -/
theorem get?_on (h : σ.Holds own e) {x : String} (hx : σ.Sees own e x) :
    Env.get? ⟨e.scopes, own ++ σ.other⟩ x = e.get? x := by
  unfold Env.get?
  rw [owner?_on h hx]
  rfl

/-- A name that the call sees is bound in a scope of the call, or it can be free and is bound in a
scope of the callers. -/
theorem own_or_lower (h : σ.Holds own e) {x : String} (hx : σ.Sees own e x) {id : ScopeId}
    (hid : e.owner? x = some id) : σ.Own id ∨ x ∈ σ.names ∧ e.binder? σ.lower x = some id := by
  rw [owner?_eq_binder? h.stack] at hid
  cases hown : e.binder? own x with
  | some owner =>
    rw [hown, Option.some_or, Option.some.injEq] at hid
    subst hid
    exact .inl (h.own _ (List.mem_of_find?_eq_some hown))
  | none =>
    rw [hown, Option.none_or] at hid
    rcases hx with hx | ⟨other, hother, hbinds⟩
    · exact .inr ⟨hx, hid⟩
    · have hnone := List.find?_eq_none.1 hown other hother
      exact (hnone hbinds).elim

/-- What the call looks up is within reach. -/
theorem reachesValue_of_get? (h : σ.Holds own e) {x : String} (hx : σ.Sees own e x)
    {v : Value} (hv : e.get? x = some v) : σ.ReachesValue v e := by
  intro f hf
  subst hf
  obtain ⟨id, hid, hget⟩ := Option.bind_eq_some_iff.1 hv
  rcases own_or_lower h hx hid with hown | ⟨hx, hlower⟩
  · exact h.kept id hown x f hget
  · exact h.bound x hx id hlower f hget

end Callers

end Lox
