import Lox.Proofs.Visibility

/-!
# Renaming of scopes

Nothing that a program does depends on which identities its scopes have. A run is mirrored by a run
of the same program whose scopes have other identities, and on whose stack there may be empty scopes
besides: both end alike, with the same text, and the scopes of the one are those of the other. Only
what binds a name or copies a scope has to know that none of the empty ones is innermost.
-/

namespace Lox

/-! ### Other identities -/

/-- The same function with its scope under another identity. -/
def Function.rename (ρ : ScopeId → ScopeId) : Function → Function
  | user name params body closure => user name params body (ρ closure)
  | builtin fn => builtin fn

/-- The same value with scopes under other identities. -/
def Value.rename (ρ : ScopeId → ScopeId) : Value → Value
  | func f => func (f.rename ρ)
  | v => v

/-- The same bindings, of values with scopes under other identities. -/
def Scope.rename (ρ : ScopeId → ScopeId) (s : Scope) : Scope :=
  s.map fun b => (b.1, b.2.rename ρ)

/-- The same fault of values with scopes under other identities. -/
def Fault.rename (ρ : ScopeId → ScopeId) : Fault → Fault
  | typeMismatch found expected => typeMismatch (found.rename ρ) expected
  | invalidBinary lhs op rhs => invalidBinary (lhs.rename ρ) op (rhs.rename ρ)
  | invalidUnary op operand => invalidUnary op (operand.rename ρ)
  | unsupportedTruthiness v => unsupportedTruthiness (v.rename ρ)
  | divisionByZero dividend => divisionByZero (dividend.rename ρ)
  | f => f

/-- The same stop with scopes under other identities. -/
def Stop.rename (ρ : ScopeId → ScopeId) : Stop → Stop
  | fault f => fault (f.rename ρ)
  | s => s

/-- The same end of a statement with scopes under other identities. -/
def Flow.rename (ρ : ScopeId → ScopeId) : Flow → Flow
  | next => next
  | value v => value (v.rename ρ)
  | returned v => returned (v.rename ρ)

/-- The same result of an operation with scopes under other identities. -/
def renameResult {α : Type} (ρ : ScopeId → ScopeId) (g : α → α) :
    Except Fault α → Except Fault α
  | .ok a => .ok (g a)
  | .error f => .error (f.rename ρ)

/-- The same end of an evaluation with scopes under other identities, in the world `w`. -/
def renameEnd {α : Type} (ρ : ScopeId → ScopeId) (g : α → α) (w : World) :
    EStateM.Result Stop World α → EStateM.Result Stop World α
  | .ok a _ => .ok (g a) w
  | .error s _ => .error (s.rename ρ) w

section Names

variable {ρ : ScopeId → ScopeId}

namespace Scope

/-- A name has its value, renamed. -/
theorem get?_rename (s : Scope) (x : String) :
    (s.rename ρ).get? x = (s.get? x).map (·.rename ρ) := by
  induction s with
  | nil => rfl
  | cons b s ih =>
    obtain ⟨y, v⟩ := b
    simp only [rename, get?, List.map_cons, List.lookup_cons] at ih ⊢
    cases x == y with
    | true => rfl
    | false => exact ih

/-- The same names are bound. -/
@[simp] theorem binds_rename (s : Scope) (x : String) : (s.rename ρ).binds x = s.binds x := by
  rw [binds, get?_rename, Option.isSome_map, binds]

/-- Binding a name commutes with renaming. -/
theorem rename_put (x : String) (v : Value) (s : Scope) :
    (s.put x v).rename ρ = (s.rename ρ).put x (v.rename ρ) := by
  induction s with
  | nil => rfl
  | cons b s ih =>
    obtain ⟨y, u⟩ := b
    simp only [rename, put, List.map_cons] at ih ⊢
    split
    · rfl
    · rw [List.map_cons, ih]

end Scope

namespace Value

/-- A function is written as before. -/
@[simp] theorem text_rename (v : Value) : (v.rename ρ).text = v.text := by
  cases v with
  | func f => cases f <;> rfl
  | _ => rfl

@[simp] theorem isWritable_rename (v : Value) : (v.rename ρ).isWritable = v.isWritable := by
  cases v <;> rfl

@[simp] theorem text?_rename (v : Value) : (v.rename ρ).text? = v.text? := by
  rw [text?, text?, isWritable_rename, text_rename]

theorem truth_rename (v : Value) : (v.rename ρ).truth = renameResult ρ id v.truth := by
  cases v <;> rfl

theorem function_rename (v : Value) :
    (v.rename ρ).function = renameResult ρ (Function.rename ρ) v.function := by
  cases v <;> rfl

theorem unary_rename (op : UnaryOp) (v : Value) :
    (v.rename ρ).unary op = renameResult ρ (rename ρ) (v.unary op) := by
  cases v <;> cases op <;> rfl

private theorem divideInt_rename (a b : Int) :
    (divideInt a b).map int = renameResult ρ (rename ρ) ((divideInt a b).map int) := by
  unfold divideInt
  split <;> rfl

private theorem divideFloat_rename (a b : Float) :
    (divideFloat a b).map float = renameResult ρ (rename ρ) ((divideFloat a b).map float) := by
  unfold divideFloat
  split <;> rfl

/-- Operators do not see the scopes of functions. -/
theorem binary_rename (op : BinaryOp) (a b : Value) :
    binary op (a.rename ρ) (b.rename ρ) = renameResult ρ (rename ρ) (binary op a b) := by
  cases a with
  | int m =>
    cases b with
    | int n =>
      cases op with
      | divide => exact divideInt_rename m n
      | _ => rfl
    | _ => rfl
  | float x =>
    cases b with
    | float y =>
      cases op with
      | divide => exact divideFloat_rename x y
      | _ => rfl
    | _ => rfl
  | bool p =>
    cases b with
    | bool q => cases op <;> rfl
    | _ => rfl
  | _ => rfl

end Value

namespace Builtin

private theorem choose_rename (fn : Builtin) (ints : Int → Int → Bool)
    (floats : Float → Float → Bool) (a b : Value) :
    choose fn ints floats (a.rename ρ) (b.rename ρ) =
      renameResult ρ (Value.rename ρ) (choose fn ints floats a b) := by
  cases a with
  | int m =>
    cases b with
    | int n =>
      show Except.ok (if ints m n then Value.int m else Value.int n) =
        renameResult ρ (Value.rename ρ) (.ok (if ints m n then Value.int m else Value.int n))
      split <;> rfl
    | _ => rfl
  | float x =>
    cases b with
    | float y =>
      show Except.ok (if floats x y then Value.float x else Value.float y) =
        renameResult ρ (Value.rename ρ) (.ok (if floats x y then Value.float x else Value.float y))
      split <;> rfl
    | _ => rfl
  | _ => cases b <;> rfl

/-- Built-in functions do not see the scopes of functions. -/
theorem apply_rename (fn : Builtin) (args : List Value) :
    fn.apply (args.map (·.rename ρ)) = renameResult ρ (Value.rename ρ) (fn.apply args) := by
  have hlength : (args.map (·.rename ρ)).length = args.length := List.length_map _
  cases args with
  | nil => cases fn <;> rfl
  | cons a args =>
    cases args with
    | nil =>
      cases fn with
      | abs => cases a <;> rfl
      | _ => rfl
    | cons b args =>
      cases args with
      | nil =>
        cases fn with
        | abs => cases a <;> rfl
        | min | max => exact choose_rename ..
      | cons c args =>
        have herror := congrArg (fun n => (Except.error (.wrongArity fn.params.length n) :
          Except Fault Value)) hlength
        cases fn with
        | abs => cases a <;> exact herror
        | min | max => exact herror

end Builtin

namespace Fault

/-- A fault is put into words as before. -/
theorem subjects_rename (f : Fault) : (f.rename ρ).subjects = f.subjects := by
  cases f <;> simp [rename, subjects]

@[simp] theorem isWritable_rename (f : Fault) : (f.rename ρ).isWritable = f.isWritable := by
  cases f <;> simp [rename, isWritable]

/-- What is said about a fault is the same. -/
theorem notice_rename (style : Text.Style) (f : Fault) :
    (f.rename ρ).notice style = f.notice style := by
  have hcause : (f.rename ρ).cause? = f.cause? := by cases f <;> rfl
  rw [notice, notice, hcause, subjects_rename]

end Fault

/-- The value of a call is that of its body, renamed. -/
theorem Flow.callValue_rename (flow : Flow) :
    (flow.rename ρ).callValue = flow.callValue.rename ρ := by
  cases flow <;> rfl

/-- The texts of arguments are the same. -/
theorem Eval.texts_rename (args : List Value) : texts (args.map (·.rename ρ)) = texts args := by
  induction args with
  | nil => rfl
  | cons v args ih => simp only [List.map_cons, texts, Value.text?_rename, ih]

end Names

/-! ### Environments side by side -/

/-- How a run is mirrored by another: the identities that its scopes have there, and the stack that
it began on. On the stack of the other run there are `extra` scopes in which nothing is bound. -/
structure Mirror where
  there : ScopeId → ScopeId
  below : List ScopeId
  extra : List ScopeId
  injective : ∀ {i j}, there i = there j → i = j
  global : there Env.global = Env.global
  unnamed : ∀ i, there i ∉ extra

namespace Mirror

/-- The scopes of the one environment are those of the other, and what was laid on the stack of the
one lies on that of the other. -/
structure Holds (σ : Mirror) (own : List ScopeId) (e e' : Env) : Prop where
  stack : e.inner = own ++ σ.below
  stack' : e'.inner = own.map σ.there ++ (σ.extra ++ σ.below.map σ.there)
  fresh : ∀ n, σ.there (e.scopes.size + n) = e'.scopes.size + n
  scope : ∀ id, e'.scope (σ.there id) = (e.scope id).rename σ.there
  blank : ∀ id ∈ σ.extra, e'.scope id = []

/-- So it is in the one world and in the other, and the same has been printed and noted. -/
structure Reflects (σ : Mirror) (own : List ScopeId) (w w' : World) : Prop
    extends σ.Holds own w.env w'.env where
  printed : w'.printed = w.printed
  trace : w'.trace = w.trace

/-- Whether the innermost scope of the one is that of the other. -/
def Grounded (σ : Mirror) (own : List ScopeId) : Prop := own ≠ [] ∨ σ.extra = []

variable {σ : Mirror} {own : List ScopeId} {e e' : Env}

namespace Holds

/-- A scope that is made now has the next identity on either side. -/
theorem next (h : σ.Holds own e e') : σ.there e.scopes.size = e'.scopes.size := h.fresh 0

/-- Scopes that exist are scopes that exist. -/
theorem lt_size (h : σ.Holds own e e') {id : ScopeId} (hid : id < e.scopes.size) :
    σ.there id < e'.scopes.size := by
  refine Nat.lt_of_not_le fun hle => ?_
  obtain ⟨n, hn⟩ := Nat.exists_eq_add_of_le hle
  have hid' : id = e.scopes.size + n := σ.injective (by rw [h.fresh, hn])
  rw [hid'] at hid
  exact Nat.not_lt_of_le (Nat.le_add_right _ n) hid

/-- Scopes that do not exist are scopes that do not exist. -/
theorem size_le (h : σ.Holds own e e') {id : ScopeId} (hid : e.scopes.size ≤ id) :
    e'.scopes.size ≤ σ.there id := by
  obtain ⟨n, rfl⟩ := Nat.exists_eq_add_of_le hid
  rw [h.fresh]
  exact Nat.le_add_right _ n

/-- The innermost scope of the one is that of the other. -/
theorem top (h : σ.Holds own e e') (hown : σ.Grounded own) : e'.top = σ.there e.top := by
  rw [Env.top, Env.top, h.stack, h.stack']
  cases own with
  | cons id own => rfl
  | nil =>
    have hextra : σ.extra = [] := hown.resolve_left fun hne => hne rfl
    rw [hextra]
    cases σ.below with
    | nil => exact σ.global.symm
    | cons id below => rfl

/-- Names are found in the same scopes. -/
theorem owner? (h : σ.Holds own e e') (x : String) : e'.owner? x = (e.owner? x).map σ.there := by
  have hbinds : (fun id => (e'.scope id).binds x) ∘ σ.there = fun id => (e.scope id).binds x := by
    funext id
    simp only [Function.comp_apply, h.scope, Scope.binds_rename]
  have hextra : σ.extra.find? (fun id => (e'.scope id).binds x) = none := by
    refine List.find?_eq_none.2 fun id hid => ?_
    rw [h.blank id hid]
    simp [Scope.binds, Scope.get?]
  have hstack : e.stack = own ++ σ.below ++ [Env.global] := by rw [Env.stack, h.stack]
  have hstack' : e'.stack =
      own.map σ.there ++ (σ.extra ++ σ.below.map σ.there) ++ [Env.global].map σ.there := by
    rw [Env.stack, h.stack', List.map_singleton, σ.global]
  rw [Env.owner?_eq_find?, Env.owner?_eq_find?, hstack, hstack']
  simp only [List.find?_append, hextra, Option.none_or, List.find?_map, hbinds, Option.map_or]

/-- Names have the same values. -/
theorem get? (h : σ.Holds own e e') (x : String) :
    e'.get? x = (e.get? x).map (·.rename σ.there) := by
  rw [Env.get?, Env.get?, h.owner?]
  cases e.owner? x with
  | none => rfl
  | some id =>
    simp only [Option.map_some, Option.bind_some, h.scope, Scope.get?_rename]

/-- A binding is made on both sides. -/
theorem putIn (h : σ.Holds own e e') (id : ScopeId) (x : String) (v : Value) :
    σ.Holds own (e.putIn id x v) (e'.putIn (σ.there id) x (v.rename σ.there)) where
  stack := h.stack
  stack' := h.stack'
  fresh n := by simpa only [Env.size_putIn] using h.fresh n
  scope other := by
    by_cases hid : other = id
    · subst hid
      by_cases hlt : other < e.scopes.size
      · rw [Env.scope_putIn_self hlt, Env.scope_putIn_self (h.lt_size hlt), h.scope,
          Scope.rename_put]
      · have hle : e.scopes.size ≤ other := Nat.le_of_not_lt hlt
        rw [Env.scope_of_size_le (by rw [Env.size_putIn]; exact h.size_le hle),
          Env.scope_of_size_le (by rw [Env.size_putIn]; exact hle)]
        rfl
    · rw [Env.scope_putIn_of_ne hid, Env.scope_putIn_of_ne fun heq => hid (σ.injective heq),
        h.scope]
  blank other hother := by
    have hne : other ≠ σ.there id := by
      rintro rfl
      exact σ.unnamed id hother
    rw [Env.scope_putIn_of_ne hne, h.blank other hother]

/-- The innermost scope is copied on both sides. -/
theorem snapshot (h : σ.Holds own e e') (hown : σ.Grounded own) :
    σ.Holds own e.snapshot.2 e'.snapshot.2 where
  stack := h.stack
  stack' := h.stack'
  fresh n := by
    rw [Env.size_snapshot, Env.size_snapshot, Nat.add_assoc, Nat.add_assoc]
    exact h.fresh (1 + n)
  scope id := by
    by_cases hid : id = e.scopes.size
    · subst hid
      rw [h.next, Env.scope_snapshot_self, Env.scope_snapshot_self, h.top hown, h.scope]
    · have hne : σ.there id ≠ e'.scopes.size := fun heq => hid (σ.injective (heq.trans h.next.symm))
      rw [Env.scope_snapshot_of_ne hid, Env.scope_snapshot_of_ne hne, h.scope]
  blank id hid := by
    have hne : id ≠ e'.scopes.size := by
      rintro rfl
      exact σ.unnamed _ (h.next ▸ hid)
    rw [Env.scope_snapshot_of_ne hne, h.blank id hid]

/-- A new scope is laid on both stacks. -/
theorem push (h : σ.Holds own e e') : σ.Holds (e.scopes.size :: own) e.push e'.push where
  stack := by rw [Env.inner_push, h.stack, List.cons_append]
  stack' := by rw [Env.inner_push, h.stack', List.map_cons, h.next, List.cons_append]
  fresh n := by
    rw [Env.size_push, Env.size_push, Nat.add_assoc, Nat.add_assoc]
    exact h.fresh (1 + n)
  scope id := by rw [Env.scope_push, Env.scope_push, h.scope]
  blank id hid := by rw [Env.scope_push, h.blank id hid]

/-- A scope that exists is laid on both stacks. -/
theorem pushShared (h : σ.Holds own e e') (id : ScopeId) :
    σ.Holds (id :: own) (e.pushShared id) (e'.pushShared (σ.there id)) where
  stack := by rw [Env.inner_pushShared, h.stack, List.cons_append]
  stack' := by rw [Env.inner_pushShared, h.stack', List.map_cons, List.cons_append]
  fresh := h.fresh
  scope := h.scope
  blank := h.blank

end Holds

/-- The innermost scope is taken from both stacks. -/
theorem Reflects.pop {id : ScopeId} {w w' : World} (h : σ.Reflects (id :: own) w w') :
    σ.Reflects own (w.on (own ++ σ.below))
      (w'.on (own.map σ.there ++ (σ.extra ++ σ.below.map σ.there))) :=
  ⟨⟨rfl, rfl, h.fresh, h.scope, h.blank⟩, h.printed, h.trace⟩

/-! ### Steps side by side -/

/-- A step ends where it ends, with other values. -/
@[simp] theorem endState_renameEnd {α : Type} (ρ : ScopeId → ScopeId) (g : α → α) (w : World)
    (res : EStateM.Result Stop World α) : endState (renameEnd ρ g w res) = w := by
  cases res <;> rfl

/-- From worlds of which one reflects the other, two steps lead to such worlds, and end alike. -/
def Mirrors {α : Type} (σ : Mirror) (own : List ScopeId) (g : α → α) (act act' : Eval α) : Prop :=
  ∀ w w', σ.Reflects own w w' → ∃ w₁, σ.Reflects own (endState (act w)) w₁ ∧
    act' w' = renameEnd σ.there g w₁ (act w)

/-- Function bodies do the same on both sides. -/
def Enters (σ : Mirror) (ctx : Context) : Prop :=
  ∀ own body, σ.Mirrors own (Flow.rename σ.there) (ctx.enter body) (ctx.enter body)

section Steps

variable {α β : Type} {f : α → α} {g : β → β}

private theorem mirrors_pure (a : α) : σ.Mirrors own f (pure a) (pure (f a)) :=
  fun _ w' h => ⟨w', h, rfl⟩

private theorem mirrors_flow (flow : Flow) :
    σ.Mirrors own (Flow.rename σ.there) (pure flow) (pure (flow.rename σ.there)) :=
  mirrors_pure flow

private theorem mirrors_throw (s : Stop) :
    σ.Mirrors own f (throw s) (throw (s.rename σ.there)) := fun _ w' h => ⟨w', h, rfl⟩

private theorem mirrors_bind {act act' : Eval α} {next next' : α → Eval β}
    (hact : σ.Mirrors own f act act') (hnext : ∀ a, σ.Mirrors own g (next a) (next' (f a))) :
    σ.Mirrors own g (act >>= next) (act' >>= next') := by
  intro w w' h
  obtain ⟨w₁, h₁, heq⟩ := hact w w' h
  cases hres : act w with
  | ok a w₂ =>
    rw [hres] at h₁ heq
    rw [bind_of_ok hres, bind_of_ok heq]
    exact hnext a w₂ w₁ h₁
  | error s w₂ =>
    rw [hres] at h₁ heq
    rw [bind_of_error hres, bind_of_error heq]
    exact ⟨w₁, h₁, rfl⟩

private theorem mirrors_raise (fault : Fault) :
    σ.Mirrors own f (Eval.raise fault) (Eval.raise (fault.rename σ.there)) := by
  unfold Eval.raise
  rw [Fault.isWritable_rename]
  cases fault.isWritable with
  | true => exact mirrors_throw (.fault fault)
  | false => exact mirrors_throw .unwritable

private theorem mirrors_lift {result result' : Except Fault α}
    (h : result' = renameResult σ.there f result) :
    σ.Mirrors own f (Eval.lift result) (Eval.lift result') := by
  subst h
  cases result with
  | ok a => exact mirrors_pure a
  | error fault => exact mirrors_raise fault

private theorem mirrors_lookup (x : String) :
    σ.Mirrors own (Value.rename σ.there) (Eval.lookup x) (Eval.lookup x) := by
  intro w w' h
  have hget := h.get? x
  cases hx : w.env.get? x with
  | some v =>
    have hone : Eval.lookup x w = .ok v w := by simp only [Eval.lookup, hx]
    have hother : Eval.lookup x w' = .ok (v.rename σ.there) w' := by
      simp only [Eval.lookup, hget, hx, Option.map_some]
    rw [hone, hother]
    exact ⟨w', h, rfl⟩
  | none =>
    have hone : Eval.lookup x w = Eval.raise (.undefinedVariable x) w := by
      simp only [Eval.lookup, hx]
    have hother : Eval.lookup x w' = Eval.raise (.undefinedVariable x) w' := by
      simp only [Eval.lookup, hget, hx, Option.map_none]
    rw [hone, hother]
    exact mirrors_raise (.undefinedVariable x) w w' h

private theorem mirrors_assign (x : String) (v : Value) :
    σ.Mirrors own id (Eval.assign x v) (Eval.assign x (v.rename σ.there)) := by
  intro w w' h
  have howner := h.owner? x
  cases hx : w.env.owner? x with
  | some i =>
    have hone : Eval.assign x v w = .ok () ⟨w.env.putIn i x v, w.printed, w.trace⟩ := by
      simp only [Eval.assign, hx]
    have hother : Eval.assign x (v.rename σ.there) w' =
        .ok () ⟨w'.env.putIn (σ.there i) x (v.rename σ.there), w'.printed, w'.trace⟩ := by
      simp only [Eval.assign, howner, hx, Option.map_some]
    rw [hone, hother]
    exact ⟨⟨w'.env.putIn (σ.there i) x (v.rename σ.there), w'.printed, w'.trace⟩,
      ⟨h.putIn i x v, h.printed, h.trace⟩, rfl⟩
  | none =>
    have hone : Eval.assign x v w = Eval.raise (.undefinedVariable x) w := by
      simp only [Eval.assign, hx]
    have hother : Eval.assign x (v.rename σ.there) w' = Eval.raise (.undefinedVariable x) w' := by
      simp only [Eval.assign, howner, hx, Option.map_none]
    rw [hone, hother]
    exact mirrors_raise (.undefinedVariable x) w w' h

private theorem mirrors_define (hown : σ.Grounded own) (x : String) (v : Value) :
    σ.Mirrors own id (Eval.define x v) (Eval.define x (v.rename σ.there)) := by
  intro w w' h
  refine ⟨⟨w'.env.define x (v.rename σ.there), w'.printed, w'.trace⟩, ⟨?_, h.printed, h.trace⟩, rfl⟩
  have hput := h.putIn w.env.top x v
  rw [← h.top hown] at hput
  exact hput

private theorem mirrors_capture (hown : σ.Grounded own) :
    σ.Mirrors own σ.there Eval.capture Eval.capture := by
  intro w w' h
  refine ⟨⟨w'.env.snapshot.2, w'.printed, w'.trace⟩, ⟨h.snapshot hown, h.printed, h.trace⟩, ?_⟩
  exact congrArg (EStateM.Result.ok · _) h.next.symm

private theorem mirrors_write (text : String) :
    σ.Mirrors own id (Eval.write text) (Eval.write text) := fun _ w' h =>
  ⟨⟨w'.env, w'.printed ++ text, w'.trace⟩,
    ⟨h.toHolds, congrArg (· ++ text) h.printed, h.trace⟩, rfl⟩

private theorem mirrors_print (v : Value) :
    σ.Mirrors own id (Eval.print v) (Eval.print (v.rename σ.there)) := by
  unfold Eval.print
  rw [Value.text?_rename]
  cases v.text? with
  | some text => exact mirrors_write _
  | none => exact mirrors_throw .unwritable

private theorem mirrors_traceCall (ctx : Context) (fn : Function) (args : List Value) :
    σ.Mirrors own id (Eval.traceCall ctx fn args)
      (Eval.traceCall ctx (fn.rename σ.there) (args.map (·.rename σ.there))) := by
  have hname : (fn.rename σ.there).name = fn.name := by cases fn <;> rfl
  unfold Eval.traceCall Eval.noteCall
  rw [Eval.texts_rename, hname]
  cases ctx.tracing with
  | false => exact mirrors_pure ()
  | true =>
    cases Eval.texts args with
    | some ss =>
      exact fun _ w' h =>
        ⟨⟨w'.env, w'.printed, w'.trace.push _⟩, ⟨h.toHolds, h.printed,
          congrArg (Array.push · _) h.trace⟩, rfl⟩
    | none => exact mirrors_throw .unwritable

private theorem mirrors_checkArity (fn : Function) (args : List Value) :
    σ.Mirrors own id (Eval.checkArity fn args)
      (Eval.checkArity (fn.rename σ.there) (args.map (·.rename σ.there))) := by
  have harity : (fn.rename σ.there).arity = fn.arity := by cases fn <;> rfl
  unfold Eval.checkArity
  rw [harity, List.length_map]
  split
  · exact mirrors_pure ()
  · exact mirrors_raise (.wrongArity _ _)

private theorem mirrors_defineAll (hown : σ.Grounded own) (xs : List String) (vs : List Value) :
    σ.Mirrors own id (Eval.defineAll xs vs) (Eval.defineAll xs (vs.map (·.rename σ.there))) := by
  induction xs generalizing vs with
  | nil => exact mirrors_pure ()
  | cons x xs ih =>
    cases vs with
    | nil => exact mirrors_pure ()
    | cons v vs => exact mirrors_bind (mirrors_define hown x v) fun _ => ih vs

private theorem mirrors_within {push push' : Env → Env} {act act' : Eval α}
    (hpush : ∀ e e', σ.Holds own e e' → ∃ id, σ.Holds (id :: own) (push e) (push' e'))
    (hact : ∀ id, σ.Mirrors (id :: own) f act act') :
    σ.Mirrors own f (Eval.within push act) (Eval.within push' act') := by
  intro w w' h
  obtain ⟨id, hpushed⟩ := hpush _ _ h.toHolds
  obtain ⟨w₁, h₁, heq⟩ := hact id ⟨push w.env, w.printed, w.trace⟩
    ⟨push' w'.env, w'.printed, w'.trace⟩ ⟨hpushed, h.printed, h.trace⟩
  have hone : Eval.within push act w =
      endOn (own ++ σ.below) (act ⟨push w.env, w.printed, w.trace⟩) :=
    Callers.within_eq_endOn rfl h₁.stack
  have hinner : (endState (act' ⟨push' w'.env, w'.printed, w'.trace⟩)).env.inner =
      σ.there id :: (own.map σ.there ++ (σ.extra ++ σ.below.map σ.there)) := by
    rw [heq, endState_renameEnd]
    exact h₁.stack'
  have hother : Eval.within push' act' w' = endOn _ _ := Callers.within_eq_endOn rfl hinner
  refine ⟨w₁.on (own.map σ.there ++ (σ.extra ++ σ.below.map σ.there)), ?_, ?_⟩
  · rw [hone, endState_endOn]
    exact h₁.pop
  · rw [hone, hother, heq]
    cases act ⟨push w.env, w.printed, w.trace⟩ <;> rfl

private theorem mirrors_block {act : Eval Flow}
    (hact : ∀ id, σ.Mirrors (id :: own) (Flow.rename σ.there) act act) :
    σ.Mirrors own (Flow.rename σ.there) (Eval.within Env.push act) (Eval.within Env.push act) :=
  mirrors_within (fun e _ h => ⟨e.scopes.size, h.push⟩) hact

private theorem mirrors_repeatWhile {test : Eval Bool} {body : Eval Flow}
    (htest : σ.Mirrors own id test test) (hbody : σ.Mirrors own (Flow.rename σ.there) body body)
    (rounds : Nat) (last : Flow) :
    σ.Mirrors own (Flow.rename σ.there) (Eval.repeatWhile test body rounds last)
      (Eval.repeatWhile test body rounds (last.rename σ.there)) := by
  induction rounds generalizing last with
  | zero => exact mirrors_throw .exhausted
  | succ rounds ih =>
    refine mirrors_bind htest fun holds => ?_
    cases holds with
    | false => exact mirrors_flow last
    | true =>
      refine mirrors_bind hbody fun flow => ?_
      cases flow with
      | returned v => exact mirrors_flow (.returned v)
      | next => exact ih .next
      | value v => exact ih (.value v)

private theorem grounded_cons (id : ScopeId) : σ.Grounded (id :: own) :=
  .inl (List.cons_ne_nil id own)

variable {ctx : Context}

private theorem mirrors_apply (hctx : σ.Enters ctx) (fn : Function) (args : List Value) :
    σ.Mirrors own (Value.rename σ.there) (Eval.apply ctx fn args)
      (Eval.apply ctx (fn.rename σ.there) (args.map (·.rename σ.there))) := by
  refine mirrors_bind (mirrors_traceCall ctx fn args) fun _ =>
    mirrors_bind (mirrors_checkArity fn args) fun _ => ?_
  cases fn with
  | builtin fn => exact mirrors_lift (fn.apply_rename args)
  | user name params body closure =>
    have hbody : σ.Mirrors own (Flow.rename σ.there)
        (Eval.within (Env.pushShared closure) (Eval.within Env.push do
          Eval.defineAll params args
          ctx.enter body))
        (Eval.within (Env.pushShared (σ.there closure)) (Eval.within Env.push do
          Eval.defineAll params (args.map (·.rename σ.there))
          ctx.enter body)) := by
      refine mirrors_within (fun _ _ h => ⟨closure, h.pushShared closure⟩) fun _ =>
        mirrors_within (fun e _ h => ⟨e.scopes.size, h.push⟩) fun id => ?_
      exact mirrors_bind (mirrors_defineAll (grounded_cons id) params args) fun _ => hctx _ body
    refine mirrors_bind hbody fun flow => ?_
    rw [Flow.callValue_rename]
    exact mirrors_pure flow.callValue

end Steps

/-! ### Programs side by side -/

variable {ctx : Context}

mutual

/-- An expression has the same value on both sides, one case for each construct. -/
theorem mirrors_expr (hctx : σ.Enters ctx) (own : List ScopeId) (e : Expr) :
    σ.Mirrors own (Value.rename σ.there) (e.eval ctx) (e.eval ctx) := by
  cases e with
  | literal l =>
    have hvalue : l.value = l.value.rename σ.there := by cases l <;> rfl
    have hpure : σ.Mirrors own (Value.rename σ.there) (pure l.value)
        (pure (l.value.rename σ.there)) := mirrors_pure l.value
    rw [← hvalue] at hpure
    exact hpure
  | name x => exact mirrors_lookup x
  | access a b => exact mirrors_raise (.unsupportedOperation .memberAccess)
  | hole => exact mirrors_raise .expectedValue
  | unary op e =>
    exact mirrors_bind (mirrors_expr hctx own e) fun v => mirrors_lift (v.unary_rename op)
  | binary op a b =>
    have ha := mirrors_expr hctx own a
    have hb := mirrors_expr hctx own b
    have htruth (v : Value) : σ.Mirrors own id (Eval.lift v.truth)
        (Eval.lift (v.rename σ.there).truth) := mirrors_lift v.truth_rename
    have hatom (holds : Bool) : σ.Mirrors own (Value.rename σ.there) (pure (.bool holds))
        (pure (.bool holds)) := mirrors_pure (Value.bool holds)
    -- the right operand of a connective, of which only the truth counts
    have htest : σ.Mirrors own (Value.rename σ.there)
        (do let v ← b.eval ctx; let holds ← Eval.lift v.truth; pure (Value.bool holds))
        (do let v ← b.eval ctx; let holds ← Eval.lift v.truth; pure (Value.bool holds)) :=
      mirrors_bind hb fun v => mirrors_bind (htruth v) hatom
    cases op with
    | and =>
      refine mirrors_bind ha fun lhs => mirrors_bind (htruth lhs) fun holds => ?_
      cases holds with
      | false => exact hatom false
      | true => exact htest
    | or =>
      refine mirrors_bind ha fun lhs => mirrors_bind (htruth lhs) fun holds => ?_
      cases holds with
      | false => exact htest
      | true => exact hatom true
    | _ =>
      exact mirrors_bind ha fun lhs => mirrors_bind hb fun rhs =>
        mirrors_lift (Value.binary_rename _ lhs rhs)
  | assign target e =>
    refine mirrors_bind (mirrors_expr hctx own e) fun v => ?_
    cases target with
    | name x => exact mirrors_bind (mirrors_assign x v) fun _ => mirrors_pure v
    | _ => exact mirrors_raise (.unsupportedOperation .assignTarget)
  | call callee args =>
    exact mirrors_bind (mirrors_lookup callee) fun v =>
      mirrors_bind (mirrors_lift v.function_rename) fun fn =>
        mirrors_bind (mirrors_exprs hctx own args) fun vs => mirrors_apply hctx fn vs
termination_by structural e

/-- So have expressions from left to right. -/
theorem mirrors_exprs (hctx : σ.Enters ctx) (own : List ScopeId) (es : List Expr) :
    σ.Mirrors own (List.map (·.rename σ.there)) (Expr.evalAll ctx es) (Expr.evalAll ctx es) := by
  cases es with
  | nil => exact mirrors_pure []
  | cons e es =>
    exact mirrors_bind (mirrors_expr hctx own e) fun v =>
      mirrors_bind (mirrors_exprs hctx own es) fun vs => mirrors_pure (v :: vs)
termination_by structural es

end

/-- A condition holds on both sides or on neither. -/
theorem mirrors_condition (hctx : σ.Enters ctx) (own : List ScopeId) (cond : Expr) :
    σ.Mirrors own id (do let v ← cond.eval ctx; Eval.lift v.truth)
      (do let v ← cond.eval ctx; Eval.lift v.truth) :=
  mirrors_bind (mirrors_expr hctx own cond) fun v => mirrors_lift v.truth_rename

mutual

/-- A statement does the same on both sides, one case for each construct. -/
theorem mirrors_stmt (hctx : σ.Enters ctx) {own : List ScopeId} (hown : σ.Grounded own)
    (s : Stmt) : σ.Mirrors own (Flow.rename σ.there) (s.exec ctx) (s.exec ctx) := by
  cases s with
  | expr e => exact mirrors_bind (mirrors_expr hctx own e) fun v => mirrors_flow (.value v)
  | print e =>
    exact mirrors_bind (mirrors_expr hctx own e) fun v =>
      mirrors_bind (mirrors_print v) fun _ => mirrors_flow .next
  | block body =>
    exact mirrors_block fun id => mirrors_stmts hctx (grounded_cons id) .next body
  | var x init =>
    cases init with
    | none => exact mirrors_bind (mirrors_define hown x .unit) fun _ => mirrors_flow .next
    | some e =>
      exact mirrors_bind (mirrors_expr hctx own e) fun v =>
        mirrors_bind (mirrors_define hown x v) fun _ => mirrors_flow .next
  | branch cond yes no =>
    refine mirrors_bind (mirrors_expr hctx own cond) fun v =>
      mirrors_bind (mirrors_lift v.truth_rename) fun holds => ?_
    cases holds with
    | false => exact mirrors_block fun id => mirrors_stmts hctx (grounded_cons id) .next no
    | true => exact mirrors_block fun id => mirrors_stmts hctx (grounded_cons id) .next yes
  | loop cond body =>
    exact mirrors_repeatWhile (mirrors_condition hctx own cond)
      (mirrors_block fun id => mirrors_stmts hctx (grounded_cons id) .next body) ctx.rounds .next
  | func name params body =>
    exact mirrors_bind (mirrors_capture hown) fun closure =>
      mirrors_bind (mirrors_define hown name (.func (.user name params body closure)))
        fun _ => mirrors_flow .next
  | builtin name fn =>
    exact mirrors_bind (mirrors_define hown name (.func (.builtin fn))) fun _ => mirrors_flow .next
  | ret value =>
    cases value with
    | none => exact mirrors_flow (.returned .unit)
    | some e => exact mirrors_bind (mirrors_expr hctx own e) fun v => mirrors_flow (.returned v)
termination_by structural s

/-- So do statements one after the other. -/
theorem mirrors_stmts (hctx : σ.Enters ctx) {own : List ScopeId} (hown : σ.Grounded own)
    (last : Flow) (ss : List Stmt) :
    σ.Mirrors own (Flow.rename σ.there) (Stmt.execAll ctx last ss)
      (Stmt.execAll ctx (last.rename σ.there) ss) := by
  cases ss with
  | nil => exact mirrors_flow last
  | cons s ss =>
    refine mirrors_bind (mirrors_stmt hctx hown s) fun flow => ?_
    cases flow with
    | returned v => exact mirrors_flow (.returned v)
    | next => exact mirrors_stmts hctx hown .next ss
    | value v => exact mirrors_stmts hctx hown (.value v) ss
termination_by structural ss

end

/-- However many calls may be nested, function bodies do the same on both sides. -/
theorem enters_ofCalls (σ : Mirror) (rounds : Nat) (tracing : Bool) (calls : Nat) :
    σ.Enters (.ofCalls rounds tracing calls) := by
  induction calls with
  | zero => exact fun _ _ => mirrors_throw .tooDeep
  | succ calls ih =>
    exact fun _ body => mirrors_block fun id => mirrors_stmts ih (grounded_cons id) .next body

/-- Expressions as statements bind nothing, so they do the same wherever they stand. -/
theorem mirrors_steps (hctx : σ.Enters ctx) (own : List ScopeId) (last : Flow) (es : List Expr) :
    σ.Mirrors own (Flow.rename σ.there) (Stmt.execAll ctx last (es.map .expr))
      (Stmt.execAll ctx (last.rename σ.there) (es.map .expr)) := by
  induction es generalizing last with
  | nil => exact mirrors_flow last
  | cons e es ih =>
    have hfirst : σ.Mirrors own (Flow.rename σ.there) ((Stmt.expr e).exec ctx)
        ((Stmt.expr e).exec ctx) :=
      mirrors_bind (mirrors_expr hctx own e) fun v => mirrors_flow (.value v)
    refine mirrors_bind hfirst fun flow => ?_
    cases flow with
    | returned v => exact mirrors_flow (.returned v)
    | next => exact ih .next
    | value v => exact ih (.value v)

end Mirror

end Lox
