import Lox.Proofs.Captures

/-!
# What a function finds under its own name

A declaration copies the innermost scope before it binds its name, so the captured scope of a
function never holds the function itself. A call to itself in its body finds what the name was bound
to in that scope before the declaration; if it was bound to nothing there, it finds what the name
means where the running call was begun. So a function reaches itself where it was called by its
name, and not where an older function of that name was captured or where the name has gone out of
scope.
-/

namespace Lox

namespace History

/-- What is bound next under the name `x` is an argument, for a parameter of the innermost call. -/
def Passes (past : History) (x : String) : Prop :=
  ∃ p f c ls, past.layers = .parameters p :: .call f c :: ls ∧ x ∈ f.params

end History

/-- Whether a variable named `x` is declared or assigned. -/
def Event.Touches (past : History) (x : String) : Event → Prop
  | .bound y _ => y = x ∧ ¬past.Passes x
  | .assigned y _ => y = x
  | .declared _ | .opened _ | .closed _ => False

namespace History

variable {x : String} {f : Function} {c : ScopeId} {start earlier before past now : History}

/-- After `start` no variable named `x` is declared or assigned. -/
def Untouched (x : String) (start now : History) : Prop :=
  ∀ m past, m :: past <:+ now → start <:+ past → ¬m.event.Touches past x

/-- The call of `f` that was begun after `before` has not ended. -/
inductive Running (f : Function) (c : ScopeId) (before : History) : History → Prop
  | begun (e : Env) : Running f c before (⟨.opened (.call f c), e⟩ :: before)
  | step {past : History} {m : Moment} (h : Running f c before past)
      (hlayers : .call f c :: before.layers <:+ layers (m :: past)) :
      Running f c before (m :: past)

/-- What is evaluated now stands in the body of `f`, in the call that was begun after `before`. -/
structure Activation (f : Function) (c : ScopeId) (before now : History) : Prop where
  running : Running f c before now
  direct : ∃ (blocks : List ScopeId) (p : ScopeId),
    now.layers = blocks.map .block ++ .parameters p :: .call f c :: before.layers

/-! ### Scopes that were made lie on the stack once -/

/-- The scopes on the stack are those of the layers, and the global one. -/
theorem Invariant.stack_eq (h : past.Invariant) :
    past.env.stack = past.layers.map Layer.scope ++ [Env.global] := by
  rw [Env.stack, h.stack]

/-- The innermost scope is that of the innermost layer. -/
theorem Invariant.top_eq (h : past.Invariant) {l : Layer} {ls : List Layer}
    (hl : past.layers = l :: ls) : past.env.top = l.scope := by
  rw [Env.top, h.stack, hl]
  rfl

/-- The scope of a layer exists. -/
theorem Invariant.scope_lt (h : past.Invariant) {l : Layer} (hl : l ∈ past.layers) :
    l.scope < past.env.scopes.size := by
  have howned := h.layers l hl
  cases l with
  | block id | parameters id => exact (h.made id howned).2
  | call g d =>
    obtain ⟨c', hc', -, hlt⟩ := h.closure g howned.1
    rw [howned.2] at hc'
    cases hc'
    exact hlt

/-- All scopes on the stack exist. -/
theorem Invariant.lt_of_mem_stack (h : past.Invariant) {id : ScopeId}
    (hid : id ∈ past.env.stack) : id < past.env.scopes.size := by
  rw [h.stack_eq, List.mem_append, List.mem_singleton] at hid
  rcases hid with hid | rfl
  · obtain ⟨l, hl, rfl⟩ := List.mem_map.1 hid
    exact h.scope_lt hl
  · exact h.size

/-- No scope was made for two open layers. -/
theorem Valid.nodup_made (h : past.Valid) : (past.layers.filterMap Layer.made?).Nodup := by
  induction h with
  | start => exact List.nodup_nil
  | @step past event e hpast he ih =>
    cases he with
    | bound | assigned | declared => exact ih
    | @opened l hl =>
      rw [layers, List.filterMap_cons_some hl, List.nodup_cons]
      refine ⟨fun hmem => ?_, ih⟩
      obtain ⟨l', hl', hmade⟩ := List.mem_filterMap.1 hmem
      have hlt := hpast.invariant.scope_lt hl'
      cases l' with
      | block id | parameters id =>
        cases hmade
        exact Nat.lt_irrefl _ hlt
      | call => cases hmade
    | begun => exact ih
    | closed hl =>
      rw [hl] at ih
      rw [layers, hl, List.tail_cons]
      cases hmade : Layer.made? _ with
      | none => rwa [List.filterMap_cons_none hmade] at ih
      | some id =>
        rw [List.filterMap_cons_some hmade] at ih
        exact (List.nodup_cons.1 ih).2

/-- A scope that was made for the innermost layer lies nowhere else on the stack. -/
theorem Valid.ne_of_innermost (h : past.Valid) {l : Layer} {ls : List Layer} {p : ScopeId}
    (hl : past.layers = l :: ls) (hp : l.made? = some p) :
    ∀ id ∈ ls.map Layer.scope ++ [Env.global], id ≠ p := by
  have hmade : p ∈ past.made := by
    have howned := h.invariant.layers l (hl ▸ List.mem_cons_self)
    cases l with
    | block id | parameters id =>
      cases hp
      exact howned
    | call => cases hp
  intro id hid hidp
  subst hidp
  rw [List.mem_append, List.mem_singleton] at hid
  rcases hid with hid | hid
  · obtain ⟨l', hl', rfl⟩ := List.mem_map.1 hid
    have hnodup := h.nodup_made
    rw [hl, List.filterMap_cons_some hp, List.nodup_cons] at hnodup
    have howned := h.invariant.layers l' (hl ▸ List.mem_cons_of_mem l hl')
    cases l' with
    | block id | parameters id => exact hnodup.1 (List.mem_filterMap.2 ⟨_, hl', rfl⟩)
    | call g d => exact h.invariant.disjoint g howned.1 d hmade howned.2
  · exact Nat.ne_of_gt (h.invariant.made _ hmade).1 hid

/-! ### What a name means in a scope -/

/-- Where no variable named `x` is declared or assigned, only an argument can change what `x` means
in a scope, and only in the innermost one. -/
theorem get?_step {event : Event} {e : Env} (he : event.Leads past e)
    (hx : ¬event.Touches past x) {id : ScopeId} (hid : id < past.env.scopes.size)
    (htop : past.Passes x → id ≠ past.env.top) :
    (e.scope id).get? x = (past.env.scope id).get? x := by
  cases he with
  | @bound y v _ =>
    by_cases hy : y = x
    · have hpasses : past.Passes x := Classical.not_not.1 fun hno => hx ⟨hy, hno⟩
      rw [Env.define, Env.scope_putIn_of_ne (htop hpasses)]
    · exact Env.get?_scope_putIn_ne (Ne.symm hy) past.env _ id v
  | @assigned y v other _ _ => exact Env.get?_scope_putIn_ne (Ne.symm hx) past.env other id v
  | declared _ => rw [Env.scope_snapshot_of_lt hid]
  | opened _ => rw [Env.scope_push]
  | begun _ _ => rfl
  | closed _ => rfl

/-- Untouched for longer is untouched for less long. -/
theorem Untouched.mono (h : Untouched x start now) (hsub : past <:+ now) :
    Untouched x start past :=
  fun m earlier hm hstart => h m earlier (hm.trans hsub) hstart

/-- In the scope that a function has captured an untouched name keeps its meaning. -/
theorem Valid.get?_captured (h : now.Valid) (hsub : start <:+ now) (hx : Untouched x start now)
    (hf : f ∈ start.declared) (hc : f.closure? = some c) :
    (now.env.scope c).get? x = (start.env.scope c).get? x := by
  induction h with
  | start => rw [List.suffix_nil.1 hsub]
  | @step past event e hpast he ih =>
    rcases List.suffix_cons_iff.1 hsub with rfl | hsub
    · rfl
    · have hfpast : f ∈ past.declared := (hsub.sublist.filterMap _).subset hf
      obtain ⟨d, hd, -, hlt⟩ := hpast.invariant.closure f hfpast
      rw [hc] at hd
      cases hd
      have hstep := get?_step he (hx _ past (List.suffix_refl _) hsub) hlt ?_
      · exact hstep.trans (ih hsub (hx.mono (List.suffix_cons _ _)))
      · rintro ⟨p, g, d, ls, hl, -⟩ htop
        rw [hpast.invariant.top_eq hl, Layer.scope] at htop
        have hp := hpast.invariant.layers (.parameters p) (hl ▸ List.mem_cons_self)
        exact hpast.invariant.disjoint f hfpast p hp (htop ▸ hc)

/-! ### While a call is running -/

/-- A call is running on the layers that were open when it was begun. -/
theorem Running.layers_suffix (h : Running f c before now) :
    .call f c :: before.layers <:+ now.layers := by
  cases h with
  | begun e => exact List.suffix_refl _
  | step _ hlayers => exact hlayers

/-- A call is running after it was begun. -/
theorem Running.suffix (h : Running f c before now) : before <:+ now := by
  induction h with
  | begun e => exact List.suffix_cons _ _
  | step _ _ ih => exact ih.trans (List.suffix_cons _ _)

/-- While a call is running an untouched name keeps its meaning in the scopes below the call. -/
theorem Running.get?_below (hrun : Running f c before now) (h : now.Valid)
    (hx : Untouched x start now) (hstart : start <:+ before) {id : ScopeId}
    (hid : id ∈ before.env.stack) :
    (now.env.scope id).get? x = (before.env.scope id).get? x := by
  induction hrun with
  | begun e =>
    cases h with
    | step hpast he =>
      cases he with
      | opened hl => cases hl
      | begun _ _ => rfl
  | @step past m hrun _ ih =>
    cases h with
    | @step _ event e hpast he =>
      have hbefore := (hpast.suffix hrun.suffix).invariant
      have hopen := hrun.layers_suffix
      rw [hbefore.stack_eq] at hid
      have hbelow : id ∈ past.env.stack := by
        rw [hpast.invariant.stack_eq]
        have hsub := ((List.suffix_cons _ _).trans hopen).map Layer.scope
        rcases List.mem_append.1 hid with hid | hid
        · exact List.mem_append_left _ (hsub.subset hid)
        · exact List.mem_append_right _ hid
      have hstep := get?_step he
        (hx _ past (List.suffix_refl _) (hstart.trans hrun.suffix))
        (hpast.invariant.lt_of_mem_stack hbelow) ?_
      · exact hstep.trans (ih hpast (hx.mono (List.suffix_cons _ _)))
      · rintro ⟨p, g, d, ls, hl, -⟩ htop
        rw [hpast.invariant.top_eq hl] at htop
        -- the scope of the parameters lies above the call
        rw [hl] at hopen
        rcases List.suffix_cons_iff.1 hopen with heq | hopen
        · cases heq
        · have hsub := ((List.suffix_cons _ _).trans hopen).map Layer.scope
          refine hpast.ne_of_innermost hl rfl id ?_ htop
          rcases List.mem_append.1 hid with hid | hid
          · exact List.mem_append_left _ (hsub.subset hid)
          · exact List.mem_append_right _ hid

/-- A layer that was made for a block, or for parameters of which none is named `x`, lies on the
layers `below`. -/
def Apart (x : String) (l : Layer) (below : List Layer) : Prop :=
  (∃ id, l = .block id) ∨
    ∃ p g d ls, l = .parameters p ∧ below = .call g d :: ls ∧ x ∉ g.params

private theorem Apart.made {l : Layer} {below : List Layer} (h : Apart x l below) :
    l.made? = some l.scope := by
  rcases h with ⟨id, rfl⟩ | ⟨p, g, d, ls, rfl, -, -⟩
  · rfl
  · rfl

private theorem get?_apart (h : past.Valid) {event : Event} {e : Env} (he : event.Leads past e)
    (hx : ¬event.Touches past x) {ys zs : List Layer} {l : Layer}
    (hlayers : past.layers = ys ++ l :: zs) (hapart : Apart x l zs) :
    (e.scope l.scope).get? x = (past.env.scope l.scope).get? x := by
  have hl : l ∈ past.layers := hlayers ▸ List.mem_append_right ys List.mem_cons_self
  refine get?_step he hx (h.invariant.scope_lt hl) ?_
  rintro ⟨p, g, d, ls, hopen, hpass⟩ htop
  rw [h.invariant.top_eq hopen] at htop
  cases ys with
  | nil =>
    cases hopen.symm.trans hlayers
    rcases hapart with ⟨id, hblock⟩ | ⟨_, _, _, _, -, hbelow, hno⟩
    · cases hblock
    · cases hbelow
      exact hno hpass
  | cons l' ys =>
    obtain ⟨-, htail⟩ := List.cons.inj (hopen.symm.trans hlayers)
    refine h.ne_of_innermost hopen rfl l.scope (List.mem_append_left _ ?_) htop
    rw [htail]
    exact List.mem_map_of_mem (List.mem_append_right ys List.mem_cons_self)

/-- While a call is running, layers that were opened on it and are apart do not bind an untouched
name. -/
theorem Running.get?_above (hrun : Running f c before now) (h : now.Valid)
    (hx : Untouched x start now) (hstart : start <:+ before) {ys zs : List Layer} {l : Layer}
    (hlayers : now.layers = ys ++ l :: zs) (hsub : .call f c :: before.layers <:+ zs)
    (hapart : Apart x l zs) : (now.env.scope l.scope).get? x = none := by
  induction hrun generalizing ys with
  | begun e =>
    have hlength := congrArg List.length hlayers
    have hle := hsub.length_le
    simp only [layers, List.length_append, List.length_cons] at hlength hle
    omega
  | @step past m hrun _ ih =>
    cases h with
    | @step _ event e hpast he =>
      have hmono := hx.mono (List.suffix_cons _ _)
      have huntouched := hx _ past (List.suffix_refl _) (hstart.trans hrun.suffix)
      have hkept (ys' : List Layer) (hpastLayers : past.layers = ys' ++ l :: zs) :
          (e.scope l.scope).get? x = none :=
        (get?_apart hpast he huntouched hpastLayers hapart).trans (ih hpast hmono hpastLayers)
      cases he with
      | bound | assigned | declared => exact hkept ys hlayers
      | begun =>
        cases ys with
        | nil =>
          obtain ⟨hcall, -⟩ := List.cons.inj hlayers
          cases hcall ▸ hapart.made
        | cons l' ys => exact hkept ys (List.cons.inj hlayers).2
      | opened hl =>
        cases ys with
        | nil =>
          -- the layer is new, and nothing is bound in its scope
          obtain ⟨rfl, -⟩ := List.cons.inj hlayers
          rw [hapart.made] at hl
          rw [env, Env.scope_push, Option.some.inj hl, Env.scope_of_size_le (Nat.le_refl _)]
          rfl
        | cons l' ys => exact hkept ys (List.cons.inj hlayers).2
      | closed hl =>
        rw [layers, hl, List.tail_cons] at hlayers
        rw [hlayers] at hl
        exact hkept (_ :: ys) hl

private theorem findSome?_congr {α β : Type} {g g' : α → Option β} {as : List α}
    (h : ∀ a ∈ as, g a = g' a) : as.findSome? g = as.findSome? g' := by
  induction as with
  | nil => rfl
  | cons a as ih =>
    obtain ⟨ha, has⟩ := List.forall_mem_cons.1 h
    rw [List.findSome?_cons, List.findSome?_cons, ha, ih has]

/-- In the body of a function an untouched name that is no parameter means what it means in the
captured scope, or else where the call was begun. -/
theorem Activation.get?_eq (hact : Activation f c before now) (h : now.Valid)
    (hx : Untouched x start now) (hstart : start <:+ before) (hparams : x ∉ f.params) :
    now.env.get? x = ((now.env.scope c).get? x).or (before.env.get? x) := by
  obtain ⟨hrun, blocks, p, hlayers⟩ := hact
  have hbefore := (h.suffix hrun.suffix).invariant
  have hblock (id : ScopeId) (hid : id ∈ blocks) : (now.env.scope id).get? x = none := by
    obtain ⟨ids, ids', rfl⟩ := List.append_of_mem hid
    have hsplit : now.layers = ids.map Layer.block ++ .block id ::
        (ids'.map Layer.block ++ .parameters p :: .call f c :: before.layers) := by
      rw [hlayers, List.map_append, List.map_cons, List.append_assoc, List.cons_append]
    refine hrun.get?_above h hx hstart hsplit ?_ (.inl ⟨id, rfl⟩)
    exact (List.suffix_cons _ _).trans (List.suffix_append _ _)
  have hparameters : (now.env.scope p).get? x = none :=
    hrun.get?_above h hx hstart hlayers (List.suffix_refl _)
      (.inr ⟨p, f, c, before.layers, rfl, rfl, hparams⟩)
  have hbelow : (before.env.stack.findSome? fun id => (now.env.scope id).get? x) =
      before.env.get? x := by
    rw [Env.get?_eq_findSome?]
    exact findSome?_congr fun id hid => hrun.get?_below h hx hstart hid
  have hstack : now.env.stack = blocks ++ p :: c :: before.env.stack := by
    rw [h.invariant.stack_eq, hlayers, hbefore.stack_eq]
    simp [Layer.scope, Function.comp_def]
  rw [Env.get?_eq_findSome?, hstack, List.findSome?_append,
    List.findSome?_eq_none_iff.2 hblock, List.findSome?_cons, hparameters, List.findSome?_cons]
  simp only [Option.none_or]
  cases (now.env.scope c).get? x with
  | none => exact hbelow
  | some v => rfl

/-! ### What a function finds under its own name -/

/-- What is evaluated now stands in the body of `f`, in a call that was begun after `first`, or in
one that `f` has begun from there by calls of itself, however many. -/
inductive Recursing (f : Function) (c : ScopeId) (first : History) : History → Prop
  | outer {now : History} (h : Activation f c first now) : Recursing f c first now
  | inner {before now : History} (h : Recursing f c first before)
      (hact : Activation f c before now) : Recursing f c first now

private theorem Recursing.suffix {first : History} (h : Recursing f c first now) :
    first <:+ now := by
  induction h with
  | outer h => exact h.running.suffix
  | inner _ hact ih => exact ih.trans hact.running.suffix

/-- The history up to and with a declaration that has bound the name of its function. -/
def declares (f : Function) (e e' : Env) (earlier : History) : History :=
  ⟨.bound f.name (.func f), e'⟩ :: ⟨.declared f, e⟩ :: earlier

-- When a declaration has bound its name, the captured scope has the contents that the innermost one
-- had before.
private theorem scope_declares {e e' : Env} (h : (declares f e e' earlier).Valid)
    (hc : f.closure? = some c) :
    (declares f e e' earlier).env.scope c = earlier.env.scope earlier.env.top := by
  cases h with
  | step hdeclared hbound =>
    cases hdeclared with
    | step hearlier he =>
      cases he with
      | declared hf =>
        rw [hc] at hf
        cases hf
        cases hbound with
        | bound _ =>
          have htop : earlier.env.snapshot.1 ≠ earlier.env.snapshot.2.top := by
            intro heq
            have hlt := hearlier.invariant.lt_of_mem_stack earlier.env.top_mem_stack
            exact Nat.ne_of_gt hlt heq
          rw [declares, env, Env.define]
          show (Env.putIn earlier.env.snapshot.2.top _ _ earlier.env.snapshot.2).scope _ = _
          rw [Env.scope_putIn_of_ne htop]
          exact Env.scope_snapshot_self earlier.env

/-- Where a function calls itself, its untouched name means what the declaration found it bound to
in the innermost scope, or else what it meant where the first of the calls was begun. -/
theorem Recursing.get?_eq {e e' : Env} {first : History} (hrec : Recursing f c first now)
    (h : now.Valid) (hstart : declares f e e' earlier <:+ first) (hc : f.closure? = some c)
    (hparams : f.name ∉ f.params) (hx : Untouched f.name (declares f e e' earlier) now) :
    now.env.get? f.name =
      ((earlier.env.scope earlier.env.top).get? f.name).or (first.env.get? f.name) := by
  have hcaptured {past : History} (hpast : past.Valid)
      (hsub : declares f e e' earlier <:+ past)
      (hx : Untouched f.name (declares f e e' earlier) past) :
      (past.env.scope c).get? f.name = (earlier.env.scope earlier.env.top).get? f.name := by
    have hf : f ∈ (declares f e e' earlier).declared := List.mem_cons_self
    rw [hpast.get?_captured hsub hx hf hc, scope_declares (hpast.suffix hsub) hc]
  induction hrec with
  | outer hact =>
    rw [hact.get?_eq h hx hstart hparams, hcaptured h (hstart.trans hact.running.suffix) hx]
  | @inner before now hrec hact ih =>
    have hsub := hstart.trans hrec.suffix
    rw [hact.get?_eq h hx hsub hparams, hcaptured h (hsub.trans hact.running.suffix) hx,
      ih (h.suffix hact.running.suffix) (hx.mono hact.running.suffix), ← Option.or_assoc,
      Option.or_self]

/-- What a call of a function to itself resolves to now, if its name was not declared or assigned
after the function was declared: to what the innermost scope bound the name to before the
declaration, or else to the function itself, where the name meant the function when the first of the
calls was begun. -/
def ResolvesItself (now : History) : Prop :=
  ∀ (f : Function) (c : ScopeId) (e e' : Env) (earlier first : History),
    f.closure? = some c → f.name ∉ f.params → declares f e e' earlier <:+ first →
    Untouched f.name (declares f e e' earlier) now → Recursing f c first now →
    (∀ v, (earlier.env.scope earlier.env.top).get? f.name = some v →
      now.env.get? f.name = some v) ∧
    ((earlier.env.scope earlier.env.top).binds f.name = false →
      first.env.get? f.name = some (.func f) → now.env.get? f.name = some (.func f))

/-- Calls resolve like this at the end of a valid history. -/
theorem Valid.resolvesItself (h : now.Valid) : now.ResolvesItself := by
  intro f c e e' earlier first hc hparams hstart hx hrec
  have hself := hrec.get?_eq h hstart hc hparams hx
  refine ⟨fun v hv => ?_, fun hbinds hfirst => ?_⟩
  · rw [hself, hv, Option.some_or]
  · rw [Scope.binds, Option.isSome_eq_false_iff, Option.isNone_iff_eq_none] at hbinds
    rw [hself, hbinds, Option.none_or, hfirst]

end History

/-- At every moment of every run of units on one interpreter at which a function calls itself, the
call reaches the function itself, unless the scope that it was declared in bound its name before, as
long as the name meant the function where the first of the calls was begun. -/
theorem recursion_reaches (limits : Limits) (jobs : List Source.Job) :
    (Source.recordAll limits jobs .start).world = Source.execAll limits jobs .start ∧
      (Source.recordAll limits jobs .start).past.env =
        (Source.execAll limits jobs .start).env ∧
      (Source.recordAll limits jobs .start).past.Always History.ResolvesItself :=
  Source.always_recordAll History.Valid.resolvesItself limits jobs

/-- A function that counts down by calls of itself. -/
def Stmt.countdown : Stmt :=
  .func "f" ["n"]
    [.branch (.binary .eq (.name "n") (.literal (.int 0)))
      [.ret (some (.literal (.int 2)))] [],
     .ret (some (.call "f" [.binary .minus (.name "n") (.literal (.int 1))]))]

/-- Declared where nothing had its name, it reaches itself. -/
example : ∃ w, Program.exec ⟨8, 8⟩ false
    [.countdown, .expr (.call "f" [.literal (.int 1)])] .start = .ok (.value (.int 2)) w :=
  ⟨_, rfl⟩

/-- Where a function of that name was declared before in the same scope, the new one calls the old
one. Where the name has gone out of scope, a function that was kept in a variable does not find
itself. -/
theorem recursion_misses :
    (let w := endState (Program.exec ⟨8, 8⟩ false
        [.func "f" ["n"] [.ret (some (.literal (.int 1)))], .countdown] .start)
      ∃ f, w.env.get? "f" = some (.func f) ∧ f.closure? = some 2 ∧
        (∃ g, (w.atBody f [.int 1]).env.get? "f" = some (.func g) ∧ g.closure? = some 1) ∧
        ∃ w', Program.exec ⟨8, 8⟩ false [.expr (.call "f" [.literal (.int 1)])] w =
          .ok (.value (.int 1)) w') ∧
    (let w := endState (Program.exec ⟨8, 8⟩ false
        [.var "g" none, .block [.countdown, .expr (.assign (.name "g") (.name "f"))]] .start)
      ∃ f, w.env.get? "g" = some (.func f) ∧ f.name = "f" ∧
        (w.atBody f [.int 1]).env.get? "f" = none ∧
        ∃ w', Program.exec ⟨8, 8⟩ false [.expr (.call "g" [.literal (.int 1)])] w =
          .error (.fault (.undefinedVariable "f")) w') := by
  exact ⟨⟨_, rfl, rfl, ⟨_, rfl, rfl⟩, _, rfl⟩, ⟨_, rfl, rfl, rfl, _, rfl⟩⟩

end Lox
