import Lox.Proofs.Copying
import Lox.Proofs.Parameters

/-!
# Two scopes of a call merged into one

Where evaluation has two scopes for a call, one for the parameters and the captured one below it,
the reading with copies has one, which is both of them merged. As long as no function is called
while a call of it is running, that is the only difference: every event keeps it so, if it happens
in both readings.
-/

namespace Lox

/-! ### Histories without reentry -/

namespace History

/-- No function value is called while a call of it is running. -/
def NoReentry (past : History) : Prop :=
  ∀ f c e (earlier : History), ⟨.opened (.call f c), e⟩ :: earlier <:+ past → f ∉ earlier.active

/-- Only a block can be innermost, or nothing. -/
def Standing (past : History) : Prop := ∀ l ls, past.layers = l :: ls → ∃ id, l = .block id

variable {past earlier : History} {f : Function} {c : ScopeId}

/-- Only the layers that are open count. -/
theorem Standing.congr (h : past.Standing) (hl : earlier.layers = past.layers) :
    earlier.Standing := fun l ls hls => h l ls (hl.symm.trans hls)

/-- What does not happen does not happen earlier. -/
theorem NoReentry.suffix (h : past.NoReentry) (hsub : earlier <:+ past) : earlier.NoReentry :=
  fun f c e before hbefore => h f c e before (hbefore.trans hsub)

/-- No function is running twice. -/
theorem NoReentry.nodup_active (h : past.NoReentry) : past.active.Nodup := by
  induction past with
  | nil => exact List.nodup_nil
  | cons m past ih =>
    have hpast := ih (h.suffix (List.suffix_cons m past))
    obtain ⟨event, e⟩ := m
    cases event with
    | opened l =>
      cases l with
      | call f c => exact List.nodup_cons.2 ⟨h f c e past (List.suffix_refl _), hpast⟩
      | block | parameters => exact hpast
    | closed l => exact hpast.sublist ((List.tail_sublist _).filterMap _)
    | bound | assigned | declared => exact hpast

/-- Whether no function is called while one of the same name is running. -/
def callsApart : History → Bool
  | [] => true
  | ⟨.opened (.call f _), _⟩ :: past =>
    !((active past).map Function.name).contains f.name && callsApart past
  | _ :: past => callsApart past

/-- Then no function value is called while a call of it is running. -/
theorem noReentry_of_callsApart (h : past.callsApart = true) : past.NoReentry := by
  intro f c e earlier hsub
  induction past with
  | nil => cases List.suffix_nil.1 hsub
  | cons m past ih =>
    rcases List.suffix_cons_iff.1 hsub with heq | hsub
    · cases heq
      have hname := (Bool.and_eq_true_iff.1 h).1
      intro hmem
      rw [List.contains_iff_mem.2 (List.mem_map_of_mem hmem)] at hname
      cases hname
    · refine ih ?_ hsub
      obtain ⟨event, e'⟩ := m
      cases event with
      | opened l =>
        cases l with
        | call => exact (Bool.and_eq_true_iff.1 h).2
        | block | parameters => exact h
      | bound | assigned | declared | closed => exact h

/-- A history of a run in which no function is called while a call of it is running. -/
structure Tame (past : History) : Prop where
  valid : past.Valid
  passing : past.Passing
  apart : past.NoReentry

/-- It was so at every moment. -/
theorem Tame.suffix (h : past.Tame) (hsub : earlier <:+ past) : earlier.Tame :=
  ⟨h.valid.suffix hsub, h.passing.suffix hsub, h.apart.suffix hsub⟩

private theorem Invariant.nodup_scopes (h : past.Invariant) {ls : List Layer}
    (howned : ∀ l ∈ ls, l.Owned past) (hmade : (ls.filterMap Layer.made?).Nodup)
    (hactive : (ls.filterMap Layer.callee?).Nodup) :
    (ls.map Layer.scope ++ [Env.global]).Nodup := by
  induction ls with
  | nil => exact List.nodup_singleton _
  | cons l ls ih =>
    obtain ⟨hl, hls⟩ := List.forall_mem_cons.1 howned
    have hmem {l' : Layer} (hl' : l' ∈ ls) (hscope : l'.scope = l.scope) : False := by
      cases l with
      | call f c =>
        have hcallee := (h.scope_eq_iff hl.1 hl.2 (hls l' hl')).1 hscope
        exact (List.nodup_cons.1 hactive).1 (List.mem_filterMap.2 ⟨l', hl', hcallee⟩)
      | block id | parameters id =>
        cases l' with
        | call g d =>
          have hg := hls _ hl'
          cases (h.scope_eq_iff hg.1 hg.2 hl).1 hscope.symm
        | block | parameters =>
          exact (List.nodup_cons.1 hmade).1 (List.mem_filterMap.2 ⟨_, hl', congrArg some hscope⟩)
    have hpos : 0 < l.scope := by
      cases l with
      | call f c =>
        obtain ⟨d, hd, hpos, -⟩ := h.closure f hl.1
        cases hd.symm.trans hl.2
        exact hpos
      | block id | parameters id => exact (h.made id hl).1
    refine List.nodup_cons.2 ⟨fun hscope => ?_, ih hls ?_ ?_⟩
    · rcases List.mem_append.1 hscope with hscope | hscope
      · obtain ⟨l', hl', hscope⟩ := List.mem_map.1 hscope
        exact hmem hl' hscope
      · exact Nat.ne_of_gt hpos (List.mem_singleton.1 hscope)
    · exact hmade.sublist ((List.sublist_cons_self l ls).filterMap _)
    · exact hactive.sublist ((List.sublist_cons_self l ls).filterMap _)

/-- Every scope lies on the stack once. -/
theorem Tame.nodup_stack (h : past.Tame) :
    (past.layers.map Layer.scope ++ [Env.global]).Nodup :=
  h.valid.invariant.nodup_scopes h.valid.invariant.layers h.valid.nodup_made h.apart.nodup_active

/-- A function that is called was declared, and its own scope is laid on the stack. -/
theorem Valid.of_begun {e : Env} (h : Valid (⟨.opened (.call f c), e⟩ :: past)) :
    f ∈ past.declared ∧ f.closure? = some c := by
  cases h with
  | step _ he =>
    cases he with
    | begun hf hc => exact ⟨hf, hc⟩
    | opened hl => cases hl

/-- The scope that a function has captured exists. -/
theorem Invariant.closure_lt (h : past.Invariant) (hf : f ∈ past.declared)
    (hc : f.closure? = some c) : c < past.env.scopes.size := by
  obtain ⟨d, hd, -, hlt⟩ := h.closure f hf
  cases hc.symm.trans hd
  exact hlt

/-- What a function has captured does not lie on the stack while it is not running. -/
theorem Invariant.closure_not_mem (h : past.Invariant) (hf : f ∈ past.declared)
    (hc : f.closure? = some c) (hactive : f ∉ past.active) :
    c ∉ past.layers.map Layer.scope ++ [Env.global] := by
  rw [← h.stack_eq]
  exact fun hmem => hactive (h.active_of_mem_stack hf hc hmem)

end History

/-! ### Scopes of calls, apart and merged -/

/-- A name is found in the first of some scopes, or in the others. -/
theorem Env.binder?_cons (e : Env) (id : ScopeId) (ids : List ScopeId) (x : String) :
    e.binder? (id :: ids) x = if (e.scope id).binds x then some id else e.binder? ids x := by
  rw [binder?, List.find?_cons]
  cases (e.scope id).binds x <;> rfl

/-- Under the layers lie scopes of evaluation in `e`; in `e'` lie, one for each block and one for
each call, scopes of the reading with copies. A call's binds what its parameters are, and what the
function has captured. -/
inductive Merged (e e' : Env) : List Layer → List ScopeId → Prop
  | global (h : e'.scope Env.global = e.scope Env.global) : Merged e e' [] []
  | block {id : ScopeId} {ls : List Layer} {ids : List ScopeId} (h : e'.scope id = e.scope id)
      (hbelow : Merged e e' ls ids) : Merged e e' (.block id :: ls) (id :: ids)
  | call {f : Function} {c p : ScopeId} {ls : List Layer} {ids : List ScopeId}
      (h : ∀ x, (e'.scope p).get? x = ((e.scope p).get? x).or ((e.scope c).get? x))
      (hbelow : Merged e e' ls ids) : Merged e e' (.parameters p :: .call f c :: ls) (p :: ids)

namespace Merged

variable {e e' : Env} {ls : List Layer} {ids : List ScopeId}

/-- The scopes lie on the stack of evaluation too. -/
theorem subset (h : Merged e e' ls ids) :
    ids ++ [Env.global] ⊆ ls.map Layer.scope ++ [Env.global] := by
  induction h with
  | global => exact List.Subset.refl _
  | block _ _ ih => exact List.cons_subset_cons _ ih
  | call _ _ ih => exact List.cons_subset_cons _ (List.subset_cons_of_subset _ ih)

/-- Where there is no layer, the global scopes are alike. -/
theorem of_nil (h : Merged e e' [] ids) :
    ids = [] ∧ e'.scope Env.global = e.scope Env.global := by
  cases h with
  | global h => exact ⟨rfl, h⟩

/-- The scope of a block is innermost in both. -/
theorem of_block {id : ScopeId} (h : Merged e e' (.block id :: ls) ids) :
    ∃ below, ids = id :: below ∧ e'.scope id = e.scope id ∧ Merged e e' ls below := by
  cases h with
  | block h hbelow => exact ⟨_, rfl, h, hbelow⟩

/-- The scopes of a call are innermost in both. -/
theorem of_call {f : Function} {c p : ScopeId}
    (h : Merged e e' (.parameters p :: .call f c :: ls) ids) :
    ∃ below, ids = p :: below ∧
      (∀ x, (e'.scope p).get? x = ((e.scope p).get? x).or ((e.scope c).get? x)) ∧
      Merged e e' ls below := by
  cases h with
  | call h hbelow => exact ⟨_, rfl, h, hbelow⟩

/-- Only the contents of these scopes matter. -/
theorem congr {e₁ e₁' : Env} (h : Merged e e' ls ids)
    (hone : ∀ id ∈ ls.map Layer.scope ++ [Env.global], e₁.scope id = e.scope id)
    (hother : ∀ id ∈ ls.map Layer.scope ++ [Env.global], e₁'.scope id = e'.scope id) :
    Merged e₁ e₁' ls ids := by
  induction h with
  | global h =>
    refine .global ?_
    rw [hone _ List.mem_cons_self, hother _ List.mem_cons_self, h]
  | block h _ ih =>
    obtain ⟨hid, hone⟩ := List.forall_mem_cons.1 hone
    obtain ⟨hid', hother⟩ := List.forall_mem_cons.1 hother
    exact .block (hid'.trans (h.trans hid.symm)) (ih hone hother)
  | @call f c p ls ids h _ ih =>
    obtain ⟨hp, hone⟩ := List.forall_mem_cons.1 hone
    obtain ⟨hc, hone⟩ := List.forall_mem_cons.1 hone
    obtain ⟨hp', hother⟩ := List.forall_mem_cons.1 hother
    simp only [Layer.scope] at hp hc hp'
    refine .call (fun x => ?_) (ih hone (List.forall_mem_cons.1 hother).2)
    rw [hp', hp, hc]
    exact h x

/-- A name has the same value in both. -/
theorem findSome? (h : Merged e e' ls ids) (x : String) :
    (ids ++ [Env.global]).findSome? (fun id => (e'.scope id).get? x) =
      (ls.map Layer.scope ++ [Env.global]).findSome? fun id => (e.scope id).get? x := by
  induction h with
  | global h => simp [h]
  | block h _ ih =>
    simp only [List.map_cons, List.cons_append, List.findSome?_cons, Layer.scope, h, ih]
  | @call f c p ls ids h _ ih =>
    simp only [List.map_cons, List.cons_append, List.findSome?_cons, Layer.scope, h, ih]
    cases (e.scope p).get? x <;> rfl

private theorem get?_put_upper {upper lower s : Scope}
    (h : ∀ y, s.get? y = (upper.get? y).or (lower.get? y)) (x : String) (v : Value) (y : String) :
    (s.put x v).get? y = ((upper.put x v).get? y).or (lower.get? y) := by
  by_cases hy : y = x
  · subst hy
    rw [Scope.get?_put_self, Scope.get?_put_self, Option.some_or]
  · rw [Scope.get?_put_ne hy, Scope.get?_put_ne hy, h]

private theorem get?_put_lower {upper lower s : Scope}
    (h : ∀ y, s.get? y = (upper.get? y).or (lower.get? y)) {x : String}
    (hx : upper.get? x = none) (v : Value) (y : String) :
    (s.put x v).get? y = (upper.get? y).or ((lower.put x v).get? y) := by
  by_cases hy : y = x
  · subst hy
    rw [Scope.get?_put_self, Scope.get?_put_self, hx, Option.none_or]
  · rw [Scope.get?_put_ne hy, Scope.get?_put_ne hy, h]

private theorem putIn (h : Merged e e' ls ids) {id id' : ScopeId}
    (hid : id ∉ ls.map Layer.scope ++ [Env.global])
    (hid' : id' ∉ ls.map Layer.scope ++ [Env.global]) (x : String) (v : Value) :
    Merged (e.putIn id x v) (e'.putIn id' x v) ls ids := by
  refine h.congr (fun other hother => ?_) fun other hother => ?_
  · exact Env.scope_putIn_of_ne (ne_of_mem_of_not_mem hother hid) x v
  · exact Env.scope_putIn_of_ne (ne_of_mem_of_not_mem hother hid') x v

private theorem scope_putIn_of_found (h : Merged e e' ls ids) {x : String} {id id' : ScopeId}
    (hx : e.binder? (ls.map Layer.scope ++ [Env.global]) x = some id)
    (hx' : e'.binder? (ids ++ [Env.global]) x = some id') {above : ScopeId}
    (habove : above ∉ ls.map Layer.scope ++ [Env.global]) (v : Value) :
    (e.putIn id x v).scope above = e.scope above ∧
      (e'.putIn id' x v).scope above = e'.scope above := by
  have hid := List.mem_of_find?_eq_some hx
  have hid' := h.subset (List.mem_of_find?_eq_some hx')
  exact ⟨Env.scope_putIn_of_ne (ne_of_mem_of_not_mem hid habove).symm x v,
    Env.scope_putIn_of_ne (ne_of_mem_of_not_mem hid' habove).symm x v⟩

private theorem assign_call {f : Function} {c p : ScopeId}
    (h : ∀ x, (e'.scope p).get? x = ((e.scope p).get? x).or ((e.scope c).get? x))
    (hbelow : Merged e e' ls ids) (hp : p ∉ c :: (ls.map Layer.scope ++ [Env.global]))
    (hc : c ∉ ls.map Layer.scope ++ [Env.global]) (hplt : p < e.scopes.size)
    (hclt : c < e.scopes.size) (hsize : e'.scopes.size = e.scopes.size) {x : String} {id : ScopeId}
    (hx : e.binder? (p :: c :: (ls.map Layer.scope ++ [Env.global])) x = some id) (v : Value)
    (ih : e.binder? (ls.map Layer.scope ++ [Env.global]) x = some id →
      ∃ id', e'.binder? (ids ++ [Env.global]) x = some id' ∧
        Merged (e.putIn id x v) (e'.putIn id' x v) ls ids) :
    ∃ id', e'.binder? (p :: (ids ++ [Env.global])) x = some id' ∧
      Merged (e.putIn id x v) (e'.putIn id' x v) (.parameters p :: .call f c :: ls) (p :: ids) := by
  obtain ⟨hpc, hp⟩ := List.ne_and_not_mem_of_not_mem_cons hp
  have hbinds : (e'.scope p).binds x = ((e.scope p).binds x || (e.scope c).binds x) := by
    rw [Scope.binds, h, Option.isSome_or]
    rfl
  rw [Env.binder?_cons, Env.binder?_cons] at hx
  rw [Env.binder?_cons, hbinds]
  cases hupper : (e.scope p).binds x with
  | true =>
    rw [hupper, if_pos rfl] at hx
    obtain rfl : p = id := Option.some.inj hx
    refine ⟨p, rfl, .call (fun y => ?_) (hbelow.putIn hp hp x v)⟩
    rw [Env.scope_putIn_self hplt, Env.scope_putIn_self (hsize ▸ hplt),
      Env.scope_putIn_of_ne hpc.symm]
    exact get?_put_upper h x v y
  | false =>
    rw [hupper, if_neg Bool.false_ne_true] at hx
    rw [Bool.false_or]
    cases hlower : (e.scope c).binds x with
    | true =>
      rw [hlower, if_pos rfl] at hx
      obtain rfl : c = id := Option.some.inj hx
      refine ⟨p, rfl, .call (fun y => ?_) (hbelow.putIn hc hp x v)⟩
      rw [Env.scope_putIn_self hclt, Env.scope_putIn_self (hsize ▸ hplt), Env.scope_putIn_of_ne hpc]
      have hnone : (e.scope p).get? x = none := by simpa [Scope.binds] using hupper
      exact get?_put_lower h hnone v y
    | false =>
      rw [hlower, if_neg Bool.false_ne_true] at hx
      obtain ⟨id', hx', hmerged⟩ := ih hx
      obtain ⟨hponly, hpother⟩ := hbelow.scope_putIn_of_found hx hx' hp v
      refine ⟨id', hx', .call (fun y => ?_) hmerged⟩
      rw [hpother, hponly, (hbelow.scope_putIn_of_found hx hx' hc v).1]
      exact h y

/-- An assignment that finds its variable in the one finds it in the other. -/
theorem assign (h : Merged e e' ls ids) (hnodup : (ls.map Layer.scope ++ [Env.global]).Nodup)
    (hlt : ∀ id ∈ ls.map Layer.scope ++ [Env.global], id < e.scopes.size)
    (hsize : e'.scopes.size = e.scopes.size) {x : String} {id : ScopeId}
    (hx : e.binder? (ls.map Layer.scope ++ [Env.global]) x = some id) (v : Value) :
    ∃ id', e'.binder? (ids ++ [Env.global]) x = some id' ∧
      Merged (e.putIn id x v) (e'.putIn id' x v) ls ids := by
  have hput {b : ScopeId} (hb : b < e.scopes.size) (hscope : e'.scope b = e.scope b) :
      (e'.putIn b x v).scope b = (e.putIn b x v).scope b := by
    rw [Env.scope_putIn_self hb, Env.scope_putIn_self (hsize ▸ hb), hscope]
  induction h with
  | global h =>
    rw [List.map_nil, List.nil_append, Env.binder?_cons] at hx
    rw [List.nil_append, Env.binder?_cons, h]
    cases hbinds : (e.scope Env.global).binds x with
    | false =>
      rw [hbinds] at hx
      cases hx
    | true =>
      rw [hbinds] at hx
      cases hx
      exact ⟨Env.global, rfl, .global (hput (hlt _ List.mem_cons_self) h)⟩
  | @block b ls ids h hbelow ih =>
    obtain ⟨hb, hlt⟩ := List.forall_mem_cons.1 hlt
    obtain ⟨hnot, hnodup⟩ := List.nodup_cons.1 hnodup
    rw [List.map_cons, List.cons_append, Layer.scope, Env.binder?_cons] at hx
    rw [List.cons_append, Env.binder?_cons, h]
    cases hbinds : (e.scope b).binds x with
    | true =>
      rw [hbinds, if_pos rfl] at hx
      obtain rfl : b = id := Option.some.inj hx
      exact ⟨b, rfl, .block (hput hb h) (hbelow.putIn hnot hnot x v)⟩
    | false =>
      rw [hbinds, if_neg Bool.false_ne_true] at hx
      obtain ⟨id', hx', hmerged⟩ := ih hnodup hlt hx
      obtain ⟨hone, hother⟩ := hbelow.scope_putIn_of_found hx hx' hnot v
      exact ⟨id', hx', .block (hother.trans (h.trans hone.symm)) hmerged⟩
  | @call f c p ls ids h hbelow ih =>
    obtain ⟨hp, hlt⟩ := List.forall_mem_cons.1 hlt
    obtain ⟨hc, hlt⟩ := List.forall_mem_cons.1 hlt
    obtain ⟨hnotp, hnodup⟩ := List.nodup_cons.1 hnodup
    obtain ⟨hnotc, hnodup⟩ := List.nodup_cons.1 hnodup
    exact assign_call h hbelow hnotp hnotc hp hc hsize hx v (ih hnodup hlt)

/-- In a block, or where there is no layer, the same scope is innermost in both. -/
theorem top_eq (h : Merged e e' ls ids) (hstack : e.inner = ls.map Layer.scope)
    (hstack' : e'.inner = ids) (hblock : ∀ l ls', ls = l :: ls' → ∃ id, l = .block id) :
    e'.top = e.top ∧ e'.scope e.top = e.scope e.top := by
  rw [Env.top, Env.top, hstack, hstack']
  cases h with
  | global h => exact ⟨rfl, h⟩
  | block h _ => exact ⟨rfl, h⟩
  | call _ _ =>
    obtain ⟨id, hid⟩ := hblock _ _ rfl
    cases hid

/-- What is bound there is bound in both. -/
theorem define (h : Merged e e' ls ids) (hnodup : (ls.map Layer.scope ++ [Env.global]).Nodup)
    (hstack : e.inner = ls.map Layer.scope) (hstack' : e'.inner = ids)
    (hlt : e.top < e.scopes.size) (hsize : e'.scopes.size = e.scopes.size)
    (hblock : ∀ l ls', ls = l :: ls' → ∃ id, l = .block id) (x : String) (v : Value) :
    Merged (e.define x v) (e'.define x v) ls ids := by
  obtain ⟨htop, hscope⟩ := h.top_eq hstack hstack' hblock
  have hput : (e'.putIn e.top x v).scope e.top = (e.putIn e.top x v).scope e.top := by
    rw [Env.scope_putIn_self hlt, Env.scope_putIn_self (hsize ▸ hlt), hscope]
  rw [Env.define, Env.define, htop]
  rw [Env.top, hstack] at hput ⊢
  cases h with
  | global h => exact .global hput
  | block h hbelow =>
    have hnot := (List.nodup_cons.1 hnodup).1
    exact .block hput (hbelow.putIn hnot hnot x v)
  | call h hbelow =>
    obtain ⟨id, hid⟩ := hblock _ _ rfl
    cases hid

private theorem get?_bindAll {xs : List String} {vs : List Value} (hlength : vs.length = xs.length)
    (htop : e'.top = e.top) (hlt : e.top < e.scopes.size) (hsize : e'.scopes.size = e.scopes.size)
    {lower : Scope}
    (h : ∀ y ∉ xs, (e'.scope e.top).get? y = ((e.scope e.top).get? y).or (lower.get? y))
    (y : String) :
    ((e'.bindAll xs vs).scope e.top).get? y =
      (((e.bindAll xs vs).scope e.top).get? y).or (lower.get? y) := by
  induction xs generalizing vs e e' with
  | nil => exact h y List.not_mem_nil
  | cons x xs ih =>
    cases vs with
    | nil => cases hlength
    | cons v vs =>
      have htop₁ : (e.define x v).top = e.top := Env.top_congr (Env.inner_putIn ..)
      have htop₁' : (e'.define x v).top = e.top := (Env.top_congr (Env.inner_putIn ..)).trans htop
      have hsize₁ : (e'.define x v).scopes.size = (e.define x v).scopes.size := by
        rw [Env.size_define, Env.size_define, hsize]
      refine htop₁ ▸ ih (Nat.succ.inj hlength) (htop₁'.trans htop₁.symm) ?_ hsize₁ fun z hz => ?_
      · rw [htop₁, Env.size_define]
        exact hlt
      · rw [htop₁, Env.define, Env.define, htop, Env.scope_putIn_self hlt,
          Env.scope_putIn_self (hsize ▸ hlt)]
        by_cases hzx : z = x
        · subst hzx
          rw [Scope.get?_put_self, Scope.get?_put_self, Option.some_or]
        · rw [Scope.get?_put_ne hzx, Scope.get?_put_ne hzx]
          exact h z (List.not_mem_cons_of_ne_of_not_mem hzx hz)

end Merged

namespace History

/-- The environment `e'` of a reading with copies is what it should be where evaluation has come to
the end of the history. -/
structure Copied (past : History) (e' : Env) : Prop where
  size : e'.scopes.size = past.env.scopes.size
  merged : Merged past.env e' past.layers e'.inner
  /-- While a function is not running, it has captured the same in both, but for the names of its
  parameters. -/
  captured : ∀ f ∈ past.declared, f ∉ past.active → ∀ c, f.closure? = some c → ∀ x ∉ f.params,
    (e'.scope c).get? x = (past.env.scope c).get? x

namespace Copied

variable {past : History} {e' : Env}

/-- At first both are alike. -/
theorem start : Copied [] Env.initial where
  size := rfl
  merged := .global rfl
  captured f hf := by cases hf

/-- Names have the same values. -/
theorem get?_eq (h : past.Copied e') (hp : past.Tame) (x : String) :
    e'.get? x = past.env.get? x := by
  rw [Env.get?_eq_findSome?, Env.get?_eq_findSome?, hp.valid.invariant.stack_eq]
  exact h.merged.findSome? x

/-- A variable that is not found in the one is not found in the other. -/
theorem owner?_eq_none (h : past.Copied e') (hp : past.Tame) {x : String}
    (hx : past.env.owner? x = none) : e'.owner? x = none := by
  have hget : e'.get? x = none := by
    rw [h.get?_eq hp, Env.get?, hx, Option.bind_none]
  cases howner : e'.owner? x with
  | none => rfl
  | some id =>
    obtain ⟨v, hv⟩ := Env.exists_get?_of_binds (Env.owner?_mem howner) (Env.binds_of_owner? howner)
    cases hget.symm.trans hv

/-- An assignment in both. -/
theorem assigned (h : past.Copied e') (hp : past.Tame) {x : String} {id : ScopeId}
    (hx : past.env.owner? x = some id) (v : Value) :
    ∃ id', e'.owner? x = some id' ∧
      Copied (⟨.assigned x v, past.env.putIn id x v⟩ :: past) (e'.putIn id' x v) := by
  have hstack := hp.valid.invariant.stack_eq
  rw [Env.owner?_eq_find?, hstack] at hx
  obtain ⟨id', hx', hmerged⟩ := h.merged.assign hp.nodup_stack
    (fun id hid => hp.valid.invariant.lt_of_mem_stack (hstack ▸ hid)) h.size hx v
  refine ⟨id', (Env.owner?_eq_find? e' x).trans hx', ?_, hmerged, fun f hf hactive c hc y hy => ?_⟩
  · rw [env, Env.size_putIn, Env.size_putIn, h.size]
  · have hnot := hp.valid.invariant.closure_not_mem hf hc hactive
    have hid := List.mem_of_find?_eq_some hx
    have hid' := h.merged.subset (List.mem_of_find?_eq_some hx')
    rw [env, Env.scope_putIn_of_ne (ne_of_mem_of_not_mem hid hnot).symm,
      Env.scope_putIn_of_ne (ne_of_mem_of_not_mem hid' hnot).symm]
    exact h.captured f hf hactive c hc y hy

/-- A binding in both, by a statement. -/
theorem bound (h : past.Copied e') (hp : past.Tame) (hstanding : past.Standing) (x : String)
    (v : Value) : Copied (⟨.bound x v, past.env.define x v⟩ :: past) (e'.define x v) := by
  have hinv := hp.valid.invariant
  have hmem := Env.top_mem_stack past.env
  have htop := (h.merged.top_eq hinv.stack rfl hstanding).1
  refine ⟨?_, ?_, fun f hf hactive c hc y hy => ?_⟩
  · rw [env, Env.size_define, Env.size_define, h.size]
  · exact h.merged.define hp.nodup_stack hinv.stack rfl (hinv.lt_of_mem_stack hmem) h.size
      hstanding x v
  · have hnot := hinv.closure_not_mem hf hc hactive
    have hne := (ne_of_mem_of_not_mem (hinv.stack_eq ▸ hmem) hnot).symm
    rw [env, Env.define, Env.define, htop, Env.scope_putIn_of_ne hne, Env.scope_putIn_of_ne hne]
    exact h.captured f hf hactive c hc y hy

/-- A function is declared in both, by a statement. -/
theorem declared (h : past.Copied e') (hp : past.Tame) (hstanding : past.Standing) {f : Function}
    (hf : f.closure? = some past.env.snapshot.1) :
    Copied (⟨.declared f, past.env.snapshot.2⟩ :: past) e'.snapshot.2 := by
  have hinv := hp.valid.invariant
  obtain ⟨htop, hscope⟩ := h.merged.top_eq hinv.stack rfl hstanding
  have hold {id : ScopeId} (hid : id < past.env.scopes.size) :
      past.env.snapshot.2.scope id = past.env.scope id ∧
        e'.snapshot.2.scope id = e'.scope id :=
    ⟨Env.scope_snapshot_of_lt hid, Env.scope_snapshot_of_lt (h.size ▸ hid)⟩
  have hlt {id : ScopeId} (hid : id ∈ past.layers.map Layer.scope ++ [Env.global]) :
      id < past.env.scopes.size := hinv.lt_of_mem_stack (hinv.stack_eq ▸ hid)
  refine ⟨?_, ?_, fun g hg hactive c hc y hy => ?_⟩
  · rw [env, Env.size_snapshot, Env.size_snapshot, h.size]
  · exact h.merged.congr (fun id hid => (hold (hlt hid)).1) fun id hid => (hold (hlt hid)).2
  · rw [env]
    rcases List.mem_cons.1 hg with rfl | hg
    · obtain rfl : past.env.scopes.size = c := Option.some.inj (hf.symm.trans hc)
      rw [Env.scope_snapshot_self, ← h.size, Env.scope_snapshot_self, htop, hscope]
    · obtain ⟨hone, hother⟩ := hold (hinv.closure_lt hg hc)
      rw [hone, hother]
      exact h.captured g hg hactive c hc y hy

/-- A block is entered in both. -/
theorem opened (h : past.Copied e') :
    Copied (⟨.opened (.forBlock past.env), past.env.push⟩ :: past) e'.push where
  size := by rw [env, Env.size_push, Env.size_push, h.size]
  merged := by
    rw [Env.inner_push, h.size]
    have hbelow := h.merged.congr (fun id _ => Env.scope_push past.env id) fun id _ =>
      Env.scope_push e' id
    refine .block ?_ hbelow
    rw [env, Env.scope_push, Env.scope_push, Env.scope_of_size_le (Nat.le_of_eq h.size),
      Env.scope_of_size_le (Nat.le_refl _)]
  captured f hf hactive c hc x hx := by
    rw [env, Env.scope_push, Env.scope_push]
    exact h.captured f hf hactive c hc x hx

/-- A block is left in both. -/
theorem closed (h : past.Copied e') {id : ScopeId} {ls : List Layer}
    (hl : past.layers = .block id :: ls) :
    ∃ ids, e'.inner = id :: ids ∧ ∀ inner,
      Copied (⟨.closed (.block id), ⟨past.env.scopes, inner⟩⟩ :: past) ⟨e'.scopes, ids⟩ := by
  have hmerged := h.merged
  rw [hl] at hmerged
  obtain ⟨ids, hids, -, hbelow⟩ := hmerged.of_block
  refine ⟨ids, hids, fun inner => ⟨h.size, ?_, fun f hf hactive => h.captured f hf ?_⟩⟩
  · rw [layers, hl]
    exact hbelow.congr (fun _ _ => rfl) fun _ _ => rfl
  · rw [active, layers, hl] at hactive
    rw [active, hl]
    exact hactive

private theorem scope_begun (h : past.Copied e') (c : ScopeId) (contents : Scope)
    (xs : List String) (vs : List Value) {id : ScopeId} (hid : id < past.env.scopes.size) :
    ((past.env.pushShared c).push.bindAll xs vs).scope id = past.env.scope id ∧
      ((e'.pushCopy contents).bindAll xs vs).scope id = e'.scope id := by
  have hid' : id < e'.scopes.size := h.size ▸ hid
  have hone : id ≠ (past.env.pushShared c).push.top := Nat.ne_of_lt hid
  have hother : id ≠ (e'.pushCopy contents).top := Nat.ne_of_lt hid'
  rw [Env.scope_bindAll xs vs hone, Env.scope_bindAll xs vs hother]
  exact ⟨Env.scope_push _ id, Env.scope_pushCopy_of_lt hid' contents⟩

private theorem get?_begun (h : past.Copied e') {f : Function} {c : ScopeId}
    (hf : f ∈ past.declared) (hc : f.closure? = some c) (hidle : f ∉ past.active)
    {args : List Value} (hlength : args.length = f.params.length) (y : String) :
    (((e'.pushCopy (e'.scope c)).bindAll f.params args).scope past.env.scopes.size).get? y =
      ((((past.env.pushShared c).push.bindAll f.params args).scope past.env.scopes.size).get? y).or
        ((past.env.scope c).get? y) := by
  let opened : Env := (past.env.pushShared c).push
  let opened' : Env := e'.pushCopy (e'.scope c)
  have htop : opened'.top = opened.top := h.size
  have hsize : opened'.scopes.size = opened.scopes.size :=
    (Env.size_pushCopy ..).trans ((congrArg _ h.size).trans (Env.size_push _).symm)
  have hlt : opened.top < opened.scopes.size := by
    rw [Env.size_push]
    exact Nat.lt_succ_self _
  have hnew : opened.scope opened.top = [] :=
    (Env.scope_push _ _).trans (Env.scope_of_size_le (Nat.le_refl _))
  have hcopy : opened'.scope opened.top = e'.scope c :=
    htop ▸ Env.scope_pushCopy_self e' (e'.scope c)
  refine Merged.get?_bindAll hlength htop hlt hsize (fun z hz => ?_) y
  rw [hnew, hcopy]
  exact h.captured f hf hidle c hc z hz

/-- Where the parameters of a call have been bound in both. -/
theorem begun (h : past.Copied e') (hp : past.Tame) {f : Function} {c : ScopeId}
    (hf : f ∈ past.declared) (hc : f.closure? = some c) (hidle : f ∉ past.active)
    {args : List Value} (hlength : args.length = f.params.length) {now : History}
    (henv : now.env = (past.env.pushShared c).push.bindAll f.params args)
    (hlayers : now.layers = .parameters past.env.scopes.size :: .call f c :: past.layers)
    (hdeclared : now.declared = past.declared) :
    now.Copied ((e'.pushCopy (e'.scope c)).bindAll f.params args) := by
  have hinv := hp.valid.invariant
  have hold {id : ScopeId} (hid : id < past.env.scopes.size) :=
    h.scope_begun c (e'.scope c) f.params args hid
  have hlt {id : ScopeId} (hid : id ∈ past.layers.map Layer.scope ++ [Env.global]) :
      id < past.env.scopes.size := hinv.lt_of_mem_stack (hinv.stack_eq ▸ hid)
  have hbelow := h.merged.congr (fun id hid => (hold (hlt hid)).1) fun id hid => (hold (hlt hid)).2
  refine ⟨?_, ?_, fun g hg hactive d hd y hy => ?_⟩
  · rw [henv, Env.size_bindAll, Env.size_bindAll, Env.size_pushCopy, Env.size_push, h.size]
    rfl
  · rw [henv, hlayers, Env.inner_bindAll, Env.inner_pushCopy, h.size]
    refine .call (fun y => ?_) hbelow
    rw [(hold (hinv.closure_lt hf hc)).1]
    exact h.get?_begun hf hc hidle hlength y
  · rw [hdeclared] at hg
    obtain ⟨hone, hother⟩ := hold (hinv.closure_lt hg hd)
    rw [henv, hone, hother]
    refine h.captured g hg (fun hmem => hactive ?_) d hd y hy
    rw [active, hlayers]
    exact List.mem_cons_of_mem f hmem

/-- Where a call has ended in both. -/
theorem ended (h : past.Copied e') (hp : past.Tame) {p c : ScopeId} {f : Function} {ls : List Layer}
    (hl : past.layers = .parameters p :: .call f c :: ls) :
    ∃ ids, e'.inner = p :: ids ∧ ∀ now : History, now.env.scopes = past.env.scopes →
      now.layers = ls → now.declared = past.declared →
      now.Copied (Env.store c (e'.scope p) ⟨e'.scopes, ids⟩) := by
  have hinv := hp.valid.invariant
  have hmem : Layer.call f c ∈ past.layers := hl ▸ List.mem_cons_of_mem _ List.mem_cons_self
  obtain ⟨hf, hc⟩ : f ∈ past.declared ∧ f.closure? = some c := hinv.layers _ hmem
  have hnot : c ∉ ls.map Layer.scope ++ [Env.global] := by
    have hnodup := hp.nodup_stack
    rw [hl] at hnodup
    exact (List.nodup_cons.1 (List.nodup_cons.1 hnodup).2).1
  have hmerged := h.merged
  rw [hl] at hmerged
  obtain ⟨ids, hids, hcall, hbelow⟩ := hmerged.of_call
  refine ⟨ids, hids, fun now henv hlayers hdeclared => ?_⟩
  have hsame (id : ScopeId) : now.env.scope id = past.env.scope id := by
    rw [Env.scope, Env.scope, henv]
  refine ⟨?_, ?_, fun g hg hidle d hd x hx => ?_⟩
  · rw [Env.size_store, henv]
    exact h.size
  · rw [hlayers]
    refine hbelow.congr (fun id _ => hsame id) fun id hid => ?_
    exact Env.scope_store_of_ne (ne_of_mem_of_not_mem hid hnot) _
  · rw [hdeclared] at hg
    rw [hsame]
    rcases Classical.em (g = f) with rfl | hgf
    · obtain rfl := Option.some.inj (hc.symm.trans hd)
      have hlt : c < e'.scopes.size := h.size ▸ hinv.scope_lt hmem
      have hstored : (Env.store c (e'.scope p) ⟨e'.scopes, ids⟩).scope c = e'.scope p :=
        Env.scope_store_self hlt _
      rw [hstored, hcall]
      cases hparam : (past.env.scope p).get? x with
      | none => rfl
      | some v =>
        -- only parameters are bound above what the function has captured
        have hopen : past.layers = [] ++ .parameters p :: .call g c :: ls := hl
        refine (hx (hp.valid.mem_params hp.passing hopen ?_)).elim
        rw [Scope.binds, hparam, Option.isSome_some]
    · have hne : d ≠ c := fun hdc =>
        hgf (hinv.closure_inj hg hf (hd.trans ((congrArg some hdc).trans hc.symm)))
      rw [Env.scope_store_of_ne hne]
      refine h.captured g hg (fun hactive => hidle ?_) d hd x hx
      rw [active, hl] at hactive
      rw [active, hlayers]
      exact (List.mem_cons.1 hactive).resolve_left hgf

end Copied

end History

end Lox
