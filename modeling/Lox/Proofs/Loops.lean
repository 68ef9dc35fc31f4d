import Lox.Proofs.Lookups
import Lox.Proofs.References
import Lox.Proofs.Renaming
import Lox.Proofs.Returns
import Lox.Syntax.OfTree

/-!
# The step of a `for` loop

A `for` loop becomes a block that holds its initialiser and a loop, and the step is the last
statement of the loop's body. So the step is evaluated in the scope of the body, and what the body
has declared there can be found by it. Where it finds nothing there, the loop does what it would do
if the body had a scope of its own and the step stood behind it; only the identities of scopes are
others, since there each round makes one scope more.
-/

namespace Lox

/-- The parts of a `for` loop. -/
structure ForLoop where
  inits : List Stmt
  cond : Option Expr
  body : Block
  steps : List Expr

namespace ForLoop

/-- The condition; one that is left out is true. -/
def test (F : ForLoop) : Expr := F.cond.getD (.literal (.bool true))

/-- What a round of the loop runs. -/
def round (F : ForLoop) : Block := F.body ++ F.steps.map .expr

/-- The statement that the loop becomes. -/
def built (F : ForLoop) : Stmt := .block (F.inits ++ [.loop F.test F.round])

/-- What a round runs if the body has a scope of its own. -/
def roundApart (F : ForLoop) : Block := .block F.body :: F.steps.map .expr

/-- The statement that the loop would become if its body had a scope of its own. -/
def apart (F : ForLoop) : Stmt := .block (F.inits ++ [.loop F.test F.roundApart])

open Lox.Tree in
/-- The parts of the loop with these children in a parse tree. -/
def ofTree (cs : List Tree) : Except Defect ForLoop :=
  if (nodes cs).length ≠ 4 then .error .misshapen
  else do
    let inits ← firstBareStmts cs
    let cond ← firstExpr? (nodesUnder 1 cs)
    let body ← blockAt 3 cs
    let steps ← exprs (nodesUnder 2 cs)
    return ⟨inits, cond, body, steps⟩

/-- A `for` statement of a parse tree is built from the parts of its loop. -/
theorem stmt_eq_built (cs : List Tree) :
    Tree.stmt (.node .forStmt cs) = built <$> ofTree cs := by
  rw [Tree.stmt, ofTree]
  split
  · rfl
  · cases Tree.firstBareStmts cs with
    | error d => rfl
    | ok inits =>
      cases Tree.firstExpr? (Tree.nodesUnder 1 cs) with
      | error d => rfl
      | ok cond =>
        cases Tree.blockAt 3 cs with
        | error d => rfl
        | ok body => cases Tree.exprs (Tree.nodesUnder 2 cs) <;> rfl

end ForLoop

/-! ### One scope more on the other side -/

/-- The same world with scopes under other identities. -/
structure World.Renamed (ρ : ScopeId → ScopeId) (w w' : World) : Prop where
  stack : w'.env.inner = w.env.inner.map ρ
  scope : ∀ id, w'.env.scope (ρ id) = (w.env.scope id).rename ρ
  printed : w'.printed = w.printed
  trace : w'.trace = w.trace

private theorem Value.rename_congr {ρ ρ' : ScopeId → ScopeId} {size : Nat}
    (h : ∀ id < size, ρ' id = ρ id) {v : Value} (hv : v.RefersBelow size) :
    v.rename ρ' = v.rename ρ := by
  cases v with
  | func f =>
    cases f with
    | builtin fn => rfl
    | user name params body closure =>
      have hclosure := h closure (hv _ closure rfl rfl)
      simp only [rename, Function.rename, hclosure]
  | _ => rfl

private theorem Scope.rename_congr {ρ ρ' : ScopeId → ScopeId} {size : Nat}
    (h : ∀ id < size, ρ' id = ρ id) {s : Scope} (hs : ∀ b ∈ s, b.2.RefersBelow size) :
    s.rename ρ' = s.rename ρ :=
  List.map_congr_left fun b hb => by rw [Value.rename_congr h (hs b hb)]

private theorem Value.rename_id (v : Value) : v.rename id = v := by
  cases v with
  | func f => cases f <;> rfl
  | _ => rfl

private theorem Scope.rename_id (s : Scope) : s.rename id = s := by
  have hmap : (fun b : String × Value => (b.1, b.2.rename id)) = id := by
    funext b
    rw [Value.rename_id]
    rfl
  rw [rename, hmap, List.map_id]

namespace Mirror

/-- A run is mirrored by itself. -/
def still (below : List ScopeId) : Mirror where
  there := id
  below := below
  extra := []
  injective h := h
  global := rfl
  unnamed _ := List.not_mem_nil

private theorem reflects_still (w : World) : (still w.env.inner).Reflects [] w w where
  stack := rfl
  stack' := (List.map_id _).symm
  fresh _ := rfl
  scope id := (Scope.rename_id (w.env.scope id)).symm
  blank _ hid := (List.not_mem_nil hid).elim
  printed := rfl
  trace := rfl

variable {σ : Mirror} {own : List ScopeId} {e e' : Env}

/-- The other run lays an empty scope on its stack, the one does not. -/
def beside (σ : Mirror) (h : σ.Holds own e e') (hpos : 0 < e.scopes.size) : Mirror where
  there id := if id < e.scopes.size then σ.there id else σ.there id + 1
  below := σ.below
  extra := [e'.scopes.size]
  injective {i j} hij := by
    by_cases hi : i < e.scopes.size <;> by_cases hj : j < e.scopes.size
    · rw [if_pos hi, if_pos hj] at hij
      exact σ.injective hij
    · rw [if_pos hi, if_neg hj] at hij
      have hlt := h.lt_size hi
      rw [hij] at hlt
      exact (Nat.not_lt_of_le (Nat.le_succ_of_le (h.size_le (Nat.le_of_not_lt hj))) hlt).elim
    · rw [if_neg hi, if_pos hj] at hij
      have hlt := h.lt_size hj
      rw [← hij] at hlt
      exact (Nat.not_lt_of_le (Nat.le_succ_of_le (h.size_le (Nat.le_of_not_lt hi))) hlt).elim
    · rw [if_neg hi, if_neg hj] at hij
      exact σ.injective (Nat.succ.inj hij)
  global := (if_pos hpos).trans σ.global
  unnamed id := by
    rw [List.mem_singleton]
    by_cases hid : id < e.scopes.size
    · rw [if_pos hid]
      exact Nat.ne_of_lt (h.lt_size hid)
    · rw [if_neg hid]
      exact Nat.ne_of_gt (Nat.lt_succ_of_le (h.size_le (Nat.le_of_not_lt hid)))

section Beside

variable (h : σ.Holds own e e') (hpos : 0 < e.scopes.size) {id : ScopeId}

private theorem beside_of_lt (hid : id < e.scopes.size) :
    (σ.beside h hpos).there id = σ.there id := if_pos hid

private theorem beside_of_le (hid : e.scopes.size ≤ id) :
    (σ.beside h hpos).there id = σ.there id + 1 := if_neg (Nat.not_lt_of_le hid)

end Beside

private theorem holds_beside (h : σ.Holds [] e e') (hextra : σ.extra = [])
    (hpos : 0 < e.scopes.size) (he : e.Sound) :
    (σ.beside h hpos).Holds [e.scopes.size] e.push e'.push.push where
  stack := congrArg (e.scopes.size :: ·) h.stack
  stack' := by
    have hnew : (σ.beside h hpos).there e.scopes.size = e'.scopes.size + 1 := by
      rw [beside_of_le h hpos (Nat.le_refl _), h.next]
    have hbelow : σ.below.map (σ.beside h hpos).there = σ.below.map σ.there :=
      List.map_congr_left fun id hid => beside_of_lt h hpos (he.wf.2 id (h.stack ▸ hid))
    have hstack' : e'.inner = σ.below.map σ.there := by
      rw [h.stack', hextra]
      rfl
    rw [Env.inner_push, Env.inner_push, Env.size_push, hstack', List.map_singleton, hnew, ← hbelow]
    rfl
  fresh n := by
    have hle : e.scopes.size ≤ e.scopes.size + (1 + n) := Nat.le_add_right _ _
    rw [Env.size_push, Env.size_push, Env.size_push, Nat.add_assoc, beside_of_le h hpos hle,
      h.fresh]
    simp only [Nat.add_comm, Nat.add_left_comm]
  scope id := by
    rw [Env.scope_push, Env.scope_push, Env.scope_push]
    rcases Nat.lt_or_ge id e.scopes.size with hid | hid
    · rw [beside_of_lt h hpos hid, h.scope,
        Scope.rename_congr (fun i hi => beside_of_lt h hpos hi) (he.refers id)]
    · rw [Env.scope_of_size_le hid, beside_of_le h hpos hid,
        Env.scope_of_size_le (Nat.le_succ_of_le (h.size_le hid))]
      rfl
  blank id hid := by
    obtain rfl := List.mem_singleton.1 hid
    rw [Env.scope_push, Env.scope_push, Env.scope_of_size_le (Nat.le_refl _)]

/-- Without the empty scopes. -/
def shut (σ : Mirror) : Mirror :=
  { σ with extra := [], unnamed := fun _ => List.not_mem_nil }

private theorem Reflects.shut {w w' : World} (h : σ.Reflects own w w') :
    σ.shut.Reflects [] (w.on σ.below) (w'.on (σ.below.map σ.there)) :=
  ⟨⟨rfl, rfl, h.fresh, h.scope, fun _ hid => (List.not_mem_nil hid).elim⟩, h.printed, h.trace⟩

/-- From worlds of which one reflects the other, with the same stack, two statements lead to such
worlds and end alike. The scopes that there were keep their identities. -/
def Follows (σ : Mirror) (w w' : World) (act act' : Eval Flow) : Prop :=
  ∃ τ : Mirror, τ.extra = [] ∧ τ.below = σ.below ∧
    (∀ id < w.env.scopes.size, τ.there id = σ.there id) ∧
    ∃ w₁, τ.Reflects [] (endState (act w)) w₁ ∧
      act' w' = renameEnd τ.there (Flow.rename τ.there) w₁ (act w)

end Mirror

private theorem endOn_renameEnd {α : Type} (ρ : ScopeId → ScopeId) (g : α → α) (w : World)
    (inner : List ScopeId) (res : EStateM.Result Stop World α) :
    endOn inner (renameEnd ρ g w res) = renameEnd ρ g (w.on inner) res := by
  cases res <;> rfl

private theorem renameEnd_endOn {α : Type} (ρ : ScopeId → ScopeId) (g : α → α) (w : World)
    (inner : List ScopeId) (res : EStateM.Result Stop World α) :
    renameEnd ρ g w (endOn inner res) = renameEnd ρ g w res := by
  cases res <;> rfl

private theorem Flow.GoesOn.rename {flow : Flow} (h : flow.GoesOn) (ρ : ScopeId → ScopeId) :
    (flow.rename ρ).GoesOn := by
  cases flow with
  | returned v => exact h
  | next | value v => trivial

private theorem Stmt.ends_renameEnd {ρ : ScopeId → ScopeId} {w : World}
    {res : EStateM.Result Stop World Flow} (h : Ends res) :
    Ends (renameEnd ρ (Flow.rename ρ) w res) := by
  intro flow w' hflow
  cases res with
  | error s w₁ => cases hflow
  | ok last w₁ =>
    cases hflow
    cases last with
    | returned v => exact id
    | next | value v => exact (h _ _ rfl trivial).elim

/-! ### Rounds side by side -/

-- Of two ends, one is the other under other identities; the scopes that were laid on the stacks
-- since are to be taken away.
private def Mirror.Rejoins (τ : Mirror) (res res' : EStateM.Result Stop World Flow) : Prop :=
  ∃ own w₁ w₁', τ.Reflects own w₁ w₁' ∧ w₁.on τ.below = (endState res).on τ.below ∧
    res' = renameEnd τ.there (Flow.rename τ.there) w₁' res

section Round

variable {limits : Limits} {tracing : Bool} {τ : Mirror} {w w' : World}
variable {body : Block} {steps : List Expr}

section Statements

variable (hopened : τ.Reflects [w.env.scopes.size] w.opened w'.opened.opened)

include hopened

private theorem exists_block_eq (limits : Limits) (tracing : Bool) (body : Block) : ∃ w₁,
    τ.Reflects [w.env.scopes.size]
      (endState (Stmt.execAll (limits.context tracing) .next body w.opened)) w₁ ∧
    (Stmt.block body).exec (limits.context tracing) w'.opened =
      renameEnd τ.there (Flow.rename τ.there) (w₁.on (τ.extra ++ τ.below.map τ.there))
        (Stmt.execAll (limits.context tracing) .next body w.opened) := by
  obtain ⟨w₁, h₁, hbody⟩ := Mirror.mirrors_stmts (τ.enters_ofCalls limits.rounds tracing
    limits.calls) (.inl (List.cons_ne_nil _ _)) .next body _ _ hopened
  have hinner : w'.opened.env.inner = τ.extra ++ τ.below.map τ.there :=
    (List.cons.inj hopened.stack').2
  have hblock : (Stmt.block body).exec (limits.context tracing) w'.opened = _ :=
    Block.exec_eq_endOn limits.rounds tracing limits.calls body w'.opened
  refine ⟨w₁, h₁, hblock.trans ?_⟩
  rw [hinner]
  exact (congrArg _ hbody).trans (endOn_renameEnd ..)

private theorem rejoins_of_ends
    (hends : Stmt.Ends (Stmt.execAll (limits.context tracing) .next body w.opened)) :
    τ.Rejoins
      (Stmt.execAll (limits.context tracing) .next (body ++ steps.map .expr) w.opened)
      (Stmt.execAll (limits.context tracing) .next (.block body :: steps.map .expr) w'.opened) := by
  obtain ⟨w₁, h₁, hblock⟩ := exists_block_eq hopened limits tracing body
  have hendsBlock : Stmt.Ends ((Stmt.block body).exec (limits.context tracing) w'.opened) :=
    hblock ▸ Stmt.ends_renameEnd hends
  have hnext : Flow.next.GoesOn := trivial
  rw [Stmt.execAll_append_of_ends hnext hends,
    Stmt.execAll_cons_of_ends hendsBlock, hblock]
  exact ⟨[], _, _, h₁.pop, rfl, rfl⟩

private theorem rejoins_of_goesOn {flow : Flow} {w₁ : World}
    (hbody : Stmt.execAll (limits.context tracing) .next body w.opened = .ok flow w₁)
    (hflow : flow.GoesOn)
    (hstep : w.env.scopes.size ∉ Stmt.found limits tracing flow (steps.map .expr) w₁) :
    τ.Rejoins
      (Stmt.execAll (limits.context tracing) .next (body ++ steps.map .expr) w.opened)
      (Stmt.execAll (limits.context tracing) .next (.block body :: steps.map .expr) w'.opened) := by
  obtain ⟨w₁', h₁, hblock⟩ := exists_block_eq hopened limits tracing body
  rw [hbody] at h₁ hblock
  have hleft : τ.Reflects [] (w₁.on τ.below) (w₁'.on (τ.extra ++ τ.below.map τ.there)) := h₁.pop
  obtain ⟨w₂, h₂, hsteps⟩ := Mirror.mirrors_steps (τ.enters_ofCalls limits.rounds tracing
    limits.calls) [] flow steps _ _ hleft
  -- the step does the same here if the scope of the body is taken away before it
  have hstack : w₁.env.inner = [] ++ w.env.scopes.size :: τ.below := h₁.stack
  have hwithout := Stmt.execAll_without limits tracing hstack hstep
  rw [List.nil_append] at hwithout
  rw [hwithout] at h₂
  rw [Stmt.execAll_append_of_goesOn hbody hflow,
    Stmt.execAll_cons_of_goesOn hblock (hflow.rename τ.there)]
  refine ⟨[], _, w₂, h₂, ?_, hsteps.trans ?_⟩
  · rw [endState_endOn]
    rfl
  · rw [hwithout, renameEnd_endOn]

end Statements

private theorem follows_round {σ : Mirror} (hextra : σ.extra = []) (h : σ.Reflects [] w w')
    (hw : w.env.Sound)
    (hsteps : ∀ flow w₁, Stmt.execAll (limits.context tracing) .next body w.opened = .ok flow w₁ →
      flow.GoesOn →
      w.env.scopes.size ∉ Stmt.found limits tracing flow (steps.map .expr) w₁) :
    σ.Follows w w' (Block.exec (limits.context tracing) (body ++ steps.map .expr))
      (Block.exec (limits.context tracing) (.block body :: steps.map .expr)) := by
  have hpos : 0 < w.env.scopes.size := hw.wf.1
  let τ := σ.beside h.toHolds hpos
  have hopened : τ.Reflects [w.env.scopes.size] w.opened w'.opened.opened :=
    ⟨Mirror.holds_beside h.toHolds hextra hpos hw, h.printed, h.trace⟩
  have hrejoins : τ.Rejoins
      (Stmt.execAll (limits.context tracing) .next (body ++ steps.map .expr) w.opened)
      (Stmt.execAll (limits.context tracing) .next (.block body :: steps.map .expr) w'.opened) := by
    by_cases hends : Stmt.Ends (Stmt.execAll (limits.context tracing) .next body w.opened)
    · exact rejoins_of_ends hopened hends
    · simp only [Stmt.Ends, not_forall, not_not] at hends
      obtain ⟨flow, w₁, hbody, hflow⟩ := hends
      exact rejoins_of_goesOn hopened hbody hflow (hsteps flow w₁ hbody hflow)
  obtain ⟨own, w₁, w₁', h₁, hleft, hright⟩ := hrejoins
  have hinner : w.env.inner = τ.below := h.stack
  have hinner' : w'.env.inner = τ.below.map τ.there :=
    (List.cons.inj (List.cons.inj hopened.stack').2).2
  refine ⟨τ.shut, rfl, rfl, fun id hid => Mirror.beside_of_lt h.toHolds hpos hid,
    w₁'.on (τ.below.map τ.there), ?_, ?_⟩
  · rw [Block.exec_eq_endOn, endState_endOn, hinner, ← hleft]
    exact h₁.shut
  · rw [Block.exec_eq_endOn, Block.exec_eq_endOn, hright, endOn_renameEnd, renameEnd_endOn, hinner']
    rfl

end Round

private theorem Mirror.Follows.later {σ τ : Mirror} {w w' w₁ w₁' : World}
    {act act' next next' : Eval Flow} (h : τ.Follows w₁ w₁' next next')
    (hbelow : τ.below = σ.below) (hthere : ∀ id < w.env.scopes.size, τ.there id = σ.there id)
    (hsize : w.env.scopes.size ≤ w₁.env.scopes.size) (hact : act w = next w₁)
    (hact' : act' w' = next' w₁') : σ.Follows w w' act act' := by
  obtain ⟨υ, hextra, hbelow', hthere', w₂, h₂, hend⟩ := h
  refine ⟨υ, hextra, hbelow'.trans hbelow, fun id hid => ?_, w₂, ?_, ?_⟩
  · rw [hthere' id (Nat.lt_of_lt_of_le hid hsize), hthere id hid]
  · rw [hact]
    exact h₂
  · rw [hact, hact', hend]

private theorem Mirror.Follows.ends {σ : Mirror} {w w' : World} {act act' : Eval Flow}
    (h : σ.Follows w w' act act') (hends : Stmt.Ends (act w)) : Stmt.Ends (act' w') := by
  obtain ⟨τ, -, -, -, w₁, -, hend⟩ := h
  exact hend ▸ Stmt.ends_renameEnd hends

/-! ### Loops side by side -/

private theorem repeatWhile_of_false {test : Eval Bool} {w w₁ : World}
    (h : test w = .ok false w₁) (body : Eval Flow) (more : Nat) (last : Flow) :
    Eval.repeatWhile test body (more + 1) last w = .ok last w₁ := by
  rw [Eval.repeatWhile, bind_of_ok h]
  rfl

private theorem repeatWhile_of_error {test : Eval Bool} {w w₁ : World} {stop : Stop}
    (h : test w = .error stop w₁) (body : Eval Flow) (more : Nat) (last : Flow) :
    Eval.repeatWhile test body (more + 1) last w = .error stop w₁ := by
  rw [Eval.repeatWhile, bind_of_error h]

private theorem repeatWhile_of_goesOn {test : Eval Bool} {body : Eval Flow} {w w₁ w₂ : World}
    {flow : Flow} (htest : test w = .ok true w₁) (hbody : body w₁ = .ok flow w₂)
    (hflow : flow.GoesOn) (more : Nat) (last : Flow) :
    Eval.repeatWhile test body (more + 1) last w = Eval.repeatWhile test body more flow w₂ := by
  rw [Eval.repeatWhile, bind_of_ok htest, if_pos rfl, bind_of_ok hbody]
  cases flow with
  | returned v => exact hflow.elim
  | next | value v => rfl

private theorem Expr.keeping_test (limits : Limits) (tracing : Bool) {w : World}
    (hw : w.env.Sound) (cond : Expr) :
    Keeping w (endState (cond.test (limits.context tracing) w)) := by
  have hkeep := cond.keeping_eval limits tracing hw
  rw [Expr.test]
  cases hres : cond.eval (limits.context tracing) w with
  | error stop w₁ =>
    rw [hres] at hkeep
    rw [bind_of_error hres]
    exact hkeep
  | ok v w₁ =>
    rw [hres] at hkeep
    rw [bind_of_ok hres]
    cases v.truth <;> exact hkeep

/-- In none of the next rounds of a loop does the step find a name in the scope of the body, whether
to read it or to assign it, and whether by itself or by the functions that it calls. -/
def StepsApart (limits : Limits) (tracing : Bool) (test : Expr) (body : Block)
    (steps : List Expr) (rounds : Nat) (w : World) : Prop :=
  ∀ n < rounds, ∀ w₁ w₂ flow w₃,
    Stmt.Rounds (limits.context tracing) test (body ++ steps.map .expr) n w w₁ →
    test.test (limits.context tracing) w₁ = .ok true w₂ →
    Stmt.execAll (limits.context tracing) .next body w₂.opened = .ok flow w₃ → flow.GoesOn →
    w₂.env.scopes.size ∉ Stmt.found limits tracing flow (steps.map .expr) w₃

-- By induction on the rounds that are left; each makes one scope more on the other side.
private theorem follows_repeatWhile {limits : Limits} {tracing : Bool} {test : Expr} {body : Block}
    {steps : List Expr} (rounds : Nat) (last : Flow) {σ : Mirror} {w w' : World}
    (hextra : σ.extra = []) (h : σ.Reflects [] w w') (hw : w.env.Sound)
    (hsteps : StepsApart limits tracing test body steps rounds w) :
    σ.Follows w w'
      (Eval.repeatWhile (test.test (limits.context tracing))
        (Block.exec (limits.context tracing) (body ++ steps.map .expr)) rounds last)
      (Eval.repeatWhile (test.test (limits.context tracing))
        (Block.exec (limits.context tracing) (.block body :: steps.map .expr)) rounds
        (last.rename σ.there)) := by
  induction rounds generalizing last σ w w' with
  | zero => exact ⟨σ, hextra, rfl, fun _ _ => rfl, w', h, rfl⟩
  | succ rounds ih =>
    obtain ⟨w₁', h₁, htest'⟩ := Mirror.mirrors_condition (σ.enters_ofCalls limits.rounds tracing
      limits.calls) [] test w w' h
    change σ.Reflects [] (endState (test.test (limits.context tracing) w)) w₁' at h₁
    change test.test (limits.context tracing) w' = renameEnd _ _ _ (test.test _ w) at htest'
    have hkeep := Expr.keeping_test limits tracing hw test
    cases htest : test.test (limits.context tracing) w with
    | error stop w₁ =>
      rw [htest] at h₁ htest' hkeep
      have hlast : σ.Follows w₁ w₁' (throw stop) (throw (stop.rename σ.there)) :=
        ⟨σ, hextra, rfl, fun _ _ => rfl, w₁', h₁, rfl⟩
      exact hlast.later rfl (fun _ _ => rfl) hkeep.size (repeatWhile_of_error htest ..)
        (repeatWhile_of_error htest' ..)
    | ok holds w₁ =>
      rw [htest] at h₁ htest' hkeep
      change Keeping w w₁ at hkeep
      cases holds with
      | false =>
        have hlast : σ.Follows w₁ w₁' (pure last) (pure (last.rename σ.there)) :=
          ⟨σ, hextra, rfl, fun _ _ => rfl, w₁', h₁, rfl⟩
        exact hlast.later rfl (fun _ _ => rfl) hkeep.size (repeatWhile_of_false htest ..)
          (repeatWhile_of_false htest' ..)
      | true =>
        have hround := follows_round hextra h₁ hkeep.sound fun flow w₂ =>
          hsteps 0 (Nat.succ_pos _) w w₁ flow w₂ .none htest
        by_cases hends : Stmt.Ends (Block.exec (limits.context tracing)
            (body ++ steps.map .expr) w₁)
        · exact hround.later rfl (fun _ _ => rfl) hkeep.size
            (Stmt.repeatWhile_of_ends htest hends ..)
            (Stmt.repeatWhile_of_ends htest' (hround.ends hends) ..)
        · simp only [Stmt.Ends, not_forall, not_not] at hends
          obtain ⟨flow, w₂, hbody, hflow⟩ := hends
          obtain ⟨τ, hτ, hbelow, hthere, w₂', h₂, hbody'⟩ := hround
          have hkeep₂ := Block.keeping_exec limits tracing hkeep.sound (body ++ steps.map .expr)
          change τ.Reflects [] (endState (Block.exec _ _ w₁)) w₂' at h₂
          change _ = renameEnd _ _ _ (Block.exec _ _ w₁) at hbody'
          rw [hbody] at h₂ hbody' hkeep₂
          have hloop := ih flow hτ h₂ hkeep₂.sound fun n hn u u₁ last u₂ hrounds =>
            hsteps (n + 1) (Nat.succ_lt_succ hn) u u₁ last u₂ (.round htest hbody hflow hrounds)
          exact hloop.later hbelow (fun id hid => hthere id (Nat.lt_of_lt_of_le hid hkeep.size))
            (Nat.le_trans hkeep.size hkeep₂.size) (repeatWhile_of_goesOn htest hbody hflow ..)
            (repeatWhile_of_goesOn htest' hbody' (hflow.rename τ.there) ..)

namespace ForLoop

/-- In no round of the loop, run from the world `w` on, does the step find a name in the scope of
the body. -/
def FindsApart (F : ForLoop) (limits : Limits) (tracing : Bool) (w : World) : Prop :=
  ∀ flow w₁, Stmt.execAll (limits.context tracing) .next F.inits w.opened = .ok flow w₁ →
    flow.GoesOn → StepsApart limits tracing F.test F.body F.steps limits.rounds w₁

/-- Run from the world `w` on, the loop ends as it would if its body had a scope of its own: in the
same result or for the same error, with the same text and the same notes, and with the same
bindings. Only scopes that were made on the way have other identities. -/
def SameApart (F : ForLoop) (limits : Limits) (tracing : Bool) (w : World) : Prop :=
  ∃ ρ : ScopeId → ScopeId, (∀ i j, ρ i = ρ j → i = j) ∧ (∀ id < w.env.scopes.size, ρ id = id) ∧
    ∃ w', F.apart.exec (limits.context tracing) w =
        renameEnd ρ (Flow.rename ρ) w' (F.built.exec (limits.context tracing) w) ∧
      World.Renamed ρ (endState (F.built.exec (limits.context tracing) w)) w'

end ForLoop

private theorem Stmt.execAll_singleton (ctx : Context) (last : Flow) (s : Stmt) (w : World) :
    execAll ctx last [s] w = s.exec ctx w := by
  by_cases hends : Ends (s.exec ctx w)
  · exact execAll_cons_of_ends hends
  · simp only [Ends, not_forall, not_not] at hends
    obtain ⟨flow, w₁, hs, hflow⟩ := hends
    rw [execAll_cons_of_goesOn hs hflow, hs]
    rfl

private theorem Env.Sound.push {e : Env} (h : e.Sound) : e.push.Sound := by
  refine ⟨h.wf.pushCopy [], fun id b hb f c hf hc => ?_⟩
  rw [scope_push] at hb
  rw [size_push]
  exact Nat.lt_succ_of_lt (h.refers id b hb f c hf hc)

private theorem ForLoop.follows_statements {limits : Limits} {tracing : Bool} {F : ForLoop}
    {w : World} (hw : w.env.Sound) (h : F.FindsApart limits tracing w) :
    (Mirror.still w.opened.env.inner).Follows w.opened w.opened
      (Stmt.execAll (limits.context tracing) .next (F.inits ++ [.loop F.test F.round]))
      (Stmt.execAll (limits.context tracing) .next (F.inits ++ [.loop F.test F.roundApart])) := by
  let σ := Mirror.still w.opened.env.inner
  have hnext : Flow.next.GoesOn := trivial
  obtain ⟨w₁, h₁, hinits⟩ := Mirror.mirrors_stmts (σ.enters_ofCalls limits.rounds tracing
    limits.calls) (.inr rfl) .next F.inits _ _ (Mirror.reflects_still w.opened)
  by_cases hends : Stmt.Ends (Stmt.execAll (limits.context tracing) .next F.inits w.opened)
  · have hboth : σ.Follows w.opened w.opened
        (Stmt.execAll (limits.context tracing) .next F.inits)
        (Stmt.execAll (limits.context tracing) .next F.inits) :=
      ⟨σ, rfl, rfl, fun _ _ => rfl, w₁, h₁, hinits⟩
    exact hboth.later rfl (fun _ _ => rfl) (Nat.le_refl _)
      (Stmt.execAll_append_of_ends hnext hends) (Stmt.execAll_append_of_ends hnext hends)
  · simp only [Stmt.Ends, not_forall, not_not] at hends
    obtain ⟨flow, w₂, hdone, hflow⟩ := hends
    have hkeep := Program.keeping_exec limits tracing (w := w.opened) hw.push F.inits
    change Keeping _ (endState (Stmt.execAll (limits.context tracing) .next F.inits _)) at hkeep
    change Stmt.execAll (limits.context tracing) .next F.inits _ = renameEnd _ _ _ _ at hinits
    rw [hdone] at h₁ hinits hkeep
    -- the initialiser was run once, so both runs are in the same world before the first round
    obtain ⟨-, rfl⟩ := EStateM.Result.ok.inj hinits
    have hloop (body : Block) : Stmt.execAll (limits.context tracing) .next
        (F.inits ++ [.loop F.test body]) w.opened =
          Eval.repeatWhile (F.test.test (limits.context tracing))
            (Block.exec (limits.context tracing) body) limits.rounds .next w₂ := by
      rw [Stmt.execAll_append_of_goesOn hdone hflow, Stmt.execAll_singleton, Stmt.exec,
        Context.rounds_ofCalls]
      rfl
    exact (follows_repeatWhile limits.rounds .next rfl h₁ hkeep.sound (h flow w₂ hdone hflow)).later
      rfl (fun _ _ => rfl) hkeep.size (hloop F.round) (hloop F.roundApart)

private theorem ForLoop.sameApart {limits : Limits} {tracing : Bool} {F : ForLoop} {w : World}
    (hw : w.env.Sound) (h : F.FindsApart limits tracing w) : F.SameApart limits tracing w := by
  obtain ⟨τ, hextra, hbelow, hthere, w₁, h₁, hend⟩ := follows_statements hw h
  have hfixed (id : ScopeId) (hid : id < w.env.scopes.size) : τ.there id = id := by
    refine hthere id ?_
    show id < w.env.push.scopes.size
    rw [Env.size_push]
    exact Nat.lt_succ_of_lt hid
  have hinner : w.env.inner = w.env.inner.map τ.there := by
    rw [List.map_congr_left fun id hid => hfixed id (hw.wf.2 id hid)]
    exact (List.map_id _).symm
  have hbuilt : F.built.exec (limits.context tracing) w = endOn w.env.inner _ :=
    Block.exec_eq_endOn limits.rounds tracing limits.calls _ w
  have hapart : F.apart.exec (limits.context tracing) w = endOn w.env.inner _ :=
    Block.exec_eq_endOn limits.rounds tracing limits.calls _ w
  refine ⟨τ.there, fun _ _ => τ.injective, hfixed, w₁.on w.env.inner, ?_, ?_⟩
  · rw [hbuilt, hapart, hend, endOn_renameEnd, renameEnd_endOn]
  · rw [hbuilt, endState_endOn]
    exact ⟨hinner, h₁.scope, h₁.printed, h₁.trace⟩

/-- A `for` loop in which no round's step finds a name in the scope of that round's body does what
it would do if the body had a scope of its own and the step stood behind it, in every state in which
every scope that is referred to exists. Such are all states of a run; and every `for` statement of a
parse tree is built like this from its parts. -/
theorem for_step_apart (limits : Limits) (tracing : Bool) {F : ForLoop} {w : World}
    (hw : w.env.Sound) (h : F.FindsApart limits tracing w) :
    F.SameApart limits tracing w ∧
    (∀ cs : List Tree, Tree.stmt (.node .forStmt cs) = ForLoop.built <$> ForLoop.ofTree cs) ∧
    (∀ jobs : List Source.Job,
      (Source.recordAll limits jobs .start).past.Always fun past => past.env.Sound) ∧
    ∀ (ρ : ScopeId → ScopeId) (style : Text.Style) (f : Fault),
      (f.rename ρ).notice style = f.notice style :=
  ⟨F.sameApart hw h, ForLoop.stmt_eq_built,
    fun jobs => (Source.always_recordAll History.Valid.sound limits jobs).2.2,
    fun _ => Fault.notice_rename⟩

/-- Two rounds go by, and the step finds its variable beside the body. -/
theorem for_step_apart_twice :
    let F : ForLoop := ⟨[.var "i" (some (.literal (.int 0)))],
      some (.binary .lt (.name "i") (.literal (.int 2))),
      [.var "j" (some (.name "i"))],
      [.assign (.name "i") (.binary .plus (.name "i") (.literal (.int 1)))]⟩
    F.FindsApart ⟨4, 4⟩ false .start ∧ F.SameApart ⟨4, 4⟩ false .start ∧
      ∃ w, F.built.exec (Limits.context ⟨4, 4⟩ false) .start = .ok (.value (.int 2)) w := by
  intro F
  have happart : F.FindsApart ⟨4, 4⟩ false .start := by
    intro flow w₁ hinits hflow n hn w₂ w₃ flow' w₄ hrounds htest hbody hflow'
    cases hinits
    cases hrounds with
    | none =>
      cases htest
      cases hbody
      decide
    | round htest₁ hbody₁ _ hrounds =>
      cases htest₁
      cases hbody₁
      cases hrounds with
      | none =>
        cases htest
        cases hbody
        decide
      | round htest₂ hbody₂ _ hrounds =>
        cases htest₂
        cases hbody₂
        cases hrounds with
        | none => cases htest
        | round htest₃ => cases htest₃
  exact ⟨happart, (for_step_apart ⟨4, 4⟩ false History.Valid.start.sound happart).1, _, rfl⟩

/-- A name that the body declares is found by the step: here the variable of the loop is assigned by
the body only, and each step assigns the one that the body has declared. -/
theorem for_step_captured :
    let F : ForLoop := ⟨[.var "i" (some (.literal (.int 0)))],
      some (.binary .lt (.name "i") (.literal (.int 2))),
      [.expr (.assign (.name "i") (.binary .plus (.name "i") (.literal (.int 1)))),
        .var "i" (some (.literal (.int 10)))],
      [.assign (.name "i") (.binary .plus (.name "i") (.literal (.int 1)))]⟩
    World.start.env.Sound ∧ ¬F.SameApart ⟨4, 4⟩ false .start ∧
      (∃ w, F.built.exec (Limits.context ⟨4, 4⟩ false) .start = .ok (.value (.int 11)) w) ∧
      ∃ w, F.apart.exec (Limits.context ⟨4, 4⟩ false) .start = .ok (.value (.int 2)) w := by
  intro F
  refine ⟨History.Valid.start.sound, ?_, ⟨_, rfl⟩, _, rfl⟩
  rintro ⟨ρ, -, -, w, hend, -⟩
  cases hend

end Lox
