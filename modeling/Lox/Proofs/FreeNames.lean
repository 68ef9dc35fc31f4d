import Lox.Proofs.Scopes

/-!
# Names that a function leaves free

Names are looked up in all scopes on the stack, and a function keeps one scope only, a copy of the
one in which it was declared. So a name in the body of a function is free unless a parameter, the
kept scope or a declaration in the body binds it. A free name is looked up in whatever scopes the
function is called in.
-/

namespace Lox

private theorem append_subset {xs xs' ys ys' : List String} (hx : xs ⊆ xs') (hy : ys ⊆ ys') :
    xs ++ ys ⊆ xs' ++ ys' := by
  intro x h
  rcases List.mem_append.1 h with h | h
  · exact List.mem_append_left _ (hx h)
  · exact List.mem_append_right _ (hy h)

namespace Expr

mutual

/-- The names that occur in an expression. -/
def names : Expr → List String
  | literal _ | hole => []
  | name x => [x]
  | unary _ e => e.names
  | binary _ a b | access a b | assign a b => a.names ++ b.names
  | call callee args => callee :: namesAll args
termination_by structural e => e

/-- The names that occur in expressions. -/
def namesAll : List Expr → List String
  | [] => []
  | e :: es => e.names ++ namesAll es
termination_by structural es => es

end

/-- The names that occur in an expression and are not bound. -/
def free (bound : List String) (e : Expr) : List String := e.names.filter (· ∉ bound)

/-- A name that occurs is bound or free. -/
theorem mem_or_mem_free {e : Expr} {x : String} (h : x ∈ e.names) (bound : List String) :
    x ∈ bound ∨ x ∈ e.free bound := by
  by_cases hx : x ∈ bound
  · exact .inl hx
  · exact .inr (List.mem_filter.2 ⟨h, decide_eq_true hx⟩)

/-- Where more is bound, less is free. -/
theorem free_subset {bound bound' : List String} (h : bound ⊆ bound') (e : Expr) :
    e.free bound' ⊆ e.free bound := by
  intro x hx
  obtain ⟨hmem, hx⟩ := List.mem_filter.1 hx
  exact List.mem_filter.2 ⟨hmem, decide_eq_true fun hbound => of_decide_eq_true hx (h hbound)⟩

end Expr

namespace Stmt

/-- The names that a statement binds in the innermost scope. -/
def binds : Stmt → List String
  | var x _ | func x _ _ | builtin x _ => [x]
  | _ => []

mutual

/-- The free names of a statement where `top` is bound in the innermost scope and `under` in those
below it. A function takes only the innermost scope with it. -/
def free (top under : List String) : Stmt → List String
  | expr e | print e | var _ (some e) | ret (some e) => e.free (top ++ under)
  | block body => freeAll [] (top ++ under) body
  | branch cond yes no =>
    cond.free (top ++ under) ++ freeAll [] (top ++ under) yes ++ freeAll [] (top ++ under) no
  | loop cond body => cond.free (top ++ under) ++ freeAll [] (top ++ under) body
  | func _ params body => freeAll [] (params ++ top) body
  | var _ none | builtin _ _ | ret none => []
termination_by structural s => s

/-- The free names of statements one after the other. -/
def freeAll (top under : List String) : List Stmt → List String
  | [] => []
  | s :: ss => s.free top under ++ freeAll (s.binds ++ top) under ss
termination_by structural ss => ss

end

mutual

/-- Where more is bound, less is free. -/
theorem free_subset {top top' under under' : List String} (htop : top ⊆ top')
    (hall : top ++ under ⊆ top' ++ under') :
    (s : Stmt) → s.free top' under' ⊆ s.free top under
  | expr e | print e | var _ (some e) | ret (some e) => e.free_subset hall
  | block body => freeAll_subset (List.Subset.refl []) hall body
  | branch cond yes no => by
    have hyes := freeAll_subset (List.Subset.refl []) hall yes
    have hno := freeAll_subset (List.Subset.refl []) hall no
    exact append_subset (append_subset (cond.free_subset hall) hyes) hno
  | loop cond body =>
    append_subset (cond.free_subset hall)
      (freeAll_subset (List.Subset.refl []) hall body)
  | func _ params body => by
    have hparams : params ++ top ⊆ params ++ top' := append_subset (List.Subset.refl params) htop
    exact @freeAll_subset [] [] (params ++ top) (params ++ top') (List.Subset.refl []) hparams body
  | var _ none | builtin _ _ | ret none => List.Subset.refl []
termination_by structural s => s

/-- Where more is bound, less is free. -/
theorem freeAll_subset {top top' under under' : List String} (htop : top ⊆ top')
    (hall : top ++ under ⊆ top' ++ under') :
    (ss : List Stmt) → freeAll top' under' ss ⊆ freeAll top under ss
  | [] => List.Subset.refl []
  | s :: ss => by
    have htop' : s.binds ++ top ⊆ s.binds ++ top' :=
      append_subset (List.Subset.refl _) htop
    have hall' : s.binds ++ top ++ under ⊆ s.binds ++ top' ++ under' := by
      rw [List.append_assoc, List.append_assoc]
      exact append_subset (List.Subset.refl _) hall
    exact append_subset (free_subset htop hall s) (freeAll_subset htop' hall' ss)
termination_by structural ss => ss

end

end Stmt

/-- The names that a call of a function can look for below the scopes of the call. -/
def Function.free (e : Env) : Function → List String
  | user _ params body closure => Stmt.freeAll [] (params ++ (e.scope closure).names) body
  | builtin _ => []

/-- What the kept scope binds is not free. -/
theorem Function.free_subset {e : Env} {closure : ScopeId} {bound : List String}
    (h : ∀ x ∈ bound, (e.scope closure).binds x = true) (name : String) (params : List String)
    (body : Block) :
    (user name params body closure).free e ⊆ Stmt.freeAll [] (params ++ bound) body := by
  have hnames : bound ⊆ (e.scope closure).names := fun x hx =>
    Scope.binds_iff_mem_names.1 (h x hx)
  have hbound : params ++ bound ⊆ params ++ (e.scope closure).names :=
    append_subset (List.Subset.refl params) hnames
  exact @Stmt.freeAll_subset [] [] _ _ (List.Subset.refl []) hbound body

end Lox
