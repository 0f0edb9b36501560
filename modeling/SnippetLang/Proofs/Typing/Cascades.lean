import SnippetLang.Proofs.Scoping.Levels
import SnippetLang.Snippet

/-!
# Cascades of issues

An expression of the error type was reported already, so no check should report that type.  All
checks but one look at the types of expressions only, and are silent when they meet the error type.
The one that is not is the check of an assigned value, which compares it with the type of a
variable.  A variable whose initial value was reported has the error type, and an assignment to it
is reported again.
-/

namespace SnippetLang

open SnippetLang.Tree (Ident Node Root)

/-- The types that an issue names. -/
def Cause.types : Cause → List Ty
  | .cannotConvert source target => [source, target]
  | .undefinedUnary _ operand => [operand]
  | .undefinedBinary _ left right => [left, right]
  | .wrongArgumentType _ expected actual => [expected, actual]
  | _ => []

namespace Scope

theorem fresh_subset (level xs : List Variable) : fresh level xs ⊆ xs := by
  induction xs generalizing level with
  | nil => exact List.Subset.refl _
  | cons x xs ih =>
    rw [fresh_cons]
    split
    · exact List.cons_subset_cons x (ih _)
    · exact List.subset_cons_of_subset x (ih _)

/-- What a scope has gained is all that it has more. -/
theorem Gains.flatten_subset {s t : Scope} {xs : List Variable} (h : s.Gains xs t) :
    t.levels.flatten ⊆ s.levels.flatten ++ xs := by
  subst h
  intro x hx
  have hfresh := @fresh_subset s.declared xs x
  simp only [levels, List.flatten_cons, List.mem_append] at hx ⊢
  grind

theorem mem_of_lookup? {s : Scope} {name : String} {x : Variable} (h : s.lookup? name = some x) :
    x ∈ s.levels.flatten ∧ x.name = name := by
  obtain ⟨level, hlevel, hx⟩ := List.exists_of_findSome?_eq_some h
  exact ⟨List.mem_flatten.2 ⟨level, hlevel, List.mem_of_find?_eq_some hx⟩,
    by simpa using List.find?_some hx⟩

end Scope

namespace Elaboration

/-- Some nodes have an assignment to one of some variables, one that has the error type, and an issue
    is about this assignment. -/
def Cascade (visible : List Variable) (has : Node → Prop) (i : Issue) : Prop :=
  ∃ target value x ty, has (.expr (.assign target value)) ∧ x ∈ visible ∧ x.name = target.name ∧
    x.ty = .error ∧ ty ≠ .error ∧ i = ⟨.cannotConvert ty .error, target.span⟩

/-- Issues that name the error type are about assignments to variables that have it. -/
def Calm (visible : List Variable) (has : Node → Prop) (found : List Issue) : Prop :=
  ∀ i ∈ found, .error ∈ i.cause.types → Cascade visible has i

namespace Calm

variable {visible more : List Variable} {has have' : Node → Prop} {n c : Node}
  {found further : List Issue}

theorem nil : Calm visible has [] := fun _ h => absurd h List.not_mem_nil

theorem append (h : Calm visible has found) (h' : Calm visible has further) :
    Calm visible has (found ++ further) := List.forall_mem_append.2 ⟨h, h'⟩

theorem mono (h : Calm visible has found) (hvisible : visible ⊆ more)
    (hhas : ∀ m, has m → have' m) : Calm more have' found := by
  intro i hi herror
  obtain ⟨target, value, x, ty, hassign, hx, hrest⟩ := h i hi herror
  exact ⟨target, value, x, ty, hhas _ hassign, hvisible hx, hrest⟩

/-- What is found inside a node is found in it, where more is visible. -/
theorem child (h : Calm visible c.Has found) (hc : c ∈ n.children) (hvisible : visible ⊆ more) :
    Calm more n.Has found := h.mono hvisible fun _ hm => .child hc hm

end Calm

/-- Of the checks of an expression, only that of an assigned value names the error type. -/
theorem Finds.calm {scope : Scope} {n : Node} {found : List Issue} (h : Finds scope n found) :
    Calm scope.levels.flatten n.Has found := by
  intro i hi herror
  obtain ⟨e, he, hfinding⟩ := h i hi
  cases hfinding with
  | @assigned target value x ty hlookup hne hty =>
    obtain ⟨hmem, hname⟩ := Scope.mem_of_lookup? hlookup
    have hx : x.ty = .error := by
      simp only [Cause.types, List.mem_cons, List.not_mem_nil, or_false] at herror
      exact (herror.resolve_left hty.symm).symm
    exact ⟨target, value, x, ty, he, hmem, hname, hx, hty, by rw [hx]⟩
  | otherType hty htarget => simp [Cause.types, hty.symm, htarget.ne_error.symm] at herror
  | argument hty htarget => simp [Cause.types, hty.symm, htarget.ne_error.symm] at herror
  | unary hty => simp [Cause.types, hty.symm] at herror
  | binary hl hr => simp [Cause.types, hl.symm, hr.symm] at herror
  | noValue | missing | missingTarget | readOnly | function | count => cases herror

theorem calm_declare {visible : List Variable} {has : Node → Prop} (scope : Scope) (ident : Ident)
    (readOnly : Bool) (ty : Ty) : Calm visible has (declare scope ident readOnly ty).2 := by
  unfold declare
  dsimp only
  split
  · exact .nil
  · split
    · exact .nil
    · refine List.forall_mem_singleton.2 fun herror => ?_
      cases herror

/-- Behind a statement, nothing is visible but what was and what the statement introduces. -/
theorem visible_stmt (scope : Scope) (s : Tree.Stmt) :
    (stmt scope s).1.2.levels.flatten ⊆ scope.levels.flatten ++ (stmt scope s).1.1.introduces := by
  refine List.Subset.trans (gains_stmt scope s).flatten_subset (List.append_subset.2 ⟨?_, ?_⟩)
  · exact List.subset_append_left ..
  · exact List.subset_append_of_subset_right _ (stmt scope s).1.1.declares_subset_introduces

theorem append_subset_behind {xs ys zs : List Variable} (h : xs ⊆ ys ++ zs) (more : List Variable) :
    xs ++ more ⊆ ys ++ (zs ++ more) := by
  rw [← List.append_assoc]
  exact List.append_subset.2 ⟨List.subset_append_of_subset_left _ h, List.subset_append_right ..⟩

theorem calm_test {more : List Variable} {n : Node} (scope : Scope) (e : Tree.Expr)
    (he : .expr e ∈ n.children) :
    Calm (scope.levels.flatten ++ more) n.Has (valueOf .bool scope e).2 :=
  (finds_valueOf (.inl rfl) scope e).calm.child he (List.subset_append_left ..)

theorem calm_limit {more : List Variable} {n : Node} (scope : Scope) (e : Tree.Expr)
    (he : .expr e ∈ n.children) :
    Calm (scope.levels.flatten ++ more) n.Has (valueOf .int scope e).2 :=
  (finds_valueOf (.inr (.inl rfl)) scope e).calm.child he (List.subset_append_left ..)

mutual

/-- The issues of a statement that name the error type are about assignments in it, to variables that
    were visible before it or that it introduces. -/
theorem calm_stmt (scope : Scope) : (s : Tree.Stmt) →
    Calm (scope.levels.flatten ++ (stmt scope s).1.1.introduces) (Node.stmt s).Has (stmt scope s).2
  | .block _ body _ =>
    (calm_stmts scope.push body).mono (List.Subset.refl _) fun _ ⟨s, hs, hm⟩ =>
      .child (by simp [hs]) hm
  | .declare _ readOnly name init => by
    rw [stmt]
    exact ((finds_value scope init).calm.child (by simp) (List.subset_append_left ..)).append
      (calm_declare scope name readOnly _)
  | .ifThen _ condition yes => by
    rw [stmt]
    exact (calm_test scope condition (by simp)).append
      ((calm_stmt scope yes).child (by simp) (List.Subset.refl _))
  | .ifElse _ condition yes no => by
    have hbehind := append_subset_behind (visible_stmt scope yes)
      (stmt (stmt scope yes).1.2 no).1.1.introduces
    simp only [stmt, Typed.Stmt.introduces]
    refine ((calm_test scope condition (by simp)).append ?_).append ?_
    · refine (calm_stmt scope yes).child (by simp) (append_subset_append _ ?_)
      exact List.subset_append_left ..
    · exact (calm_stmt (stmt scope yes).1.2 no).child (by simp) hbehind
  | .whileDo _ condition body => by
    rw [stmt]
    exact (calm_test scope condition (by simp)).append
      ((calm_stmt scope body).child (by simp) (List.Subset.refl _))
  | .doWhile _ body condition => by
    have htest := (finds_valueOf (.inl rfl) (stmt scope body).1.2 condition).calm
    rw [stmt]
    exact ((calm_stmt scope body).child (by simp) (List.Subset.refl _)).append
      (htest.child (by simp) (visible_stmt scope body))
  | .count _ name lower upper body => by
    have hinner := append_subset_behind (gains_declare scope.push name true .int).flatten_subset
      (stmt (declare scope.push name true .int).1.2 body).1.1.introduces
    simp only [stmt, Typed.Stmt.introduces, declare_variable]
    refine (((calm_limit scope lower (by simp)).append (calm_limit scope upper (by simp))).append
      (calm_declare scope.push name true .int)).append ?_
    exact (calm_stmt (declare scope.push name true .int).1.2 body).child (by simp) hinner
  | .expr e => (finds_expr scope e).calm.child (by simp) (List.subset_append_left ..)

theorem calm_stmts (scope : Scope) : (ss : List Tree.Stmt) →
    Calm (scope.levels.flatten ++ Typed.Stmt.allIntroduce (stmts scope ss).1.1)
      (fun m => ∃ s ∈ ss, (Node.stmt s).Has m) (stmts scope ss).2
  | [] => .nil
  | s :: rest => by
    rw [stmts]
    refine ((calm_stmt scope s).mono (append_subset_append _ (List.subset_append_left ..)) ?_).append
      ((calm_stmts _ rest).mono (append_subset_behind (visible_stmt scope s) _) ?_)
    · exact fun m hm => ⟨s, List.mem_cons_self .., hm⟩
    · exact fun m ⟨other, hother, hm⟩ => ⟨other, List.mem_cons_of_mem _ hother, hm⟩

end

end Elaboration

/-- Whatever is visible before some statements, the error type is named only where a value of another
    type is assigned to a variable of that type, one that was visible before or is introduced. -/
theorem cascades_are_assignments (enclosing : List (List Variable)) (root : Root) (i : Issue)
    (hi : i ∈ (Elaboration.stmts ⟨[], enclosing⟩ root.statements).2)
    (herror : .error ∈ i.cause.types) :
    ∃ target value x ty, root.Has (.expr (.assign target value)) ∧
      (x ∈ enclosing.flatten ∨
        x ∈ Typed.Stmt.allIntroduce (Elaboration.stmts ⟨[], enclosing⟩ root.statements).1.1) ∧
      x.name = target.name ∧ x.ty = .error ∧ ty ≠ .error ∧
      i = ⟨.cannotConvert ty .error, target.span⟩ := by
  obtain ⟨target, value, x, ty, hassign, hx, hrest⟩ :=
    Elaboration.calm_stmts ⟨[], enclosing⟩ root.statements i hi herror
  exact ⟨target, value, x, ty, hassign, List.mem_append.1 hx, hrest⟩

/-- Behind a declaration that was reported, the assignment of a number is reported as well. -/
theorem cascades_are_assignments_missing :
    let root := (parse "var a = missing a = 1").root
    let i : Issue := ⟨.cannotConvert .int .error, 16, 17⟩
    i ∈ (Elaboration.stmts ⟨[], []⟩ root.statements).2 ∧ .error ∈ i.cause.types ∧
      ∃ target value x ty, root.Has (.expr (.assign target value)) ∧
        (x ∈ [].flatten ∨
          x ∈ Typed.Stmt.allIntroduce (Elaboration.stmts ⟨[], []⟩ root.statements).1.1) ∧
        x.name = target.name ∧ x.ty = .error ∧ ty ≠ .error ∧
        i = ⟨.cannotConvert ty .error, target.span⟩ := by
  intro root i
  have hi : i ∈ (Elaboration.stmts ⟨[], []⟩ root.statements).2 := by decide +kernel
  have herror : .error ∈ i.cause.types := by decide
  exact ⟨hi, herror, cascades_are_assignments [] root i hi herror⟩

/-- The error type is named where a variable without a usable type is assigned to. -/
theorem error_named_in_assignment :
    (Snippet.first "var a = missing a = 1").found =
        [⟨.undefinedVariable "missing", 8, 15⟩, ⟨.cannotConvert .int .error, 16, 17⟩] ∧
      .error ∈ (Cause.cannotConvert .int .error).types := by
  exact ⟨by decide +kernel, by decide⟩

end SnippetLang
