import SnippetLang.Proofs.Typing.Errors

/-!
# Statements behind other statements

What a statement is elaborated to depends on the scope only through the meaning of names and through
the names that the innermost level refuses.  So it does not matter whether the declarations before
it stand in its own level or in the level around it, as long as it declares none of their names
again.

The two scopes are compared by `Joins`, which names the declarations that stand in different levels.
Inside a block no declarations do, and then the two scopes merely give the same meaning to every
name.
-/

namespace SnippetLang

open Scope (findIn)

/-- None of the variables has the name of a declaration of the innermost level. -/
def Scope.Avoids (s : Scope) (extra : List Variable) : Prop :=
  ∀ x ∈ extra, ∀ y ∈ s.declared, x.name ≠ y.name

/-- The innermost level of the second scope begins with declarations that the first scope has in the
    level around its innermost one. -/
structure Scope.Joins (extra : List Variable) (s t : Scope) : Prop where
  declared : t.declared = extra ++ s.declared
  behind : ∀ name, s.enclosing.findSome? (findIn name) =
    (extra :: t.enclosing).findSome? (findIn name)

namespace Scope

variable {extra : List Variable} {s t : Scope}

theorem avoids_nil (s : Scope) : s.Avoids [] := nofun

theorem Avoids.of_extends {after : Scope} (h : after.Avoids extra)
    (hafter : Elaboration.Extends s after) : s.Avoids extra := by
  obtain ⟨added, rfl, -⟩ := hafter
  intro x hx y hy
  exact h x hx y (List.mem_append_left _ hy)

theorem Avoids.findIn_eq_none (h : s.Avoids extra) {y : Variable} (hy : y ∈ s.declared) :
    findIn y.name extra = none := by
  rw [findIn, List.find?_eq_none]
  intro x hx
  simpa using h x hx y hy

namespace Joins

theorem lookup? (h : Joins extra s t) (ha : s.Avoids extra) (name : String) :
    t.lookup? name = s.lookup? name := by
  have hextra : ∀ y, findIn name s.declared = some y → findIn name extra = none := by
    intro y hy
    have hname : y.name = name := by simpa using List.find?_some hy
    rw [← hname]
    exact ha.findIn_eq_none (List.mem_of_find?_eq_some hy)
  have hdeclared : findIn name t.declared = (findIn name extra).or (findIn name s.declared) := by
    rw [h.declared, findIn, List.find?_append]
    rfl
  simp only [Scope.lookup?, Scope.levels, List.findSome?_cons, h.behind name, hdeclared]
  cases hs : findIn name s.declared with
  | none => cases findIn name extra <;> rfl
  | some y => rw [hextra y hs]; rfl

theorem push (h : Joins extra s t) (ha : s.Avoids extra) : Joins [] s.push t.push :=
  ⟨rfl, fun name => (h.lookup? ha name).symm⟩

end Joins

end Scope

namespace Elaboration

open Scope (Joins)

/-! ### Expressions -/

/-- Two scopes give the same meaning to every name. -/
def Alike (s t : Scope) : Prop := ∀ name, t.lookup? name = s.lookup? name

mutual

/-- An expression depends on the meaning of names only. -/
theorem expr_congr {s t : Scope} (h : Alike s t) : (e : Tree.Expr) → expr t e = expr s e
  | .error _ => rfl
  | .int _ _ => rfl
  | .bool _ _ => rfl
  | .string _ _ => rfl
  | .name ident => by
    have := h ident.name
    simp only [expr, nameUse, this]
  | .assign target value => by
    have := h target.name
    simp only [expr, expr_congr h value, assignment, this]
  | .unary op opSpan operand => by simp only [expr, expr_congr h operand]
  | .binary left op opSpan right => by simp only [expr, expr_congr h left, expr_congr h right]
  | .paren _ inner _ => expr_congr h inner
  | .call callee args closing => by simp only [expr, exprs_congr h args]

theorem exprs_congr {s t : Scope} (h : Alike s t) : (es : List Tree.Expr) →
    exprs t es = exprs s es
  | [] => rfl
  | e :: es => by simp only [exprs, expr_congr h e, exprs_congr h es]

end

theorem value_congr {s t : Scope} (h : Alike s t) (e : Tree.Expr) : value t e = value s e := by
  rw [value, value, expr_congr h]

theorem valueOf_congr {s t : Scope} (h : Alike s t) (target : Ty) (e : Tree.Expr) :
    valueOf target t e = valueOf target s e := by
  rw [valueOf, valueOf, expr_congr h]

/-! ### Statements -/

/-- Two results are the same up to the scopes that they leave, and those are joined. -/
def Joined {α : Type} (extra : List Variable) (a b : Checked (α × Scope)) : Prop :=
  ∃ after, b = ((a.1.1, after), a.2) ∧ Joins extra a.1.2 after

theorem declare_joined {extra : List Variable} {s t : Scope} (h : Joins extra s t)
    (ident : Tree.Ident) (readOnly : Bool) (ty : Ty)
    (ha : (declare s ident readOnly ty).1.2.Avoids extra) :
    Joined extra (declare s ident readOnly ty) (declare t ident readOnly ty) := by
  unfold declare at ha ⊢
  dsimp only at ha ⊢
  by_cases hname : ident.name = ""
  · rw [if_pos hname, if_pos hname]
    exact ⟨t, rfl, h⟩
  rw [if_neg hname] at ha
  rw [if_neg hname, if_neg hname]
  cases hs : s.declare? ⟨ident.name, readOnly, ty⟩ with
  | none =>
    -- A name that the first scope refuses stands in its innermost level, so the second has it too.
    obtain ⟨y, hy, hyname⟩ := (s.declare?_eq_none_iff _).1 hs
    have ht : t.declare? ⟨ident.name, readOnly, ty⟩ = none := by
      refine (t.declare?_eq_none_iff _).2 ⟨y, ?_, hyname⟩
      rw [h.declared]
      exact List.mem_append_right _ hy
    rw [ht]
    exact ⟨t, rfl, h⟩
  | some after =>
    rw [hs] at ha
    obtain ⟨hfresh, rfl⟩ := Typing.declare?_eq_some_iff.1 hs
    have ht : t.declare? ⟨ident.name, readOnly, ty⟩ =
        some ⟨t.declared ++ [⟨ident.name, readOnly, ty⟩], t.enclosing⟩ := by
      refine Typing.declare?_eq_some_iff.2 ⟨?_, rfl⟩
      intro y hy
      rw [h.declared] at hy
      rcases List.mem_append.1 hy with hy | hy
      · exact ha y hy _ (List.mem_append_right _ (List.mem_singleton_self _))
      · exact hfresh y hy
    rw [ht]
    exact ⟨_, rfl, by simp [h.declared], h.behind⟩

mutual

/-- A statement that declares none of the names again is elaborated alike in both scopes. -/
theorem stmt_joined {extra : List Variable} : (u : Tree.Stmt) → {s t : Scope} → Joins extra s t →
    (stmt s u).1.2.Avoids extra → Joined extra (stmt s u) (stmt t u)
  | .block _ body _, s, t, h, ha => by
    obtain ⟨after, hbody, -⟩ := stmts_joined body (h.push ha) (Scope.avoids_nil _)
    rw [stmt, stmt, hbody]
    exact ⟨t, rfl, h⟩
  | .declare _ readOnly ident init, s, t, h, ha => by
    rw [stmt] at ha
    have hextends := extends_declare s ident readOnly (requireValue_ne_void init.span (expr s init))
    have halike : Alike s t := h.lookup? (ha.of_extends hextends)
    obtain ⟨after, hdeclare, hafter⟩ := declare_joined h ident readOnly _ ha
    rw [stmt, stmt, value_congr halike]
    generalize value s init = checked at hdeclare hafter ⊢
    dsimp only
    rw [hdeclare]
    exact ⟨after, rfl, hafter⟩
  | .ifThen _ condition yes, s, t, h, ha => by
    rw [stmt] at ha
    have halike : Alike s t := h.lookup? (ha.of_extends (extends_stmt yes s))
    obtain ⟨after, hyes, hafter⟩ := stmt_joined yes h ha
    rw [stmt, stmt, valueOf_congr halike, hyes]
    exact ⟨after, rfl, hafter⟩
  | .ifElse _ condition yes no, s, t, h, ha => by
    rw [stmt] at ha
    have hmiddle := ha.of_extends (extends_stmt no (stmt s yes).1.2)
    have halike : Alike s t := h.lookup? (hmiddle.of_extends (extends_stmt yes s))
    obtain ⟨middle, hyes, hjoins⟩ := stmt_joined yes h hmiddle
    obtain ⟨after, hno, hafter⟩ := stmt_joined no hjoins ha
    rw [stmt, stmt, valueOf_congr halike, hyes]
    dsimp only
    rw [hno]
    exact ⟨after, rfl, hafter⟩
  | .whileDo _ condition body, s, t, h, ha => by
    rw [stmt] at ha
    have halike : Alike s t := h.lookup? (ha.of_extends (extends_stmt body s))
    obtain ⟨after, hbody, hafter⟩ := stmt_joined body h ha
    rw [stmt, stmt, valueOf_congr halike, hbody]
    exact ⟨after, rfl, hafter⟩
  | .doWhile _ body condition, s, t, h, ha => by
    rw [stmt] at ha
    obtain ⟨after, hbody, hafter⟩ := stmt_joined body h ha
    rw [stmt, stmt, hbody]
    dsimp only
    rw [valueOf_congr (hafter.lookup? ha)]
    exact ⟨after, rfl, hafter⟩
  | .count _ name lower upper body, s, t, h, ha => by
    have halike : Alike s t := h.lookup? ha
    obtain ⟨inner, hdeclare, hinner⟩ :=
      declare_joined (h.push ha) name true .int (Scope.avoids_nil _)
    obtain ⟨after, hbody, -⟩ := stmt_joined body hinner (Scope.avoids_nil _)
    rw [stmt, stmt, valueOf_congr halike, valueOf_congr halike, hdeclare]
    dsimp only
    rw [hbody]
    exact ⟨t, rfl, h⟩
  | .expr e, s, t, h, ha => by
    have halike : Alike s t := h.lookup? ha
    rw [stmt, stmt, expr_congr halike]
    exact ⟨t, rfl, h⟩

theorem stmts_joined {extra : List Variable} : (body : List Tree.Stmt) → {s t : Scope} →
    Joins extra s t → (stmts s body).1.2.Avoids extra → Joined extra (stmts s body) (stmts t body)
  | [], s, t, h, _ => ⟨t, rfl, h⟩
  | u :: rest, s, t, h, ha => by
    rw [stmts] at ha
    have hmiddle := ha.of_extends (extends_stmts rest (stmt s u).1.2)
    obtain ⟨middle, hfirst, hjoins⟩ := stmt_joined u h hmiddle
    obtain ⟨after, hrest, hafter⟩ := stmts_joined rest hjoins ha
    rw [stmts, stmts, hfirst]
    dsimp only
    rw [hrest]
    exact ⟨after, rfl, hafter⟩

end

theorem stmts_append (scope : Scope) (xs ys : List Tree.Stmt) :
    stmts scope (xs ++ ys) =
      (((stmts scope xs).1.1 ++ (stmts (stmts scope xs).1.2 ys).1.1,
          (stmts (stmts scope xs).1.2 ys).1.2),
        (stmts scope xs).2 ++ (stmts (stmts scope xs).1.2 ys).2) := by
  induction xs generalizing scope with
  | nil => rfl
  | cons x xs ih =>
    rw [List.cons_append, stmts, stmts]
    dsimp only
    rw [ih]
    simp only [List.cons_append, List.append_assoc]

end Elaboration

end SnippetLang
