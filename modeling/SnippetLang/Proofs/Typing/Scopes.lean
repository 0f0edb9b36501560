import Mathlib.Data.List.Nodup
import SnippetLang.Proofs.Typing.Rules

/-!
# Scopes as contexts

The levels of a scope are a context.  In a well-formed one, looking a name up finds exactly the
variable that the name means, and a level accepts exactly the declarations of names that it does
not have.
-/

namespace SnippetLang.Typing

theorem wellFormedLevel_nil : WellFormedLevel [] where
  distinct := by simp
  named := by simp

theorem wellFormed_nil : WellFormed [] := by
  intro level hlevel
  exact absurd hlevel List.not_mem_nil

theorem WellFormed.push {Γ : Context} (h : WellFormed Γ) : WellFormed ([] :: Γ) := by
  intro level hlevel
  rcases List.mem_cons.1 hlevel with rfl | hlevel
  · exact wellFormedLevel_nil
  · exact h level hlevel

/-- A fresh name of a named type can be added to the innermost level. -/
theorem WellFormed.declare {level : List Variable} {outer : Context} {x : Variable}
    (h : WellFormed (level :: outer)) (hx : x.ty.Named) (hfresh : ∀ y ∈ level, y.name ≠ x.name) :
    WellFormed ((level ++ [x]) :: outer) := by
  intro other hother
  rcases List.mem_cons.1 hother with rfl | hother
  · have hlevel := h level (by simp)
    constructor
    · rw [List.map_append, List.map_singleton, List.nodup_append]
      refine ⟨hlevel.distinct, by simp, ?_⟩
      intro name hname other hother heq
      obtain ⟨y, hy, rfl⟩ := List.mem_map.1 hname
      exact hfresh y hy (heq.trans (by simpa using hother))
    · intro y hy
      rcases List.mem_append.1 hy with hy | hy
      · exact hlevel.named y hy
      · obtain rfl : y = x := by simpa using hy
        exact hx
  · exact h other (by simp [hother])

theorem WellFormed.named {Γ : Context} (h : WellFormed Γ) {name : String} {x : Variable}
    (hx : Sees Γ name x) : x.ty.Named := by
  induction hx with
  | here hx _ => exact (h _ (by simp)).named _ hx
  | outside _ _ ih => exact ih fun level hlevel => h level (by simp [hlevel])

/-- In a level without repeated names, a name has at most one declaration. -/
theorem findIn_eq_some_iff {level : List Variable} (h : (level.map (·.name)).Nodup) {name : String}
    {x : Variable} : Scope.findIn name level = some x ↔ x ∈ level ∧ x.name = name := by
  unfold Scope.findIn
  constructor
  · intro hfind
    exact ⟨List.mem_of_find?_eq_some hfind, by simpa using List.find?_some hfind⟩
  · rintro ⟨hx, rfl⟩
    cases hfind : level.find? (·.name == x.name) with
    | none =>
      have hne := List.find?_eq_none.1 hfind x hx
      simp at hne
    | some y =>
      have hy : y.name = x.name := by simpa using List.find?_some hfind
      rw [List.inj_on_of_nodup_map h (List.mem_of_find?_eq_some hfind) hx hy]

theorem findIn_eq_none_iff {level : List Variable} {name : String} :
    Scope.findIn name level = none ↔ ∀ y ∈ level, y.name ≠ name := by
  simp [Scope.findIn]

/-- Looking up a name finds what it means. -/
theorem findSome?_eq_some_iff {Γ : Context} (h : WellFormed Γ) {name : String} {x : Variable} :
    Γ.findSome? (Scope.findIn name) = some x ↔ Sees Γ name x := by
  induction Γ with
  | nil =>
    constructor
    · intro hx
      simp at hx
    · intro hx
      cases hx
  | cons level outer ih =>
    have hlevel := (h level (by simp)).distinct
    have ih := ih fun other hother => h other (by simp [hother])
    rw [List.findSome?_cons]
    cases hfind : Scope.findIn name level with
    | some y =>
      obtain ⟨hy, rfl⟩ := (findIn_eq_some_iff hlevel).1 hfind
      constructor
      · intro hx
        obtain rfl := Option.some.inj hx
        exact .here hy rfl
      · intro hx
        cases hx with
        | here hx hn => exact congrArg some (List.inj_on_of_nodup_map hlevel hy hx hn.symm)
        | outside hne _ => exact absurd rfl (hne y hy)
    | none =>
      have hnone := findIn_eq_none_iff.1 hfind
      constructor
      · intro hx
        exact .outside hnone (ih.1 hx)
      · intro hx
        cases hx with
        | here hx hn => exact absurd hn (hnone x hx)
        | outside _ hx => exact ih.2 hx

theorem lookup?_eq_some_iff {scope : Scope} (h : WellFormed scope.levels) {name : String}
    {x : Variable} : scope.lookup? name = some x ↔ Sees scope.levels name x :=
  findSome?_eq_some_iff h

/-- A scope accepts a declaration exactly if its innermost level does not have the name. -/
theorem declare?_eq_some_iff {scope : Scope} {x : Variable} {after : Scope} :
    scope.declare? x = some after ↔
      (∀ y ∈ scope.declared, y.name ≠ x.name) ∧ after = ⟨scope.declared ++ [x], scope.enclosing⟩ := by
  unfold Scope.declare?
  cases hfind : Scope.findIn x.name scope.declared with
  | some y =>
    have hy := List.find?_some hfind
    constructor
    · intro h
      cases h
    · rintro ⟨h, -⟩
      exact absurd (by simpa using hy) (h y (List.mem_of_find?_eq_some hfind))
  | none =>
    have hnone := findIn_eq_none_iff.1 hfind
    constructor
    · intro h
      exact ⟨hnone, (Option.some.inj h).symm⟩
    · rintro ⟨-, rfl⟩
      rfl

end SnippetLang.Typing
