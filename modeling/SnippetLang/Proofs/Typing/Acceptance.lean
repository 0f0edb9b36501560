import SnippetLang.Proofs.Typing.Soundness
import SnippetLang.Proofs.Typing.Trees
import SnippetLang.Snippet

/-!
# What is accepted

The elaborator accepts exactly what the typing rules derive, in the context that a chain of
snippets leaves behind.  The chain matters in one way only: each snippet of it adds a level to the
context, and levels left by snippets without issues are well formed.
-/

namespace SnippetLang

namespace Snippet

/-- The levels that a snippet finds around its own, put there by the snippet that it continues. -/
def levelsBehind : Option Snippet → Typing.Context
  | none => []
  | some previous => previous.declared :: previous.enclosing

/-- A snippet without issues, of which every predecessor is without issues too. -/
inductive Clean : Snippet → Prop where
  | first {source : String} : (first source).issues = [] → Clean (first source)
  | next {previous : Snippet} {source : String} :
      Clean previous → (previous.next source).issues = [] → Clean (previous.next source)

/-- The statements of a snippet without issues are the ones of a derivation, which leaves the levels
    of the snippet behind. -/
theorem checksAll_within {outer : Typing.Context} (hΓ : Typing.WellFormed outer) {source : String}
    (h : (within outer source).issues = []) :
    Typing.WellFormed ((within outer source).declared :: outer) ∧
      Typing.ChecksAll ([] :: outer) (parse source).root.statements
        (within outer source).statements ((within outer source).declared :: outer) := by
  obtain ⟨hparsed, hfound⟩ := List.append_eq_nil_iff.1 h
  obtain ⟨after, hscope, hwell, hchecks⟩ :=
    Typing.checksAll_of_stmts _ (complete_of_parse hparsed) hΓ.push hfound
  have hdeclared : (within outer source).declared = after := congrArg Scope.declared hscope
  rw [hdeclared]
  exact ⟨hwell, hchecks⟩

namespace Clean

theorem issues_eq_nil {s : Snippet} (h : s.Clean) : s.issues = [] := by
  cases h with
  | first h => exact h
  | next _ h => exact h

theorem wellFormed {s : Snippet} (h : s.Clean) :
    Typing.WellFormed (s.declared :: s.enclosing) := by
  induction h with
  | first h => exact (checksAll_within Typing.wellFormed_nil h).1
  | next _ h ih => exact (checksAll_within ih h).1

/-- The whole of a clean snippet is well typed. -/
theorem wellTyped {s : Snippet} (h : s.Clean) : s.statement.WellTyped := by
  cases h with
  | first h =>
    exact .block ((checksAll_within Typing.wellFormed_nil h).2.wellTyped Typing.wellFormed_nil.push)
  | next hprevious h =>
    exact .block ((checksAll_within hprevious.wellFormed h).2.wellTyped hprevious.wellFormed.push)

end Clean

theorem wellFormed_levelsBehind {previous : Option Snippet} (h : ∀ p ∈ previous, p.Clean) :
    Typing.WellFormed (levelsBehind previous) := by
  cases previous with
  | none => exact Typing.wellFormed_nil
  | some p => exact (h p rfl).wellFormed

end Snippet

namespace Typing

open Snippet (levelsBehind)

/-- Behind snippets without issues, a unit without gaps is accepted exactly if the rules derive it.
    The typed tree that is answered then belongs to the one derivation there is, and every
    expression in it is settled. -/
theorem accepted_iff_derivable {previous : Option Snippet} (hprevious : ∀ p ∈ previous, p.Clean)
    {unit : List Tree.Stmt} (hunit : Tree.Stmt.AllComplete unit) :
    let outer := levelsBehind previous
    let answer := Elaboration.stmts ⟨[], outer⟩ unit
    (answer.2 = [] ↔ ∃ body Γ, ChecksAll ([] :: outer) unit body Γ) ∧
      (answer.2 = [] →
        ChecksAll ([] :: outer) unit answer.1.1 answer.1.2.levels ∧
        (∀ body Γ, ChecksAll ([] :: outer) unit body Γ →
          body = answer.1.1 ∧ Γ = answer.1.2.levels) ∧
        ∀ part ∈ Typed.Stmt.allExprs answer.1.1, part.Settled) := by
  intro outer answer
  have hΓ : WellFormed ([] :: outer) := (Snippet.wellFormed_levelsBehind hprevious).push
  have hderived : ∀ body Γ, ChecksAll ([] :: outer) unit body Γ →
      answer.2 = [] ∧ body = answer.1.1 ∧ Γ = answer.1.2.levels := by
    intro body Γ h
    obtain ⟨after, rfl, -, heq⟩ := stmts_of_checksAll unit hunit hΓ h
    have hanswer : answer = ((body, ⟨after, outer⟩), []) := heq
    rw [hanswer]
    exact ⟨rfl, rfl, rfl⟩
  have haccepted : answer.2 = [] → ChecksAll ([] :: outer) unit answer.1.1 answer.1.2.levels := by
    intro h
    obtain ⟨after, hscope, -, hchecks⟩ := checksAll_of_stmts unit hunit hΓ h
    have hlevels : answer.1.2.levels = after :: outer := congrArg Scope.levels hscope
    rw [hlevels]
    exact hchecks
  refine ⟨⟨fun h => ⟨_, _, haccepted h⟩, fun ⟨body, Γ, h⟩ => (hderived body Γ h).1⟩, fun h => ?_⟩
  exact ⟨haccepted h, fun body Γ hd => (hderived body Γ hd).2, (haccepted h).settled hΓ⟩

/-- Behind a declaration of `a`, stepping `a` is derivable and assigning it a truth value is not. -/
theorem accepted_iff_derivable_step :
    let previous := some (Snippet.first "var a = 1")
    let step := (parse "a = a + 1").root.statements
    let mixed := (parse "a = true").root.statements
    (∃ body Γ, ChecksAll ([] :: levelsBehind previous) step body Γ) ∧
      ¬ ∃ body Γ, ChecksAll ([] :: levelsBehind previous) mixed body Γ := by
  intro previous step mixed
  have hprevious : ∀ p ∈ previous, p.Clean := by
    intro p hp
    obtain rfl := Option.some.inj hp
    exact .first (by decide +kernel)
  have hstep := accepted_iff_derivable hprevious
    (complete_of_parse (by decide +kernel : (parse "a = a + 1").issues = []))
  have hmixed := accepted_iff_derivable hprevious
    (complete_of_parse (by decide +kernel : (parse "a = true").issues = []))
  refine ⟨hstep.1.1 (by decide +kernel), fun h => ?_⟩
  have hclean := hmixed.1.2 h
  revert hclean
  decide +kernel

end Typing

end SnippetLang
