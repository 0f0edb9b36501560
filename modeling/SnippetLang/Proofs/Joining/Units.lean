import SnippetLang.Proofs.Joining.Scopes
import SnippetLang.Proofs.Scoping.Snippets

/-!
# Snippets joined into one

A snippet that continues another one can be joined with it: the statements of both become one
snippet, which is elaborated where the first one is.  If the second one declares no name of the
first one again at its top level, then nothing changes about its statements and its issues.
-/

namespace SnippetLang

/-- A tree whose statements are those of one tree and then those of another. -/
def Tree.Root.followedBy (a b : Tree.Root) : Tree.Root :=
  ⟨a.statements ++ b.statements, ⟨a.span.start, b.span.stop⟩⟩

/-- Two parsed sources as one. -/
def Parsed.followedBy (a b : Parsed) : Parsed :=
  ⟨a.source ++ b.source, a.root.followedBy b.root, a.lexical ++ b.lexical,
    a.syntactic ++ b.syntactic⟩

namespace Snippet

/-- The snippet whose statements are those of one snippet and then those of another, elaborated
    where the first one is. -/
def followedBy (a b : Snippet) : Snippet :=
  let parsed := a.parsed.followedBy b.parsed
  let ((statements, scope), found) := Elaboration.stmts ⟨[], a.enclosing⟩ parsed.root.statements
  ⟨parsed, a.enclosing, statements, scope.declared, found⟩

/-- No two top-level declarations of two snippets have one name. -/
def Disjoint (a b : Snippet) : Prop := ∀ x ∈ a.declared, ∀ y ∈ b.declared, x.name ≠ y.name

instance (a b : Snippet) : Decidable (a.Disjoint b) :=
  inferInstanceAs (Decidable (∀ x ∈ a.declared, ∀ y ∈ b.declared, x.name ≠ y.name))

section Joined

variable {outer : List (List Variable)} {source source' : String}

theorem followedBy_within
    (hdisjoint : (within outer source).Disjoint ((within outer source).next source')) :
    let a := within outer source
    let b := a.next source'
    (a.followedBy b).statements = a.statements ++ b.statements ∧
      (a.followedBy b).declared = a.declared ++ b.declared ∧
      (a.followedBy b).found = a.found ++ b.found := by
  intro a b
  have hbehind : (Elaboration.stmts ⟨[], outer⟩ (parse source).root.statements).1.2 =
      ⟨a.declared, outer⟩ := (behind_within outer source).symm
  have hjoins : Scope.Joins a.declared ⟨[], a.declared :: outer⟩ ⟨a.declared, outer⟩ :=
    ⟨(List.append_nil _).symm, fun _ => rfl⟩
  obtain ⟨after, hstmts, hafter⟩ :=
    Elaboration.stmts_joined (parse source').root.statements hjoins hdisjoint
  have hwhole := Elaboration.stmts_append ⟨[], outer⟩ (parse source).root.statements
    (parse source').root.statements
  rw [hbehind, hstmts] at hwhole
  exact ⟨congrArg (·.1.1) hwhole, (congrArg (·.1.2.declared) hwhole).trans hafter.declared,
    congrArg (·.2) hwhole⟩

end Joined

/-! ### Clean snippets -/

namespace Clean

variable {a : Snippet} {source : String}

/-- A clean snippet joined with a clean one that continues it has no issues, and its statements and
    its declarations are those of the two. -/
theorem followedBy (ha : a.Clean) (hb : (a.next source).Clean)
    (hdisjoint : a.Disjoint (a.next source)) :
    (a.followedBy (a.next source)).issues = [] ∧
      (a.followedBy (a.next source)).statements = a.statements ++ (a.next source).statements ∧
      (a.followedBy (a.next source)).declared = a.declared ++ (a.next source).declared := by
  obtain ⟨hparsed, hfound⟩ := List.append_eq_nil_iff.1 ha.issues_eq_nil
  obtain ⟨hlexical, hsyntactic⟩ := List.append_eq_nil_iff.1 hparsed
  obtain ⟨hparsed', hfound'⟩ := List.append_eq_nil_iff.1 hb.issues_eq_nil
  obtain ⟨hlexical', hsyntactic'⟩ := List.append_eq_nil_iff.1 hparsed'
  have hparts : (a.followedBy (a.next source)).statements =
        a.statements ++ (a.next source).statements ∧
      (a.followedBy (a.next source)).declared = a.declared ++ (a.next source).declared ∧
      (a.followedBy (a.next source)).found = a.found ++ (a.next source).found := by
    cases ha with
    | first _ => exact followedBy_within hdisjoint
    | next _ _ => exact followedBy_within hdisjoint
  obtain ⟨hstatements, hdeclared, hnew⟩ := hparts
  refine ⟨?_, hstatements, hdeclared⟩
  have hsources : (a.followedBy (a.next source)).parsed.issues =
      (a.parsed.lexical ++ (a.next source).parsed.lexical) ++
        (a.parsed.syntactic ++ (a.next source).parsed.syntactic) := rfl
  rw [issues, hsources, hnew, hlexical, hlexical', hsyntactic, hsyntactic', hfound, hfound']
  rfl

end Clean

end Snippet

end SnippetLang
