import SnippetLang.Diagnostic
import SnippetLang.Elaboration
import SnippetLang.Tree.Parser
import SnippetLang.Typed.Flat

/-!
# Snippets

A snippet is a source that was parsed and elaborated.  Snippets form chains: in a snippet that
continues another one, the variables that its predecessors declared at their top level are visible,
each predecessor contributing one level of the scope.  That holds also of a predecessor with issues.
-/

namespace SnippetLang

/-- A parsed and elaborated source. -/
structure Snippet where
  parsed : Parsed
  enclosing : List (List Variable)   -- declared by the predecessors, the nearest first
  statements : List Typed.Stmt
  declared : List Variable           -- at the top level, in order
  found : List Issue                 -- found by the elaborator

namespace Snippet

/-- The snippet of a source, with the levels of its predecessors' declarations. -/
def within (enclosing : List (List Variable)) (source : String) : Snippet :=
  let parsed := parse source
  let ((statements, scope), found) := Elaboration.stmts ⟨[], enclosing⟩ parsed.root.statements
  ⟨parsed, enclosing, statements, scope.declared, found⟩

/-- The snippet of a source that starts a chain. -/
def first (source : String) : Snippet := within [] source

/-- The snippet of a source that continues another snippet. -/
def next (previous : Snippet) (source : String) : Snippet :=
  within (previous.declared :: previous.enclosing) source

/-- Whether the snippet continues another one. -/
def isChained (s : Snippet) : Bool := !s.enclosing.isEmpty

/-- What is wrong with the snippet itself, its predecessors left aside. -/
def issues (s : Snippet) : List Issue := s.parsed.issues ++ s.found

/-- The issues as diagnostics. -/
def diagnostics (s : Snippet) : List Diagnostic := s.issues.map Issue.diagnostic

/-- The whole snippet as one statement. -/
def statement (s : Snippet) : Typed.Stmt := .block s.statements

/-- The flat program of the snippet. -/
def lowered (s : Snippet) : List Typed.Stmt := s.statement.lower

/-- The flat program of the snippet with its results marked, for compilation. -/
def marked (s : Snippet) : List Typed.Stmt := Typed.markResults s.lowered

end Snippet

end SnippetLang
