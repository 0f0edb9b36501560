import SnippetLang.Snippet.Evaluation

/-!
# Sessions

A session is what an interactive user has in front of them: the snippets entered so far, each
either on its own or continuing an earlier one, and one store that all evaluations share.  Any
snippet can be evaluated at any time, also more than once and with either backend.
-/

namespace SnippetLang

/-- The snippets of a session, in the order of entry, and the store that they share. -/
structure Session where
  snippets : List Snippet
  store : Store

namespace Session

/-- A session without snippets. -/
def start (store : Store) : Session := ⟨[], store⟩

/-- The snippet of a number, counted from zero. -/
def snippet? (s : Session) (number : Nat) : Option Snippet := s.snippets[number]?

/-- The number of the snippet entered last. -/
def newest (s : Session) : Nat := s.snippets.length - 1

/-- Enters a snippet. -/
def add (s : Session) (snippet : Snippet) : Session := { s with snippets := s.snippets ++ [snippet] }

/-- Enters a source on its own. -/
def enter (s : Session) (source : String) : Session := s.add (.first source)

/-- Enters a source that continues the snippet of a number. -/
def continueFrom? (s : Session) (number : Nat) (source : String) : Option Session :=
  (s.snippet? number).map fun previous => s.add (previous.next source)

/-- Evaluates a snippet on the shared store, for a number of steps. -/
def evaluate (s : Session) (snippet : Snippet) (backend : Backend) (steps : Nat) :
    Option (Snippet.Evaluation × Session) :=
  (snippet.evaluate backend s.store steps).map fun evaluation =>
    match evaluation with
    | .rejected _ => (evaluation, s)
    | .ended outcome => (evaluation, { s with store := Outcome.store outcome })

/-- Changes the values of the variables. -/
def mapBindings (s : Session) (f : Bindings → Bindings) : Session :=
  { s with store := { s.store with bindings := f s.store.bindings } }

/-- Changes the console. -/
def mapConsole (s : Session) (f : Console → Console) : Session :=
  { s with store := { s.store with console := f s.store.console } }

end Session

end SnippetLang
