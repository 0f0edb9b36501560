import SnippetLang.Console
import SnippetLang.RunError

/-!
# The state of a run

What a run starts with and leaves behind: the values of the variables and the console.  A
computation in `Eval` works on such a store and keeps it also when it ends in an error, so that what
was written up to there is not lost.
-/

namespace SnippetLang

/-- The values of the variables, and the console. -/
structure Store where
  bindings : Bindings
  console : Console

/-- A computation on a store that may end in an error. -/
abbrev Eval := EStateM RunError Store

/-- How a run ended: with a value or an error, and the store behind it. -/
abbrev Outcome := EStateM.Result RunError Store Value

/-- The store behind a run. -/
def Outcome.store : Outcome → Store
  | .ok _ store => store
  | .error _ store => store

namespace Eval

/-- A computation that does not look at the store. -/
def lift {α : Type} (e : Except RunError α) : Eval α := fun store =>
  match e with
  | .ok a => .ok a store
  | .error error => .error error store

/-- A computation that may end in an internal error and does not look at the store. -/
def liftInternal {α : Type} (e : Except InternalError α) : Eval α := lift (e.mapError .internal)

/-- A computation on the console alone. -/
def onConsole {α : Type} (f : Console → Except RunError α × Console) : Eval α := fun store =>
  match f store.console with
  | (.ok a, console) => .ok a { store with console := console }
  | (.error error, console) => .error error { store with console := console }

end Eval

end SnippetLang
