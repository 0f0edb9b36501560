import SnippetLang.Variable

/-!
# Scopes

Which variables a name can mean at a place.  A scope is a stack of levels; within a level every
name is declared at most once, and a name means its declaration at the innermost level that has one.
-/

namespace SnippetLang

/-- The visible declarations, level by level. -/
structure Scope where
  declared : List Variable           -- of the innermost level, in the order of declaration
  enclosing : List (List Variable)   -- of the levels around it, the nearest first
deriving DecidableEq

namespace Scope

/-- One level without declarations. -/
def empty : Scope := ⟨[], []⟩

/-- The declaration of a name in one level. -/
def findIn (name : String) (level : List Variable) : Option Variable :=
  level.find? (·.name == name)

/-- All levels, the innermost first. -/
def levels (s : Scope) : List (List Variable) := s.declared :: s.enclosing

/-- The variable that a name means. -/
def lookup? (s : Scope) (name : String) : Option Variable := s.levels.findSome? (findIn name)

/-- Declares a variable at the innermost level, unless its name is declared there already. -/
def declare? (s : Scope) (x : Variable) : Option Scope :=
  match findIn x.name s.declared with
  | some _ => none
  | none => some { s with declared := s.declared ++ [x] }

/-- Opens a level. -/
def push (s : Scope) : Scope := ⟨[], s.levels⟩

/-- Closes the innermost level, if there is one around it. -/
def pop? (s : Scope) : Option Scope :=
  match s.enclosing with
  | [] => none
  | level :: rest => some ⟨level, rest⟩

/-! ### What the operations do to the meaning of names -/

@[simp] theorem pop?_push (s : Scope) : s.push.pop? = some s := rfl

@[simp] theorem lookup?_push (s : Scope) (name : String) : s.push.lookup? name = s.lookup? name := by
  simp only [lookup?, levels, push, List.findSome?_cons, findIn, List.find?_nil]

/-- A level refuses exactly the names that it has. -/
theorem declare?_eq_none_iff (s : Scope) (x : Variable) :
    s.declare? x = none ↔ ∃ y ∈ s.declared, y.name = x.name := by
  unfold declare?
  cases h : findIn x.name s.declared with
  | none => simpa [findIn] using h
  | some y =>
    have hy := List.find?_some h
    exact iff_of_true rfl ⟨y, List.mem_of_find?_eq_some h, by simpa using hy⟩

/-- A declaration gives its name a meaning, and changes that of no other name. -/
theorem lookup?_declare? {s t : Scope} {x : Variable} (h : s.declare? x = some t) (name : String) :
    t.lookup? name = if x.name = name then some x else s.lookup? name := by
  unfold declare? at h
  split at h
  · simp at h
  · next hx =>
    obtain rfl := Option.some.inj h
    by_cases hn : x.name = name
    · subst hn
      have hx' : s.declared.find? (·.name == x.name) = none := hx
      simp [lookup?, levels, findIn, List.find?_append, hx']
    · simp [lookup?, levels, findIn, List.findSome?_cons, List.find?_append, hn]

end Scope

end SnippetLang
