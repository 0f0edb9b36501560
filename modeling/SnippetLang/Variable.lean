import SnippetLang.Value

/-!
# Variables and their bindings

A variable is named by its name together with its type: two declarations that agree in both share
one cell at run time, whatever scopes they stand in, and a redeclaration with another type opens a
second one.  Whether the variable is read-only does not matter for that.

`Bindings` is the memory that evaluations of a session share, an association list without two
entries for one variable.  Setting a variable that is bound already keeps the variable of the old
entry, so its read-only mark is that of the first time.
-/

namespace SnippetLang

/-- A declared variable. -/
structure Variable where
  name : String
  readOnly : Bool
  ty : Ty
deriving DecidableEq

/-- Whether two variables share a cell: the name and the type decide. -/
def Variable.same (x y : Variable) : Bool := x.name == y.name && x.ty == y.ty

namespace Variable

theorem same_iff {x y : Variable} : x.same y = true ↔ x.name = y.name ∧ x.ty = y.ty := by
  simp [same]

@[simp] theorem same_self (x : Variable) : x.same x = true := same_iff.2 ⟨rfl, rfl⟩

theorem same_comm (x y : Variable) : x.same y = y.same x := by
  rw [Bool.eq_iff_iff, same_iff, same_iff]
  constructor <;> exact fun h => ⟨h.1.symm, h.2.symm⟩

/-- Variables that share a cell share it with the same variables. -/
theorem same_congr {x y : Variable} (h : x.same y = true) (z : Variable) :
    x.same z = y.same z := by
  obtain ⟨hn, ht⟩ := same_iff.1 h
  simp [same, hn, ht]

end Variable

/-- The values of variables. -/
structure Bindings where
  entries : List (Variable × Value)
deriving DecidableEq

namespace Bindings

/-- No variable is bound. -/
def empty : Bindings := ⟨[]⟩

/-- The value that a variable is bound to, if it is bound. -/
def find? (b : Bindings) (x : Variable) : Option Value :=
  (b.entries.find? fun entry => entry.1.same x).map (·.2)

/-- The value of a variable, bound or not. -/
def read (b : Bindings) (x : Variable) : Value := (b.find? x).getD x.ty.default

/-- Replaces the value of the first entry for `x`, or adds an entry behind the others. -/
def setEntry (x : Variable) (v : Value) : List (Variable × Value) → List (Variable × Value)
  | [] => [(x, v)]
  | entry :: rest =>
    if entry.1.same x then (entry.1, v) :: rest else entry :: setEntry x v rest

/-- Binds a variable to a value. -/
def set (b : Bindings) (x : Variable) (v : Value) : Bindings := ⟨setEntry x v b.entries⟩

/-- Unbinds a variable. -/
def erase (b : Bindings) (x : Variable) : Bindings :=
  ⟨b.entries.filter fun entry => !entry.1.same x⟩

/-- Binds a list of variables one after the other. -/
def setAll (b : Bindings) (pairs : List (Variable × Value)) : Bindings :=
  pairs.foldl (fun b pair => b.set pair.1 pair.2) b

/-! ### What the operations do to the values -/

@[simp] theorem find?_empty (x : Variable) : empty.find? x = none := rfl

theorem find?_setEntry (x y : Variable) (v : Value) (entries : List (Variable × Value)) :
    find? ⟨setEntry x v entries⟩ y = if x.same y then some v else find? ⟨entries⟩ y := by
  induction entries with
  | nil => by_cases h : x.same y <;> simp [find?, setEntry, h]
  | cons entry rest ih =>
    unfold setEntry
    by_cases hx : entry.1.same x
    · have hy := Variable.same_congr hx y
      by_cases h : x.same y <;> simp [find?, hx, hy, h]
    · by_cases hy : entry.1.same y
      · have h : ¬ x.same y := fun h => hx (by rw [Variable.same_congr hy x]; rwa [Variable.same_comm])
        simp [find?, hx, hy, h]
      · simpa [find?, hx, hy] using ih

/-- Setting a variable changes what it is bound to, and nothing else. -/
theorem find?_set (b : Bindings) (x y : Variable) (v : Value) :
    (b.set x v).find? y = if x.same y then some v else b.find? y :=
  find?_setEntry x y v b.entries

/-- A variable reads as the value that it was set to last. -/
theorem read_set (b : Bindings) (x y : Variable) (v : Value) :
    (b.set x v).read y = if x.same y then v else b.read y := by
  unfold read
  rw [find?_set]
  split <;> rfl

/-- Erasing a variable unbinds it, and nothing else. -/
theorem find?_erase (b : Bindings) (x y : Variable) :
    (b.erase x).find? y = if x.same y then none else b.find? y := by
  obtain ⟨entries⟩ := b
  induction entries with
  | nil => simp [find?, erase]
  | cons entry rest ih =>
    simp only [find?, erase] at ih ⊢
    by_cases hx : entry.1.same x
    · have hy := Variable.same_congr hx y
      by_cases h : x.same y
      · simpa [hx, h] using ih
      · simpa [hx, hy, h] using ih
    · by_cases hy : entry.1.same y
      · have h : ¬ x.same y := fun h => hx (by rw [Variable.same_congr hy x]; rwa [Variable.same_comm])
        simp [hx, hy, h]
      · simpa [hx, hy] using ih

end Bindings

end SnippetLang
