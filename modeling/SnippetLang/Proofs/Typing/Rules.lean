import SnippetLang.Elaboration

/-!
# The typing rules

The rules by which programs are judged, stated without the elaborator.  A context is a list of
levels, the innermost first.  `Types` gives an expression a type and the typed expression that it
stands for, `Checks` does the same for a statement and says which context the statement leaves
behind.  There are no rules for what is missing from a tree, and none that assign to a read-only
variable, declare a name twice in a level, or use the value of an expression that has none.
-/

namespace SnippetLang

/-! ### Types that values can be stored at -/

/-- The types that programs have names for. -/
def Ty.Named (t : Ty) : Prop := t = .bool ∨ t = .int ∨ t = .string

namespace Ty

instance (t : Ty) : Decidable t.Named := by unfold Named; infer_instance

theorem Named.ne_error {t : Ty} (h : t.Named) : t ≠ .error := by
  rintro rfl
  revert h
  decide

theorem Named.ne_void {t : Ty} (h : t.Named) : t ≠ .void := by
  rintro rfl
  revert h
  decide

/-- A name is that of a type exactly if the type is one of the named ones. -/
theorem ofName?_eq_some_iff {name : String} {t : Ty} :
    ofName? name = some t ↔ t.Named ∧ name = t.name := by
  constructor
  · intro h
    unfold ofName? at h
    split at h
    · next hn =>
      obtain rfl := Option.some.inj h
      exact ⟨.inl rfl, hn⟩
    split at h
    · next hn =>
      obtain rfl := Option.some.inj h
      exact ⟨.inr (.inl rfl), hn⟩
    split at h
    · next hn =>
      obtain rfl := Option.some.inj h
      exact ⟨.inr (.inr rfl), hn⟩
    · cases h
  · rintro ⟨rfl | rfl | rfl, rfl⟩ <;> rfl

end Ty

namespace Typing

/-! ### Contexts -/

/-- The declarations in sight, level by level, the innermost level first. -/
abbrev Context := List (List Variable)

/-- A name means a variable: the variable is its declaration in the innermost level that has one. -/
inductive Sees : Context → String → Variable → Prop where
  | here {level : List Variable} {outer : Context} {name : String} {x : Variable} :
      x ∈ level → x.name = name → Sees (level :: outer) name x
  | outside {level : List Variable} {outer : Context} {name : String} {x : Variable} :
      (∀ y ∈ level, y.name ≠ name) → Sees outer name x → Sees (level :: outer) name x

/-- A level in which no name is declared twice and every variable has a type with a name. -/
structure WellFormedLevel (level : List Variable) : Prop where
  distinct : (level.map (·.name)).Nodup
  named : ∀ x ∈ level, x.ty.Named

/-- A context all of whose levels are well formed. -/
def WellFormed (Γ : Context) : Prop := ∀ level ∈ Γ, WellFormedLevel level

/-! ### Expressions -/

/-- The conversions between two different types. -/
inductive Converts : Ty → Ty → Prop where
  | intToString : Converts .int .string
  | boolToString : Converts .bool .string
  | stringToInt : Converts .string .int
  | stringToBool : Converts .string .bool

mutual

/-- In a context, an expression stands for a typed expression and has a type. -/
inductive Types (Γ : Context) : Tree.Expr → Typed.Expr → Ty → Prop where
  | int {span : Span} {n : Int32} : Types Γ (.int span n) (.literal (.int n)) .int
  | bool {span : Span} {b : Bool} : Types Γ (.bool span b) (.literal (.bool b)) .bool
  | string {span : Span} {s : String} : Types Γ (.string span s) (.literal (.string s)) .string
  | name {ident : Tree.Ident} {x : Variable} :
      Sees Γ ident.name x → Types Γ (.name ident) (.read x) x.ty
  | assign {target : Tree.Ident} {value : Tree.Expr} {x : Variable} {v : Typed.Expr} :
      Sees Γ target.name x → x.readOnly = false → x.ty ≠ .void → Types Γ value v x.ty →
      Types Γ (.assign target value) (.assign x v) x.ty
  | unary {row : UnaryOperator} {span : Span} {operand : Tree.Expr} {e : Typed.Expr} :
      row ∈ UnaryOperator.table → Types Γ operand e row.operand →
      Types Γ (.unary row.op span operand) (.unary row e) row.result
  | binary {row : BinaryOperator} {span : Span} {left right : Tree.Expr} {l r : Typed.Expr} :
      row ∈ BinaryOperator.table → Types Γ left l row.left → Types Γ right r row.right →
      Types Γ (.binary left row.op span right) (.binary l row r) row.result
  | paren {opening closing : Span} {inner : Tree.Expr} {e : Typed.Expr} {t : Ty} :
      Types Γ inner e t → Types Γ (.paren opening inner closing) e t
  | call {f : Function} {callee : Tree.Ident} {args : List Tree.Expr} {closing : Span}
      {es : List Typed.Expr} :
      f ∈ Function.all → callee.name = f.name → TypesAll Γ args es (f.parameters.map (·.ty)) →
      Types Γ (.call callee args closing) (.call f es) f.ty
  | sameType {t : Ty} {callee : Tree.Ident} {arg : Tree.Expr} {closing : Span} {e : Typed.Expr} :
      t.Named → callee.name = t.name → Types Γ arg e t → Types Γ (.call callee [arg] closing) e t
  | convert {s t : Ty} {callee : Tree.Ident} {arg : Tree.Expr} {closing : Span} {e : Typed.Expr} :
      Converts s t → callee.name = t.name → Types Γ arg e s →
      Types Γ (.call callee [arg] closing) (.convert t e) t

/-- Expressions have the types of a list, one each. -/
inductive TypesAll (Γ : Context) : List Tree.Expr → List Typed.Expr → List Ty → Prop where
  | nil : TypesAll Γ [] [] []
  | cons {arg : Tree.Expr} {args : List Tree.Expr} {e : Typed.Expr} {es : List Typed.Expr} {t : Ty}
      {ts : List Ty} :
      Types Γ arg e t → TypesAll Γ args es ts → TypesAll Γ (arg :: args) (e :: es) (t :: ts)

end

/-! ### Statements -/

mutual

/-- In a context, a statement stands for a typed statement and leaves a context behind. -/
inductive Checks : Context → Tree.Stmt → Typed.Stmt → Context → Prop where
  | block {Γ Δ : Context} {opening closing : Span} {body : List Tree.Stmt}
      {body' : List Typed.Stmt} :
      ChecksAll ([] :: Γ) body body' Δ → Checks Γ (.block opening body closing) (.block body') Γ
  | declare {level : List Variable} {outer : Context} {keyword : Span} {readOnly : Bool}
      {ident : Tree.Ident} {init : Tree.Expr} {e : Typed.Expr} {t : Ty} :
      Types (level :: outer) init e t → t ≠ .void → (∀ y ∈ level, y.name ≠ ident.name) →
      Checks (level :: outer) (.declare keyword readOnly ident init)
        (.declare ⟨ident.name, readOnly, t⟩ e) ((level ++ [⟨ident.name, readOnly, t⟩]) :: outer)
  | ifThen {Γ Δ : Context} {keyword : Span} {condition : Tree.Expr} {yes : Tree.Stmt}
      {c : Typed.Expr} {s : Typed.Stmt} :
      Types Γ condition c .bool → Checks Γ yes s Δ →
      Checks Γ (.ifThen keyword condition yes) (.ifThen c s) Δ
  | ifElse {Γ Δ Ε : Context} {keyword : Span} {condition : Tree.Expr} {yes no : Tree.Stmt}
      {c : Typed.Expr} {s t : Typed.Stmt} :
      Types Γ condition c .bool → Checks Γ yes s Δ → Checks Δ no t Ε →
      Checks Γ (.ifElse keyword condition yes no) (.ifElse c s t) Ε
  | whileDo {Γ Δ : Context} {keyword : Span} {condition : Tree.Expr} {body : Tree.Stmt}
      {c : Typed.Expr} {s : Typed.Stmt} :
      Types Γ condition c .bool → Checks Γ body s Δ →
      Checks Γ (.whileDo keyword condition body) (.whileDo c s) Δ
  | doWhile {Γ Δ : Context} {keyword : Span} {condition : Tree.Expr} {body : Tree.Stmt}
      {c : Typed.Expr} {s : Typed.Stmt} :
      Checks Γ body s Δ → Types Δ condition c .bool →
      Checks Γ (.doWhile keyword body condition) (.doWhile s c) Δ
  | count {Γ Δ : Context} {keyword : Span} {ident : Tree.Ident} {lower upper : Tree.Expr}
      {body : Tree.Stmt} {a b : Typed.Expr} {s : Typed.Stmt} :
      Types Γ lower a .int → Types Γ upper b .int →
      Checks ([⟨ident.name, true, .int⟩] :: Γ) body s Δ →
      Checks Γ (.count keyword ident lower upper body) (.count ⟨ident.name, true, .int⟩ a b s) Γ
  | expr {Γ : Context} {e : Tree.Expr} {e' : Typed.Expr} {t : Ty} :
      Types Γ e e' t → Checks Γ (.expr e) (.expr e') Γ

/-- Statements, each in the context that the one before it leaves behind. -/
inductive ChecksAll : Context → List Tree.Stmt → List Typed.Stmt → Context → Prop where
  | nil {Γ : Context} : ChecksAll Γ [] [] Γ
  | cons {Γ Δ Ε : Context} {s : Tree.Stmt} {rest : List Tree.Stmt} {s' : Typed.Stmt}
      {rest' : List Typed.Stmt} :
      Checks Γ s s' Δ → ChecksAll Δ rest rest' Ε → ChecksAll Γ (s :: rest) (s' :: rest') Ε

end

end Typing

end SnippetLang
