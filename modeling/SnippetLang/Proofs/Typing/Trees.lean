import SnippetLang.Proofs.Typing.Completeness

/-!
# Well-typed trees

What the typing rules promise about the typed trees that they answer.  `Settled` says it of one
node, read off the node and the types of its operands alone.  `WellTyped` says of a whole tree what
its evaluation relies on; unlike `Settled` it allows an assignment to a read-only variable, since
lowering steps the variable of a counting loop by one.
-/

namespace SnippetLang

namespace Typed

/-! ### The expressions inside a tree -/

mutual

/-- An expression and all expressions inside it. -/
def Expr.parts : Expr → List Expr
  | .error => [.error]
  | .literal v => [.literal v]
  | .read x => [.read x]
  | .assign x value => .assign x value :: value.parts
  | .unary op operand => .unary op operand :: operand.parts
  | .binary left op right => .binary left op right :: (left.parts ++ right.parts)
  | .call f args => .call f args :: Expr.allParts args
  | .convert target e => .convert target e :: e.parts

/-- Expressions and all expressions inside them. -/
def Expr.allParts : List Expr → List Expr
  | [] => []
  | e :: es => e.parts ++ Expr.allParts es

end

mutual

/-- All expressions inside a statement. -/
def Stmt.exprs : Stmt → List Expr
  | .block body => Stmt.allExprs body
  | .declare _ init => init.parts
  | .expr e => e.parts
  | .ifThen condition yes => condition.parts ++ yes.exprs
  | .ifElse condition yes no => condition.parts ++ yes.exprs ++ no.exprs
  | .whileDo condition body => condition.parts ++ body.exprs
  | .doWhile body condition => body.exprs ++ condition.parts
  | .count _ lower upper body => lower.parts ++ upper.parts ++ body.exprs
  | .goto _ => []
  | .gotoIf _ condition _ => condition.parts
  | .label _ => []
  | .result _ => []

/-- All expressions inside statements. -/
def Stmt.allExprs : List Stmt → List Expr
  | [] => []
  | s :: rest => s.exprs ++ Stmt.allExprs rest

end

/-! ### Settled nodes -/

/-- A node is as the typing rules leave it: not an error, its operator the row of the table for the
    types of its operands, its target assignable and of the type of the value, its arguments of the
    types of the parameters, its conversion one between different types. -/
def Expr.Settled : Expr → Prop
  | .error => False
  | .literal v => v.ty.Named
  | .read x => x.ty.Named
  | .assign x value => x.readOnly = false ∧ value.ty = x.ty
  | .unary row operand => UnaryOperator.resolve? row.op operand.ty = some row
  | .binary left row right => BinaryOperator.resolve? row.op left.ty right.ty = some row
  | .call f args => f ∈ Function.all ∧ args.map (·.ty) = f.parameters.map (·.ty)
  | .convert target e => Typing.Converts e.ty target

/-! ### Well-typed trees -/

/-- Every part of an expression has the type that the part around it relies on. -/
inductive Expr.WellTyped : Expr → Prop where
  | literal {v : Value} : v.ty.Named → WellTyped (.literal v)
  | read {x : Variable} : x.ty.Named → WellTyped (.read x)
  | assign {x : Variable} {value : Expr} :
      x.ty.Named → value.ty = x.ty → WellTyped value → WellTyped (.assign x value)
  | unary {row : UnaryOperator} {operand : Expr} :
      row ∈ UnaryOperator.table → operand.ty = row.operand → WellTyped operand →
      WellTyped (.unary row operand)
  | binary {row : BinaryOperator} {left right : Expr} :
      row ∈ BinaryOperator.table → left.ty = row.left → right.ty = row.right →
      WellTyped left → WellTyped right → WellTyped (.binary left row right)
  | call {f : Function} {args : List Expr} :
      f ∈ Function.all → args.map (·.ty) = f.parameters.map (·.ty) →
      (∀ arg ∈ args, WellTyped arg) → WellTyped (.call f args)
  | convert {target : Ty} {e : Expr} :
      Typing.Converts e.ty target → WellTyped e → WellTyped (.convert target e)

/-- Every expression of a statement is well typed, and of the type that the statement relies on.
    Result marks are left out: they occur only in programs prepared for compilation. -/
inductive Stmt.WellTyped : Stmt → Prop where
  | block {body : List Stmt} : (∀ s ∈ body, WellTyped s) → WellTyped (.block body)
  | declare {x : Variable} {init : Expr} :
      x.ty.Named → init.ty = x.ty → init.WellTyped → WellTyped (.declare x init)
  | expr {e : Expr} : e.WellTyped → WellTyped (.expr e)
  | ifThen {condition : Expr} {yes : Stmt} :
      condition.ty = .bool → condition.WellTyped → WellTyped yes → WellTyped (.ifThen condition yes)
  | ifElse {condition : Expr} {yes no : Stmt} :
      condition.ty = .bool → condition.WellTyped → WellTyped yes → WellTyped no →
      WellTyped (.ifElse condition yes no)
  | whileDo {condition : Expr} {body : Stmt} :
      condition.ty = .bool → condition.WellTyped → WellTyped body →
      WellTyped (.whileDo condition body)
  | doWhile {body : Stmt} {condition : Expr} :
      WellTyped body → condition.ty = .bool → condition.WellTyped →
      WellTyped (.doWhile body condition)
  | count {x : Variable} {lower upper : Expr} {body : Stmt} :
      x.ty = .int → lower.ty = .int → upper.ty = .int → lower.WellTyped → upper.WellTyped →
      WellTyped body → WellTyped (.count x lower upper body)
  | goto {l : JumpLabel} : WellTyped (.goto l)
  | gotoIf {l : JumpLabel} {condition : Expr} {jumpIf : Bool} :
      condition.ty = .bool → condition.WellTyped → WellTyped (.gotoIf l condition jumpIf)
  | label {l : JumpLabel} : WellTyped (.label l)

end Typed

namespace Typing

open Typed

/-! ### The trees that the rules answer -/

/-- The types of a derivation are those of its typed expressions. -/
theorem TypesAll.map_ty {Γ : Context} {es : List Tree.Expr} {es' : List Expr} {ts : List Ty} :
    TypesAll Γ es es' ts → es'.map (·.ty) = ts
  | .nil => rfl
  | .cons h hrest => by rw [List.map_cons, h.ty_eq, hrest.map_ty]

mutual

/-- The typed expression of a derivation is settled throughout. -/
theorem Types.settled {Γ : Context} (hΓ : WellFormed Γ) {e : Tree.Expr} {e' : Expr} {t : Ty} :
    Types Γ e e' t → ∀ part ∈ e'.parts, part.Settled
  | .int => by simp [Expr.parts, Expr.Settled, Value.ty, Ty.Named]
  | .bool => by simp [Expr.parts, Expr.Settled, Value.ty, Ty.Named]
  | .string => by simp [Expr.parts, Expr.Settled, Value.ty, Ty.Named]
  | .name hx => by simpa [Expr.parts, Expr.Settled] using hΓ.named hx
  | .assign _ hwritable _ h => by
    intro part hpart
    rcases List.mem_cons.1 hpart with rfl | hpart
    · exact ⟨hwritable, h.ty_eq⟩
    · exact h.settled hΓ part hpart
  | .unary hrow h => by
    intro part hpart
    rcases List.mem_cons.1 hpart with rfl | hpart
    · exact resolveUnary_eq_some_iff.2 ⟨hrow, rfl, h.ty_eq.symm⟩
    · exact h.settled hΓ part hpart
  | .binary hrow hl hr => by
    intro part hpart
    rcases List.mem_cons.1 hpart with rfl | hpart
    · exact resolveBinary_eq_some_iff.2 ⟨hrow, rfl, hl.ty_eq.symm, hr.ty_eq.symm⟩
    rcases List.mem_append.1 hpart with hpart | hpart
    · exact hl.settled hΓ part hpart
    · exact hr.settled hΓ part hpart
  | .paren h => h.settled hΓ
  | .call hf _ h => by
    intro part hpart
    rcases List.mem_cons.1 hpart with rfl | hpart
    · exact ⟨hf, h.map_ty⟩
    · exact h.settled hΓ part hpart
  | .sameType _ _ h => h.settled hΓ
  | .convert hc _ h => by
    intro part hpart
    rcases List.mem_cons.1 hpart with rfl | hpart
    · rwa [← h.ty_eq] at hc
    · exact h.settled hΓ part hpart

theorem TypesAll.settled {Γ : Context} (hΓ : WellFormed Γ) {es : List Tree.Expr}
    {es' : List Expr} {ts : List Ty} : TypesAll Γ es es' ts → ∀ part ∈ Expr.allParts es', part.Settled
  | .nil => by simp [Expr.allParts]
  | .cons h hrest => by
    intro part hpart
    rcases List.mem_append.1 hpart with hpart | hpart
    · exact h.settled hΓ part hpart
    · exact hrest.settled hΓ part hpart
end

mutual

/-- The typed expression of a derivation is well typed. -/
theorem Types.wellTyped {Γ : Context} (hΓ : WellFormed Γ) {e : Tree.Expr} {e' : Expr} {t : Ty} :
    Types Γ e e' t → e'.WellTyped
  | .int => .literal (.inr (.inl rfl))
  | .bool => .literal (.inl rfl)
  | .string => .literal (.inr (.inr rfl))
  | .name hx => .read (hΓ.named hx)
  | .assign hx _ _ h => .assign (hΓ.named hx) h.ty_eq (h.wellTyped hΓ)
  | .unary hrow h => .unary hrow h.ty_eq (h.wellTyped hΓ)
  | .binary hrow hl hr => .binary hrow hl.ty_eq hr.ty_eq (hl.wellTyped hΓ) (hr.wellTyped hΓ)
  | .paren h => h.wellTyped hΓ
  | .call hf _ h => .call hf h.map_ty (h.wellTyped hΓ)
  | .sameType _ _ h => h.wellTyped hΓ
  | .convert hc _ h => .convert (by rwa [h.ty_eq]) (h.wellTyped hΓ)

theorem TypesAll.wellTyped {Γ : Context} (hΓ : WellFormed Γ) {es : List Tree.Expr}
    {es' : List Expr} {ts : List Ty} : TypesAll Γ es es' ts → ∀ e ∈ es', e.WellTyped
  | .nil => by simp
  | .cons h hrest => by
    intro e he
    rcases List.mem_cons.1 he with rfl | he
    · exact h.wellTyped hΓ
    · exact hrest.wellTyped hΓ e he

end

/-- A statement leaves a well-formed context behind. -/
theorem Checks.wellFormed {Γ Δ : Context} (hΓ : WellFormed Γ) {s : Tree.Stmt} {s' : Stmt} :
    Checks Γ s s' Δ → WellFormed Δ
  | .block _ => hΓ
  | .declare h ht hfresh => hΓ.declare ((h.named_or_void hΓ).resolve_right ht) hfresh
  | .ifThen _ hyes => hyes.wellFormed hΓ
  | .ifElse _ hyes hno => hno.wellFormed (hyes.wellFormed hΓ)
  | .whileDo _ hbody => hbody.wellFormed hΓ
  | .doWhile hbody _ => hbody.wellFormed hΓ
  | .count _ _ _ => hΓ
  | .expr _ => hΓ

theorem WellFormed.counter {Γ : Context} (hΓ : WellFormed Γ) (name : String) :
    WellFormed ([⟨name, true, .int⟩] :: Γ) :=
  hΓ.push.declare (x := ⟨name, true, .int⟩) (.inr (.inl rfl)) (by simp)

mutual

/-- The typed statement of a derivation is settled throughout. -/
theorem Checks.settled {Γ Δ : Context} (hΓ : WellFormed Γ) {s : Tree.Stmt} {s' : Stmt} :
    Checks Γ s s' Δ → ∀ part ∈ s'.exprs, part.Settled
  | .block h => h.settled hΓ.push
  | .declare h _ _ => h.settled hΓ
  | .ifThen h hyes => by
    intro part hpart
    rcases List.mem_append.1 hpart with hpart | hpart
    · exact h.settled hΓ part hpart
    · exact hyes.settled hΓ part hpart
  | .ifElse h hyes hno => by
    intro part hpart
    rcases List.mem_append.1 hpart with hpart | hpart
    · rcases List.mem_append.1 hpart with hpart | hpart
      · exact h.settled hΓ part hpart
      · exact hyes.settled hΓ part hpart
    · exact hno.settled (hyes.wellFormed hΓ) part hpart
  | .whileDo h hbody => by
    intro part hpart
    rcases List.mem_append.1 hpart with hpart | hpart
    · exact h.settled hΓ part hpart
    · exact hbody.settled hΓ part hpart
  | .doWhile hbody h => by
    intro part hpart
    rcases List.mem_append.1 hpart with hpart | hpart
    · exact hbody.settled hΓ part hpart
    · exact h.settled (hbody.wellFormed hΓ) part hpart
  | .count hl hu hbody => by
    intro part hpart
    rcases List.mem_append.1 hpart with hpart | hpart
    · rcases List.mem_append.1 hpart with hpart | hpart
      · exact hl.settled hΓ part hpart
      · exact hu.settled hΓ part hpart
    · exact hbody.settled (hΓ.counter _) part hpart
  | .expr h => h.settled hΓ

theorem ChecksAll.settled {Γ Δ : Context} (hΓ : WellFormed Γ) {body : List Tree.Stmt}
    {body' : List Stmt} : ChecksAll Γ body body' Δ → ∀ part ∈ Stmt.allExprs body', part.Settled
  | .nil => by simp [Stmt.allExprs]
  | .cons h hrest => by
    intro part hpart
    rcases List.mem_append.1 hpart with hpart | hpart
    · exact h.settled hΓ part hpart
    · exact hrest.settled (h.wellFormed hΓ) part hpart

end

mutual

/-- The typed statement of a derivation is well typed. -/
theorem Checks.wellTyped {Γ Δ : Context} (hΓ : WellFormed Γ) {s : Tree.Stmt} {s' : Stmt} :
    Checks Γ s s' Δ → s'.WellTyped
  | .block h => .block (h.wellTyped hΓ.push)
  | .declare h ht _ => .declare ((h.named_or_void hΓ).resolve_right ht) h.ty_eq (h.wellTyped hΓ)
  | .ifThen h hyes => .ifThen h.ty_eq (h.wellTyped hΓ) (hyes.wellTyped hΓ)
  | .ifElse h hyes hno =>
    .ifElse h.ty_eq (h.wellTyped hΓ) (hyes.wellTyped hΓ) (hno.wellTyped (hyes.wellFormed hΓ))
  | .whileDo h hbody => .whileDo h.ty_eq (h.wellTyped hΓ) (hbody.wellTyped hΓ)
  | .doWhile hbody h =>
    .doWhile (hbody.wellTyped hΓ) h.ty_eq (h.wellTyped (hbody.wellFormed hΓ))
  | .count hl hu hbody =>
    .count rfl hl.ty_eq hu.ty_eq (hl.wellTyped hΓ) (hu.wellTyped hΓ)
      (hbody.wellTyped (hΓ.counter _))
  | .expr h => .expr (h.wellTyped hΓ)

theorem ChecksAll.wellTyped {Γ Δ : Context} (hΓ : WellFormed Γ) {body : List Tree.Stmt}
    {body' : List Stmt} : ChecksAll Γ body body' Δ → ∀ s ∈ body', s.WellTyped
  | .nil => by simp
  | .cons h hrest => by
    intro s hs
    rcases List.mem_cons.1 hs with rfl | hs
    · exact h.wellTyped hΓ
    · exact hrest.wellTyped (h.wellFormed hΓ) s hs

end

end Typing

end SnippetLang
