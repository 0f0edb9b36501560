import SnippetLang.Proofs.Parsing.Gaps

/-!
# Writing trees down

A tree is written down as a sequence of kinds of tokens, from left to right.  Nothing is put in that
the tree does not have: parentheses stand where it has a node for them, and between two statements
stands nothing at all.  So not every tree can be read back.  A tree is canonical if precedences,
parentheses and the ends of its statements are such that the parser has no other choice.
-/

namespace SnippetLang

/-- The mark that the operator is written as. -/
def UnaryOp.mark : UnaryOp → Mark
  | plus => .plus
  | minus => .minus
  | bang => .bang
  | tilde => .tilde

/-- The mark that the operator is written as. -/
def BinaryOp.mark : BinaryOp → Mark
  | plus => .plus
  | minus => .minus
  | star => .star
  | slash => .slash
  | amp => .amp
  | ampAmp => .ampAmp
  | pipe => .pipe
  | pipePipe => .pipePipe
  | caret => .caret
  | eqEq => .eqEq
  | notEq => .notEq
  | lt => .lt
  | ltEq => .ltEq
  | gt => .gt
  | gtEq => .gtEq

theorem unary?_mark (op : UnaryOp) : op.mark.unary? = some op := by
  cases op <;> rfl

theorem binary?_mark (op : BinaryOp) : op.mark.binary? = some op := by
  cases op <;> rfl

theorem BinaryOp.mark_ne (op : BinaryOp) : op.mark ≠ .leftParen ∧ op.mark ≠ .eq := by
  cases op <;> decide

namespace Tree

/-! ### Kinds of tokens -/

mutual

/-- The kinds of the tokens that an expression is written with. -/
def Expr.kinds : Expr → List TokenKind
  | .error _ => []
  | .int _ n => [.int n]
  | .bool _ b => [.word (if b then .trueWord else .falseWord)]
  | .string _ s => [.string s]
  | .name ident => [.ident ident.name]
  | .assign target value => .ident target.name :: .mark .eq :: value.kinds
  | .unary op _ operand => .mark op.mark :: operand.kinds
  | .binary left op _ right => left.kinds ++ .mark op.mark :: right.kinds
  | .paren _ inner _ => .mark .leftParen :: (inner.kinds ++ [.mark .rightParen])
  | .call callee args _ =>
    .ident callee.name :: .mark .leftParen :: (Expr.allKinds args ++ [.mark .rightParen])

/-- The kinds of the tokens of expressions with commas between them. -/
def Expr.allKinds : List Expr → List TokenKind
  | [] => []
  | [e] => e.kinds
  | e :: e' :: es => e.kinds ++ .mark .comma :: Expr.allKinds (e' :: es)

end

mutual

/-- The kinds of the tokens that a statement is written with. -/
def Stmt.kinds : Stmt → List TokenKind
  | .block _ body _ => .mark .leftBrace :: (Stmt.allKinds body ++ [.mark .rightBrace])
  | .declare _ readOnly name init =>
    .word (if readOnly then .letWord else .varWord) :: .ident name.name :: .mark .eq :: init.kinds
  | .ifThen _ condition yes => .word .ifWord :: (condition.kinds ++ yes.kinds)
  | .ifElse _ condition yes no =>
    .word .ifWord :: (condition.kinds ++ (yes.kinds ++ .word .elseWord :: no.kinds))
  | .whileDo _ condition body => .word .whileWord :: (condition.kinds ++ body.kinds)
  | .doWhile _ body condition =>
    .word .doWord :: (body.kinds ++ .word .whileWord :: condition.kinds)
  | .count _ name lower upper body =>
    .word .forWord :: .ident name.name :: .mark .eq ::
      (lower.kinds ++ .word .toWord :: (upper.kinds ++ body.kinds))
  | .expr e => e.kinds

/-- The kinds of the tokens of statements one after the other. -/
def Stmt.allKinds : List Stmt → List TokenKind
  | [] => []
  | s :: rest => s.kinds ++ Stmt.allKinds rest

end

/-- The kinds of the tokens of a whole snippet, the end of the file included. -/
def Root.kinds (root : Root) : List TokenKind := Stmt.allKinds root.statements ++ [.endOfFile]

/-! ### Trees without places -/

/-- The span that stands for all spans where places do not count. -/
def nowhere : Span := Span.point 0

/-- A name without its place. -/
def Ident.bare (ident : Ident) : Ident := ⟨ident.name, nowhere⟩

mutual

/-- An expression without its places. -/
def Expr.bare : Expr → Expr
  | .error _ => .error nowhere
  | .int _ n => .int nowhere n
  | .bool _ b => .bool nowhere b
  | .string _ s => .string nowhere s
  | .name ident => .name ident.bare
  | .assign target value => .assign target.bare value.bare
  | .unary op _ operand => .unary op nowhere operand.bare
  | .binary left op _ right => .binary left.bare op nowhere right.bare
  | .paren _ inner _ => .paren nowhere inner.bare nowhere
  | .call callee args _ => .call callee.bare (Expr.allBare args) nowhere

/-- Expressions without their places. -/
def Expr.allBare : List Expr → List Expr
  | [] => []
  | e :: es => e.bare :: Expr.allBare es

end

mutual

/-- A statement without its places. -/
def Stmt.bare : Stmt → Stmt
  | .block _ body _ => .block nowhere (Stmt.allBare body) nowhere
  | .declare _ readOnly name init => .declare nowhere readOnly name.bare init.bare
  | .ifThen _ condition yes => .ifThen nowhere condition.bare yes.bare
  | .ifElse _ condition yes no => .ifElse nowhere condition.bare yes.bare no.bare
  | .whileDo _ condition body => .whileDo nowhere condition.bare body.bare
  | .doWhile _ body condition => .doWhile nowhere body.bare condition.bare
  | .count _ name lower upper body =>
    .count nowhere name.bare lower.bare upper.bare body.bare
  | .expr e => .expr e.bare

/-- Statements without their places. -/
def Stmt.allBare : List Stmt → List Stmt
  | [] => []
  | s :: rest => s.bare :: Stmt.allBare rest

end

/-- A whole snippet without its places. -/
def Root.bare (root : Root) : Root := ⟨Stmt.allBare root.statements, nowhere⟩

/-! ### Canonical trees -/

/-- The precedence of a binary expression without parentheses around it. -/
def Expr.precedence? : Expr → Option Nat
  | .binary _ op _ _ => some op.precedence
  | _ => none

/-- An assignment without parentheses around it. -/
def Expr.IsAssign : Expr → Prop
  | .assign _ _ => True
  | _ => False

mutual

/-- Nothing is missing from an expression, and it groups as its precedences tell: an operand that is
    not in parentheses is no assignment, on the left of an operator it binds at least as tight as the
    operator, on the right it binds tighter, and behind a unary operator it is not binary. -/
def Expr.Canonical : Expr → Prop
  | .error _ => False
  | .int _ _ => True
  | .bool _ _ => True
  | .string _ _ => True
  | .name ident => ident.name ≠ ""
  | .assign target value => target.name ≠ "" ∧ value.Canonical
  | .unary _ _ operand => operand.Canonical ∧ ¬ operand.IsAssign ∧ operand.precedence? = none
  | .binary left op _ right =>
    left.Canonical ∧ ¬ left.IsAssign ∧ (∀ p ∈ left.precedence?, op.precedence ≤ p) ∧
      right.Canonical ∧ ¬ right.IsAssign ∧ ∀ p ∈ right.precedence?, op.precedence < p
  | .paren _ inner _ => inner.Canonical
  | .call callee args _ => callee.name ≠ "" ∧ Expr.AllCanonical args

/-- All of the expressions are canonical. -/
def Expr.AllCanonical : List Expr → Prop
  | [] => True
  | e :: es => e.Canonical ∧ Expr.AllCanonical es

end

/-- The last thing in a statement is an expression. -/
def Stmt.EndsInExpr : Stmt → Prop
  | .block _ _ _ => False
  | .declare _ _ _ _ => True
  | .ifThen _ _ yes => yes.EndsInExpr
  | .ifElse _ _ _ no => no.EndsInExpr
  | .whileDo _ _ body => body.EndsInExpr
  | .doWhile _ _ _ => True
  | .count _ _ _ _ body => body.EndsInExpr
  | .expr _ => True

/-- The last thing in a statement is a conditional that could still get an alternative. -/
def Stmt.EndsOpen : Stmt → Prop
  | .ifThen _ _ _ => True
  | .ifElse _ _ _ no => no.EndsOpen
  | .whileDo _ _ body => body.EndsOpen
  | .count _ _ _ _ body => body.EndsOpen
  | _ => False

/-- A token that goes on with an expression if it stands behind one, although a statement can begin
    with it. -/
def joining : TokenKind → Bool
  | .mark .plus | .mark .minus | .mark .leftParen => true
  | _ => false

/-- The statement does not go on with an expression that it stands behind. -/
def Stmt.Detached (s : Stmt) : Prop := ∀ k ∈ s.kinds.head?, joining k = false

mutual

/-- The expressions of a statement are canonical, what stands behind one of them does not go on with
    it, and no alternative of a conditional goes to another one inside its first branch. -/
def Stmt.Canonical : Stmt → Prop
  | .block _ body _ => Stmt.AllCanonical body
  | .declare _ _ name init => name.name ≠ "" ∧ init.Canonical
  | .ifThen _ condition yes => condition.Canonical ∧ yes.Canonical ∧ yes.Detached
  | .ifElse _ condition yes no =>
    condition.Canonical ∧ yes.Canonical ∧ yes.Detached ∧ ¬ yes.EndsOpen ∧ no.Canonical
  | .whileDo _ condition body => condition.Canonical ∧ body.Canonical ∧ body.Detached
  | .doWhile _ body condition => body.Canonical ∧ condition.Canonical
  | .count _ name lower upper body =>
    name.name ≠ "" ∧ lower.Canonical ∧ upper.Canonical ∧ body.Canonical ∧ body.Detached
  | .expr e => e.Canonical

/-- The statements are canonical, and none of them goes on with an expression that the one before it
    ends in. -/
def Stmt.AllCanonical : List Stmt → Prop
  | [] => True
  | s :: rest =>
    s.Canonical ∧ (s.EndsInExpr → ∀ t ∈ rest.head?, t.Detached) ∧ Stmt.AllCanonical rest

end

/-! ### First tokens -/

/-- The kinds of tokens that an expression can begin with. -/
def beginsExpr : TokenKind → Bool
  | .int _ | .string _ | .ident _ | .word .trueWord | .word .falseWord | .mark .leftParen => true
  | .mark m => m.unary?.isSome
  | _ => false

/-- The kinds of tokens that a statement can begin with. -/
def beginsStmt : TokenKind → Bool
  | .mark .leftBrace => true
  | .word .varWord | .word .letWord | .word .ifWord | .word .whileWord | .word .doWord
  | .word .forWord => true
  | k => beginsExpr k

theorem exists_kinds_expr : (e : Expr) → e.Canonical →
    ∃ k ks, e.kinds = k :: ks ∧ beginsExpr k = true
  | .error _, h => h.elim
  | .int _ n, _ => ⟨_, _, rfl, rfl⟩
  | .bool _ b, _ => ⟨_, _, rfl, by cases b <;> rfl⟩
  | .string _ s, _ => ⟨_, _, rfl, rfl⟩
  | .name ident, _ => ⟨_, _, rfl, rfl⟩
  | .assign target value, _ => ⟨_, _, rfl, rfl⟩
  | .unary op _ operand, _ => ⟨_, _, rfl, by cases op <;> rfl⟩
  | .binary left op _ right, h => by
    obtain ⟨k, ks, hkinds, hk⟩ := exists_kinds_expr left h.1
    refine ⟨k, ks ++ .mark op.mark :: right.kinds, ?_, hk⟩
    rw [Expr.kinds, hkinds]
    rfl
  | .paren _ inner _, _ => ⟨_, _, rfl, rfl⟩
  | .call callee args _, _ => ⟨_, _, rfl, rfl⟩

theorem beginsStmt_of_beginsExpr {k : TokenKind} (h : beginsExpr k = true) :
    beginsStmt k = true := by
  unfold beginsStmt
  split
  · rfl
  all_goals first | rfl | exact h

theorem exists_kinds_stmt (s : Stmt) (h : s.Canonical) :
    ∃ k ks, s.kinds = k :: ks ∧ beginsStmt k = true := by
  cases s with
  | declare _ readOnly name init => exact ⟨_, _, rfl, by cases readOnly <;> rfl⟩
  | expr e =>
    obtain ⟨k, ks, hkinds, hk⟩ := exists_kinds_expr e h
    rw [Stmt.kinds]
    exact ⟨k, ks, hkinds, beginsStmt_of_beginsExpr hk⟩
  | _ => exact ⟨_, _, rfl, rfl⟩

end Tree

end SnippetLang
