import SnippetLang.Tree

/-!
# Nodes and their spans

Statements, expressions, names and single tokens of a surface tree taken together as its nodes, so
that it can be said of all of them at once where they are.  The spans of a tree are nested if every
node is within the node around it, as far down as the tree goes.
-/

namespace SnippetLang

namespace Span

/-- The ends of a span are in order. -/
def Valid (s : Span) : Prop := s.start ≤ s.stop

/-- A span does not go beyond another one on either side. -/
structure Within (s t : Span) : Prop where
  start : t.start ≤ s.start
  stop : s.stop ≤ t.stop

theorem Within.refl (s : Span) : s.Within s := ⟨Nat.le_refl _, Nat.le_refl _⟩

theorem Within.trans {s t u : Span} (h : s.Within t) (h' : t.Within u) : s.Within u :=
  ⟨Nat.le_trans h'.start h.start, Nat.le_trans h.stop h'.stop⟩

/-- Of two spans in order, the first one has the start of both and the second one the end. -/
theorem merge_of_le {s t : Span} (hstart : s.start ≤ t.start) (hstop : s.stop ≤ t.stop) :
    s.merge t = ⟨s.start, t.stop⟩ := by
  simp only [merge, Nat.min_eq_left hstart, Nat.max_eq_right hstop]

end Span

namespace Tree

/-- A part of a surface tree that has a place in the source. -/
inductive Node where
  | stmt (s : Stmt)
  | expr (e : Expr)
  | ident (i : Ident)
  | token (span : Span)    -- an operator, a keyword or a delimiter, of which the tree has the place

/-- The nodes that an expression is made of, in their order in the source. -/
@[simp]
def Expr.children : Expr → List Node
  | .error _ => []
  | .int _ _ => []
  | .bool _ _ => []
  | .string _ _ => []
  | .name ident => [.ident ident]
  | .assign target value => [.ident target, .expr value]
  | .unary _ opSpan operand => [.token opSpan, .expr operand]
  | .binary left _ opSpan right => [.expr left, .token opSpan, .expr right]
  | .paren opening inner closing => [.token opening, .expr inner, .token closing]
  | .call callee args closing => .ident callee :: (args.map .expr ++ [.token closing])

/-- The nodes that a statement is made of, in their order in the source. -/
@[simp]
def Stmt.children : Stmt → List Node
  | .block opening body closing => .token opening :: (body.map .stmt ++ [.token closing])
  | .declare keyword _ name init => [.token keyword, .ident name, .expr init]
  | .ifThen keyword condition yes => [.token keyword, .expr condition, .stmt yes]
  | .ifElse keyword condition yes no => [.token keyword, .expr condition, .stmt yes, .stmt no]
  | .whileDo keyword condition body => [.token keyword, .expr condition, .stmt body]
  | .doWhile keyword body condition => [.token keyword, .stmt body, .expr condition]
  | .count keyword name lower upper body =>
    [.token keyword, .ident name, .expr lower, .expr upper, .stmt body]
  | .expr e => [.expr e]

/-- Statements stand in the order in which they begin. -/
def InOrder (statements : List Stmt) : Prop :=
  statements.Pairwise fun s t => s.span.start ≤ t.span.start

namespace Node

/-- Where a node is. -/
def span : Node → Span
  | stmt s => s.span
  | expr e => e.span
  | ident i => i.span
  | token span => span

/-- The nodes directly inside a node. -/
def children : Node → List Node
  | stmt s => s.children
  | expr e => e.children
  | ident _ => []
  | token _ => []

@[simp] theorem children_stmt (s : Stmt) : (stmt s).children = s.children := rfl

@[simp] theorem children_expr (e : Expr) : (expr e).children = e.children := rfl

/-- The statements that a node lists. -/
def listed : Node → List Stmt
  | stmt (.block _ body _) => body
  | _ => []

/-- A node is another one, or inside it at some depth. -/
inductive Has : Node → Node → Prop where
  | self (n : Node) : Has n n
  | child {n c m : Node} : c ∈ n.children → Has c m → Has n m

/-- The spans of a node and of all nodes inside it are valid and nested. -/
inductive Nested : Node → Prop where
  | mk {n : Node} : n.span.Valid → (∀ c ∈ n.children, c.span.Within n.span) → InOrder n.listed →
      (∀ c ∈ n.children, Nested c) → Nested n

namespace Nested

variable {n m : Node}

theorem valid (h : n.Nested) : n.span.Valid := by
  cases h with
  | mk hvalid => exact hvalid

theorem children (h : n.Nested) : ∀ c ∈ n.children, c.span.Within n.span := by
  cases h with
  | mk _ hchildren => exact hchildren

theorem inOrder (h : n.Nested) : InOrder n.listed := by
  cases h with
  | mk _ _ hlisted => exact hlisted

theorem child (h : n.Nested) {c : Node} (hc : c ∈ n.children) : c.Nested := by
  cases h with
  | mk _ _ _ hnested => exact hnested c hc

/-- What is inside a nested node is nested, and within it. -/
theorem has (h : n.Nested) (hm : n.Has m) : m.Nested ∧ m.span.Within n.span := by
  induction hm with
  | self n => exact ⟨h, .refl _⟩
  | child hc _ ih =>
    rcases ih (h.child hc) with ⟨hnested, hwithin⟩
    exact ⟨hnested, hwithin.trans (h.children _ hc)⟩

/-- A node without others inside it is nested if its own span is valid. -/
theorem leaf (hvalid : n.span.Valid) (hchildren : n.children = []) (hlisted : n.listed = []) :
    n.Nested := by
  constructor
  · exact hvalid
  · simp [hchildren]
  · rw [hlisted]
    exact List.Pairwise.nil
  · simp [hchildren]

end Nested

end Node

/-- A node stands somewhere in the tree of a snippet. -/
def Root.Has (root : Root) (n : Node) : Prop := ∃ s ∈ root.statements, (Node.stmt s).Has n

/-- The spans of a tree are nested within the source of its snippet. -/
structure Root.Nested (root : Root) (length : Nat) : Prop where
  valid : root.span.Valid
  fits : root.span.stop ≤ length
  /-- Every node is within the tree. -/
  nodes : ∀ n, root.Has n → n.span.Valid ∧ n.span.Within root.span
  /-- Every node is within the one around it. -/
  children : ∀ n, root.Has n → ∀ c ∈ n.children, c.span.Within n.span
  /-- No statement begins before one that stands before it in the same list. -/
  inOrder : InOrder root.statements
  listed : ∀ n, root.Has n → InOrder n.listed

end Tree

end SnippetLang
