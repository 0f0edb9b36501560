import SnippetLang.Proofs.Parsing.Printing

/-!
# The tokens that a tree was read from

`Spells` relates a tree to the tokens that it was read from, places included.  It is a relation and
not a function of the tree for two reasons.  A tree keeps no place for some of its tokens, such as
the comma between two arguments.  And a comma behind the last argument of a call leaves nothing in
the tree at all; no other token does so.  An error node stands for the one invalid token at its
place.

Whether a tree groups as the precedences tell is a matter of the tree alone, which is why `Grouped`
does not mention tokens.
-/

namespace SnippetLang.Tree

/-- The token that a name was read from. -/
def Ident.token (ident : Ident) : Token := ⟨.ident ident.name, ident.span⟩

/-! ### Expressions -/

mutual

/-- The tokens are those of the expression, from left to right. -/
inductive Expr.Spells : Expr → List Token → Prop where
  | error (span : Span) : Spells (.error span) [⟨.invalid, span⟩]
  | int (span : Span) (n : Int32) : Spells (.int span n) [⟨.int n, span⟩]
  | bool (span : Span) (b : Bool) :
    Spells (.bool span b) [⟨.word (if b then .trueWord else .falseWord), span⟩]
  | string (span : Span) (s : String) : Spells (.string span s) [⟨.string s, span⟩]
  | name (ident : Ident) : Spells (.name ident) [ident.token]
  | assign (target : Ident) (eq : Span) {value : Expr} {ts : List Token} :
    Spells value ts → Spells (.assign target value) (target.token :: ⟨.mark .eq, eq⟩ :: ts)
  | unary (op : UnaryOp) (opSpan : Span) {operand : Expr} {ts : List Token} :
    Spells operand ts → Spells (.unary op opSpan operand) (⟨.mark op.mark, opSpan⟩ :: ts)
  | binary (op : BinaryOp) (opSpan : Span) {left right : Expr} {ls rs : List Token} :
    Spells left ls → Spells right rs →
      Spells (.binary left op opSpan right) (ls ++ ⟨.mark op.mark, opSpan⟩ :: rs)
  | paren (opening closing : Span) {inner : Expr} {ts : List Token} :
    Spells inner ts → Spells (.paren opening inner closing)
      (⟨.mark .leftParen, opening⟩ :: (ts ++ [⟨.mark .rightParen, closing⟩]))
  | call (callee : Ident) (opening closing : Span) {args : List Expr} {ts : List Token} :
    SpellArguments args ts → Spells (.call callee args closing)
      (callee.token :: ⟨.mark .leftParen, opening⟩ :: (ts ++ [⟨.mark .rightParen, closing⟩]))

/-- The tokens are those of the arguments of a call and of the commas between them; one comma may
    stand behind the last argument. -/
inductive Expr.SpellArguments : List Expr → List Token → Prop where
  | none : SpellArguments [] []
  | last {e : Expr} {ts : List Token} : Spells e ts → SpellArguments [e] ts
  | lastComma (comma : Span) {e : Expr} {ts : List Token} :
    Spells e ts → SpellArguments [e] (ts ++ [⟨.mark .comma, comma⟩])
  | cons (comma : Span) {e e' : Expr} {es : List Expr} {ts us : List Token} :
    Spells e ts → SpellArguments (e' :: es) us →
      SpellArguments (e :: e' :: es) (ts ++ ⟨.mark .comma, comma⟩ :: us)

end

theorem Expr.Spells.ne_nil {e : Expr} {ts : List Token} (h : e.Spells ts) : ts ≠ [] := by
  cases h <;> simp

/-- Arguments that were read behind an argument and a comma are read together with it. -/
theorem Expr.SpellArguments.prepend {e : Expr} {es : List Expr} {ts us : List Token} (comma : Span)
    (he : e.Spells ts) (hes : Expr.SpellArguments es us) :
    Expr.SpellArguments (e :: es) (ts ++ ⟨.mark .comma, comma⟩ :: us) := by
  cases es with
  | nil =>
    cases hes
    exact .lastComma comma he
  | cons e' es => exact .cons comma he hes

mutual

/-- An expression groups as its precedences tell: an operand that is not in parentheses is no
    assignment, on the left of an operator it binds at least as tight as the operator, on the right
    it binds tighter, and behind a unary operator it is not binary. -/
def Expr.Grouped : Expr → Prop
  | .error _ => True
  | .int _ _ => True
  | .bool _ _ => True
  | .string _ _ => True
  | .name _ => True
  | .assign _ value => value.Grouped
  | .unary _ _ operand => operand.Grouped ∧ ¬ operand.IsAssign ∧ operand.precedence? = none
  | .binary left op _ right =>
    left.Grouped ∧ ¬ left.IsAssign ∧ (∀ p ∈ left.precedence?, op.precedence ≤ p) ∧
      right.Grouped ∧ ¬ right.IsAssign ∧ ∀ p ∈ right.precedence?, op.precedence < p
  | .paren _ inner _ => inner.Grouped
  | .call _ args _ => Expr.AllGrouped args

/-- All of the expressions group as their precedences tell. -/
def Expr.AllGrouped : List Expr → Prop
  | [] => True
  | e :: es => e.Grouped ∧ Expr.AllGrouped es

end

/-! ### Statements -/

mutual

/-- The tokens are those of the statement, from left to right. -/
inductive Stmt.Spells : Stmt → List Token → Prop where
  | block (opening closing : Span) {body : List Stmt} {ts : List Token} :
    AllSpell body ts → Spells (.block opening body closing)
      (⟨.mark .leftBrace, opening⟩ :: (ts ++ [⟨.mark .rightBrace, closing⟩]))
  | declare (keyword : Span) (readOnly : Bool) (name : Ident) (eq : Span) {init : Expr}
      {ts : List Token} :
    init.Spells ts → Spells (.declare keyword readOnly name init)
      (⟨.word (if readOnly then .letWord else .varWord), keyword⟩ :: name.token ::
        ⟨.mark .eq, eq⟩ :: ts)
  | ifThen (keyword : Span) {condition : Expr} {yes : Stmt} {cs ys : List Token} :
    condition.Spells cs → Spells yes ys → Spells (.ifThen keyword condition yes)
      (⟨.word .ifWord, keyword⟩ :: (cs ++ ys))
  | ifElse (keyword alternative : Span) {condition : Expr} {yes no : Stmt}
      {cs ys ns : List Token} :
    condition.Spells cs → Spells yes ys → Spells no ns →
      Spells (.ifElse keyword condition yes no)
        (⟨.word .ifWord, keyword⟩ :: (cs ++ (ys ++ ⟨.word .elseWord, alternative⟩ :: ns)))
  | whileDo (keyword : Span) {condition : Expr} {body : Stmt} {cs bs : List Token} :
    condition.Spells cs → Spells body bs → Spells (.whileDo keyword condition body)
      (⟨.word .whileWord, keyword⟩ :: (cs ++ bs))
  | doWhile (keyword test : Span) {body : Stmt} {condition : Expr} {bs cs : List Token} :
    Spells body bs → condition.Spells cs → Spells (.doWhile keyword body condition)
      (⟨.word .doWord, keyword⟩ :: (bs ++ ⟨.word .whileWord, test⟩ :: cs))
  | count (keyword : Span) (name : Ident) (eq upto : Span) {lower upper : Expr} {body : Stmt}
      {ls us bs : List Token} :
    lower.Spells ls → upper.Spells us → Spells body bs →
      Spells (.count keyword name lower upper body)
        (⟨.word .forWord, keyword⟩ :: name.token :: ⟨.mark .eq, eq⟩ ::
          (ls ++ ⟨.word .toWord, upto⟩ :: (us ++ bs)))
  | expr {e : Expr} {ts : List Token} : e.Spells ts → Spells (.expr e) ts

/-- The tokens are those of the statements one after the other. -/
inductive Stmt.AllSpell : List Stmt → List Token → Prop where
  | nil : AllSpell [] []
  | cons {s : Stmt} {rest : List Stmt} {ts us : List Token} :
    Spells s ts → AllSpell rest us → AllSpell (s :: rest) (ts ++ us)

end

theorem Stmt.Spells.ne_nil {s : Stmt} {ts : List Token} (h : s.Spells ts) : ts ≠ [] := by
  cases h with
  | expr he => exact he.ne_nil
  | _ => exact List.cons_ne_nil _ _

mutual

/-- The expressions of a statement group as their precedences tell. -/
def Stmt.Grouped : Stmt → Prop
  | .block _ body _ => Stmt.AllGrouped body
  | .declare _ _ _ init => init.Grouped
  | .ifThen _ condition yes => condition.Grouped ∧ yes.Grouped
  | .ifElse _ condition yes no => condition.Grouped ∧ yes.Grouped ∧ no.Grouped
  | .whileDo _ condition body => condition.Grouped ∧ body.Grouped
  | .doWhile _ body condition => body.Grouped ∧ condition.Grouped
  | .count _ _ lower upper body => lower.Grouped ∧ upper.Grouped ∧ body.Grouped
  | .expr e => e.Grouped

/-- The expressions of all the statements group as their precedences tell. -/
def Stmt.AllGrouped : List Stmt → Prop
  | [] => True
  | s :: rest => s.Grouped ∧ Stmt.AllGrouped rest

end

end SnippetLang.Tree
