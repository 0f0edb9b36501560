import Mathlib.Order.Filter.AtTopBot.Basic
import SnippetLang.Proofs.Parsing.Lossless

/-!
# Runs of the parser

The functions of the parser take a bound on the depth of their recursion.  `Reads` is recursive
descent without one: a derivation of it is a run that came to its end, however deep it went, with
everything that it did to its reader on the way.  The functions answer what a run answers as soon as
their bound is large enough, and in a closed sequence there always is a run.
-/

namespace SnippetLang

open SnippetLang.Tree
open Filter (atTop map_add_atTop_eq_nat)

/-! ### Moves -/

namespace Reader

/-- What the parser does to its reader. -/
inductive Move where
  | pass                            -- goes past the token, which belongs to what is read
  | miss (expected : TokenClass)    -- reports the token, where another one is expected
  | skip                            -- goes past the token behind a statement that passed none

/-- The reader after a move. -/
def move (r : Reader) : Move → Reader
  | .pass => r.advance
  | .miss expected => r.unexpected expected
  | .skip => r.advance

/-- The reader after some moves. -/
def after (r : Reader) (moves : List Move) : Reader := moves.foldl move r

/-- What asking for a token comes to. -/
def expectMove (r : Reader) (expected : TokenClass) : Move :=
  if r.check expected then .pass else .miss expected

/-- What asking for a name comes to. -/
def identMove (r : Reader) : Move :=
  match r.kind with
  | .ident _ => .pass
  | _ => .miss .ident

@[simp] theorem after_nil (r : Reader) : r.after [] = r := rfl

@[simp] theorem after_cons (r : Reader) (m : Move) (moves : List Move) :
    r.after (m :: moves) = (r.move m).after moves := rfl

@[simp] theorem after_append (r : Reader) (front back : List Move) :
    r.after (front ++ back) = (r.after front).after back := List.foldl_append ..

@[simp] theorem move_pass (r : Reader) : r.move .pass = r.advance := rfl

@[simp] theorem move_miss (r : Reader) (expected : TokenClass) :
    r.move (.miss expected) = r.unexpected expected := rfl

@[simp] theorem move_skip (r : Reader) : r.move .skip = r.advance := rfl

@[simp] theorem move_expectMove (r : Reader) (expected : TokenClass) :
    r.move (r.expectMove expected) = (r.expect expected).2 := by
  unfold expectMove expect
  split <;> rfl

@[simp] theorem move_identMove (r : Reader) : r.move r.identMove = r.ident.2 := by
  cases hkind : r.kind <;> simp [identMove, ident, hkind]

theorem reaches_move (r : Reader) (m : Move) : r.Reaches (r.move m) := by
  cases m with
  | pass => exact r.reaches_advance
  | miss expected => exact r.reaches_unexpected expected
  | skip => exact r.reaches_advance

theorem reaches_after (r : Reader) (moves : List Move) : r.Reaches (r.after moves) := by
  induction moves generalizing r with
  | nil => exact .refl r
  | cons m moves ih => exact (r.reaches_move m).trans (ih _)

end Reader

namespace Parser

open Reader

/-! ### Productions -/

/-- What can be read. -/
inductive Category where
  | expr
  | exprs
  | stmt
  | stmts

/-- The trees of a category. -/
abbrev Category.Tree : Category → Type
  | expr => Expr
  | exprs => List Expr
  | stmt => Stmt
  | stmts => List Stmt

/-- The functions of the parser, with what they are given besides a bound and a reader. -/
inductive Production : Category → Type where
  | expression : Production .expr
  | binary (outer : Nat) : Production .expr
  | climb (outer : Nat) (left : Expr) : Production .expr
  | primary : Production .expr
  | arguments : Production .exprs
  | statement : Production .stmt
  | statements (inBlock : Bool) : Production .stmts

/-- What a function of the parser answers. -/
def Production.read {c : Category} : Production c → Nat → Reader → c.Tree × Reader
  | .expression, bound, r => Parser.expression bound r
  | .binary outer, bound, r => Parser.binary bound outer r
  | .climb outer left, bound, r => Parser.climb bound outer left r
  | .primary, bound, r => Parser.primary bound r
  | .arguments, bound, r => Parser.arguments bound r
  | .statement, bound, r => Parser.statement bound r
  | .statements inBlock, bound, r => Parser.statements bound inBlock r

/-- Whether an operand can begin with a token. -/
def beginsOperand : TokenKind → Bool
  | .mark .leftParen | .word .trueWord | .word .falseWord | .int _ | .string _ | .ident _
  | .invalid => true
  | _ => false

theorem beginsOperand_eq_false {k : TokenKind} (hparen : k ≠ .mark .leftParen)
    (htrue : k ≠ .word .trueWord) (hfalse : k ≠ .word .falseWord) (hint : ∀ n, k ≠ .int n)
    (hstring : ∀ s, k ≠ .string s) (hident : ∀ name, k ≠ .ident name) (hinvalid : k ≠ .invalid) :
    beginsOperand k = false := by
  cases k with
  | mark m => cases m <;> first | rfl | exact absurd rfl hparen
  | word w => cases w <;> first | rfl | exact absurd rfl htrue | exact absurd rfl hfalse
  | int n => exact absurd rfl (hint n)
  | string s => exact absurd rfl (hstring s)
  | ident name => exact absurd rfl (hident name)
  | invalid => exact absurd rfl hinvalid
  | endOfFile => rfl

/-- Whether a token decides that a statement is not an expression. -/
def beginsStructure : TokenKind → Bool
  | .mark .leftBrace | .word .varWord | .word .letWord | .word .ifWord | .word .whileWord
  | .word .doWord | .word .forWord => true
  | _ => false

/-- Whether no argument of a call can follow. -/
def endsArguments (r : Reader) : Bool := r.cursor.atEnd || r.check (.mark .rightParen)

/-- Whether no statement of a list can follow. -/
def endsStatements (inBlock : Bool) (r : Reader) : Bool :=
  r.cursor.atEnd || (inBlock && r.check (.mark .rightBrace))

/-- A production reads a tree from where one reader is to where another one is, and these are the
    moves that it makes. -/
inductive Reads : {c : Category} → Production c → Reader → List Move → c.Tree → Reader → Prop where
  -- expressions
  | assignment {r after : Reader} {moves : List Move} {value : Expr} :
    atAssignment r = true → Reads .expression r.ident.2.advance moves value after →
      Reads .expression r (r.identMove :: .pass :: moves) (Expr.assign r.ident.1 value) after
  | operation {r after : Reader} {moves : List Move} {e : Expr} :
    atAssignment r = false → Reads (.binary 0) r moves e after → Reads .expression r moves e after
  | unary {outer : Nat} {r middle after : Reader} {front back : List Move} {op : UnaryOp}
      {operand e : Expr} :
    unaryOp? r.kind = some op →
      Reads (.binary UnaryOp.precedence) r.advance front operand middle →
      Reads (.climb outer (.unary op r.span operand)) middle back e after →
      Reads (.binary outer) r (.pass :: (front ++ back)) e after
  | operand {outer : Nat} {r middle after : Reader} {front back : List Move} {operand e : Expr} :
    unaryOp? r.kind = none → Reads .primary r front operand middle →
      Reads (.climb outer operand) middle back e after →
      Reads (.binary outer) r (front ++ back) e after
  | noOperator {outer : Nat} {left : Expr} {r : Reader} :
    binaryOp? r.kind = none → Reads (.climb outer left) r [] left r
  | weakOperator {outer : Nat} {left : Expr} {r : Reader} {op : BinaryOp} :
    binaryOp? r.kind = some op → op.precedence ≤ outer → Reads (.climb outer left) r [] left r
  | operator {outer : Nat} {left right e : Expr} {r middle after : Reader}
      {front back : List Move} {op : BinaryOp} :
    binaryOp? r.kind = some op → ¬ op.precedence ≤ outer →
      Reads (.binary op.precedence) r.advance front right middle →
      Reads (.climb outer (.binary left op r.span right)) middle back e after →
      Reads (.climb outer left) r (.pass :: (front ++ back)) e after
  | paren {r middle : Reader} {moves : List Move} {inner : Expr} :
    r.kind = .mark .leftParen → Reads .expression r.advance moves inner middle →
      Reads .primary r (.pass :: (moves ++ [middle.expectMove (.mark .rightParen)]))
        (Expr.paren r.span inner middle.span) (middle.expect (.mark .rightParen)).2
  | trueWord {r : Reader} :
    r.kind = .word .trueWord → Reads .primary r [.pass] (Expr.bool r.span true) r.advance
  | falseWord {r : Reader} :
    r.kind = .word .falseWord → Reads .primary r [.pass] (Expr.bool r.span false) r.advance
  | int {r : Reader} {n : Int32} :
    r.kind = .int n → Reads .primary r [.pass] (Expr.int r.span n) r.advance
  | string {r : Reader} {s : String} :
    r.kind = .string s → Reads .primary r [.pass] (Expr.string r.span s) r.advance
  | call {r middle : Reader} {moves : List Move} {name : String} {args : List Expr} :
    r.kind = .ident name → r.advance.check (.mark .leftParen) = true →
      Reads .arguments r.advance.advance moves args middle →
      Reads .primary r (.pass :: .pass :: (moves ++ [middle.expectMove (.mark .rightParen)]))
        (Expr.call ⟨name, r.span⟩ args middle.span) (middle.expect (.mark .rightParen)).2
  | name {r : Reader} {name : String} :
    r.kind = .ident name → r.advance.check (.mark .leftParen) = false →
      Reads .primary r [.pass] (Expr.name ⟨name, r.span⟩) r.advance
  | invalid {r : Reader} :
    r.kind = .invalid → Reads .primary r [.pass] (Expr.error r.span) r.advance
  | nothing {r : Reader} :
    beginsOperand r.kind = false →
      Reads .primary r [.miss .ident] (Expr.error r.span) (r.unexpected .ident)
  -- arguments
  | noArgument {r : Reader} : endsArguments r = true → Reads .arguments r [] [] r
  | argument {r middle after : Reader} {front back : List Move} {e : Expr} {es : List Expr} :
    endsArguments r = false → Reads .expression r front e middle →
      middle.check (.mark .comma) = true → Reads .arguments middle.advance back es after →
      Reads .arguments r (front ++ .pass :: back) (e :: es) after
  | lastArgument {r after : Reader} {moves : List Move} {e : Expr} :
    endsArguments r = false → Reads .expression r moves e after →
      after.check (.mark .comma) = false → Reads .arguments r moves [e] after
  -- statements
  | block {r middle : Reader} {moves : List Move} {body : List Stmt} :
    r.kind = .mark .leftBrace → Reads (.statements true) r.advance moves body middle →
      Reads .statement r (.pass :: (moves ++ [middle.expectMove (.mark .rightBrace)]))
        (Stmt.block r.span body middle.span) (middle.expect (.mark .rightBrace)).2
  | declare {r after : Reader} {moves : List Move} {readOnly : Bool} {init : Expr} :
    r.kind = .word (if readOnly then .letWord else .varWord) →
      Reads .expression (r.advance.ident.2.expect (.mark .eq)).2 moves init after →
      Reads .statement r
        (.pass :: r.advance.identMove :: r.advance.ident.2.expectMove (.mark .eq) :: moves)
        (Stmt.declare r.span readOnly r.advance.ident.1 init) after
  | ifThen {r middle after : Reader} {front back : List Move} {condition : Expr} {yes : Stmt} :
    r.kind = .word .ifWord → Reads .expression r.advance front condition middle →
      Reads .statement middle back yes after → after.check (.word .elseWord) = false →
      Reads .statement r (.pass :: (front ++ back)) (Stmt.ifThen r.span condition yes) after
  | ifElse {r middle last after : Reader} {front back rest : List Move} {condition : Expr}
      {yes no : Stmt} :
    r.kind = .word .ifWord → Reads .expression r.advance front condition middle →
      Reads .statement middle back yes last → last.check (.word .elseWord) = true →
      Reads .statement last.advance rest no after →
      Reads .statement r (.pass :: (front ++ (back ++ .pass :: rest)))
        (Stmt.ifElse r.span condition yes no) after
  | whileDo {r middle after : Reader} {front back : List Move} {condition : Expr} {body : Stmt} :
    r.kind = .word .whileWord → Reads .expression r.advance front condition middle →
      Reads .statement middle back body after →
      Reads .statement r (.pass :: (front ++ back)) (Stmt.whileDo r.span condition body) after
  | doWhile {r middle after : Reader} {front back : List Move} {body : Stmt} {condition : Expr} :
    r.kind = .word .doWord → Reads .statement r.advance front body middle →
      Reads .expression (middle.expect (.word .whileWord)).2 back condition after →
      Reads .statement r (.pass :: (front ++ middle.expectMove (.word .whileWord) :: back))
        (Stmt.doWhile r.span body condition) after
  | count {r middle last after : Reader} {front back rest : List Move} {lower upper : Expr}
      {body : Stmt} :
    r.kind = .word .forWord →
      Reads .expression (r.advance.ident.2.expect (.mark .eq)).2 front lower middle →
      Reads .expression (middle.expect (.word .toWord)).2 back upper last →
      Reads .statement last rest body after →
      Reads .statement r
        (.pass :: r.advance.identMove :: r.advance.ident.2.expectMove (.mark .eq) ::
          (front ++ middle.expectMove (.word .toWord) :: (back ++ rest)))
        (Stmt.count r.span r.advance.ident.1 lower upper body) after
  | expr {r after : Reader} {moves : List Move} {e : Expr} :
    beginsStructure r.kind = false → Reads .expression r moves e after →
      Reads .statement r moves (Stmt.expr e) after
  -- lists of statements
  | noStatement {inBlock : Bool} {r : Reader} :
    endsStatements inBlock r = true → Reads (.statements inBlock) r [] [] r
  | next {inBlock : Bool} {r middle after : Reader} {front back : List Move} {first : Stmt}
      {others : List Stmt} :
    endsStatements inBlock r = false → Reads .statement r front first middle →
      middle.cursor.position ≠ r.cursor.position →
      Reads (.statements inBlock) middle back others after →
      Reads (.statements inBlock) r (front ++ back) (first :: others) after
  | stuck {inBlock : Bool} {r middle after : Reader} {front back : List Move} {first : Stmt}
      {others : List Stmt} :
    endsStatements inBlock r = false → Reads .statement r front first middle →
      middle.cursor.position = r.cursor.position →
      Reads (.statements inBlock) middle.advance back others after →
      Reads (.statements inBlock) r (front ++ .skip :: back) (first :: others) after

variable {c : Category} {p : Production c} {r s : Reader} {moves : List Move} {a : c.Tree}

/-- The moves of a run lead from its first reader to its last one. -/
theorem Reads.after_eq (h : Reads p r moves a s) : r.after moves = s := by
  induction h with
  | _ => simp [*]

theorem Reads.reaches (h : Reads p r moves a s) : r.Reaches s := by
  rw [← h.after_eq]
  exact r.reaches_after moves

/-! ### What the functions answer -/

/-- A property that bounds have from some bound on, if their successors do. -/
theorem eventually_of_succ {q : Nat → Prop} (h : ∀ᶠ bound in atTop, q (bound + 1)) :
    ∀ᶠ bound in atTop, q bound := by
  rw [← map_add_atTop_eq_nat 1]
  exact h

/-- With any bound that is large enough, a function answers what a run of it reads. -/
theorem Reads.eventually_read (h : Reads p r moves a s) :
    ∀ᶠ bound in atTop, p.read bound r = (a, s) := by
  induction h with
  | assignment hassign _ ih =>
    refine eventually_of_succ (ih.mono fun bound hvalue => ?_)
    simp only [Production.read] at hvalue ⊢
    simp [expression, hassign, hvalue]
  | operation hassign _ ih =>
    refine eventually_of_succ (ih.mono fun bound he => ?_)
    simp only [Production.read] at he ⊢
    simp [expression, hassign, he]
  | unary hop _ _ hoperand he =>
    refine eventually_of_succ ((hoperand.and he).mono ?_)
    rintro bound ⟨hoperand, he⟩
    simp only [Production.read] at hoperand he ⊢
    simp [binary, hop, hoperand, he]
  | operand hop _ _ hoperand he =>
    refine eventually_of_succ ((hoperand.and he).mono ?_)
    rintro bound ⟨hoperand, he⟩
    simp only [Production.read] at hoperand he ⊢
    simp [binary, hop, hoperand, he]
  | noOperator hop =>
    refine eventually_of_succ (.of_forall fun bound => ?_)
    simp [Production.read, climb, hop]
  | weakOperator hop hle =>
    refine eventually_of_succ (.of_forall fun bound => ?_)
    simp [Production.read, climb, hop, hle]
  | operator hop hlt _ _ hright he =>
    refine eventually_of_succ ((hright.and he).mono ?_)
    rintro bound ⟨hright, he⟩
    simp only [Production.read] at hright he ⊢
    simp [climb, hop, hlt, hright, he]
  | paren hkind _ ih =>
    refine eventually_of_succ (ih.mono fun bound hinner => ?_)
    simp only [Production.read] at hinner ⊢
    simp [primary, hkind, hinner, expect]
  | trueWord hkind | falseWord hkind | int hkind | string hkind | invalid hkind =>
    refine eventually_of_succ (.of_forall fun bound => ?_)
    simp [Production.read, primary, hkind]
  | call hkind hparen _ ih =>
    refine eventually_of_succ (ih.mono fun bound hargs => ?_)
    simp only [Production.read] at hargs ⊢
    simp [primary, hkind, hparen, hargs, expect]
  | name hkind hparen =>
    refine eventually_of_succ (.of_forall fun bound => ?_)
    simp [Production.read, primary, hkind, hparen]
  | @nothing r hkind =>
    have hvalid : r.kind ≠ .invalid := by
      intro h
      rw [h] at hkind
      cases hkind
    refine eventually_of_succ (.of_forall fun bound => ?_)
    simp only [Production.read, primary]
    split
    case h_7 => rw [if_neg hvalid]
    all_goals
      rename_i h
      rw [h] at hkind
      cases hkind
  | noArgument hends =>
    refine eventually_of_succ (.of_forall fun bound => ?_)
    simp only [endsArguments] at hends
    simp [Production.read, arguments, hends]
  | argument hends _ hcomma _ he hes =>
    refine eventually_of_succ ((he.and hes).mono ?_)
    rintro bound ⟨he, hes⟩
    simp only [Production.read, endsArguments] at he hes hends ⊢
    simp [arguments, hends, he, hcomma, hes]
  | lastArgument hends _ hcomma ih =>
    refine eventually_of_succ (ih.mono fun bound he => ?_)
    simp only [Production.read, endsArguments] at he hends ⊢
    simp [arguments, hends, he, hcomma]
  | block hkind _ ih =>
    refine eventually_of_succ (ih.mono fun bound hbody => ?_)
    simp only [Production.read] at hbody ⊢
    simp [statement, hkind, hbody, expect]
  | @declare _ _ _ readOnly _ hkind _ ih =>
    refine eventually_of_succ (eventually_of_succ (ih.mono fun bound hinit => ?_))
    simp only [Production.read] at hinit ⊢
    cases readOnly <;> simp_all [statement, declaration]
  | ifThen hkind _ _ helse hcondition hyes =>
    refine eventually_of_succ ((hcondition.and hyes).mono ?_)
    rintro bound ⟨hcondition, hyes⟩
    simp only [Production.read] at hcondition hyes ⊢
    simp [statement, hkind, hcondition, hyes, helse]
  | ifElse hkind _ _ helse _ hcondition hyes hno =>
    refine eventually_of_succ ((hcondition.and (hyes.and hno)).mono ?_)
    rintro bound ⟨hcondition, hyes, hno⟩
    simp only [Production.read] at hcondition hyes hno ⊢
    simp [statement, hkind, hcondition, hyes, helse, hno]
  | whileDo hkind _ _ hcondition hbody =>
    refine eventually_of_succ ((hcondition.and hbody).mono ?_)
    rintro bound ⟨hcondition, hbody⟩
    simp only [Production.read] at hcondition hbody ⊢
    simp [statement, hkind, hcondition, hbody]
  | doWhile hkind _ _ hbody hcondition =>
    refine eventually_of_succ ((hbody.and hcondition).mono ?_)
    rintro bound ⟨hbody, hcondition⟩
    simp only [Production.read] at hbody hcondition ⊢
    simp [statement, hkind, hbody, hcondition]
  | count hkind _ _ _ hlower hupper hbody =>
    refine eventually_of_succ ((hlower.and (hupper.and hbody)).mono ?_)
    rintro bound ⟨hlower, hupper, hbody⟩
    simp only [Production.read] at hlower hupper hbody ⊢
    simp [statement, hkind, hlower, hupper, hbody]
  | expr hkind _ ih =>
    refine eventually_of_succ (ih.mono fun bound he => ?_)
    simp only [Production.read, statement] at he ⊢
    split <;> simp_all [beginsStructure]
  | noStatement hends =>
    refine eventually_of_succ (.of_forall fun bound => ?_)
    simp only [endsStatements] at hends
    simp [Production.read, statements, hends]
  | next hends _ hmoved _ hfirst hothers =>
    refine eventually_of_succ ((hfirst.and hothers).mono ?_)
    rintro bound ⟨hfirst, hothers⟩
    simp only [Production.read, endsStatements] at hfirst hothers hends ⊢
    simp [statements, hends, hfirst, hmoved, hothers]
  | stuck hends _ hstuck _ hfirst hothers =>
    refine eventually_of_succ ((hfirst.and hothers).mono ?_)
    rintro bound ⟨hfirst, hothers⟩
    simp only [Production.read, endsStatements] at hfirst hothers hends ⊢
    simp [statements, hends, hfirst, hstuck, hothers]

/-! ### There always is a run -/

/-- How deep the calls of a function nest, at most, before a token is passed. -/
def Production.depth {c : Category} : Production c → Nat
  | .expression => 3
  | .binary _ => 2
  | .climb _ _ => 1
  | .primary => 1
  | .arguments => 4
  | .statement => 4
  | .statements _ => 5

/-- What a function answers with this bound is what a run of it reads. -/
def Production.Runs {c : Category} (p : Production c) (bound : Nat) (r : Reader) : Prop :=
  ∃ moves, Reads p r moves (p.read bound r).1 (p.read bound r).2

/-- A bound is enough for everything that it should be enough for. -/
def Suffices (bound : Nat) : Prop :=
  ∀ ⦃c : Category⦄ (p : Production c) (r : Reader), Closed r.cursor.rest →
    8 * r.cursor.ahead.length + p.depth ≤ bound → p.Runs bound r

section

variable {bound : Nat} (hall : Suffices bound) {r : Reader} (hr : Closed r.cursor.rest)

include hall hr

theorem runs_expression (hbound : 8 * r.cursor.ahead.length + 2 ≤ bound) :
    Production.expression.Runs (bound + 1) r := by
  simp only [Production.Runs, Production.read]
  rw [expression]
  split
  · next hassign =>
    have hcheck := (Bool.and_eq_true_iff.1 hassign).1
    have hlength := length_advance_of_ne_nil
      (ahead_ne_nil_of_closed hr (kind_ne_of_check hcheck (by decide)))
    have := r.advance.reaches_advance.length_le
    obtain ⟨moves, hvalue⟩ := hall .expression r.ident.2.advance
      ((r.reaches_ident.trans (reaches_advance _)).closed hr)
      (by rw [ident_of_check hcheck, Production.depth]; omega)
    exact ⟨_, .assignment hassign hvalue⟩
  · next hassign =>
    obtain ⟨moves, he⟩ := hall (.binary 0) r hr (by rw [Production.depth]; omega)
    exact ⟨_, .operation (by simpa using hassign) he⟩

theorem runs_binary (outer : Nat) (hbound : 8 * r.cursor.ahead.length + 1 ≤ bound) :
    (Production.binary outer).Runs (bound + 1) r := by
  simp only [Production.Runs, Production.read]
  rw [binary]
  split
  · next op hop =>
    have hne : r.kind ≠ .endOfFile := fun heq => by simp [heq, unaryOp?] at hop
    have hlength := length_advance_of_ne_nil (ahead_ne_nil_of_closed hr hne)
    obtain ⟨front, hoperand⟩ := hall (.binary UnaryOp.precedence) r.advance
      (r.reaches_advance.closed hr) (by rw [Production.depth]; omega)
    have := hoperand.reaches.length_le
    obtain ⟨back, he⟩ := hall (.climb outer (.unary op r.span _)) _
      ((r.reaches_advance.trans hoperand.reaches).closed hr) (by rw [Production.depth]; omega)
    exact ⟨_, .unary hop hoperand he⟩
  · next hop =>
    obtain ⟨front, hoperand⟩ := hall .primary r hr (by rw [Production.depth]; omega)
    have := hoperand.reaches.length_le
    obtain ⟨back, he⟩ := hall (.climb outer (primary bound r).1) _ (hoperand.reaches.closed hr)
      (by rw [Production.depth]; omega)
    exact ⟨_, .operand hop hoperand he⟩

theorem runs_climb (outer : Nat) (left : Expr) (hbound : 8 * r.cursor.ahead.length ≤ bound) :
    (Production.climb outer left).Runs (bound + 1) r := by
  simp only [Production.Runs, Production.read]
  rw [climb]
  split
  · next op hop =>
    split
    · next hle => exact ⟨_, .weakOperator hop hle⟩
    · next hlt =>
      have hne : r.kind ≠ .endOfFile := fun heq => by simp [heq, binaryOp?] at hop
      have hlength := length_advance_of_ne_nil (ahead_ne_nil_of_closed hr hne)
      obtain ⟨front, hright⟩ := hall (.binary op.precedence) r.advance
        (r.reaches_advance.closed hr) (by rw [Production.depth]; omega)
      have := hright.reaches.length_le
      obtain ⟨back, he⟩ := hall (.climb outer (.binary left op r.span _)) _
        ((r.reaches_advance.trans hright.reaches).closed hr) (by rw [Production.depth]; omega)
      exact ⟨_, .operator hop hlt hright he⟩
  · next hop => exact ⟨_, .noOperator hop⟩

theorem runs_primary (hbound : 8 * r.cursor.ahead.length ≤ bound) :
    Production.primary.Runs (bound + 1) r := by
  have hpassed : r.kind ≠ .endOfFile → r.advance.cursor.ahead.length + 1 = r.cursor.ahead.length :=
    fun hne => length_advance_of_ne_nil (ahead_ne_nil_of_closed hr hne)
  simp only [Production.Runs, Production.read]
  rw [primary]
  split
  · next hkind =>
    have hlength := hpassed (by simp [hkind])
    obtain ⟨moves, hinner⟩ := hall .expression r.advance (r.reaches_advance.closed hr)
      (by rw [Production.depth]; omega)
    exact ⟨_, .paren hkind hinner⟩
  · next hkind => exact ⟨_, .trueWord hkind⟩
  · next hkind => exact ⟨_, .falseWord hkind⟩
  · next hkind => exact ⟨_, .int hkind⟩
  · next hkind => exact ⟨_, .string hkind⟩
  · next name hkind =>
    have hlength := hpassed (by simp [hkind])
    dsimp only
    split
    · next hparen =>
      have hopened := r.advance.reaches_advance
      have := hopened.length_le
      obtain ⟨moves, hargs⟩ := hall .arguments r.advance.advance
        ((r.reaches_advance.trans hopened).closed hr) (by rw [Production.depth]; omega)
      exact ⟨_, .call hkind hparen hargs⟩
    · next hparen => exact ⟨_, .name hkind (by simpa using hparen)⟩
  · next hparen htrue hfalse hint hstring hident =>
    split
    · next hinvalid => exact ⟨_, .invalid hinvalid⟩
    · next hinvalid =>
      exact ⟨_, .nothing (beginsOperand_eq_false hparen htrue hfalse hint hstring hident hinvalid)⟩

theorem runs_arguments (hbound : 8 * r.cursor.ahead.length + 3 ≤ bound) :
    Production.arguments.Runs (bound + 1) r := by
  simp only [Production.Runs, Production.read]
  rw [arguments]
  split
  · next hends => exact ⟨_, .noArgument hends⟩
  · next hends =>
    obtain ⟨front, he⟩ := hall .expression r hr (by rw [Production.depth]; omega)
    have := he.reaches.length_le
    have hmiddle := he.reaches.closed hr
    split
    next e middle hmiddleEq =>
    simp only [Production.read, hmiddleEq] at he this hmiddle
    split
    · next hcomma =>
      have hlength := length_advance_of_ne_nil
        (ahead_ne_nil_of_closed hmiddle (kind_ne_of_check hcomma (by decide)))
      obtain ⟨back, hes⟩ := hall .arguments middle.advance (middle.reaches_advance.closed hmiddle)
        (by rw [Production.depth]; omega)
      exact ⟨_, .argument (by simpa [endsArguments] using hends) he hcomma hes⟩
    · next hcomma =>
      exact ⟨_, .lastArgument (by simpa [endsArguments] using hends) he (by simpa using hcomma)⟩

theorem runs_declaration {readOnly : Bool}
    (hkind : r.kind = .word (if readOnly then .letWord else .varWord))
    (hbound : 8 * r.cursor.ahead.length ≤ bound) :
    ∃ moves, Reads .statement r moves (declaration (bound + 1) readOnly r).1
      (declaration (bound + 1) readOnly r).2 := by
  have hlength := length_advance_of_ne_nil (ahead_ne_nil_of_closed hr (by simp [hkind]))
  have hname := (reaches_ident r.advance).trans (reaches_expect _ (.mark .eq))
  have := hname.length_le
  obtain ⟨moves, hinit⟩ := hall .expression _ ((r.reaches_advance.trans hname).closed hr)
    (by rw [Production.depth]; omega)
  rw [declaration]
  exact ⟨_, .declare hkind hinit⟩

theorem runs_statement (hless : ∀ less < bound, Suffices less)
    (hbound : 8 * r.cursor.ahead.length + 3 ≤ bound) : Production.statement.Runs (bound + 1) r := by
  obtain ⟨less, rfl⟩ : ∃ less, bound = less + 1 := ⟨bound - 1, by omega⟩
  have hdeclaration := @runs_declaration _ (hless less (Nat.lt_succ_self less)) r hr
  have hadvanced := r.reaches_advance.closed hr
  have hpassed : r.kind ≠ .endOfFile → r.advance.cursor.ahead.length + 1 = r.cursor.ahead.length :=
    fun hne => length_advance_of_ne_nil (ahead_ne_nil_of_closed hr hne)
  simp only [Production.Runs, Production.read]
  rw [statement]
  split
  · next hkind =>
    have hlength := hpassed (by simp [hkind])
    obtain ⟨moves, hbody⟩ := hall (.statements true) r.advance hadvanced
      (by rw [Production.depth]; omega)
    exact ⟨_, .block hkind hbody⟩
  · next hkind => exact @hdeclaration false hkind (by omega)
  · next hkind => exact @hdeclaration true hkind (by omega)
  · next hkind =>
    have hlength := hpassed (by simp [hkind])
    obtain ⟨front, hcondition⟩ := hall .expression r.advance hadvanced
      (by rw [Production.depth]; omega)
    have hmiddle := hcondition.reaches
    split
    next condition middle hconditionEq =>
    simp only [Production.read, hconditionEq] at hcondition hmiddle
    have := hmiddle.length_le
    obtain ⟨back, hyes⟩ := hall .statement middle (hmiddle.closed hadvanced)
      (by rw [Production.depth]; omega)
    have hlast := hyes.reaches
    split
    next yes last hyesEq =>
    simp only [Production.read, hyesEq] at hyes hlast
    have := hlast.length_le
    split
    · next helse =>
      have helsed := last.reaches_advance
      have := helsed.length_le
      obtain ⟨rest, hno⟩ := hall .statement last.advance
        ((hmiddle.trans (hlast.trans helsed)).closed hadvanced) (by rw [Production.depth]; omega)
      exact ⟨_, .ifElse hkind hcondition hyes helse hno⟩
    · next helse => exact ⟨_, .ifThen hkind hcondition hyes (by simpa using helse)⟩
  · next hkind =>
    have hlength := hpassed (by simp [hkind])
    obtain ⟨front, hcondition⟩ := hall .expression r.advance hadvanced
      (by rw [Production.depth]; omega)
    have := hcondition.reaches.length_le
    obtain ⟨back, hbody⟩ := hall .statement _ (hcondition.reaches.closed hadvanced)
      (by rw [Production.depth]; omega)
    exact ⟨_, .whileDo hkind hcondition hbody⟩
  · next hkind =>
    have hlength := hpassed (by simp [hkind])
    obtain ⟨front, hbody⟩ := hall .statement r.advance hadvanced (by rw [Production.depth]; omega)
    have hwhile := hbody.reaches.trans (reaches_expect _ (.word .whileWord))
    have := hwhile.length_le
    obtain ⟨back, hcondition⟩ := hall .expression _ (hwhile.closed hadvanced)
      (by rw [Production.depth]; omega)
    exact ⟨_, .doWhile hkind hbody hcondition⟩
  · next hkind =>
    have hlength := hpassed (by simp [hkind])
    have hname := (reaches_ident r.advance).trans (reaches_expect _ (.mark .eq))
    have := hname.length_le
    obtain ⟨front, hlower⟩ := hall .expression _ (hname.closed hadvanced)
      (by rw [Production.depth]; omega)
    have hto := hname.trans (hlower.reaches.trans (reaches_expect _ (.word .toWord)))
    have := hto.length_le
    obtain ⟨back, hupper⟩ := hall .expression _ (hto.closed hadvanced)
      (by rw [Production.depth]; omega)
    have hlast := hto.trans hupper.reaches
    have := hlast.length_le
    obtain ⟨rest, hbody⟩ := hall .statement _ (hlast.closed hadvanced)
      (by rw [Production.depth]; omega)
    exact ⟨_, .count hkind hlower hupper hbody⟩
  · obtain ⟨moves, he⟩ := hall .expression r hr (by rw [Production.depth]; omega)
    exact ⟨_, .expr (by unfold beginsStructure; split <;> simp_all) he⟩

theorem runs_statements (inBlock : Bool) (hbound : 8 * r.cursor.ahead.length + 4 ≤ bound) :
    (Production.statements inBlock).Runs (bound + 1) r := by
  simp only [Production.Runs, Production.read]
  rw [statements]
  split
  · next hends => exact ⟨_, .noStatement hends⟩
  · next hends =>
    have hcontinues : endsStatements inBlock r = false := by simpa [endsStatements] using hends
    have hne : r.kind ≠ .endOfFile := fun heq => hends (by simp [Cursor.atEnd, ← heq, kind])
    have hpos := List.length_pos_iff.2 (ahead_ne_nil_of_closed hr hne)
    obtain ⟨front, hfirst⟩ := hall .statement r hr (by rw [Production.depth]; omega)
    have hmiddle := hfirst.reaches
    split
    next first middle hfirstEq =>
    simp only [Production.read, hfirstEq] at hfirst hmiddle
    have htotal := hmiddle.total
    split
    · next hstuck =>
      have hlength := @length_advance_of_ne_nil middle (List.length_pos_iff.1 (by omega))
      obtain ⟨back, hothers⟩ := hall (.statements inBlock) middle.advance
        ((hmiddle.trans middle.reaches_advance).closed hr) (by rw [Production.depth]; omega)
      exact ⟨_, .stuck hcontinues hfirst hstuck hothers⟩
    · next hmoved =>
      have := hmiddle.length_le
      obtain ⟨back, hothers⟩ := hall (.statements inBlock) middle (hmiddle.closed hr)
        (by rw [Production.depth]; omega)
      exact ⟨_, .next hcontinues hfirst hmoved hothers⟩

end

/-- Eight calls for each token that is left, and as many as a production needs before it passes the
    first of them, are enough. -/
theorem suffices_bound (bound : Nat) : Suffices bound := by
  induction bound using Nat.strong_induction_on with
  | _ bound ih =>
    intro c p r hr hbound
    cases bound with
    | zero => cases p <;> simp [Production.depth] at hbound
    | succ bound =>
      have hall := ih bound (Nat.lt_succ_self bound)
      cases p with
      | expression => exact runs_expression hall hr (Nat.le_of_succ_le_succ hbound)
      | binary outer => exact runs_binary hall hr outer (Nat.le_of_succ_le_succ hbound)
      | climb outer left => exact runs_climb hall hr outer left (Nat.le_of_succ_le_succ hbound)
      | primary => exact runs_primary hall hr (Nat.le_of_succ_le_succ hbound)
      | arguments => exact runs_arguments hall hr (Nat.le_of_succ_le_succ hbound)
      | statement =>
        have hless : ∀ less < bound, Suffices less := fun less h => ih less (Nat.lt_succ_of_lt h)
        exact runs_statement hall hr hless (Nat.le_of_succ_le_succ hbound)
      | statements inBlock =>
        exact runs_statements hall hr inBlock (Nat.le_of_succ_le_succ hbound)

/-! ### Whole sequences -/

/-- Two runs of a production from one reader read the same. -/
theorem Reads.unique {others : List Move} {b : c.Tree} {t : Reader} (h : Reads p r moves a s)
    (h' : Reads p r others b t) : a = b ∧ s = t := by
  obtain ⟨bound, ha, hb⟩ := (h.eventually_read.and h'.eventually_read).exists
  exact Prod.ext_iff.1 (ha.symm.trans hb)

end Parser

theorem rest_ofTokens {tokens : List Token} (h : Closed tokens) :
    (Reader.ofTokens tokens).cursor.rest = tokens := by
  cases tokens with
  | nil => cases h
  | cons t ts => rfl

/-- Recursive descent through a closed sequence comes to an end, and the tree and the issues are
    those that a run of it ends with. -/
theorem exists_reads {tokens : List Token} (h : Closed tokens) :
    ∃ moves, ∃ stop : Reader, Parser.Reads (.statements false) (.ofTokens tokens) moves
      (parseTokens tokens).1.statements stop ∧ stop.issues = (parseTokens tokens).2 := by
  have hrest := rest_ofTokens h
  have hlength := congrArg List.length hrest
  simp only [Cursor.rest, List.length_cons] at hlength
  obtain ⟨moves, hreads⟩ := Parser.suffices_bound (Parser.depthBound tokens.length)
    (.statements false) (.ofTokens tokens) (hrest ▸ h)
    (by simp only [Parser.depthBound, Parser.Production.depth]; omega)
  exact ⟨moves, _, hreads, rfl⟩

end SnippetLang
