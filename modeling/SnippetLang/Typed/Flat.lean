import SnippetLang.Typed

/-!
# Flat programs

A flat program is a list of statements without structure: declarations, expressions, labels and
jumps.  `lower` makes one of any statement.  Labels and the hidden bounds of counting loops are
numbered by two counters in the order in which their statements are met, outside before inside, so
no two constructs share one.  The counters are machine words of 32 bits: lowering is defined for
statements that take fewer than 2^32 labels and fewer than 2^32 bounds, and its numbers are exact
there.

| Statement       | Lowered form                                                               |
|-----------------|----------------------------------------------------------------------------|
| if c s          | goto end unless c; s; end:                                                 |
| if c s else t   | goto other unless c; s; goto end; other: t; end:                           |
| while c s       | again: goto done unless c; s; goto again; done:                            |
| do s while c    | again: s; goto again if c; done:                                           |
| for x = a to b s| x = a; bound = b; again: goto done unless x <= bound; s; x = x + 1; goto again; done: |

`markResults` prepares a flat program for compilation.  The result of a program is the value of the
last declaration or expression that it executed; after marking, a `result` statement stands behind
each of these, and nothing else writes the result.
-/

namespace SnippetLang.Typed

/-! ### Blocks dissolved -/

mutual

/-- The statements of a statement with all blocks around them dissolved; blocks inside other
    statements stay. -/
def Stmt.flatten : Stmt → List Stmt
  | .block body => Stmt.flattenAll body
  | s => [s]

/-- The statements of a list with all blocks around them dissolved. -/
def Stmt.flattenAll : List Stmt → List Stmt
  | [] => []
  | s :: rest => s.flatten ++ Stmt.flattenAll rest

end

/-! ### Structure lowered to jumps -/

/-- How many labels and hidden bounds were given out. -/
structure Counters where
  labels : Nat     -- below 2^32, as is the next
  bounds : Nat
deriving DecidableEq

namespace Counters

/-- The label that is given out after `k` others from here. -/
def label (c : Counters) (k : Nat) : JumpLabel := ⟨c.labels + 1 + k⟩

/-- The hidden variable that is given out next. -/
def bound (c : Counters) : Variable := ⟨s!"<upper>{c.bounds + 1}", true, .int⟩

/-- Gives out labels and bounds. -/
def take (c : Counters) (labels bounds : Nat) : Counters :=
  ⟨c.labels + labels, c.bounds + bounds⟩

end Counters

/-- Whether the variable of a counting loop has not passed its bound. -/
def withinBound (x bound : Variable) : Expr :=
  .binary (.read x) BinaryOperator.intLessOrEquals (.read bound)

/-- Adds one to the variable of a counting loop. -/
def increment (x : Variable) : Expr :=
  .assign x (.binary (.read x) BinaryOperator.intAddition (.literal (.int 1)))

mutual

/-- The flat form of a statement, numbered from the counters. -/
def Stmt.lowerFrom (c : Counters) : Stmt → List Stmt × Counters
  | .block body => Stmt.lowerAllFrom c body
  | .ifThen condition yes =>
    let done := c.label 0
    let (yes, c) := yes.lowerFrom (c.take 1 0)
    (.gotoIf done condition false :: yes ++ [.label done], c)
  | .ifElse condition yes no =>
    let other := c.label 0
    let done := c.label 1
    let (yes, c) := yes.lowerFrom (c.take 2 0)
    let (no, c) := no.lowerFrom c
    (.gotoIf other condition false :: yes ++ .goto done :: .label other :: no ++ [.label done], c)
  | .whileDo condition body =>
    let again := c.label 0
    let done := c.label 1
    let (body, c) := body.lowerFrom (c.take 2 0)
    (.label again :: .gotoIf done condition false :: body ++ [.goto again, .label done], c)
  | .doWhile body condition =>
    let again := c.label 0
    let done := c.label 1
    let (body, c) := body.lowerFrom (c.take 2 0)
    (.label again :: body ++ [.gotoIf again condition true, .label done], c)
  | .count x lower upper body =>
    let bound := c.bound
    let again := c.label 0
    let done := c.label 1
    let (body, c) := body.lowerFrom (c.take 2 1)
    (.declare x lower :: .declare bound upper :: .label again ::
      .gotoIf done (withinBound x bound) false :: body ++
      [.expr (increment x), .goto again, .label done], c)
  | s => ([s], c)

/-- The flat forms of statements, one after the other. -/
def Stmt.lowerAllFrom (c : Counters) : List Stmt → List Stmt × Counters
  | [] => ([], c)
  | s :: rest =>
    let (first, c) := s.lowerFrom c
    let (others, c) := Stmt.lowerAllFrom c rest
    (first ++ others, c)

end

/-- The flat form of a whole program. -/
def Stmt.lower (s : Stmt) : List Stmt := (s.lowerFrom ⟨0, 0⟩).1

/-! ### Results marked -/

/-- A statement of a flat program with its result marked; that of a declaration is read back from
    the variable. -/
def Stmt.marked : Stmt → List Stmt
  | .expr e => [.expr e, .result e.ty]
  | .declare x init => [.declare x init, .expr (.read x), .result x.ty]
  | s => [s]

/-- A flat program with its results marked. -/
def markResults (program : List Stmt) : List Stmt := program.flatMap Stmt.marked

end SnippetLang.Typed
