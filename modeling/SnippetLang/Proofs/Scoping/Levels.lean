import SnippetLang.Proofs.Scoping.Separate
import SnippetLang.Proofs.Typing.Findings

/-!
# Levels of a scope

What elaboration does to the levels of a scope.  A statement adds to the innermost level, and to no
other one, the first declaration of each name that is new there; every declaration behind the first
one is reported, in the level that it stands in.  So a name always means what it was declared to be
first at the innermost level that declares it, also if one remembers the declarations that were
reported.
-/

namespace SnippetLang

open SnippetLang.Tree (Ident)

/-! ### Declarations of a surface tree -/

namespace Tree.Stmt

/-- The declarations that a statement makes at the level that it stands in, each with the mark that
    says whether it is read-only. -/
def declarations : Stmt → List (Ident × Bool)
  | .declare _ readOnly name _ => [(name, readOnly)]
  | .ifThen _ _ yes => yes.declarations
  | .ifElse _ _ yes no => yes.declarations ++ no.declarations
  | .whileDo _ _ body => body.declarations
  | .doWhile _ body _ => body.declarations
  | _ => []

/-- The names that a statement declares at the level that it stands in. -/
def names (s : Stmt) : List String := s.declarations.map (·.1.name)

mutual

/-- The names of those declarations, at any depth, whose level has the name already.  The level that
    the statement stands in has some names before it. -/
def repeated : Stmt → List String → List Ident
  | .block _ body _, _ => allRepeated body []
  | .declare _ _ name _, before => if name.name ≠ "" ∧ name.name ∈ before then [name] else []
  | .ifThen _ _ yes, before => yes.repeated before
  | .ifElse _ _ yes no, before => yes.repeated before ++ no.repeated (before ++ yes.names)
  | .whileDo _ _ body, before => body.repeated before
  | .doWhile _ body _, before => body.repeated before
  | .count _ name _ _ body, _ => body.repeated [name.name]
  | .expr _, _ => []

def allRepeated : List Stmt → List String → List Ident
  | [], _ => []
  | s :: rest, before => s.repeated before ++ allRepeated rest (before ++ s.names)

end

end Tree.Stmt

/-! ### New variables of a level -/

namespace Scope

/-- The first variable of each name, but for missing names and those that a level has. -/
def fresh (level xs : List Variable) : List Variable :=
  (xs.filter fun x => x.name != "" && (findIn x.name level).isNone).eraseDupsBy
    fun x y => x.name == y.name

@[simp] theorem fresh_nil (level : List Variable) : fresh level [] = [] := rfl

theorem fresh_cons (level : List Variable) (x : Variable) (xs : List Variable) :
    fresh level (x :: xs) =
      if x.name ≠ "" ∧ findIn x.name level = none then x :: fresh (level ++ [x]) xs
      else fresh level xs := by
  unfold fresh
  split
  · next h =>
    rw [List.filter_cons_of_pos (by simp [h]), List.eraseDupsBy_cons, List.filter_filter]
    congr 2
    -- A later variable of the same name goes on both sides, as a repetition or as declared.
    refine List.filter_congr fun y _ => ?_
    by_cases hname : x.name = y.name
    · simp [findIn, List.find?_append, hname]
    · simp [findIn, List.find?_append, hname, Ne.symm hname]
  · next h =>
    rw [List.filter_cons_of_neg (by simpa using h)]

/-- Variables that come later are new if they are new to the level that has the earlier ones. -/
theorem fresh_append (level xs ys : List Variable) :
    fresh level (xs ++ ys) = fresh level xs ++ fresh (level ++ fresh level xs) ys := by
  induction xs generalizing level with
  | nil => simp
  | cons x xs ih =>
    rw [List.cons_append, fresh_cons, fresh_cons]
    split
    · rw [ih]
      simp
    · exact ih level

/-- A level and what is new to it have the names of all variables. -/
theorem exists_fresh {name : String} (hname : name ≠ "") (level xs : List Variable) :
    (∃ x ∈ level ++ fresh level xs, x.name = name) ↔ ∃ x ∈ level ++ xs, x.name = name := by
  induction xs generalizing level with
  | nil => simp
  | cons x xs ih =>
    rw [fresh_cons]
    split
    · have hall := ih (level ++ [x])
      simpa using hall
    · next h =>
      -- `x` is left out, and if it has the name, that is because the level has it already.
      have hold : x.name = name → ∃ y ∈ level, y.name = name := by
        rintro rfl
        have hsome : findIn x.name level ≠ none := fun hnone => h ⟨hname, hnone⟩
        obtain ⟨y, hy⟩ := Option.ne_none_iff_exists'.1 hsome
        exact ⟨y, List.mem_of_find?_eq_some hy, by simpa using List.find?_some hy⟩
      rw [ih]
      constructor
      · rintro ⟨y, hy, hn⟩
        rcases List.mem_append.1 hy with hy | hy
        · exact ⟨y, List.mem_append_left _ hy, hn⟩
        · exact ⟨y, List.mem_append_right _ (List.mem_cons_of_mem _ hy), hn⟩
      · rintro ⟨y, hy, hn⟩
        rcases List.mem_append.1 hy with hy | hy
        · exact ⟨y, List.mem_append_left _ hy, hn⟩
        · rcases List.mem_cons.1 hy with rfl | hy
          · obtain ⟨z, hz, hn⟩ := hold hn
            exact ⟨z, List.mem_append_left _ hz, hn⟩
          · exact ⟨y, List.mem_append_right _ hy, hn⟩

/-- What is new among some variables comes to the innermost level, behind the variables that it has.
    The levels around it stay as they are. -/
def Gains (s : Scope) (xs : List Variable) (t : Scope) : Prop :=
  t = ⟨s.declared ++ fresh s.declared xs, s.enclosing⟩

theorem Gains.nil (s : Scope) : s.Gains [] s := by simp [Gains]

theorem Gains.append {s t u : Scope} {xs ys : List Variable} (h : s.Gains xs t)
    (h' : t.Gains ys u) : s.Gains (xs ++ ys) u := by
  subst h
  rw [Gains, fresh_append, ← List.append_assoc]
  exact h'

/-! ### Sequences of operations -/

/-- What can be done to a scope. -/
inductive Operation where
  | declare (x : Variable)
  | push
  | pop

/-- The scope behind an operation.  A declaration that is refused leaves it alone, and where there
    is no level around the last one, an empty one takes its place. -/
def perform (s : Scope) : Operation → Scope
  | .declare x => (s.declare? x).getD s
  | .push => s.push
  | .pop => s.pop?.getD empty

/-- The levels behind an operation if every declaration counts, also one that is refused. -/
def record : List (List Variable) → Operation → List (List Variable)
  | level :: outer, .declare x => (level ++ [x]) :: outer
  | [], .declare x => [[x]]
  | levels, .push => [] :: levels
  | _ :: level :: outer, .pop => level :: outer
  | _, .pop => [[]]

/-- Two levels have the same first declaration of every name. -/
def Alike (level other : List Variable) : Prop := ∀ name, findIn name level = findIn name other

theorem findIn_append (name : String) (level xs : List Variable) :
    findIn name (level ++ xs) = (findIn name level).or (findIn name xs) := List.find?_append

/-- A declaration that is refused comes behind another one of its name. -/
theorem findIn_refused {level : List Variable} {x y : Variable} (h : findIn x.name level = some y)
    (name : String) : findIn name (level ++ [x]) = findIn name level := by
  rw [findIn_append]
  by_cases hname : x.name = name
  · rw [← hname, h]
    rfl
  · simp [findIn, hname]

theorem alike_perform {s : Scope} {levels : List (List Variable)}
    (h : List.Forall₂ Alike s.levels levels) (op : Operation) :
    List.Forall₂ Alike (s.perform op).levels (record levels op) := by
  obtain ⟨declared, enclosing⟩ := s
  obtain ⟨level, outer, hlevel, houter, rfl⟩ := List.forall₂_cons_left_iff.1 h
  cases op with
  | declare x =>
    refine List.Forall₂.cons ?_ ?_
    · intro name
      cases hx : findIn x.name declared with
      | none =>
        simp only [perform, declare?, hx, Option.getD_some, findIn_append, hlevel name]
      | some y =>
        -- The declaration is refused on the left and recorded on the right, where it is never found.
        have hx' : findIn x.name level = some y := hlevel x.name ▸ hx
        simp only [perform, declare?, hx, Option.getD_none, findIn_refused hx', hlevel name]
    · simp only [perform, declare?]
      cases findIn x.name declared <;> exact houter
  | push => exact .cons (fun _ => rfl) h
  | pop =>
    cases houter with
    | nil => exact .cons (fun _ => rfl) .nil
    | cons hnext hrest => exact .cons hnext hrest

theorem alike_foldl {s : Scope} {levels : List (List Variable)}
    (h : List.Forall₂ Alike s.levels levels) (operations : List Operation) :
    List.Forall₂ Alike (operations.foldl perform s).levels (operations.foldl record levels) := by
  induction operations generalizing s levels with
  | nil => exact h
  | cons op operations ih => exact ih (alike_perform h op)

theorem findSome?_of_alike {levels others : List (List Variable)}
    (h : List.Forall₂ Alike levels others) (name : String) :
    levels.findSome? (findIn name) = others.findSome? (findIn name) := by
  induction h with
  | nil => rfl
  | cons hlevel _ ih => rw [List.findSome?_cons, List.findSome?_cons, hlevel name, ih]

/-- Whatever is declared, opened and closed, a name means its first declaration at the innermost
    level that has one. -/
theorem lookup?_foldl_perform (s : Scope) (operations : List Operation) (name : String) :
    (operations.foldl perform s).lookup? name =
      (operations.foldl record s.levels).findSome? fun level => level.find? (·.name == name) :=
  findSome?_of_alike (alike_foldl (List.forall₂_same.2 fun _ _ _ => rfl) operations) name

/-- The operations that declare a variable: none if its name is missing. -/
def declaring (x : Variable) : List Operation := if x.name = "" then [] else [.declare x]

end Scope

namespace Typed

mutual

/-- What elaboration did to its scope for a statement. -/
def Stmt.operations : Stmt → List Scope.Operation
  | .block body => .push :: (Stmt.allOperations body ++ [.pop])
  | .declare x _ => Scope.declaring x
  | .ifThen _ yes => yes.operations
  | .ifElse _ yes no => yes.operations ++ no.operations
  | .whileDo _ body => body.operations
  | .doWhile body _ => body.operations
  | .count x _ _ body => .push :: (Scope.declaring x ++ (body.operations ++ [.pop]))
  | _ => []

def Stmt.allOperations : List Stmt → List Scope.Operation
  | [] => []
  | s :: rest => s.operations ++ Stmt.allOperations rest

end

end Typed

/-- Whether an issue is about a name that its level has already. -/
def Cause.isRepetition : Cause → Bool
  | .alreadyDeclared _ => true
  | _ => false

namespace Elaboration

/-! ### Declarations -/

section

variable (scope : Scope) (ident : Ident) (readOnly : Bool) (ty : Ty)

theorem declare_variable :
    (declare scope ident readOnly ty).1.1 = ⟨ident.name, readOnly, ty⟩ := by
  unfold declare
  dsimp only
  split
  · rfl
  · split <;> rfl

theorem gains_declare :
    scope.Gains [⟨ident.name, readOnly, ty⟩] (declare scope ident readOnly ty).1.2 := by
  rw [Scope.Gains, Scope.fresh_cons]
  unfold declare Scope.declare?
  dsimp only
  split
  · next hname => simp [hname]
  · next hname =>
    cases hfind : Scope.findIn ident.name scope.declared <;> simp [hname]

theorem declare_operations :
    (declare scope ident readOnly ty).1.2 =
      (Scope.declaring ⟨ident.name, readOnly, ty⟩).foldl Scope.perform scope := by
  unfold declare Scope.declaring
  dsimp only
  split
  · rfl
  · simp only [List.foldl_cons, List.foldl_nil, Scope.perform]
    cases scope.declare? ⟨ident.name, readOnly, ty⟩ <;> rfl

end

mutual

/-- A statement adds to the innermost level what is new there among its declarations. -/
theorem gains_stmt (scope : Scope) : (s : Tree.Stmt) →
    scope.Gains (stmt scope s).1.1.declares (stmt scope s).1.2
  | .block _ _ _ => .nil scope
  | .declare _ readOnly name init => by
    rw [stmt, Typed.Stmt.declares, declare_variable]
    exact gains_declare ..
  | .ifThen _ _ yes => gains_stmt scope yes
  | .ifElse _ _ yes no => (gains_stmt scope yes).append (gains_stmt _ no)
  | .whileDo _ _ body => gains_stmt scope body
  | .doWhile _ body _ => gains_stmt scope body
  | .count _ _ _ _ _ => .nil scope
  | .expr _ => .nil scope

theorem gains_stmts (scope : Scope) : (ss : List Tree.Stmt) →
    scope.Gains ((stmts scope ss).1.1.flatMap (·.declares)) (stmts scope ss).1.2
  | [] => .nil scope
  | s :: rest => (gains_stmt scope s).append (gains_stmts _ rest)

end

/-- Closing the level of a body leads back to the scope that it was opened in. -/
theorem pop?_stmts (scope : Scope) (body : List Tree.Stmt) :
    (stmts scope.push body).1.2.pop? = some scope := by
  rw [gains_stmts scope.push body]
  rfl

theorem pop?_declare_stmt (scope : Scope) (ident : Ident) (readOnly : Bool) (ty : Ty)
    (body : Tree.Stmt) :
    (stmt (declare scope.push ident readOnly ty).1.2 body).1.2.pop? = some scope := by
  rw [gains_stmt, gains_declare]
  rfl

mutual

theorem operations_stmt (scope : Scope) : (s : Tree.Stmt) →
    (stmt scope s).1.2 = (stmt scope s).1.1.operations.foldl Scope.perform scope
  | .block _ body _ => by
    rw [stmt, Typed.Stmt.operations, List.foldl_cons, List.foldl_append, Scope.perform,
      ← operations_stmts scope.push body]
    simp [Scope.perform, pop?_stmts]
  | .declare _ readOnly name init => by
    rw [stmt, Typed.Stmt.operations, declare_variable]
    exact declare_operations ..
  | .ifThen _ _ yes => operations_stmt scope yes
  | .ifElse _ _ yes no => by
    rw [stmt, Typed.Stmt.operations, List.foldl_append, ← operations_stmt scope yes]
    exact operations_stmt _ no
  | .whileDo _ _ body => operations_stmt scope body
  | .doWhile _ body _ => operations_stmt scope body
  | .count _ name lower upper body => by
    rw [stmt, Typed.Stmt.operations, List.foldl_cons, List.foldl_append, List.foldl_append,
      Scope.perform, declare_variable, ← declare_operations,
      ← operations_stmt (declare scope.push name true .int).1.2 body]
    simp [Scope.perform, pop?_declare_stmt]
  | .expr _ => rfl

theorem operations_stmts (scope : Scope) : (ss : List Tree.Stmt) →
    (stmts scope ss).1.2 = (Typed.Stmt.allOperations (stmts scope ss).1.1).foldl Scope.perform scope
  | [] => rfl
  | s :: rest => by
    rw [stmts, Typed.Stmt.allOperations, List.foldl_append, ← operations_stmt scope s]
    exact operations_stmts _ rest

end

/-! ### Repeated declarations -/

/-- The typed statement declares what the statement does that it was made of. -/
theorem declares_stmt (scope : Scope) : (s : Tree.Stmt) →
    (stmt scope s).1.1.declares.map (fun x => (x.name, x.readOnly)) =
      s.declarations.map fun d => (d.1.name, d.2)
  | .block _ _ _ => rfl
  | .declare _ _ _ _ => by
    rw [stmt, Typed.Stmt.declares, declare_variable]
    rfl
  | .ifThen _ _ yes => declares_stmt scope yes
  | .ifElse _ _ yes no => by
    rw [stmt, Typed.Stmt.declares, Tree.Stmt.declarations, List.map_append, List.map_append,
      declares_stmt scope yes, declares_stmt _ no]
  | .whileDo _ _ body => declares_stmt scope body
  | .doWhile _ body _ => declares_stmt scope body
  | .count _ _ _ _ _ => rfl
  | .expr _ => rfl

theorem names_stmt (scope : Scope) (s : Tree.Stmt) :
    (stmt scope s).1.1.declares.map (·.name) = s.names := by
  have hnames := congrArg (List.map Prod.fst) (declares_stmt scope s)
  simpa [Tree.Stmt.names, Function.comp_def] using hnames

/-- Some names are those of a level, but for missing ones. -/
def Names (names : List String) (level : List Variable) : Prop :=
  ∀ name ≠ "", name ∈ names ↔ ∃ x ∈ level, x.name = name

theorem Names.level (level : List Variable) : Names (level.map (·.name)) level := by
  intro name _
  exact List.mem_map

theorem Names.gains {names : List String} {scope after : Scope} {xs : List Variable}
    (h : Names names scope.declared) (hafter : scope.Gains xs after) :
    Names (names ++ xs.map (·.name)) after.declared := by
  intro name hname
  rw [hafter, Scope.exists_fresh hname, List.mem_append, h name hname, List.mem_map]
  simp only [List.mem_append, or_and_right, exists_or]

/-- The issue about a name that its level has already. -/
def repetition (ident : Ident) : Issue := ⟨.alreadyDeclared ident.name, ident.span⟩

/-- Those issues that are about a name that its level has already. -/
def repetitions (found : List Issue) : List Issue := found.filter (·.cause.isRepetition)

@[simp] theorem repetitions_append (found more : List Issue) :
    repetitions (found ++ more) = repetitions found ++ repetitions more := List.filter_append ..

/-- No check of an expression is about a declaration. -/
theorem Finds.repetitions_eq_nil {scope : Scope} {n : Tree.Node} {found : List Issue}
    (h : Finds scope n found) : repetitions found = [] := by
  refine List.filter_eq_nil_iff.2 fun i hi => ?_
  obtain ⟨e, -, hfinding⟩ := h i hi
  cases hfinding <;> exact Bool.false_ne_true

theorem repetitions_declare {scope : Scope} {names : List String} (h : Names names scope.declared)
    (ident : Ident) (readOnly : Bool) (ty : Ty) :
    repetitions (declare scope ident readOnly ty).2 =
      (if ident.name ≠ "" ∧ ident.name ∈ names then [ident] else []).map repetition := by
  unfold declare
  dsimp only
  split
  · next hname => simp [hname, repetitions]
  · next hname =>
    have hdeclared := Scope.declare?_eq_none_iff scope ⟨ident.name, readOnly, ty⟩
    rw [← h ident.name hname] at hdeclared
    cases hafter : scope.declare? ⟨ident.name, readOnly, ty⟩ with
    | none => simp [hname, hdeclared.1 hafter, repetitions, repetition, Cause.isRepetition]
    | some after =>
      have hnew : ident.name ∉ names := fun hmem => by simp [hdeclared.2 hmem] at hafter
      simp [hnew, repetitions]

theorem repetitions_test (scope : Scope) (e : Tree.Expr) :
    repetitions (valueOf .bool scope e).2 = [] :=
  (finds_valueOf (.inl rfl) scope e).repetitions_eq_nil

theorem repetitions_limit (scope : Scope) (e : Tree.Expr) :
    repetitions (valueOf .int scope e).2 = [] :=
  (finds_valueOf (.inr (.inl rfl)) scope e).repetitions_eq_nil

mutual

/-- The issues about repeated names are those about the repeated declarations of a statement, one for
    one. -/
theorem repetitions_stmt {scope : Scope} {names : List String} (h : Names names scope.declared) :
    (s : Tree.Stmt) → repetitions (stmt scope s).2 = (s.repeated names).map repetition
  | .block _ body _ => repetitions_stmts (.level []) body
  | .declare _ readOnly name init => by
    rw [stmt, Tree.Stmt.repeated, repetitions_append, (finds_value scope init).repetitions_eq_nil]
    exact repetitions_declare h ..
  | .ifThen _ condition yes => by
    rw [stmt, Tree.Stmt.repeated, repetitions_append, repetitions_test]
    exact repetitions_stmt h yes
  | .ifElse _ condition yes no => by
    have hyes := h.gains (gains_stmt scope yes)
    rw [names_stmt] at hyes
    rw [stmt, Tree.Stmt.repeated, repetitions_append, repetitions_append, repetitions_test,
      List.map_append, ← repetitions_stmt h yes, ← repetitions_stmt hyes no]
    rfl
  | .whileDo _ condition body => by
    rw [stmt, Tree.Stmt.repeated, repetitions_append, repetitions_test]
    exact repetitions_stmt h body
  | .doWhile _ body condition => by
    rw [stmt, Tree.Stmt.repeated, repetitions_append, repetitions_test, List.append_nil]
    exact repetitions_stmt h body
  | .count _ name lower upper body => by
    have hempty : Names [] scope.push.declared := .level []
    have hbody := repetitions_stmt (hempty.gains (gains_declare scope.push name true .int)) body
    rw [stmt, Tree.Stmt.repeated, repetitions_append, repetitions_append, repetitions_append,
      repetitions_limit, repetitions_limit, repetitions_declare hempty]
    simpa using hbody
  | .expr e => (finds_expr scope e).repetitions_eq_nil

theorem repetitions_stmts {scope : Scope} {names : List String} (h : Names names scope.declared) :
    (ss : List Tree.Stmt) →
    repetitions (stmts scope ss).2 = (Tree.Stmt.allRepeated ss names).map repetition
  | [] => rfl
  | s :: rest => by
    have hrest := h.gains (gains_stmt scope s)
    rw [names_stmt] at hrest
    rw [stmts, Tree.Stmt.allRepeated, repetitions_append, List.map_append, repetitions_stmt h s,
      repetitions_stmts hrest rest]

end

/-- What elaboration of a statement comes to, for the scope that the statement stands in. -/
structure Disciplined (scope : Scope) (s : Tree.Stmt) : Prop where
  /-- The enclosing levels stay as they are, and the innermost one gets the first declaration of each
      name that is neither missing nor declared there before. -/
  levels : (stmt scope s).1.2 =
    ⟨scope.declared ++ Scope.fresh scope.declared (stmt scope s).1.1.declares, scope.enclosing⟩
  /-- These are the declarations of the statement outside of nested levels, in source order. -/
  declares : (stmt scope s).1.1.declares.map (fun x => (x.name, x.readOnly)) =
    s.declarations.map fun d => (d.1.name, d.2)
  /-- Of all declarations, at any depth, those are reported whose level has the name before them. -/
  repeated : (stmt scope s).2.filter (·.cause.isRepetition) =
    (s.repeated (scope.declared.map (·.name))).map fun ident =>
      ⟨.alreadyDeclared ident.name, ident.span⟩
  /-- Every level that is opened is closed again. -/
  operations : (stmt scope s).1.2 =
    (stmt scope s).1.1.operations.foldl Scope.perform scope

end Elaboration

/-- In any scope, a statement leaves the enclosing levels alone, adds to the innermost one what is new
    there, and reports what is not.  After any sequence of operations on a scope, a name means its
    first declaration at the innermost level that has one. -/
theorem scope_discipline :
    (∀ scope s, Elaboration.Disciplined scope s) ∧
      ∀ (scope : Scope) (operations : List Scope.Operation) (name : String),
        (operations.foldl Scope.perform scope).lookup? name =
          (operations.foldl Scope.record scope.levels).findSome? fun level =>
            level.find? (·.name == name) := by
  refine ⟨?_, Scope.lookup?_foldl_perform⟩
  intro scope s
  constructor
  · exact Elaboration.gains_stmt scope s
  · exact Elaboration.declares_stmt scope s
  · exact Elaboration.repetitions_stmt (.level _) s
  · exact Elaboration.operations_stmt scope s

end SnippetLang
