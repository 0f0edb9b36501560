import SnippetLang.Proofs.Compilation.Agreement
import SnippetLang.Proofs.Compilation.Symbols
import SnippetLang.Proofs.Lowering.FlatForm
import SnippetLang.Proofs.Printing.ReadBack

/-!
# Crowded snippets

A compiled method numbers its slots with the integers of programs, so there is a bound on them.  What
a snippet declares has slots of its own, and so has the hidden bound of each of its counting loops.
Clean snippets that the compiler has no slots for can therefore be written down: here it is done with
loops inside one another, behind a condition that fails.  A walk is through with such a snippet at once.

Lowering numbers two labels for every loop, in words of 32 bits.  These are just enough for a snippet
that is too crowded.
-/

namespace SnippetLang

/-! ### Slots of declared variables -/

namespace Typed

/-- Variables that a program declares have slots of their own. -/
theorem length_le_slots {program : List Stmt} {vars : List Variable}
    (hdeclared : vars ⊆ declarations program) (hdistinct : (vars.map Variable.symbol).Nodup) :
    vars.length ≤ (Code.slotsOf program).length := by
  have hslots : vars.map Variable.symbol ⊆ (Code.slotsOf program).map Variable.symbol := by
    intro symbol hsymbol
    obtain ⟨x, hx, rfl⟩ := List.mem_map.1 hsymbol
    obtain ⟨declaration, hmem, hx⟩ := List.mem_filterMap.1 (hdeclared hx)
    obtain ⟨y, hy, hsame⟩ : Code.HasSlot (Code.slotsOf program) x := by
      refine Code.covers_slotsOf program declaration hmem x ?_
      cases declaration with
      | declare y init =>
        obtain rfl := Option.some.inj hx
        exact List.mem_append_right _ (List.mem_singleton_self y)
      | _ => cases hx
    exact List.mem_map.2 ⟨y, hy, Variable.same_iff_symbol.1 hsame⟩
  have hlength := (hdistinct.subperm hslots).length_le
  rwa [List.length_map, List.length_map] at hlength

theorem nodup_nextBounds (c : Counters) (n : Nat) :
    ((c.nextBounds n).map Variable.symbol).Nodup := by
  rw [Counters.nextBounds, List.map_map]
  refine List.nodup_range.map fun j k hjk => ?_
  have := same_hiddenBound_iff.1 (Variable.same_iff_symbol.2 hjk)
  omega

/-- A lowered statement has slots for variables that it declares and one more for every counting loop
    in it. -/
theorem length_add_loopCount_le_slots {s : Stmt} (hs : s.Structured) {vars : List Variable}
    (hdeclared : vars ⊆ s.introduces) (hdistinct : (vars.map Variable.symbol).Nodup)
    (hvisible : ∀ x ∈ vars, x.Visible) :
    vars.length + s.loopCount ≤ (Code.slotsOf s.lower).length := by
  let bounds := Counters.nextBounds ⟨0, 0⟩ s.loopCount
  have hperm : (declarations s.lower).Perm (s.introduces ++ bounds) :=
    (formed_lowerFrom s hs ⟨0, 0⟩).declarations
  have hall : vars ++ bounds ⊆ declarations s.lower := by
    refine List.Subset.trans ?_ hperm.symm.subset
    exact List.append_subset.2 ⟨List.subset_append_of_subset_left _ hdeclared,
      List.subset_append_right _ _⟩
  have hapart : ((vars ++ bounds).map Variable.symbol).Nodup := by
    rw [List.map_append, List.nodup_append]
    refine ⟨hdistinct, nodup_nextBounds _ _, ?_⟩
    intro symbol hsymbol symbol' hsymbol' heq
    obtain ⟨x, hx, rfl⟩ := List.mem_map.1 hsymbol
    obtain ⟨bound, hbound, rfl⟩ := List.mem_map.1 hsymbol'
    obtain ⟨k, -, rfl⟩ := List.mem_map.1 hbound
    exact not_same_hiddenBound (hvisible x hx) _ (Variable.same_iff_symbol.2 heq)
  have hbounds : bounds.length = s.loopCount := by
    simp [bounds, Counters.nextBounds]
  have hlength := length_le_slots hall hapart
  rwa [List.length_append, hbounds] at hlength

/-- A walk is through with a conditional at once if its condition fails. -/
theorem walk_ifThen_false {yes : Stmt} (hs : yes.Structured) (σ : Store) :
    walk (Stmt.block [.ifThen (.literal (.bool false)) yes]).lower σ 2 = some (.ok .void σ) := by
  let program := (Stmt.block [.ifThen (.literal (.bool false)) yes]).lower
  let code := (yes.lowerFrom (Counters.take ⟨0, 0⟩ 1 0)).1
  have hprogram : program = .gotoIf ⟨1⟩ (.literal (.bool false)) false :: (code ++ [.label ⟨1⟩]) :=
    List.append_nil _
  have hdistinct : (marks program).Nodup := nodup_marks_lower ⟨hs, trivial⟩
  have hfirst : program[0]? = some (.gotoIf ⟨1⟩ (.literal (.bool false)) false) := by
    rw [hprogram]
    rfl
  have hlast : program[code.length + 1]? = some (.label ⟨1⟩) := by
    rw [hprogram]
    simp
  have hjump : Walk.step program (Walk.Place.start, σ) = .running (⟨code.length + 2, .void⟩, σ) :=
    Walk.step_gotoIf_jump hfirst rfl (labelTarget?_of_nodup hdistinct hlast)
  have hend : Walk.step program (⟨code.length + 2, .void⟩, σ) = .finished (.ok .void σ) := by
    refine Walk.step_end ?_
    rw [hprogram]
    simp
  change runFor (Walk.step program) 2 (Walk.Place.start, σ) = _
  simp only [runFor, hjump, hend]

end Typed

/-! ### Loops inside one another -/

namespace Crowding

/-- The text of so many loops, each the body of the one before it, around a declaration. -/
def text : Nat → List Char
  | 0 => "var a = 0".toList
  | n + 1 => "for i = 0 to 0 ".toList ++ text n

/-- The loops as a tree. -/
def tree : Nat → Tree.Stmt
  | 0 => .declare Tree.nowhere false ⟨"a", Tree.nowhere⟩ (.int Tree.nowhere 0)
  | n + 1 =>
    .count Tree.nowhere ⟨"i", Tree.nowhere⟩ (.int Tree.nowhere 0) (.int Tree.nowhere 0) (tree n)

/-- The loops as a typed statement. -/
def typed : Nat → Typed.Stmt
  | 0 => .declare ⟨"a", false, .int⟩ (.literal (.int 0))
  | n + 1 => .count ⟨"i", true, .int⟩ (.literal (.int 0)) (.literal (.int 0)) (typed n)

theorem lexesAs_text (n : Nat) : Lexer.LexesAs (text n) (tree n).kinds := by
  have hzero : Lexer.LexesAs "0".toList [.int 0] :=
    .spelled (.int ⟨by decide, List.all_eq_true.1 rfl⟩ rfl)
  induction n with
  | zero =>
    have hvar : Lexer.LexesAs "var".toList [.word .varWord] := .spelled (.word .varWord)
    have hname : Lexer.LexesAs "a".toList [.ident "a"] :=
      .spelled (spelled_of_writable (writable_of_word rfl rfl rfl))
    exact hvar.spaced (hname.infixed .eq hzero)
  | succ n ih =>
    have hfor : Lexer.LexesAs "for".toList [.word .forWord] := .spelled (.word .forWord)
    have hto : Lexer.LexesAs "to".toList [.word .toWord] := .spelled (.word .toWord)
    have hname : Lexer.LexesAs "i".toList [.ident "i"] :=
      .spelled (spelled_of_writable (writable_of_word rfl rfl rfl))
    exact hfor.spaced ((hname.infixed .eq hzero).spaced (hto.spaced (hzero.spaced ih)))

theorem canonical_tree (n : Nat) : (tree n).Canonical ∧ (tree n).Detached := by
  induction n with
  | zero =>
    refine ⟨⟨by decide, trivial⟩, fun k hk => ?_⟩
    cases hk
    rfl
  | succ n ih =>
    refine ⟨⟨by decide, trivial, trivial, ih⟩, fun k hk => ?_⟩
    cases hk
    rfl

theorem exists_int_of_bare {e : Tree.Expr} {k : Int32} (h : e.bare = .int Tree.nowhere k) :
    ∃ span, e = .int span k := by
  cases e with
  | int span k' => exact ⟨span, congrArg (Tree.Expr.int span) (Tree.Expr.int.inj h).2⟩
  | _ => cases h

/-- Wherever the tree stands in a source, it stands for the typed loops, in a context whose innermost
    level does not have the name of the declaration yet. -/
theorem checks_of_bare {n : Nat} {s : Tree.Stmt} (hs : s.bare = (tree n).bare) {level : List Variable}
    {outer : Typing.Context} (hfresh : ∀ y ∈ level, y.name ≠ "a") :
    ∃ Δ, Typing.Checks (level :: outer) s (typed n) Δ := by
  induction n generalizing s level outer with
  | zero =>
    cases s with
    | declare keyword readOnly ident init =>
      obtain ⟨-, rfl, hident, hinit⟩ := Tree.Stmt.declare.inj hs
      obtain ⟨span, rfl⟩ := exists_int_of_bare hinit
      obtain ⟨name, place⟩ := ident
      obtain rfl : name = "a" := congrArg Tree.Ident.name hident
      exact ⟨_, .declare .int (by decide) hfresh⟩
    | _ => cases hs
  | succ n ih =>
    cases s with
    | count keyword ident lower upper body =>
      obtain ⟨-, hident, hlower, hupper, hbody⟩ := Tree.Stmt.count.inj hs
      obtain ⟨span, rfl⟩ := exists_int_of_bare hlower
      obtain ⟨span', rfl⟩ := exists_int_of_bare hupper
      obtain ⟨name, place⟩ := ident
      obtain rfl : name = "i" := congrArg Tree.Ident.name hident
      have hcounter : ∀ y ∈ [(⟨"i", true, .int⟩ : Variable)], y.name ≠ "a" := by decide
      obtain ⟨Δ, hchecks⟩ := ih hbody hcounter
      exact ⟨_, .count .int .int hchecks⟩
    | _ => cases hs

theorem structured_typed (n : Nat) : (typed n).Structured := by
  induction n with
  | zero => trivial
  | succ n ih => exact ih

theorem loopCount_typed (n : Nat) : (typed n).loopCount = n := by
  induction n with
  | zero => rfl
  | succ n ih => rw [typed, Typed.Stmt.loopCount, ih, Nat.add_comm]

theorem labelCount_typed (n : Nat) : (typed n).labelCount = 2 * n := by
  induction n with
  | zero => rfl
  | succ n ih =>
    rw [typed, Typed.Stmt.labelCount, ih]
    omega

theorem declared_mem_typed (n : Nat) : ⟨"a", false, .int⟩ ∈ (typed n).introduces := by
  induction n with
  | zero => exact List.mem_singleton_self _
  | succ n ih => exact List.mem_cons_of_mem _ ih

end Crowding

/-! ### Crowded snippets -/

namespace Snippet

open Crowding (text tree typed)

/-- A snippet with so many loops inside one another, none of which is begun. -/
def crowded (n : Nat) : Snippet := first (String.ofList ("if false ".toList ++ text n))

/-- What the source of a crowded snippet is parsed to stands for a conditional around the loops. -/
theorem checksAll_of_allBare {n : Nat} {body : List Tree.Stmt}
    (h : Tree.Stmt.allBare body =
      Tree.Stmt.allBare [.ifThen Tree.nowhere (.bool Tree.nowhere false) (tree n)]) :
    ∃ Δ, Typing.ChecksAll [[]] body [.ifThen (.literal (.bool false)) (typed n)] Δ := by
  rcases body with _ | ⟨s, _ | ⟨s', others⟩⟩
  · cases h
  · have hs : s.bare = .ifThen Tree.nowhere (.bool Tree.nowhere false) (tree n).bare :=
      (List.cons.inj h).1
    cases s with
    | ifThen keyword condition yes =>
      obtain ⟨-, hcondition, hyes⟩ := Tree.Stmt.ifThen.inj hs
      cases condition with
      | bool span b =>
        obtain rfl : b = false := (Tree.Expr.bool.inj hcondition).2
        obtain ⟨Δ, hchecks⟩ := Crowding.checks_of_bare hyes (List.forall_mem_nil _)
        exact ⟨Δ, .cons (.ifThen .bool hchecks) .nil⟩
      | _ => cases hcondition
    | _ => cases hs
  · cases (List.cons.inj h).2

/-- Nothing is wrong with a crowded snippet, and its conditional is all that it consists of. -/
theorem exists_crowded (n : Nat) : ∃ parsed declared, parsed.issues = [] ∧
    crowded n = ⟨parsed, [], [.ifThen (.literal (.bool false)) (typed n)], declared, []⟩ := by
  let source := String.ofList ("if false ".toList ++ text n)
  let body : List Tree.Stmt := [.ifThen Tree.nowhere (.bool Tree.nowhere false) (tree n)]
  have hcanonical : Tree.Stmt.AllCanonical body := by
    obtain ⟨htree, hdetached⟩ := Crowding.canonical_tree n
    exact ⟨⟨trivial, htree, hdetached⟩, by simp, trivial⟩
  have htext : Lexer.LexesAs source.toList (Tree.Stmt.allKinds body) := by
    have hif : Lexer.LexesAs "if".toList [.word .ifWord] := .spelled (.word .ifWord)
    have hfalse : Lexer.LexesAs "false".toList [.word .falseWord] := .spelled (.word .falseWord)
    have hall := hif.spaced (hfalse.spaced (Crowding.lexesAs_text n))
    rw [String.toList_ofList]
    simpa [body, Tree.Stmt.allKinds, Tree.Stmt.kinds, Tree.Expr.kinds] using hall
  obtain ⟨hparsed, hbare⟩ := parse_of_lexesAs htext hcanonical
  obtain ⟨Δ, hchecks⟩ := checksAll_of_allBare hbare
  obtain ⟨declared, -, -, hanswer⟩ := Typing.stmts_of_checksAll _ (complete_of_parse hparsed)
    Typing.wellFormed_nil.push hchecks
  refine ⟨parse source, declared, hparsed, ?_⟩
  simp only [crowded, first, within, source, hanswer]

theorem clean_crowded (n : Nat) : (crowded n).Clean := by
  obtain ⟨parsed, declared, hparsed, heq⟩ := exists_crowded n
  refine .first (?_ : (crowded n).issues = [])
  rw [heq]
  exact congrArg (· ++ []) hparsed

theorem statement_crowded (n : Nat) :
    (crowded n).statement = .block [.ifThen (.literal (.bool false)) (typed n)] := by
  obtain ⟨parsed, declared, -, heq⟩ := exists_crowded n
  rw [heq]
  rfl

theorem labelCount_crowded (n : Nat) : (crowded n).statement.labelCount = 2 * n + 1 := by
  simp only [statement_crowded, Typed.Stmt.labelCount, Typed.Stmt.labelCountAll,
    Crowding.labelCount_typed]
  omega

/-- A crowded snippet needs a slot for each of its loops, one for their counter and one for the
    declaration. -/
theorem le_length_slots_crowded {n : Nat} (hn : 0 < n) : n + 2 ≤ (crowded n).slots.length := by
  obtain ⟨n, rfl⟩ := Nat.exists_eq_succ_of_ne_zero (Nat.ne_of_gt hn)
  let vars : List Variable := [⟨"i", true, .int⟩, ⟨"a", false, .int⟩]
  have hstatement := statement_crowded (n + 1)
  have hstructured : (crowded (n + 1)).statement.Structured := (clean_crowded (n + 1)).structured
  have hdeclared : vars ⊆ (crowded (n + 1)).statement.introduces := by
    simp [vars, hstatement, Typed.Stmt.introduces, Typed.Stmt.allIntroduce, typed,
      Crowding.declared_mem_typed]
  have hvisible : ∀ x ∈ vars, x.Visible := by
    intro x hx
    refine Variable.visible_of_head ?_
    revert x
    decide
  have hcount : (crowded (n + 1)).statement.loopCount = n + 1 := by
    simp [hstatement, Typed.Stmt.loopCount, Typed.Stmt.loopCountAll, Crowding.loopCount_typed]
  have hslots := Typed.length_add_loopCount_le_slots hstructured hdeclared (by decide) hvisible
  rw [hcount, Nat.add_comm] at hslots
  exact hslots

/-- A walk is through with a crowded snippet at once. -/
theorem evaluate_treeWalk_crowded (n : Nat) (σ : Store) :
    (crowded n).evaluate .treeWalk σ 2 = some (.ended (.ok .void σ)) := by
  rw [(clean_crowded n).evaluate_treeWalk, lowered, statement_crowded]
  exact congrArg (Option.map _) (Typed.walk_ifThen_false (Crowding.structured_typed n) σ)

end Snippet

end SnippetLang
