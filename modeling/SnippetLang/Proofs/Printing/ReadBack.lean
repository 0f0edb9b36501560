import SnippetLang.Proofs.Parsing.Lossless
import SnippetLang.Proofs.Parsing.RoundTrip
import SnippetLang.Proofs.Parsing.Runs
import SnippetLang.Proofs.Printing.Texts
import SnippetLang.Proofs.Spans.Nodes

/-!
# Texts that are read back

The text of a typed expression is made for reading, and it can be read: it is the text of one
expression statement, of which the elaborator makes the typed expression again.  That is so for every
expression statement of a clean source, at any depth, and in any scope in which no name means a variable
of the error type.

Two things can go wrong.  An assignment has no parentheses in the text, so an operand of an operator
must not be one.  And a carriage return ends a literal.
-/

namespace SnippetLang

open SnippetLang.Tree (Node Root Stmt)

/-! ### The tokens of clean sources -/

theorem Lexer.Cuts.allWritable {offset : Nat} {cs : List Char} {tokens : List Token}
    {issues : List Issue} (h : Cuts offset cs tokens issues) (hclean : issues = []) :
    AllWritable tokens := by
  induction h with
  | done =>
    intro t ht hkind
    obtain rfl := List.mem_singleton.1 ht
    exact absurd rfl hkind
  | @lexeme _ _ _ _ _ cause _ _ _ _ hlexeme _ _ _ ih =>
    cases cause with
    | some cause => cases hclean
    | none =>
      intro t ht hkind
      rcases List.mem_cons.1 ht with rfl | ht
      · exact ⟨_, hlexeme.spelled⟩
      · exact ih hclean t ht hkind

/-- Statements that the parser reports nothing about were read from some of its tokens. -/
theorem exists_allSpell {tokens : List Token} (hclosed : Closed tokens)
    (hclean : (parseTokens tokens).2 = []) :
    ∃ ts, Stmt.AllSpell (parseTokens tokens).1.statements ts ∧ ts ⊆ tokens := by
  have hrest := rest_ofTokens hclosed
  have hlength := congrArg List.length hrest
  rw [Cursor.rest, List.length_cons] at hlength
  have hbound : 8 * (Reader.ofTokens tokens).cursor.ahead.length + 5 ≤
      Parser.depthBound tokens.length := by
    rw [Parser.depthBound, ← hlength]
    omega
  obtain ⟨ts, hts, hspells, -⟩ :=
    Parser.accounts_statements _ false _ (by rwa [hrest]) hbound hclean
  rw [hrest] at hts
  exact ⟨ts, hspells, by rw [hts]; exact List.subset_append_left _ _⟩

/-- The statements of a clean source were read from tokens that can be written. -/
theorem exists_allWritable {source : String} (h : (parse source).issues = []) :
    ∃ ts, Stmt.AllSpell (parse source).root.statements ts ∧ AllWritable ts := by
  obtain ⟨hlexical, hsyntactic⟩ := List.append_eq_nil_iff.1 h
  have hwritable : AllWritable (lex source).1 :=
    (Lexer.cuts_scan 0 source.toList).allWritable hlexical
  obtain ⟨ts, hspells, hsub⟩ :=
    exists_allSpell (Lexer.readable_of_scan 0 _ hlexical).closed hsyntactic
  exact ⟨ts, hspells, hwritable.mono hsub⟩

namespace Tree

/-! ### Statements inside others -/

theorem Stmt.AllSpell.exists_spells {body : List Stmt} {ts : List Token} (h : Stmt.AllSpell body ts) :
    ∀ s ∈ body, ∃ us, s.Spells us ∧ us ⊆ ts := by
  induction body generalizing ts with
  | nil => nofun
  | cons first others ih =>
    cases h with
    | cons hfirst hothers =>
      intro s hs
      rcases List.mem_cons.1 hs with rfl | hs
      · exact ⟨_, hfirst, List.subset_append_left _ _⟩
      · obtain ⟨us, hus, hsub⟩ := ih hothers s hs
        exact ⟨us, hus, List.subset_append_of_subset_right _ hsub⟩

/-- A statement directly inside another one was read from some of the tokens of that. -/
theorem Stmt.Spells.exists_child {s s' : Stmt} {ts : List Token} (h : s.Spells ts)
    (hs : .stmt s' ∈ s.children) : ∃ us, s'.Spells us ∧ us ⊆ ts := by
  cases h with
  | block _ _ hbody =>
    obtain ⟨us, hus, hsub⟩ := hbody.exists_spells s' (by simpa using hs)
    exact ⟨us, hus, fun t ht => by simp [hsub ht]⟩
  | declare | expr => simp at hs
  | ifThen _ _ hyes =>
    obtain rfl : s' = _ := by simpa using hs
    exact ⟨_, hyes, fun t ht => by simp [ht]⟩
  | ifElse _ _ _ hyes hno =>
    obtain rfl | rfl : s' = _ ∨ s' = _ := by simpa using hs
    · exact ⟨_, hyes, fun t ht => by simp [ht]⟩
    · exact ⟨_, hno, fun t ht => by simp [ht]⟩
  | whileDo _ _ hbody =>
    obtain rfl : s' = _ := by simpa using hs
    exact ⟨_, hbody, fun t ht => by simp [ht]⟩
  | doWhile _ _ hbody _ =>
    obtain rfl : s' = _ := by simpa using hs
    exact ⟨_, hbody, fun t ht => by simp [ht]⟩
  | count _ _ _ _ _ _ hbody =>
    obtain rfl : s' = _ := by simpa using hs
    exact ⟨_, hbody, fun t ht => by simp [ht]⟩

/-- A node is no statement, or one that was read from some of the tokens. -/
def Node.ReadFrom (tokens : List Token) : Node → Prop
  | .stmt s => ∃ ts, s.Spells ts ∧ ts ⊆ tokens
  | _ => True

theorem Node.ReadFrom.child {n c : Node} {tokens : List Token} (h : n.ReadFrom tokens)
    (hc : c ∈ n.children) : c.ReadFrom tokens := by
  cases c with
  | stmt s' =>
    cases n with
    | stmt s =>
      obtain ⟨ts, hspells, hsub⟩ := h
      obtain ⟨us, hspells', hsub'⟩ := hspells.exists_child hc
      exact ⟨us, hspells', List.Subset.trans hsub' hsub⟩
    | expr e => cases e <;> simp at hc
    | ident _ | token _ => cases hc
  | _ => trivial

theorem Node.ReadFrom.has {n m : Node} {tokens : List Token} (h : n.ReadFrom tokens)
    (hm : n.Has m) : m.ReadFrom tokens := by
  induction hm with
  | self _ => exact h
  | child hc _ ih => exact ih (h.child hc)

/-- An expression statement of a tree, at any depth, was read from some of the tokens of the tree. -/
theorem Stmt.AllSpell.exists_expr {root : Root} {ts : List Token}
    (h : Stmt.AllSpell root.statements ts) {t : Expr} (ht : root.Has (.stmt (.expr t))) :
    ∃ us, t.Spells us ∧ us ⊆ ts := by
  obtain ⟨s, hs, hhas⟩ := ht
  have hread : (Node.stmt s).ReadFrom ts := h.exists_spells s hs
  obtain ⟨us, hspells, hsub⟩ := hread.has hhas
  cases hspells with
  | expr hspells => exact ⟨us, hspells, hsub⟩

end Tree

/-! ### Reading back -/

theorem exists_expr_of_allBare {body : List Stmt} {e : Tree.Expr}
    (h : Stmt.allBare body = Stmt.allBare [.expr e]) : ∃ t, body = [.expr t] ∧ t.bare = e.bare := by
  rcases body with _ | ⟨s, _ | ⟨s', others⟩⟩
  · cases h
  · have hs : s.bare = .expr e.bare := (List.cons.inj h).1
    cases s with
    | expr t => exact ⟨t, rfl, Stmt.expr.inj hs⟩
    | _ => cases hs
  · cases (List.cons.inj h).2

theorem parse_eq (source : String) : parse source =
    ⟨source, (parseTokens (lex source).1).1, (lex source).2, (parseTokens (lex source).1).2⟩ := by
  unfold parse
  rcases lex source with ⟨tokens, lexical⟩
  dsimp only

/-- A text that is lexed to the tokens of canonical statements is a source of those statements, with
    nothing wrong in it. -/
theorem parse_of_lexesAs {text : String} {body : List Stmt}
    (h : Lexer.LexesAs text.toList (Stmt.allKinds body)) (hbody : Stmt.AllCanonical body) :
    (parse text).issues = [] ∧ Stmt.allBare (parse text).root.statements = Stmt.allBare body := by
  have hlexes := h [] [.endOfFile] nofun .done
  rw [List.append_nil] at hlexes
  obtain ⟨hkinds, hlexical⟩ := lex_of_lexes hlexes
  obtain ⟨hsyntactic, hsame⟩ := statements_of_kinds hbody hkinds
  rw [parse_eq, Parsed.issues, hlexical, hsyntactic]
  exact ⟨rfl, hsame⟩

/-- The text of an expression that the elaborator answers for an expression statement of a clean
    source, with nothing to report, is read back: it is a clean source too, of one expression statement,
    and for that the elaborator answers the expression again and still has nothing to report.  No
    operand of an operator may be an assignment, and no literal may have a carriage return. -/
theorem text_reads_back {source : String} (hsource : (parse source).issues = []) {t : Tree.Expr}
    (ht : (parse source).root.Has (.stmt (.expr t))) {scope : Scope}
    (hscope : ∀ name x, scope.lookup? name = some x → x.ty ≠ .error) {e : Typed.Expr}
    (he : Elaboration.stmt scope (.expr t) = ((.expr e, scope), []))
    (hplain : ∀ part ∈ e.parts, part.PlainOperands) (hline : e.OneLine) :
    (parse e.text).issues = [] ∧ ∃ t', (parse e.text).root.statements = [.expr t'] ∧
      Elaboration.stmt scope (.expr t') = ((.expr e, scope), []) := by
  obtain ⟨ts, hspells, hwritable⟩ := exists_allWritable hsource
  obtain ⟨us, hexpr, hsub⟩ := hspells.exists_expr ht
  have hanswer : Elaboration.expr scope t = (e, []) := by
    simp only [Elaboration.stmt, Prod.mk.injEq, Typed.Stmt.expr.injEq] at he
    exact Prod.ext he.1.1 he.2
  have hanswered : e.Answered scope := by
    have h := Elaboration.answered_expr hscope t hexpr (hwritable.mono hsub) (by rw [hanswer])
    rwa [hanswer] at h
  have hcanonical : Stmt.AllCanonical [.expr e.surface] :=
    ⟨hanswered.canonical hplain, by simp, trivial⟩
  have htext : Lexer.LexesAs e.text.toList (Stmt.allKinds [.expr e.surface]) := by
    simpa [Stmt.allKinds, Stmt.kinds] using hanswered.lexesAs_text hline
  obtain ⟨hissues, hsame⟩ := parse_of_lexesAs htext hcanonical
  obtain ⟨t', hstatements, hrenders⟩ := exists_expr_of_allBare hsame
  have hreturns : Elaboration.expr scope t' = (e, []) :=
    Elaboration.returns_of_answered hanswered t' hrenders
  exact ⟨hissues, t', hstatements, by simp only [Elaboration.stmt, hreturns]⟩

/-- As text, the statement in the block is `name = (string((-a * 2)) + "\n")`: it has other
    parentheses than in the source. -/
theorem text_reads_back_nested :
    let source := "if ok \x7b name = string(-(a) * 2) + \"\\n\" \x7d"
    let product : Tree.Expr := .binary
      (.unary .minus ⟨22, 23⟩ (.paren ⟨23, 24⟩ (.name ⟨"a", ⟨24, 25⟩⟩) ⟨25, 26⟩)) .star ⟨27, 28⟩
      (.int ⟨29, 30⟩ 2)
    let t : Tree.Expr := .assign ⟨"name", ⟨8, 12⟩⟩
      (.binary (.call ⟨"string", ⟨15, 21⟩⟩ [product] ⟨30, 31⟩) .plus ⟨32, 33⟩
        (.string ⟨34, 38⟩ "\n"))
    let a : Variable := ⟨"a", true, .int⟩
    let name : Variable := ⟨"name", false, .string⟩
    let scope : Scope := ⟨[a], [[name]]⟩
    let e : Typed.Expr := .assign name (.binary
      (.convert .string (.binary (.unary ⟨.minus, .negation, .int, .int⟩ (.read a))
        (.row .star .multiplication .int .int) (.literal (.int 2))))
      (.row .plus .concatenation .string .string) (.literal (.string "\n")))
    (parse source).issues = [] ∧ (parse source).root.Has (.stmt (.expr t)) ∧
      Elaboration.stmt scope (.expr t) = ((.expr e, scope), []) ∧
      (parse e.text).issues = [] ∧ ∃ t', (parse e.text).root.statements = [.expr t'] ∧
        Elaboration.stmt scope (.expr t') = ((.expr e, scope), []) := by
  intro source product t a name scope e
  have hsource : (parse source).issues = [] := by cbv
  have hstatements : (parse source).root.statements = [.ifThen ⟨0, 2⟩ (.name ⟨"ok", ⟨3, 5⟩⟩)
      (.block ⟨6, 7⟩ [.expr t] ⟨39, 40⟩)] := by cbv
  have ht : (parse source).root.Has (.stmt (.expr t)) := by
    have hblock : (Node.stmt (.block ⟨6, 7⟩ [.expr t] ⟨39, 40⟩)).Has (.stmt (.expr t)) :=
      .child (by simp) (.self _)
    rw [Root.Has, hstatements]
    exact ⟨_, List.mem_singleton_self _, .child (by simp) hblock⟩
  have hscope : ∀ word x, scope.lookup? word = some x → x.ty ≠ .error := by
    have hnamed : ∀ x ∈ scope.levels.flatten, x.ty ≠ .error := by decide
    exact fun word x hx => hnamed x (Scope.mem_of_lookup? hx).1
  have he : Elaboration.stmt scope (.expr t) = ((.expr e, scope), []) := by cbv
  have hplain : ∀ part ∈ e.parts, part.PlainOperands := by
    simp [e, Typed.Expr.parts, Typed.Expr.PlainOperands, Typed.Expr.IsAssign]
  have hline : e.OneLine := by simp [e, Typed.Expr.OneLine, Typed.Expr.parts]
  exact ⟨hsource, ht, he, text_reads_back hsource ht hscope he hplain hline⟩

/-- The text of an assignment behind a sign, `-a = 1`, is not that of any program. -/
example : (parse (Typed.Expr.unary ⟨.minus, .negation, .int, .int⟩
    (.assign ⟨"a", false, .int⟩ (.literal (.int 1)))).text).issues ≠ [] := by
  decide +kernel

end SnippetLang
