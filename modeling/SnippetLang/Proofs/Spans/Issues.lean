import SnippetLang.Proofs.Spans.Nesting
import SnippetLang.Snippet

/-!
# Where issues are

The lexer reports issues at its tokens, the parser at tokens that it is given, and the elaborator at
nodes of the tree.  So every diagnostic of a snippet points into the source, whatever the source is.
-/

namespace SnippetLang

open SnippetLang.Tree (Node)

/-- Issues are at spans that have a property. -/
def Points (p : Span → Prop) (found : List Issue) : Prop := ∀ i ∈ found, p i.span

namespace Points

variable {p : Span → Prop}

theorem nil : Points p [] := nofun

theorem single {cause : Cause} {span : Span} (h : p span) : Points p [⟨cause, span⟩] :=
  List.forall_mem_singleton.2 h

theorem append {found more : List Issue} (h : Points p found) (h' : Points p more) :
    Points p (found ++ more) := List.forall_mem_append.2 ⟨h, h'⟩

end Points

/-! ### Issues of the lexer -/

theorem Lexer.Cuts.issues_at {offset : Nat} {cs : List Char} {tokens : List Token}
    {issues : List Issue} (h : Lexer.Cuts offset cs tokens issues) :
    ∀ i ∈ issues, ∃ t ∈ tokens, i.span = t.span := by
  induction h with
  | done _ => exact nofun
  | @lexeme _ _ _ _ kind cause span tokens _ _ _ _ _ _ ih =>
    intro i hi
    rcases List.mem_append.1 hi with hi | hi
    · refine ⟨⟨kind, span⟩, List.mem_cons_self .., ?_⟩
      cases cause with
      | none => cases hi
      | some cause => rw [List.mem_singleton.1 hi]
    · rcases ih i hi with ⟨t, ht, hspan⟩
      exact ⟨t, List.mem_cons_of_mem _ ht, hspan⟩

/-- The tokens of a source stand in order, and none of them ends behind it. -/
theorem ordered_lex (source : String) :
    Ordered (lex source).1 ∧ ∀ t ∈ (lex source).1, t.span.stop ≤ source.utf8ByteSize := by
  have hcuts : Lexer.Cuts 0 source.toList (lex source).1 (lex source).2 :=
    Lexer.cuts_scan 0 source.toList
  rcases hcuts.closed with ⟨front, htokens, hfront⟩
  rw [Nat.zero_add, utf8Length_toList] at htokens
  have hapart := hcuts.ordered
  rw [htokens] at hapart ⊢
  refine ⟨⟨?_, hapart⟩, ?_⟩
  · refine List.forall_mem_append.2 ⟨?_, List.forall_mem_singleton.2 (Nat.le_refl _)⟩
    intro t ht
    exact Nat.le_of_lt (hfront t ht).2
  · refine List.forall_mem_append.2 ⟨?_, List.forall_mem_singleton.2 (Nat.le_refl _)⟩
    intro t ht
    exact (List.pairwise_append.1 hapart).2.2 t ht _ (List.mem_singleton_self _)

theorem lex_ne_nil (source : String) : (lex source).1 ≠ [] := by
  have hcuts : Lexer.Cuts 0 source.toList (lex source).1 (lex source).2 :=
    Lexer.cuts_scan 0 source.toList
  rcases hcuts.closed with ⟨front, htokens, -⟩
  simp [htokens]

/-! ### Issues of the parser -/

/-- The parser reports issues at the tokens that it is given. -/
theorem issues_parseTokens {tokens : List Token} (hne : tokens ≠ []) :
    ∀ i ∈ (parseTokens tokens).2, ∃ t ∈ tokens, i.span = t.span := by
  cases tokens with
  | nil => exact absurd rfl hne
  | cons t ts =>
    intro i hi
    rw [parseTokens] at hi
    have hreaches := Parser.reaches_statements (Parser.depthBound (t :: ts).length) false
      (Reader.ofTokens (t :: ts))
    rcases hreaches.found i hi with hnone | hfound
    · cases hnone
    · exact hfound

/-! ### Issues of the elaborator -/

/-- Every span in a node has a property, its own and those of the nodes inside it. -/
def Tree.Node.Everywhere (n : Node) (p : Span → Prop) : Prop := ∀ m, n.Has m → p m.span

section

variable {p : Span → Prop} {n c : Node}

theorem Tree.Node.Everywhere.here (h : n.Everywhere p) : p n.span := h n (.self n)

theorem Tree.Node.Everywhere.child (h : n.Everywhere p) (hc : c ∈ n.children) : c.Everywhere p := by
  intro m hm
  exact h m (.child hc hm)

end

namespace Elaboration

open SnippetLang.Tree (Ident)

section

variable {p : Span → Prop} {span : Span} {scope : Scope}

theorem points_requireValue {checked : Checked Typed.Expr} (hspan : p span)
    (h : Points p checked.2) : Points p (requireValue span checked).2 := by
  unfold requireValue
  split
  · exact h.append (.single hspan)
  · exact h

theorem points_requireTy {target : Ty} {checked : Checked Typed.Expr} (hspan : p span)
    (h : Points p checked.2) : Points p (requireTy target span checked).2 := by
  have hvalue := points_requireValue hspan h
  unfold requireTy
  dsimp only
  split
  · exact hvalue.append (.single hspan)
  · exact hvalue

theorem points_nameUse {ident : Ident} (h : p ident.span) : Points p (nameUse scope ident).2 := by
  unfold nameUse
  split
  · exact .nil
  · split
    · exact .nil
    · exact .single h

theorem points_assignment {target : Ident} {value : Typed.Expr} (h : p target.span) :
    Points p (assignment scope target value).2 := by
  unfold assignment
  split
  · exact .single h
  · next x _ =>
    have hreadOnly : Points p
        (if x.readOnly then [⟨.readOnlyTarget target.name, target.span⟩] else []) := by
      split
      · exact .single h
      · exact .nil
    dsimp only
    split
    · exact hreadOnly.append (.single h)
    · exact hreadOnly

theorem points_unaryUse {op : UnaryOp} {operand : Typed.Expr} (h : p span) :
    Points p (unaryUse op span operand).2 := by
  unfold unaryUse
  split
  · exact .nil
  · split
    · exact .nil
    · exact .single h

theorem points_binaryUse {op : BinaryOp} {left right : Typed.Expr} (h : p span) :
    Points p (binaryUse op span left right).2 := by
  unfold binaryUse
  split
  · exact .nil
  · split
    · exact .nil
    · exact .single h

theorem points_conversion {target : Ty} {e : Typed.Expr} (h : p span) :
    Points p (conversion target span e).2 := by
  unfold conversion
  split
  · exact .nil
  · split
    · exact .single h
    · split <;> exact .nil

/-- What was found in an argument is at spans that have a property, and so is the argument. -/
def Argument.Points (p : Span → Prop) (a : Argument) : Prop :=
  p a.span ∧ SnippetLang.Points p a.checked.2

theorem Argument.Points.value {a : Argument} (h : a.Points p) : SnippetLang.Points p a.value.2 :=
  points_requireValue h.1 h.2

/-- The first argument that does not fit ends the search, so the issues are those of some of them. -/
theorem points_arguments (parameters : List Parameter) {args : List Argument}
    (h : ∀ a ∈ args, a.Points p) : Points p (arguments parameters args).2 := by
  fun_induction arguments parameters args with
  | case1 parameter parameters arg args e found hvalue _ =>
    have hfound := (h arg (List.mem_cons_self ..)).value
    rw [hvalue] at hfound
    exact hfound
  | case2 parameter parameters arg args e found hvalue _ _ =>
    have hfound := (h arg (List.mem_cons_self ..)).value
    rw [hvalue] at hfound
    exact hfound.append (.single (h arg (List.mem_cons_self ..)).1)
  | case3 parameter parameters arg args e found hvalue _ _ rest more hrest ih =>
    have hfound := (h arg (List.mem_cons_self ..)).value
    have hothers := ih fun a ha => h a (List.mem_cons_of_mem _ ha)
    rw [hvalue] at hfound
    rw [hrest] at hothers
    exact hfound.append hothers
  | case4 => exact .nil

theorem points_functionUse {callee : Ident} {args : List Argument} (hcallee : p callee.span)
    (hspan : p span) (hargs : ∀ a ∈ args, a.Points p) :
    Points p (functionUse callee span args).2 := by
  unfold functionUse
  split
  · exact .single hcallee
  · next f _ =>
    have hfound := points_arguments f.parameters hargs
    split
    · split
      · next heq =>
        rw [heq] at hfound
        exact hfound
      · next heq =>
        rw [heq] at hfound
        exact hfound
    · exact .single hspan

theorem points_callUse {callee : Ident} {args : List Argument} (hcallee : p callee.span)
    (hspan : p span) (hargs : ∀ a ∈ args, a.Points p) : Points p (callUse callee span args).2 := by
  unfold callUse
  split
  · next target arg _ =>
    have harg := hargs arg (List.mem_singleton_self arg)
    exact harg.value.append (points_conversion harg.1)
  · exact points_functionUse hcallee hspan hargs

end

mutual

/-- The issues of an expression are at nodes in it. -/
theorem points_expr (scope : Scope) {p : Span → Prop} : (e : Tree.Expr) →
    (Node.expr e).Everywhere p → Points p (expr scope e).2
  | .error _, _ => .nil
  | .int _ _, _ => .nil
  | .bool _ _, _ => .nil
  | .string _ _, _ => .nil
  | .name ident, h => points_nameUse (h.child (c := .ident ident) (by simp)).here
  | .assign target value, h => by
    have htarget := h.child (c := .ident target) (by simp)
    have hvalue := h.child (c := .expr value) (by simp)
    rw [expr]
    exact (points_requireValue hvalue.here (points_expr scope value hvalue)).append
      (points_assignment htarget.here)
  | .unary op opSpan operand, h => by
    have hop := h.child (c := .token opSpan) (by simp)
    have hoperand := h.child (c := .expr operand) (by simp)
    rw [expr]
    exact (points_requireValue hoperand.here (points_expr scope operand hoperand)).append
      (points_unaryUse hop.here)
  | .binary left op opSpan right, h => by
    have hop := h.child (c := .token opSpan) (by simp)
    have hleft := h.child (c := .expr left) (by simp)
    have hright := h.child (c := .expr right) (by simp)
    rw [expr]
    exact ((points_requireValue hleft.here (points_expr scope left hleft)).append
      (points_requireValue hright.here (points_expr scope right hright))).append
        (points_binaryUse hop.here)
  | .paren _ inner _, h => points_expr scope inner (h.child (by simp))
  | .call callee args closing, h => by
    have hcallee := h.child (c := .ident callee) (by simp)
    have hargs : ∀ e ∈ args, (Node.expr e).Everywhere p := by
      intro e he
      exact h.child (by simp [he])
    exact points_callUse hcallee.here h.here (points_exprs scope args hargs)

theorem points_exprs (scope : Scope) {p : Span → Prop} : (es : List Tree.Expr) →
    (∀ e ∈ es, (Node.expr e).Everywhere p) → ∀ a ∈ exprs scope es, a.Points p
  | [], _ => nofun
  | e :: es, h => by
    rcases List.forall_mem_cons.1 h with ⟨he, hes⟩
    exact List.forall_mem_cons.2 ⟨⟨he.here, points_expr scope e he⟩, points_exprs scope es hes⟩

end

theorem points_valueOf {target : Ty} {scope : Scope} {p : Span → Prop} {e : Tree.Expr}
    (h : (Node.expr e).Everywhere p) : Points p (valueOf target scope e).2 :=
  points_requireTy h.here (points_expr scope e h)

theorem points_declare {scope : Scope} {p : Span → Prop} {ident : Ident} {readOnly : Bool} {ty : Ty}
    (h : p ident.span) : Points p (declare scope ident readOnly ty).2 := by
  unfold declare
  dsimp only
  split
  · exact .nil
  · split
    · exact .nil
    · exact .single h

mutual

/-- The issues of a statement are at nodes in it. -/
theorem points_stmt (scope : Scope) {p : Span → Prop} : (s : Tree.Stmt) →
    (Node.stmt s).Everywhere p → Points p (stmt scope s).2
  | .block _ body _, h => by
    have hbody : ∀ s ∈ body, (Node.stmt s).Everywhere p := by
      intro s hs
      exact h.child (by simp [hs])
    rw [stmt]
    exact points_stmts scope.push body hbody
  | .declare _ readOnly name init, h => by
    have hname := h.child (c := .ident name) (by simp)
    have hinit := h.child (c := .expr init) (by simp)
    rw [stmt]
    exact (points_requireValue hinit.here (points_expr scope init hinit)).append
      (points_declare hname.here)
  | .ifThen _ condition yes, h => by
    have hcondition := h.child (c := .expr condition) (by simp)
    have hyes := h.child (c := .stmt yes) (by simp)
    rw [stmt]
    exact (points_valueOf hcondition).append (points_stmt _ yes hyes)
  | .ifElse _ condition yes no, h => by
    have hcondition := h.child (c := .expr condition) (by simp)
    have hyes := h.child (c := .stmt yes) (by simp)
    have hno := h.child (c := .stmt no) (by simp)
    rw [stmt]
    exact ((points_valueOf hcondition).append (points_stmt _ yes hyes)).append
      (points_stmt _ no hno)
  | .whileDo _ condition body, h => by
    have hcondition := h.child (c := .expr condition) (by simp)
    have hbody := h.child (c := .stmt body) (by simp)
    rw [stmt]
    exact (points_valueOf hcondition).append (points_stmt _ body hbody)
  | .doWhile _ body condition, h => by
    have hcondition := h.child (c := .expr condition) (by simp)
    have hbody := h.child (c := .stmt body) (by simp)
    rw [stmt]
    exact (points_stmt _ body hbody).append (points_valueOf hcondition)
  | .count _ name lower upper body, h => by
    have hname := h.child (c := .ident name) (by simp)
    have hlower := h.child (c := .expr lower) (by simp)
    have hupper := h.child (c := .expr upper) (by simp)
    have hbody := h.child (c := .stmt body) (by simp)
    rw [stmt]
    exact (((points_valueOf hlower).append (points_valueOf hupper)).append
      (points_declare hname.here)).append (points_stmt _ body hbody)
  | .expr e, h => points_expr scope e (h.child (by simp))

theorem points_stmts (scope : Scope) {p : Span → Prop} : (ss : List Tree.Stmt) →
    (∀ s ∈ ss, (Node.stmt s).Everywhere p) → Points p (stmts scope ss).2
  | [], _ => .nil
  | s :: rest, h => by
    rcases List.forall_mem_cons.1 h with ⟨hs, hrest⟩
    rw [stmts]
    exact (points_stmt scope s hs).append (points_stmts _ rest hrest)

end

end Elaboration

/-! ### Snippets -/

/-- A span of a source: its ends are in order, and it does not go beyond the source. -/
def Span.InSource (s : Span) (source : String) : Prop := s.Valid ∧ s.stop ≤ source.utf8ByteSize

theorem root_parse (source : String) :
    (parse source).root = (parseTokens (lex source).1).1 := by
  unfold parse
  rfl

theorem issues_parse (source : String) :
    (parse source).issues = (lex source).2 ++ (parseTokens (lex source).1).2 := by
  unfold parse
  rfl

/-- The issues that the lexer and the parser find are in the source. -/
theorem points_parse (source : String) :
    Points (·.InSource source) (parse source).issues := by
  rcases ordered_lex source with ⟨hordered, hfits⟩
  have htoken : ∀ i : Issue, (∃ t ∈ (lex source).1, i.span = t.span) → i.span.InSource source := by
    rintro i ⟨t, ht, hspan⟩
    rw [hspan]
    exact ⟨hordered.valid t ht, hfits t ht⟩
  rw [issues_parse]
  intro i hi
  refine htoken i ?_
  rcases List.mem_append.1 hi with hi | hi
  · exact (Lexer.cuts_scan 0 source.toList).issues_at i hi
  · exact issues_parseTokens (lex_ne_nil source) i hi

/-- The tree of any source, however broken, is nested within the source, and every diagnostic of a
    snippet of it points into the source. -/
theorem spans_nested (enclosing : List (List Variable)) (source : String) :
    (parse source).root.Nested source.utf8ByteSize ∧
      ∀ d ∈ (Snippet.within enclosing source).diagnostics,
        ∃ label, d.label = some label ∧ label.span.InSource source := by
  rcases ordered_lex source with ⟨hordered, hfits⟩
  have hnested : (parse source).root.Nested source.utf8ByteSize := by
    rw [root_parse]
    exact nested_parseTokens (lex_ne_nil source) hordered hfits
  have heverywhere : ∀ s ∈ (parse source).root.statements,
      (Node.stmt s).Everywhere (·.InSource source) := by
    intro s hs n hn
    rcases hnested.nodes n ⟨s, hs, hn⟩ with ⟨hvalid, hwithin⟩
    exact ⟨hvalid, Nat.le_trans hwithin.stop hnested.fits⟩
  have hissues : Points (·.InSource source) (Snippet.within enclosing source).issues :=
    (points_parse source).append (Elaboration.points_stmts ⟨[], enclosing⟩ _ heverywhere)
  refine ⟨hnested, ?_⟩
  intro d hd
  rcases List.mem_map.1 hd with ⟨i, hi, rfl⟩
  exact ⟨_, rfl, hissues i hi⟩

end SnippetLang
