import SnippetLang.Proofs.Spans.Order

/-!
# The order of reports

The lexer and the parser report issues from left to right.  The elaborator follows the order of the
tree, in which nodes stand from left to right as well, but it makes some checks of a node when it is
through with everything inside the node, and reports them at a place that the node begins with, or
that stands between its parts: the target of an assignment is looked up behind the value, and an
operator behind its operands.  These are the only places at which it goes back.
-/

namespace SnippetLang

open SnippetLang.Tree (Node Root)

/-- The order of the places at which issues begin. -/
def SourceOrder (found : List Issue) : Prop := found.Pairwise fun i j => i.span.start ≤ j.span.start

/-! ### The lexer -/

theorem Lexer.Cuts.sourceOrder {offset : Nat} {cs : List Char} {tokens : List Token}
    {issues : List Issue} (h : Lexer.Cuts offset cs tokens issues) : SourceOrder issues := by
  induction h with
  | done _ => exact .nil
  | @lexeme _ _ _ _ _ cause span _ issues _ _ _ hstop hcuts ih =>
    have hlater : ∀ j ∈ issues, span.start ≤ j.span.start := by
      intro j hj
      obtain ⟨t, ht, hspan⟩ := hcuts.issues_at j hj
      have := hcuts.start_le t ht
      rw [hspan]
      omega
    cases cause with
    | none => exact ih
    | some cause => exact List.pairwise_cons.2 ⟨hlater, ih⟩

/-! ### The parser -/

namespace Reader

/-- The issues that a reader has found stand in order, and none of them is behind its token. -/
structure InOrder (r : Reader) : Prop where
  tokens : Ordered r.cursor.rest
  issues : SourceOrder r.issues
  behind : ∀ i ∈ r.issues, i.span.start ≤ r.span.start

variable {r : Reader}

theorem InOrder.advance (h : r.InOrder) : r.advance.InOrder := by
  refine ⟨r.reaches_advance.ordered h.tokens, h.issues, ?_⟩
  intro i hi
  exact Nat.le_trans (h.behind i hi) (r.reaches_advance.span_le h.tokens).1

theorem InOrder.move (h : r.InOrder) (m : Move) : (r.move m).InOrder := by
  cases m with
  | pass => exact h.advance
  | skip => exact h.advance
  | miss expected =>
    refine ⟨h.tokens, ?_, ?_⟩
    · refine List.pairwise_append.2 ⟨h.issues, List.pairwise_singleton .., ?_⟩
      intro i hi j hj
      rw [List.mem_singleton.1 hj]
      exact h.behind i hi
    · exact List.forall_mem_append.2 ⟨h.behind, List.forall_mem_singleton.2 (Nat.le_refl _)⟩

theorem InOrder.after (h : r.InOrder) (moves : List Move) : (r.after moves).InOrder := by
  induction moves generalizing r with
  | nil => exact h
  | cons m moves ih => exact ih (h.move m)

end Reader

theorem sourceOrder_parseTokens {tokens : List Token} (hclosed : Closed tokens)
    (hordered : Ordered tokens) : SourceOrder (parseTokens tokens).2 := by
  obtain ⟨moves, stop, hreads, hissues⟩ := exists_reads hclosed
  have hstart : (Reader.ofTokens tokens).InOrder := by
    refine ⟨?_, .nil, fun _ h => absurd h List.not_mem_nil⟩
    rwa [rest_ofTokens hclosed]
  rw [← hissues, ← hreads.after_eq]
  exact (hstart.after moves).issues

/-! ### The elaborator -/

namespace Tree

/-- Where an expression is reported when its operands were. -/
def Expr.late : Expr → List Span
  | .assign target _ => [target.span]
  | .unary _ opSpan _ => [opSpan]
  | .binary _ _ opSpan _ => [opSpan]
  | _ => []

/-- Where a node is reported when everything inside it was. -/
def Node.late : Node → List Span
  | .expr e => e.span :: e.late
  | .stmt (.declare _ _ name _) => [name.span]
  | _ => []

/-- An issue is reported behind another one, in a tree: it does not begin before that, or else it is
    about a node, and the other one lies within this node. -/
def Root.Follows (root : Root) (i j : Issue) : Prop :=
  i.span.start ≤ j.span.start ∨ ∃ n, root.Has n ∧ j.span ∈ n.late ∧ i.span.Within n.span

/-- The nodes of a tree stand in order, each within the one around it. -/
structure Root.Sorted (root : Root) : Prop where
  nested : ∀ n, root.Has n → ∀ c ∈ n.children, c.span.Within n.span
  ascending : root.Ascending

namespace Root.Sorted

variable {root : Root} {n m : Node}

theorem within (h : root.Sorted) (hn : root.Has n) (hm : n.Has m) : m.span.Within n.span := by
  induction hm with
  | self n => exact .refl _
  | child hc _ ih => exact (ih (hn.child hc)).trans (h.nested _ hn _ hc)

theorem apart (h : root.Sorted) (hn : root.Has n) {nodes : List Node}
    (hnodes : nodes.Sublist n.children) : nodes.Pairwise Node.Precedes :=
  (h.ascending.children n hn).sublist hnodes

end Root.Sorted

end Tree

namespace Elaboration

open SnippetLang.Tree (Ident)

/-- Issues that were found in some nodes, in an order that their tree allows. -/
structure Found (root : Root) (nodes : List Node) (found : List Issue) : Prop where
  inside : Points (fun span => ∃ c ∈ nodes, ∃ n, c.Has n ∧ n.span = span) found
  order : found.Pairwise root.Follows

namespace Found

variable {root : Root} {n : Node} {nodes others : List Node} {found more : List Issue} {span : Span}

theorem nil : Found root nodes [] := ⟨.nil, .nil⟩

theorem mono (h : Found root nodes found) (hnodes : nodes ⊆ others) : Found root others found := by
  refine ⟨?_, h.order⟩
  intro i hi
  obtain ⟨c, hc, hhas⟩ := h.inside i hi
  exact ⟨c, hnodes hc, hhas⟩

/-- The issues of nodes that precede each other follow each other. -/
theorem append (h : Found root nodes found) (h' : Found root others more)
    (hapart : (nodes ++ others).Pairwise Node.Precedes) :
    Found root (nodes ++ others) (found ++ more) := by
  refine ⟨?_, List.pairwise_append.2 ⟨h.order, h'.order, ?_⟩⟩
  · exact (h.mono (List.subset_append_left ..)).inside.append
      (h'.mono (List.subset_append_right ..)).inside
  · intro i hi j hj
    obtain ⟨c, hc, a, ha, hspan⟩ := h.inside i hi
    obtain ⟨d, hd, b, hb, hspan'⟩ := h'.inside j hj
    rw [Root.Follows, ← hspan, ← hspan']
    exact .inl ((List.pairwise_append.1 hapart).2.2 c hc d hd a ha b hb)

/-- What is found in the nodes inside a node is found in the node. -/
theorem close (h : Found root nodes found) (hnodes : nodes ⊆ n.children) : Found root [n] found := by
  refine ⟨?_, h.order⟩
  intro i hi
  obtain ⟨c, hc, m, hm, hspan⟩ := h.inside i hi
  exact ⟨n, List.mem_singleton_self n, m, .child (hnodes hc) hm, hspan⟩

/-- Issues at one place. -/
theorem here (hfound : Points (· = span) found) (hspan : ∃ m, n.Has m ∧ m.span = span) :
    Found root [n] found := by
  constructor
  · intro i hi
    rw [hfound i hi]
    exact ⟨n, List.mem_singleton_self n, hspan⟩
  · refine List.pairwise_of_forall_mem_list fun i hi j hj => ?_
    rw [Root.Follows, hfound i hi, hfound j hj]
    exact .inl (Nat.le_refl _)

/-- A check of a node follows everything that is found inside the node. -/
theorem check (h : Found root [n] found) (hroot : root.Sorted) (hn : root.Has n)
    (hmore : Points (· = span) more) (hspan : ∃ m, n.Has m ∧ m.span = span) (hlate : span ∈ n.late) :
    Found root [n] (found ++ more) := by
  have hchecked : Found root [n] more := here hmore hspan
  refine ⟨h.inside.append hchecked.inside, List.pairwise_append.2 ⟨h.order, hchecked.order, ?_⟩⟩
  intro i hi j hj
  -- The check may be reported before the place of `i`, but `i` lies within the checked node.
  obtain ⟨c, hc, m, hm, hinside⟩ := h.inside i hi
  obtain rfl := List.mem_singleton.1 hc
  refine .inr ⟨c, hn, ?_, ?_⟩
  · rwa [hmore j hj]
  · rw [← hinside]
    exact hroot.within hn hm

end Found

section

variable {root : Root} {scope : Scope} {e : Tree.Expr} {checked : Checked Typed.Expr}

theorem requireValue_found (span : Span) (checked : Checked Typed.Expr) :
    ∃ more, Points (· = span) more ∧ (requireValue span checked).2 = checked.2 ++ more := by
  unfold requireValue
  split
  · exact ⟨_, .single rfl, rfl⟩
  · exact ⟨[], .nil, (List.append_nil _).symm⟩

theorem requireTy_found (target : Ty) (span : Span) (checked : Checked Typed.Expr) :
    ∃ more, Points (· = span) more ∧ (requireTy target span checked).2 = checked.2 ++ more := by
  obtain ⟨more, hmore, heq⟩ := requireValue_found span checked
  unfold requireTy
  dsimp only
  split
  · refine ⟨more ++ [⟨.cannotConvert (requireValue span checked).1.ty target, span⟩],
      hmore.append (.single (p := (· = span)) rfl), ?_⟩
    rw [heq, List.append_assoc]
  · exact ⟨more, hmore, heq⟩

variable (hroot : root.Sorted)

include hroot

theorem found_value (he : root.Has (.expr e)) (h : Found root [.expr e] checked.2) :
    Found root [.expr e] (requireValue e.span checked).2 := by
  obtain ⟨more, hmore, heq⟩ := requireValue_found e.span checked
  rw [heq]
  exact h.check hroot he hmore ⟨_, .self _, rfl⟩ (.head _)

theorem found_valueOf (target : Ty) (he : root.Has (.expr e))
    (h : Found root [.expr e] checked.2) :
    Found root [.expr e] (requireTy target e.span checked).2 := by
  obtain ⟨more, hmore, heq⟩ := requireTy_found target e.span checked
  rw [heq]
  exact h.check hroot he hmore ⟨_, .self _, rfl⟩ (.head _)

/-- The search for issues in the arguments goes through them in their order. -/
theorem found_arguments (parameters : List Parameter) {es : List Tree.Expr}
    (hes : ∀ e ∈ es, root.Has (.expr e)) (hapart : (es.map Node.expr).Pairwise Node.Precedes)
    (h : ∀ e ∈ es, Found root [.expr e] (expr scope e).2) :
    Found root (es.map .expr) (arguments parameters (exprs scope es)).2 := by
  induction es generalizing parameters with
  | nil => cases parameters <;> exact .nil
  | cons e es ih =>
    obtain ⟨he, hes⟩ := List.forall_mem_cons.1 hes
    obtain ⟨hfirst, hothers⟩ := List.forall_mem_cons.1 h
    have hvalue : Found root [.expr e] (Argument.value ⟨e.span, expr scope e⟩).2 :=
      found_value hroot he hfirst
    have hhead : [Node.expr e] ⊆ (e :: es).map Node.expr := by simp
    cases parameters with
    | nil => exact .nil
    | cons parameter parameters =>
      rw [exprs, arguments]
      dsimp only
      split
      · exact hvalue.mono hhead
      · split
        · refine (hvalue.check hroot he ?_ ⟨_, .self _, rfl⟩ (.head _)).mono hhead
          exact .single rfl
        · exact hvalue.append (ih parameters hes (List.pairwise_cons.1 hapart).2 hothers) hapart

theorem found_callUse {callee : Ident} {closing : Span} {es : List Tree.Expr}
    (hn : root.Has (.expr (.call callee es closing)))
    (h : ∀ e ∈ es, Found root [.expr e] (expr scope e).2) :
    Found root [.expr (.call callee es closing)]
      (callUse callee (callee.span.merge closing) (exprs scope es)).2 := by
  have hes : ∀ e ∈ es, root.Has (.expr e) := fun e he => hn.child (by simp [he])
  have hargs : ∀ parameters, Found root [.expr (.call callee es closing)]
      (arguments parameters (exprs scope es)).2 := by
    intro parameters
    have hapart : (es.map Node.expr).Pairwise Node.Precedes := hroot.apart hn (by simp)
    exact (found_arguments hroot parameters hes hapart h).close (by simp)
  unfold callUse
  split
  · next target arg _ harg =>
    cases es with
    | nil => cases harg
    | cons e rest =>
      obtain ⟨rfl, -⟩ := List.cons.inj harg
      have he : root.Has (.expr e) := hes e (List.mem_cons_self ..)
      have hvalue := found_value hroot he (h e (List.mem_cons_self ..))
      refine (hvalue.check hroot he ?_ ⟨_, .self _, rfl⟩ (.head _)).close (by simp)
      exact points_conversion rfl
  · unfold functionUse
    split
    · exact .here (.single rfl) ⟨.ident callee, .of_child (by simp), rfl⟩
    · next f _ =>
      have hfound := hargs f.parameters
      split
      · split
        · next heq => rwa [heq] at hfound
        · next heq => rwa [heq] at hfound
      · exact .here (.single rfl) ⟨_, .self _, rfl⟩

end

mutual

/-- The issues of an expression, in the order of its parts but for the checks of its own. -/
theorem found_expr {root : Root} (hroot : root.Sorted) (scope : Scope) : (e : Tree.Expr) →
    root.Has (.expr e) → Found root [.expr e] (expr scope e).2
  | .error _, _ => .nil
  | .int _ _, _ => .nil
  | .bool _ _, _ => .nil
  | .string _ _, _ => .nil
  | .name ident, _ => .here (points_nameUse rfl) ⟨.ident ident, .of_child (by simp), rfl⟩
  | .assign target value, h => by
    have hchild : root.Has (.expr value) := h.child (by simp)
    have hvalue := found_value hroot hchild (found_expr hroot scope value hchild)
    rw [expr]
    exact (hvalue.close (by simp)).check hroot h (points_assignment rfl)
      ⟨.ident target, .of_child (by simp), rfl⟩ (by simp [Node.late, Tree.Expr.late])
  | .unary op opSpan operand, h => by
    have hchild : root.Has (.expr operand) := h.child (by simp)
    have hoperand := found_value hroot hchild (found_expr hroot scope operand hchild)
    rw [expr]
    exact (hoperand.close (by simp)).check hroot h (points_unaryUse rfl)
      ⟨.token opSpan, .of_child (by simp), rfl⟩ (by simp [Node.late, Tree.Expr.late])
  | .binary left op opSpan right, h => by
    have hfirst : root.Has (.expr left) := h.child (by simp)
    have hsecond : root.Has (.expr right) := h.child (by simp)
    have hleft := found_value hroot hfirst (found_expr hroot scope left hfirst)
    have hright := found_value hroot hsecond (found_expr hroot scope right hsecond)
    have hoperands := hleft.append hright (hroot.apart h (by simp))
    rw [expr]
    exact (hoperands.close (by simp)).check hroot h (points_binaryUse rfl)
      ⟨.token opSpan, .of_child (by simp), rfl⟩ (by simp [Node.late, Tree.Expr.late])
  | .paren _ inner _, h =>
    (found_expr hroot scope inner (h.child (by simp))).close (by simp)
  | .call callee args closing, h => by
    have hargs : ∀ e ∈ args, root.Has (.expr e) := by
      intro e he
      exact h.child (by simp [he])
    exact found_callUse hroot h (found_exprs hroot scope args hargs)

theorem found_exprs {root : Root} (hroot : root.Sorted) (scope : Scope) : (es : List Tree.Expr) →
    (∀ e ∈ es, root.Has (.expr e)) → ∀ e ∈ es, Found root [.expr e] (expr scope e).2
  | [], _ => fun _ h => absurd h List.not_mem_nil
  | e :: es, h => by
    obtain ⟨he, hes⟩ := List.forall_mem_cons.1 h
    exact List.forall_mem_cons.2 ⟨found_expr hroot scope e he, found_exprs hroot scope es hes⟩

end

section

variable {root : Root} {n : Node} {e : Tree.Expr} (hroot : root.Sorted) (hn : root.Has n)
  (he : .expr e ∈ n.children) (scope : Scope)

include hroot hn he

theorem found_initial : Found root [.expr e] (value scope e).2 :=
  found_value hroot (hn.child he) (found_expr hroot scope e (hn.child he))

theorem found_needed (target : Ty) : Found root [.expr e] (valueOf target scope e).2 :=
  found_valueOf hroot target (hn.child he) (found_expr hroot scope e (hn.child he))

end

/-- A level that was opened for a name has not declared it yet. -/
theorem declare_push (scope : Scope) (ident : Ident) (readOnly : Bool) (ty : Ty) :
    (declare scope.push ident readOnly ty).2 = [] := by
  unfold declare
  dsimp only
  split
  · rfl
  · rfl

mutual

/-- The issues of a statement, in the order of its parts but for the checks of its own. -/
theorem found_stmt {root : Root} (hroot : root.Sorted) (scope : Scope) : (s : Tree.Stmt) →
    root.Has (.stmt s) → Found root [.stmt s] (stmt scope s).2
  | .block _ body _, h => by
    have hbody : ∀ s ∈ body, root.Has (.stmt s) := by
      intro s hs
      exact h.child (by simp [hs])
    have hapart : (body.map Node.stmt).Pairwise Node.Precedes := hroot.apart h (by simp)
    rw [stmt]
    exact (found_stmts hroot scope.push body hbody hapart).close (by simp)
  | .declare _ readOnly name init, h => by
    have hinit := found_initial hroot h (e := init) (by simp) scope
    rw [stmt]
    exact (hinit.close (by simp)).check hroot h (points_declare rfl)
      ⟨.ident name, .of_child (by simp), rfl⟩ (by simp [Node.late])
  | .ifThen _ condition yes, h => by
    have hcondition := found_needed hroot h (e := condition) (by simp) scope .bool
    have hyes := found_stmt hroot scope yes (h.child (by simp))
    rw [stmt]
    exact (hcondition.append hyes (hroot.apart h (by simp))).close (by simp)
  | .ifElse _ condition yes no, h => by
    have hcondition := found_needed hroot h (e := condition) (by simp) scope .bool
    have hyes := found_stmt hroot scope yes (h.child (by simp))
    have hno := found_stmt hroot (stmt scope yes).1.2 no (h.child (by simp))
    have hboth := hcondition.append hyes (hroot.apart h (by simp))
    rw [stmt]
    exact (hboth.append hno (hroot.apart h (by simp))).close (by simp)
  | .whileDo _ condition body, h => by
    have hcondition := found_needed hroot h (e := condition) (by simp) scope .bool
    have hbody := found_stmt hroot scope body (h.child (by simp))
    rw [stmt]
    exact (hcondition.append hbody (hroot.apart h (by simp))).close (by simp)
  | .doWhile _ body condition, h => by
    have hbody := found_stmt hroot scope body (h.child (by simp))
    have hcondition := found_needed hroot h (e := condition) (by simp) (stmt scope body).1.2 .bool
    rw [stmt]
    exact (hbody.append hcondition (hroot.apart h (by simp))).close (by simp)
  | .count _ name lower upper body, h => by
    have hlower := found_needed hroot h (e := lower) (by simp) scope .int
    have hupper := found_needed hroot h (e := upper) (by simp) scope .int
    have hbody := found_stmt hroot (declare scope.push name true .int).1.2 body (h.child (by simp))
    have hbounds := hlower.append hupper (hroot.apart h (by simp))
    rw [stmt]
    -- The name cannot have been declared, so nothing is reported at it behind the bounds.
    simp only [declare_push, List.append_nil]
    exact (hbounds.append hbody (hroot.apart h (by simp))).close (by simp)
  | .expr e, h => (found_expr hroot scope e (h.child (by simp))).close (by simp)

theorem found_stmts {root : Root} (hroot : root.Sorted) (scope : Scope) : (ss : List Tree.Stmt) →
    (∀ s ∈ ss, root.Has (.stmt s)) → (ss.map Node.stmt).Pairwise Node.Precedes →
    Found root (ss.map .stmt) (stmts scope ss).2
  | [], _, _ => .nil
  | s :: rest, h, hapart => by
    obtain ⟨hs, hrest⟩ := List.forall_mem_cons.1 h
    rw [stmts]
    exact (found_stmt hroot scope s hs).append
      (found_stmts hroot _ rest hrest (List.pairwise_cons.1 hapart).2) hapart

end

end Elaboration

/-! ### Snippets -/

theorem sorted_parse (source : String) : (parse source).root.Sorted :=
  ⟨(spans_nested [] source).1.children, ascending_parse source⟩

/-- Whatever the source is and whatever is declared before it, the lexer and the parser report in
    source order, and the elaborator goes back only to report a node that encloses the place of the
    earlier report. -/
theorem reports_ordered (enclosing : List (List Variable)) (source : String) :
    SourceOrder (parse source).lexical ∧ SourceOrder (parse source).syntactic ∧
      (Snippet.within enclosing source).found.Pairwise (parse source).root.Follows := by
  have hroot := sorted_parse source
  have hstatements : ∀ s ∈ (parse source).root.statements, (parse source).root.Has (.stmt s) :=
    fun s hs => ⟨s, hs, .self _⟩
  refine ⟨?_, ?_, ?_⟩
  · exact (Lexer.cuts_scan 0 source.toList).sourceOrder
  · exact sourceOrder_parseTokens (closed_lex source) (ordered_lex source).1
  · exact (Elaboration.found_stmts hroot ⟨[], enclosing⟩ _ hstatements
      hroot.ascending.statements).order

/-- In an assignment of a missing variable to another one, the value is reported before the target,
    which stands before it. -/
theorem target_reported_behind_value :
    (Snippet.first "a = b").found =
        [⟨.undefinedVariable "b", 4, 5⟩, ⟨.undefinedVariable "a", 0, 1⟩] ∧
      ¬ SourceOrder (Snippet.first "a = b").found := by
  have hfound : (Snippet.first "a = b").found =
      [⟨.undefinedVariable "b", 4, 5⟩, ⟨.undefinedVariable "a", 0, 1⟩] := by decide +kernel
  refine ⟨hfound, ?_⟩
  rw [hfound]
  intro h
  exact absurd ((List.pairwise_cons.1 h).1 _ (.head _)) (by decide)

end SnippetLang
