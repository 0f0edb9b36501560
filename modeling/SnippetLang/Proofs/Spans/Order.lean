import SnippetLang.Proofs.Parsing.Runs
import SnippetLang.Proofs.Spans.Issues

/-!
# The order of a tree

A tree lists its nodes in the order in which they begin: whatever is inside a node begins no later
than anything inside the nodes that stand behind it.  Nesting alone does not say so, since a node
that stands for something missing has the span of the token behind it, and may end behind the begin
of the next node.

It is a fact about runs of the parser.  All nodes that are read on the way from one reader to
another begin between the tokens of the two.
-/

namespace SnippetLang

open SnippetLang.Tree

namespace Tree

namespace Node

theorem Has.trans {n m l : Node} (h : n.Has m) (h' : m.Has l) : n.Has l := by
  induction h with
  | self n => exact h'
  | child hc _ ih => exact .child hc (ih h')

theorem Has.of_child {n c : Node} (hc : c ∈ n.children) : n.Has c := .child hc (.self c)

/-- What is inside one node begins no later than anything inside another one. -/
def Precedes (c d : Node) : Prop :=
  ∀ a, c.Has a → ∀ b, d.Has b → a.span.start ≤ b.span.start

/-- Of the nodes directly inside any node in it, each precedes those behind it. -/
def Ascending (n : Node) : Prop := ∀ m, n.Has m → m.children.Pairwise Precedes

end Node

/-- The statements of a tree precede each other, and so do the nodes inside every node of it. -/
structure Root.Ascending (root : Root) : Prop where
  statements : (root.statements.map .stmt).Pairwise Node.Precedes
  children : ∀ n, root.Has n → n.children.Pairwise Node.Precedes

namespace Root.Has

variable {root : Root} {n m : Node}

theorem trans (h : root.Has n) (h' : n.Has m) : root.Has m := by
  obtain ⟨s, hs, hn⟩ := h
  exact ⟨s, hs, hn.trans h'⟩

theorem child (h : root.Has n) (hm : m ∈ n.children) : root.Has m := h.trans (.of_child hm)

end Root.Has

end Tree

namespace Parser

/-! ### Nodes between two readers -/

/-- The nodes that a production reads. -/
@[simp]
def Category.nodes : (c : Category) → c.Tree → List Node
  | .expr, e => [.expr e]
  | .exprs, es => es.map .expr
  | .stmt, s => [.stmt s]
  | .stmts, ss => ss.map .stmt

/-- The nodes that a production is given, which stand before its reader. -/
@[simp]
def Production.before {c : Category} : Production c → List Node
  | .climb _ left => [.expr left]
  | _ => []

/-- Nodes were read on the way from one reader to another one, in this order.  Each of them, and
    whatever is inside it, begins between the tokens of the two. -/
structure Between (r : Reader) (nodes : List Node) (s : Reader) : Prop where
  ordered : Ordered r.cursor.rest
  reaches : r.Reaches s
  bounds : ∀ n ∈ nodes, ∀ m, n.Has m →
    r.span.start ≤ m.span.start ∧ m.span.start ≤ s.span.start
  ascending : ∀ n ∈ nodes, n.Ascending
  apart : nodes.Pairwise Node.Precedes

namespace Between

open Reader

variable {r m s : Reader} {n : Node} {nodes others : List Node}

theorem nil (hr : Ordered r.cursor.rest) : Between r [] r := ⟨hr, .refl r, nofun, nofun, .nil⟩

/-- The tokens behind the nodes are in order, too. -/
theorem behind (h : Between r nodes s) : Ordered s.cursor.rest := h.reaches.ordered h.ordered

/-- Other tokens may be passed behind the nodes. -/
theorem skip (h : Between r nodes m) (hs : m.Reaches s) : Between r nodes s := by
  refine ⟨h.ordered, h.reaches.trans hs, ?_, h.ascending, h.apart⟩
  intro n hn inner hinner
  have hbounds := h.bounds n hn inner hinner
  exact ⟨hbounds.1, Nat.le_trans hbounds.2 (hs.span_le h.behind).1⟩

theorem append (h : Between r nodes m) (h' : Between m others s) :
    Between r (nodes ++ others) s := by
  have hskip := h.skip h'.reaches
  have hm := h.reaches.span_le h.ordered
  refine ⟨h.ordered, hskip.reaches, ?_, ?_, ?_⟩
  · refine List.forall_mem_append.2 ⟨hskip.bounds, ?_⟩
    intro n hn inner hinner
    have hbounds := h'.bounds n hn inner hinner
    exact ⟨Nat.le_trans hm.1 hbounds.1, hbounds.2⟩
  · exact List.forall_mem_append.2 ⟨h.ascending, h'.ascending⟩
  · refine List.pairwise_append.2 ⟨h.apart, h'.apart, ?_⟩
    intro c hc d hd a ha b hb
    exact Nat.le_trans (h.bounds c hc a ha).2 (h'.bounds d hd b hb).1

/-- Nodes that were read make up one that begins where the first of two of them does. -/
theorem close {c d : Node} (h : Between r nodes s) (hchildren : n.children = nodes) (hc : c ∈ nodes)
    (hd : d ∈ nodes) (hspan : n.span.start = min c.span.start d.span.start) : Between r [n] s := by
  have hfirst := h.bounds c hc c (.self c)
  have hlast := h.bounds d hd d (.self d)
  subst hchildren
  refine ⟨h.ordered, h.reaches, ?_, ?_, List.pairwise_singleton ..⟩
  · refine List.forall_mem_singleton.2 fun inner hinner => ?_
    cases hinner with
    | self => omega
    | child hchild hinner => exact h.bounds _ hchild inner hinner
  · refine List.forall_mem_singleton.2 fun inner hinner => ?_
    cases hinner with
    | self => exact h.apart
    | child hchild hinner => exact h.ascending _ hchild inner hinner

/-- A node may be made of a single other one. -/
theorem wrap {c : Node} (h : Between r [c] s) (hchildren : n.children = [c])
    (hspan : n.span = c.span) : Between r [n] s := by
  refine h.close hchildren (List.mem_singleton_self c) (List.mem_singleton_self c) ?_
  rw [hspan, Nat.min_self]

/-- A node without others inside it begins at one token. -/
theorem leaf (hr : Ordered r.cursor.rest) (hs : r.Reaches s) (hspan : n.span = r.span)
    (hchildren : n.children = []) : Between r [n] s := by
  have hle := (hs.span_le hr).1
  refine ⟨hr, hs, ?_, ?_, List.pairwise_singleton ..⟩
  · refine List.forall_mem_singleton.2 fun inner hinner => ?_
    cases hinner with
    | self =>
      rw [hspan]
      exact ⟨Nat.le_refl _, hle⟩
    | child hchild => simp [hchildren] at hchild
  · refine List.forall_mem_singleton.2 fun inner hinner => ?_
    cases hinner with
    | self => exact hchildren ▸ .nil
    | child hchild => simp [hchildren] at hchild

theorem token (hr : Ordered r.cursor.rest) (hs : r.Reaches s) : Between r [.token r.span] s :=
  leaf hr hs rfl rfl

/-- The token that is asked for, or the one that is found in its place. -/
theorem expected (hr : Ordered r.cursor.rest) (expected : TokenClass) :
    Between r [.token r.span] (r.expect expected).2 := token hr (r.reaches_expect expected)

theorem ident (hr : Ordered r.cursor.rest) : Between r [.ident r.ident.1] r.ident.2 := by
  refine leaf hr r.reaches_ident ?_ rfl
  unfold Reader.ident
  split <;> rfl

/-- A keyword, and the name that it binds before an equals sign. -/
theorem binder (hr : Ordered r.cursor.rest) :
    Between r [.token r.span, .ident r.advance.ident.1]
      (r.advance.ident.2.expect (.mark .eq)).2 := by
  have hkeyword := token hr r.reaches_advance
  exact (hkeyword.append (ident hkeyword.behind)).skip (reaches_expect ..)

end Between

open Reader

variable {c : Category} {p : Production c} {r s : Reader} {moves : List Move} {a : c.Tree}

/-- A run reads its nodes between its first and its last reader, behind those that the production is
    given. -/
theorem Reads.between (h : Reads p r moves a s) {start : Reader}
    (hbefore : Between start p.before r) : Between start (c.nodes a) s := by
  have hr := hbefore.behind
  induction h generalizing start with
  -- expressions
  | assignment _ _ ih =>
    have htarget := (Between.ident hr).skip (reaches_advance _)
    have hvalue := htarget.append (ih (.nil htarget.behind) htarget.behind)
    exact hbefore.append (hvalue.close rfl (.head _) (.tail _ (.head _)) rfl)
  | operation _ _ ih => exact ih hbefore hr
  | unary _ _ _ ih ih' =>
    have hop := Between.token hr (reaches_advance _)
    have hoperand := hop.append (ih (.nil hop.behind) hop.behind)
    have hall := ih' (hoperand.close rfl (.head _) (.tail _ (.head _)) rfl) hoperand.behind
    exact hbefore.append hall
  | operand _ _ _ ih ih' =>
    have hleft := ih (.nil hr) hr
    exact hbefore.append (ih' hleft hleft.behind)
  | noOperator _ => exact hbefore
  | weakOperator _ _ => exact hbefore
  | operator _ _ _ _ ih ih' =>
    have hop := hbefore.append (.token hr (reaches_advance _))
    have hright := hop.append (ih (.nil hop.behind) hop.behind)
    exact ih' (hright.close rfl (.head _) (.tail _ (.tail _ (.head _))) rfl) hright.behind
  | paren _ _ ih =>
    have hopening := Between.token hr (reaches_advance _)
    have hinner := hopening.append (ih (.nil hopening.behind) hopening.behind)
    have hclosing := hinner.append (.expected hinner.behind (.mark .rightParen))
    exact hbefore.append (hclosing.close rfl (.head _) (.tail _ (.tail _ (.head _))) rfl)
  | trueWord _ => exact hbefore.append (.leaf hr (reaches_advance _) rfl rfl)
  | falseWord _ => exact hbefore.append (.leaf hr (reaches_advance _) rfl rfl)
  | int _ => exact hbefore.append (.leaf hr (reaches_advance _) rfl rfl)
  | string _ => exact hbefore.append (.leaf hr (reaches_advance _) rfl rfl)
  | @call r _ _ name _ _ _ _ ih =>
    have hname : Between r [.ident ⟨name, r.span⟩] r.advance := .leaf hr r.reaches_advance rfl rfl
    have hcallee := hname.skip (reaches_advance _)
    have hargs := hcallee.append (ih (.nil hcallee.behind) hcallee.behind)
    have hclosing := hargs.append (.expected hargs.behind (.mark .rightParen))
    exact hbefore.append (hclosing.close rfl (.head _) (List.mem_append_right _ (.head _)) rfl)
  | @name r name _ _ =>
    have hname : Between r [.ident ⟨name, r.span⟩] r.advance := .leaf hr r.reaches_advance rfl rfl
    exact hbefore.append (hname.wrap rfl rfl)
  | invalid _ => exact hbefore.append (.leaf hr (reaches_advance _) rfl rfl)
  | nothing _ => exact hbefore.append (.leaf hr (reaches_unexpected ..) rfl rfl)
  -- arguments
  | noArgument _ => exact hbefore
  | argument _ _ _ _ ih ih' =>
    have hfirst := (ih hbefore hr).skip (reaches_advance _)
    exact hfirst.append (ih' (.nil hfirst.behind) hfirst.behind)
  | lastArgument _ _ _ ih => exact ih hbefore hr
  -- statements
  | block _ _ ih =>
    have hopening := Between.token hr (reaches_advance _)
    have hbody := hopening.append (ih (.nil hopening.behind) hopening.behind)
    have hclosing := hbody.append (.expected hbody.behind (.mark .rightBrace))
    exact hbefore.append (hclosing.close rfl (.head _) (List.mem_append_right _ (.head _)) rfl)
  | declare _ _ ih =>
    have hname := Between.binder hr
    have hinit := hname.append (ih (.nil hname.behind) hname.behind)
    exact hbefore.append (hinit.close rfl (.head _) (.tail _ (.tail _ (.head _))) rfl)
  | ifThen _ _ _ _ ih ih' =>
    have hkeyword := Between.token hr (reaches_advance _)
    have hcondition := hkeyword.append (ih (.nil hkeyword.behind) hkeyword.behind)
    have hyes := hcondition.append (ih' (.nil hcondition.behind) hcondition.behind)
    exact hbefore.append (hyes.close rfl (.head _) (.tail _ (.tail _ (.head _))) rfl)
  | ifElse _ _ _ _ _ ih ih' ih'' =>
    have hkeyword := Between.token hr (reaches_advance _)
    have hcondition := hkeyword.append (ih (.nil hkeyword.behind) hkeyword.behind)
    have hyes := hcondition.append (ih' (.nil hcondition.behind) hcondition.behind)
    have helse := hyes.skip (reaches_advance _)
    have hno := helse.append (ih'' (.nil helse.behind) helse.behind)
    exact hbefore.append (hno.close rfl (.head _) (List.mem_append_right _ (.head _)) rfl)
  | whileDo _ _ _ ih ih' =>
    have hkeyword := Between.token hr (reaches_advance _)
    have hcondition := hkeyword.append (ih (.nil hkeyword.behind) hkeyword.behind)
    have hbody := hcondition.append (ih' (.nil hcondition.behind) hcondition.behind)
    exact hbefore.append (hbody.close rfl (.head _) (.tail _ (.tail _ (.head _))) rfl)
  | doWhile _ _ _ ih ih' =>
    have hkeyword := Between.token hr (reaches_advance _)
    have hbody := hkeyword.append (ih (.nil hkeyword.behind) hkeyword.behind)
    have hwhile := hbody.skip (reaches_expect _ (.word .whileWord))
    have hcondition := hwhile.append (ih' (.nil hwhile.behind) hwhile.behind)
    exact hbefore.append (hcondition.close rfl (.head _) (.tail _ (.tail _ (.head _))) rfl)
  | count _ _ _ _ ih ih' ih'' =>
    have hname := Between.binder hr
    have hlower := hname.append (ih (.nil hname.behind) hname.behind)
    have hto := hlower.skip (reaches_expect _ (.word .toWord))
    have hupper := hto.append (ih' (.nil hto.behind) hto.behind)
    have hbody := hupper.append (ih'' (.nil hupper.behind) hupper.behind)
    exact hbefore.append (hbody.close rfl (.head _) (List.mem_append_right _ (.head _)) rfl)
  | expr _ _ ih => exact hbefore.append ((ih (.nil hr) hr).wrap rfl rfl)
  -- lists of statements
  | noStatement _ => exact hbefore
  | next _ _ _ _ ih ih' =>
    have hfirst := ih hbefore hr
    exact hfirst.append (ih' (.nil hfirst.behind) hfirst.behind)
  | stuck _ _ _ _ ih ih' =>
    have hfirst := (ih hbefore hr).skip (reaches_advance _)
    exact hfirst.append (ih' (.nil hfirst.behind) hfirst.behind)

end Parser

theorem closed_lex (source : String) : Closed (lex source).1 := by
  have hcuts : Lexer.Cuts 0 source.toList (lex source).1 (lex source).2 :=
    Lexer.cuts_scan 0 source.toList
  obtain ⟨front, htokens, -⟩ := hcuts.closed
  simp [htokens, Closed]

/-- The tree of a source lists its nodes in the order in which they begin. -/
theorem ascending_parse (source : String) : (parse source).root.Ascending := by
  have hclosed := closed_lex source
  obtain ⟨moves, stop, hreads, -⟩ := exists_reads hclosed
  have hordered : Ordered (Reader.ofTokens (lex source).1).cursor.rest := by
    rw [rest_ofTokens hclosed]
    exact (ordered_lex source).1
  have hbetween := hreads.between (.nil hordered)
  rw [root_parse]
  constructor
  · exact hbetween.apart
  · rintro n ⟨s, hs, hn⟩
    exact hbetween.ascending _ (List.mem_map_of_mem hs) n hn

end SnippetLang
