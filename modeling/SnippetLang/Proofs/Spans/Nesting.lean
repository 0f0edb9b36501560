import SnippetLang.Proofs.Lexing.Munching
import SnippetLang.Proofs.Parsing.Gaps
import SnippetLang.Proofs.Spans.Nodes

/-!
# Parsing nests spans

Whatever the tokens are, the spans of a tree are nested.  A production begins at the token that its
reader is at and ends at the token that it leaves to the next one, at the latest.  Where nothing can
be read, what stands for it has the span of that token, which is not passed; but the phrase behind
it begins at the same token, so it does not end before it.
-/

namespace SnippetLang

open SnippetLang.Tree (Node InOrder)

/-! ### Tokens in order -/

/-- Tokens stand one behind the other. -/
structure Ordered (tokens : List Token) : Prop where
  valid : ∀ t ∈ tokens, t.span.Valid
  apart : tokens.Pairwise fun t u => t.span.stop ≤ u.span.start

theorem Ordered.suffix {tokens rest : List Token} (h : Ordered tokens) (hs : rest <:+ tokens) :
    Ordered rest :=
  ⟨fun t ht => h.valid t (hs.subset ht), h.apart.sublist hs.sublist⟩

namespace Reader

variable {r s : Reader}

theorem span_valid (hr : Ordered r.cursor.rest) : r.span.Valid :=
  hr.valid r.cursor.current (List.mem_cons_self ..)

theorem Reaches.ordered (h : r.Reaches s) (hr : Ordered r.cursor.rest) : Ordered s.cursor.rest :=
  hr.suffix h.rest

/-- A later reader is at a token that neither begins nor ends before that of an earlier one. -/
theorem Reaches.span_le (h : r.Reaches s) (hr : Ordered r.cursor.rest) :
    r.span.start ≤ s.span.start ∧ r.span.stop ≤ s.span.stop := by
  have hcurrent : s.cursor.current ∈ r.cursor.rest := h.rest.subset (List.mem_cons_self ..)
  rcases List.mem_cons.1 hcurrent with heq | hahead
  · simp [span, heq]
  · have hapart := (List.pairwise_cons.1 hr.apart).1 s.cursor.current hahead
    have hvalid : r.span.start ≤ r.span.stop := span_valid hr
    have hvalid' : s.span.start ≤ s.span.stop := span_valid (h.ordered hr)
    simp only [span] at *
    omega

end Reader

namespace Parser

open Reader

/-! ### Phrases -/

/-- A node was read from where one reader is to where another one is.  It begins at the token of the
    first and does not end before it, nor behind the token of the second. -/
structure Phrase (r : Reader) (n : Node) (s : Reader) : Prop where
  reaches : r.Reaches s
  nested : n.Nested
  start : n.span.start = r.span.start
  covers : r.span.stop ≤ n.span.stop
  stop : n.span.stop ≤ s.span.stop

/-- Nodes were read one after the other, perhaps with other tokens between them. -/
structure Phrases (r : Reader) (nodes : List Node) (s : Reader) : Prop where
  reaches : r.Reaches s
  nested : ∀ n ∈ nodes, n.Nested
  start : ∀ n ∈ nodes, r.span.start ≤ n.span.start
  stop : ∀ n ∈ nodes, n.span.stop ≤ s.span.stop

section

variable {r m s : Reader} {n first last : Node} {nodes others : List Node}

theorem Phrase.phrases (h : Phrase r n s) : Phrases r [n] s := by
  constructor
  · exact h.reaches
  · exact List.forall_mem_singleton.2 h.nested
  · exact List.forall_mem_singleton.2 (Nat.le_of_eq h.start.symm)
  · exact List.forall_mem_singleton.2 h.stop

namespace Phrases

theorem nil (r : Reader) : Phrases r [] r := ⟨.refl r, nofun, nofun, nofun⟩

/-- Other tokens may be passed behind the nodes. -/
theorem skip (h : Phrases r nodes m) (hr : Ordered r.cursor.rest) (hs : m.Reaches s) :
    Phrases r nodes s := by
  refine ⟨h.reaches.trans hs, h.nested, h.start, ?_⟩
  intro n hn
  exact Nat.le_trans (h.stop n hn) (hs.span_le (h.reaches.ordered hr)).2

theorem append (h : Phrases r nodes m) (hr : Ordered r.cursor.rest) (h' : Phrases m others s) :
    Phrases r (nodes ++ others) s := by
  have hskip := h.skip hr h'.reaches
  have hm := h.reaches.span_le hr
  constructor
  · exact hskip.reaches
  · exact List.forall_mem_append.2 ⟨h.nested, h'.nested⟩
  · refine List.forall_mem_append.2 ⟨h.start, ?_⟩
    intro n hn
    exact Nat.le_trans hm.1 (h'.start n hn)
  · exact List.forall_mem_append.2 ⟨hskip.stop, h'.stop⟩

/-- Nodes that were read make up one from the first to the last of them. -/
theorem close (h : Phrases r (first :: nodes) m) (hr : Ordered r.cursor.rest)
    (hfirst : first.span.start = r.span.start) (hlast : Phrase m last s)
    (hspan : n.span = first.span.merge last.span)
    (hchildren : n.children = first :: nodes ++ [last]) (hlisted : InOrder n.listed) :
    Phrase r n s := by
  have hm := h.reaches.span_le hr
  have hstart := hlast.start
  have hcovers := hlast.covers
  have hstop := h.stop first (List.mem_cons_self ..)
  have hends : n.span = ⟨r.span.start, last.span.stop⟩ := by
    rw [hspan, Span.merge_of_le (by omega) (by omega), hfirst]
  have hvalid : r.span.start ≤ r.span.stop := span_valid hr
  have hall := h.append hr hlast.phrases
  rw [← hchildren] at hall
  refine ⟨hall.reaches, .mk ?_ ?_ hlisted hall.nested, ?_, ?_, ?_⟩
  · simp only [hends, Span.Valid]
    omega
  · intro c hc
    rw [hends]
    refine ⟨hall.start c hc, ?_⟩
    rw [hchildren] at hc
    rcases List.mem_append.1 hc with hc | hc
    · have := h.stop c hc
      simp only
      omega
    · rcases List.mem_singleton.1 hc with rfl
      exact Nat.le_refl _
  · rw [hends]
  · simp only [hends]
    omega
  · simp only [hends]
    exact hlast.stop

end Phrases

/-- A node without others inside it has the span of one token. -/
theorem phrase_leaf (hr : Ordered r.cursor.rest) (hs : r.Reaches s) (hspan : n.span = r.span)
    (hchildren : n.children = []) (hlisted : n.listed = []) : Phrase r n s := by
  refine ⟨hs, .leaf ?_ hchildren hlisted, ?_, ?_, ?_⟩
  · rw [hspan]
    exact span_valid hr
  · rw [hspan]
  · exact Nat.le_of_eq (congrArg Span.stop hspan).symm
  · rw [hspan]
    exact (hs.span_le hr).2

theorem phrase_token (hr : Ordered r.cursor.rest) (hs : r.Reaches s) :
    Phrase r (.token r.span) s :=
  phrase_leaf hr hs rfl rfl rfl

/-- A name that is missing has the span of the token that is found in its place. -/
theorem phrase_ident (hr : Ordered r.cursor.rest) : Phrase r (.ident r.ident.1) r.ident.2 := by
  refine phrase_leaf hr r.reaches_ident ?_ rfl rfl
  unfold ident
  split <;> rfl

/-- A node may be made of a single other one. -/
theorem Phrase.wrap {c : Node} (h : Phrase r c s) (hspan : n.span = c.span)
    (hchildren : n.children = [c]) (hlisted : n.listed = []) : Phrase r n s := by
  refine ⟨h.reaches, .mk ?_ ?_ ?_ ?_, ?_, ?_, ?_⟩
  · rw [hspan]
    exact h.nested.valid
  · rw [hchildren, hspan]
    exact List.forall_mem_singleton.2 (.refl _)
  · rw [hlisted]
    exact List.Pairwise.nil
  · rw [hchildren]
    exact List.forall_mem_singleton.2 h.nested
  · rw [hspan]
    exact h.start
  · rw [hspan]
    exact h.covers
  · rw [hspan]
    exact h.stop

end

/-! ### Expressions -/

mutual

theorem phrase_expression : (bound : Nat) → (r : Reader) → Ordered r.cursor.rest →
    Phrase r (.expr (expression bound r).1) (expression bound r).2
  | 0, r, hr => phrase_leaf hr (.refl r) rfl rfl rfl
  | bound + 1, r, hr => by
    rw [expression]
    split
    · have htarget := (phrase_ident hr).phrases.skip hr (reaches_advance _)
      have hvalue := phrase_expression bound r.ident.2.advance (htarget.reaches.ordered hr)
      exact htarget.close hr (phrase_ident hr).start hvalue rfl rfl .nil
    · exact phrase_binary bound 0 r hr

theorem phrase_binary : (bound outer : Nat) → (r : Reader) → Ordered r.cursor.rest →
    Phrase r (.expr (binary bound outer r).1) (binary bound outer r).2
  | 0, _, r, hr => phrase_leaf hr (.refl r) rfl rfl rfl
  | bound + 1, outer, r, hr => by
    rw [binary]
    split
    · have hop := phrase_token hr r.reaches_advance
      have hoperand := phrase_binary bound UnaryOp.precedence r.advance (hop.reaches.ordered hr)
      exact phrase_climb bound outer _ hr (hop.phrases.close hr rfl hoperand rfl rfl .nil)
    · exact phrase_climb bound outer _ hr (phrase_primary bound r hr)

/-- The operators behind a left operand make one expression with it. -/
theorem phrase_climb : (bound outer : Nat) → {left : Tree.Expr} → {m : Reader} → (r : Reader) →
    Ordered r.cursor.rest → Phrase r (.expr left) m →
    Phrase r (.expr (climb bound outer left m).1) (climb bound outer left m).2
  | 0, _, _, _, _, _, hleft => hleft
  | bound + 1, outer, left, m, r, hr, hleft => by
    have hm := hleft.reaches.ordered hr
    rw [climb]
    split
    · next op _ =>
      split
      · exact hleft
      · have hop := hleft.phrases.append hr (phrase_token hm m.reaches_advance).phrases
        have hright := phrase_binary bound op.precedence m.advance (hop.reaches.ordered hr)
        exact phrase_climb bound outer r hr (hop.close hr hleft.start hright rfl rfl .nil)
    · exact hleft

theorem phrase_primary : (bound : Nat) → (r : Reader) → Ordered r.cursor.rest →
    Phrase r (.expr (primary bound r).1) (primary bound r).2
  | 0, r, hr => phrase_leaf hr (.refl r) rfl rfl rfl
  | bound + 1, r, hr => by
    rw [primary]
    split
    · have hopening := (phrase_token hr r.reaches_advance).phrases
      have hinner := phrase_expression bound r.advance (hopening.reaches.ordered hr)
      have hfront := hopening.append hr hinner.phrases
      have hclosing := phrase_token (hfront.reaches.ordered hr) (reaches_expect _ (.mark .rightParen))
      exact hfront.close hr rfl hclosing rfl rfl .nil
    · exact phrase_leaf hr r.reaches_advance rfl rfl rfl
    · exact phrase_leaf hr r.reaches_advance rfl rfl rfl
    · exact phrase_leaf hr r.reaches_advance rfl rfl rfl
    · exact phrase_leaf hr r.reaches_advance rfl rfl rfl
    · next name _ =>
      have hname : Phrase r (.ident ⟨name, r.span⟩) r.advance :=
        phrase_leaf hr r.reaches_advance rfl rfl rfl
      dsimp only
      split
      · have hcallee := hname.phrases.skip hr (reaches_advance _)
        have hargs := phrases_arguments bound r.advance.advance (hcallee.reaches.ordered hr)
        have hfront := hcallee.append hr hargs
        have hclosing :=
          phrase_token (hfront.reaches.ordered hr) (reaches_expect _ (.mark .rightParen))
        exact hfront.close hr rfl hclosing rfl rfl .nil
      · exact hname.wrap rfl rfl rfl
    · refine phrase_leaf hr ?_ rfl rfl rfl
      split
      · exact r.reaches_advance
      · exact r.reaches_unexpected .ident

theorem phrases_arguments : (bound : Nat) → (r : Reader) → Ordered r.cursor.rest →
    Phrases r ((arguments bound r).1.map .expr) (arguments bound r).2
  | 0, r, _ => .nil r
  | bound + 1, r, hr => by
    rw [arguments]
    split
    · exact .nil r
    · have hfirst := (phrase_expression bound r hr).phrases
      split
      next first after hafter =>
      rw [hafter] at hfirst
      split
      · have hcomma := hfirst.skip hr (reaches_advance _)
        exact hcomma.append hr (phrases_arguments bound after.advance (hcomma.reaches.ordered hr))
      · exact hfirst

end

/-! ### Statements -/

mutual

theorem phrase_statement : (bound : Nat) → (r : Reader) → Ordered r.cursor.rest →
    Phrase r (.stmt (statement bound r).1) (statement bound r).2
  | 0, r, hr => (phrase_leaf (n := .expr (.error r.span)) hr (.refl r) rfl rfl rfl).wrap rfl rfl rfl
  | bound + 1, r, hr => by
    have hkeyword := (phrase_token hr r.reaches_advance).phrases
    have hnext := hkeyword.reaches.ordered hr
    rw [statement]
    split
    · rcases phrases_statements bound true r.advance hnext with ⟨hbody, hinOrder⟩
      have hfront := hkeyword.append hr hbody
      have hclosing := phrase_token (hfront.reaches.ordered hr) (reaches_expect _ (.mark .rightBrace))
      exact hfront.close hr rfl hclosing rfl rfl hinOrder
    · exact phrase_declaration bound false r hr
    · exact phrase_declaration bound true r hr
    · have hcondition := hkeyword.append hr (phrase_expression bound r.advance hnext).phrases
      split
      next condition before hbefore =>
      rw [hbefore] at hcondition
      have hyes := phrase_statement bound before (hcondition.reaches.ordered hr)
      split
      next yes after hafter =>
      rw [hafter] at hyes
      split
      · have helse := (hcondition.append hr hyes.phrases).skip hr (reaches_advance _)
        have hno := phrase_statement bound after.advance (helse.reaches.ordered hr)
        exact helse.close hr rfl hno rfl rfl .nil
      · exact hcondition.close hr rfl hyes rfl rfl .nil
    · have hcondition := hkeyword.append hr (phrase_expression bound r.advance hnext).phrases
      have hbody := phrase_statement bound _ (hcondition.reaches.ordered hr)
      exact hcondition.close hr rfl hbody rfl rfl .nil
    · have hbody := (hkeyword.append hr (phrase_statement bound r.advance hnext).phrases).skip hr
        (reaches_expect _ (.word .whileWord))
      have hcondition := phrase_expression bound _ (hbody.reaches.ordered hr)
      exact hbody.close hr rfl hcondition rfl rfl .nil
    · have hname := (hkeyword.append hr (phrase_ident hnext).phrases).skip hr
        (reaches_expect _ (.mark .eq))
      have hlower := (hname.append hr
        (phrase_expression bound _ (hname.reaches.ordered hr)).phrases).skip hr
          (reaches_expect _ (.word .toWord))
      have hupper := hlower.append hr
        (phrase_expression bound _ (hlower.reaches.ordered hr)).phrases
      have hbody := phrase_statement bound _ (hupper.reaches.ordered hr)
      exact hupper.close hr rfl hbody rfl rfl .nil
    · exact (phrase_expression bound r hr).wrap rfl rfl rfl

theorem phrase_declaration : (bound : Nat) → (readOnly : Bool) → (r : Reader) →
    Ordered r.cursor.rest →
    Phrase r (.stmt (declaration bound readOnly r).1) (declaration bound readOnly r).2
  | 0, _, r, hr =>
    (phrase_leaf (n := .expr (.error r.span)) hr (.refl r) rfl rfl rfl).wrap rfl rfl rfl
  | bound + 1, _, r, hr => by
    have hkeyword := (phrase_token hr r.reaches_advance).phrases
    have hname := (hkeyword.append hr (phrase_ident (hkeyword.reaches.ordered hr)).phrases).skip hr
      (reaches_expect _ (.mark .eq))
    have hinit := phrase_expression bound _ (hname.reaches.ordered hr)
    rw [declaration]
    exact hname.close hr rfl hinit rfl rfl .nil

/-- Statements that are read one after the other begin one after the other, also where a token is
    skipped between them. -/
theorem phrases_statements : (bound : Nat) → (inBlock : Bool) → (r : Reader) →
    Ordered r.cursor.rest →
    Phrases r ((statements bound inBlock r).1.map .stmt) (statements bound inBlock r).2 ∧
      InOrder (statements bound inBlock r).1
  | 0, _, r, _ => ⟨.nil r, .nil⟩
  | bound + 1, inBlock, r, hr => by
    rw [statements]
    split
    · exact ⟨.nil r, .nil⟩
    · have hfirst := phrase_statement bound r hr
      split
      next first before hbefore =>
      rw [hbefore] at hfirst
      have hskip : before.Reaches
          (if before.cursor.position = r.cursor.position then before.advance else before) := by
        split
        · exact reaches_advance _
        · exact .refl _
      have hpassed := hfirst.phrases.skip hr hskip
      generalize (if before.cursor.position = r.cursor.position then before.advance else before) =
        after at hpassed
      rcases phrases_statements bound inBlock after (hpassed.reaches.ordered hr) with
        ⟨hothers, hinOrder⟩
      refine ⟨hpassed.append hr hothers, List.pairwise_cons.2 ⟨?_, hinOrder⟩⟩
      intro other hother
      have hle := (hpassed.reaches.span_le hr).1
      have hstart := hfirst.start
      have hlater := hothers.start (.stmt other) (List.mem_map_of_mem hother)
      simp only [Node.span] at hstart hlater
      omega

end

/-- The statements of a reader make up a nested tree, within any length that its tokens do not go
    beyond. -/
theorem nested_statements (bound : Nat) (inBlock : Bool) {r : Reader} (hr : Ordered r.cursor.rest)
    {length : Nat} (hlength : ∀ t ∈ r.cursor.rest, t.span.stop ≤ length) :
    (Tree.Root.mk (statements bound inBlock r).1
      ⟨r.span.start, (statements bound inBlock r).2.span.stop⟩).Nested length := by
  rcases phrases_statements bound inBlock r hr with ⟨hphrases, hinOrder⟩
  generalize (statements bound inBlock r).1 = read at hphrases hinOrder
  generalize (statements bound inBlock r).2 = after at hphrases
  have hafter := hphrases.reaches.span_le hr
  have hvalid : r.span.start ≤ r.span.stop := span_valid hr
  have hhas : ∀ n, (Tree.Root.mk read ⟨r.span.start, after.span.stop⟩).Has n →
      n.Nested ∧ n.span.Within ⟨r.span.start, after.span.stop⟩ := by
    rintro n ⟨s, hs, hn⟩
    have hmem : .stmt s ∈ read.map Node.stmt := List.mem_map_of_mem hs
    have hnested := (hphrases.nested _ hmem).has hn
    exact ⟨hnested.1, hnested.2.trans ⟨hphrases.start _ hmem, hphrases.stop _ hmem⟩⟩
  constructor
  · exact Nat.le_trans hvalid hafter.2
  · exact hlength _ (hphrases.reaches.rest.subset (List.mem_cons_self ..))
  · intro n hn
    exact ⟨(hhas n hn).1.valid, (hhas n hn).2⟩
  · intro n hn
    exact (hhas n hn).1.children
  · exact hinOrder
  · intro n hn
    exact (hhas n hn).1.inOrder

end Parser

/-- The tree of tokens in order is nested within any length that they do not go beyond. -/
theorem nested_parseTokens {tokens : List Token} (hne : tokens ≠ []) (hordered : Ordered tokens)
    {length : Nat} (hlength : ∀ t ∈ tokens, t.span.stop ≤ length) :
    (parseTokens tokens).1.Nested length := by
  cases tokens with
  | nil => exact absurd rfl hne
  | cons t ts =>
    have hstart : Ordered (Reader.ofTokens (t :: ts)).cursor.rest := hordered
    rw [parseTokens]
    exact Parser.nested_statements (Parser.depthBound (t :: ts).length) false hstart hlength

end SnippetLang
