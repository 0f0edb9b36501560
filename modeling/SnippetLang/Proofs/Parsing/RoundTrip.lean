import SnippetLang.Proofs.Parsing.Printing

/-!
# Reading back what was written down

The parser reads a canonical tree back from its tokens and reports nothing.  A phrase is read in the
middle of other tokens, so what is proved of each kind of phrase says which token may stand behind
it: the one behind an expression must not go on with it, and the one behind a statement must not
give it an alternative.

The operand of an operator is read by climbing.  What a climb has read on its left is itself a
canonical tree, which is why the statement about operands says where the climb is after the operand
and not where it ends.
-/

namespace SnippetLang

/-! ### Readers by the kinds of their tokens -/

namespace Reader

variable {r : Reader} {k k' : TokenKind} {ks : List TokenKind}

/-- The kinds of the token that a reader is at and of those after it. -/
def kinds (r : Reader) : List TokenKind := r.cursor.rest.map (·.kind)

theorem kind_of_kinds (h : r.kinds = k :: ks) : r.kind = k := (List.cons.inj h).1

theorem kinds_advance (h : r.kinds = k :: ks) (hks : ks ≠ []) : r.advance.kinds = ks := by
  obtain ⟨⟨passed, current, ahead⟩, issues⟩ := r
  obtain rfl := (List.cons.inj h).2
  cases ahead with
  | nil => exact absurd rfl hks
  | cons t ts => rfl

theorem check_of_kinds (h : r.kinds = k :: ks) (expected : TokenClass) :
    r.check expected = (k.toClass == expected) := by
  rw [← kind_of_kinds h]
  rfl

theorem not_check_word {w : Keyword} (h : r.kinds = k :: ks) (hk : k ≠ .word w) :
    r.check (.word w) = false := by
  rw [check_of_kinds h, beq_eq_false_iff_ne]
  intro hclass
  cases k with
  | word w' => exact hk (congrArg TokenKind.word (TokenClass.word.inj hclass))
  | _ => cases hclass

theorem not_check_mark {m : Mark} (h : r.kinds = k :: ks) (hk : k ≠ .mark m) :
    r.check (.mark m) = false := by
  rw [check_of_kinds h, beq_eq_false_iff_ne]
  intro hclass
  cases k with
  | mark m' => exact hk (congrArg TokenKind.mark (TokenClass.mark.inj hclass))
  | _ => cases hclass

theorem atEnd_of_kinds (h : r.kinds = k :: ks) : r.cursor.atEnd = (k == .endOfFile) := by
  rw [← kind_of_kinds h]
  rfl

theorem expect_of_kinds (h : r.kinds = k :: ks) {expected : TokenClass}
    (hk : k.toClass = expected) : r.expect expected = (r.span, r.advance) := by
  unfold expect
  rw [check_of_kinds h, if_pos (beq_iff_eq.2 hk)]

theorem ident_of_kinds {name : String} (h : r.kinds = .ident name :: ks) :
    r.ident = (⟨name, r.span⟩, r.advance) := by
  unfold ident
  rw [kind_of_kinds h]

theorem kind_peek_of_kinds (h : r.kinds = k :: k' :: ks) : (r.cursor.peek 1).kind = k' := by
  obtain ⟨⟨passed, current, ahead⟩, issues⟩ := r
  cases ahead with
  | nil => cases h
  | cons t ts => exact (List.cons.inj (List.cons.inj h).2).1

theorem length_kinds (r : Reader) : r.kinds.length = r.cursor.ahead.length + 1 := by
  simp [kinds, Cursor.rest]

end Reader

namespace Parser

open SnippetLang.Tree Reader

/-- A phrase was read back: the answer is the phrase but for its places, the reader is at the tokens
    behind it, and nothing was reported on the way. -/
def ReadsBack {α : Type} (bare : α → α) (phrase : α) (behind : List TokenKind)
    (issues : List Issue) (answer : α × Reader) : Prop :=
  ∃ (found : α) (after : Reader), answer = (found, after) ∧ bare found = bare phrase ∧
    after.kinds = behind ∧ after.issues = issues

/-- A token that does not go on with an expression that it stands behind. -/
structure Ends (k : TokenKind) : Prop where
  operator : binaryOp? k = none
  paren : k ≠ .mark .leftParen
  eq : k ≠ .mark .eq

theorem ends_of_word (w : Keyword) : Ends (.word w) := ⟨rfl, nofun, nofun⟩

theorem ends_rightParen : Ends (.mark .rightParen) := ⟨rfl, nofun, nofun⟩

theorem ends_comma : Ends (.mark .comma) := ⟨rfl, nofun, nofun⟩

/-- What a statement begins with ends an expression before it, unless it is one of the three tokens
    that go on with the expression. -/
theorem ends_of_beginsStmt {k : TokenKind} (h : beginsStmt k = true) (hk : joining k = false) :
    Ends k := by
  cases k with
  | mark m =>
    cases m with
    | plus | minus | leftParen => exact absurd hk (by decide)
    | bang | tilde | leftBrace => exact ⟨rfl, nofun, nofun⟩
    | _ => exact absurd h (by decide)
  | invalid => cases h
  | endOfFile => cases h
  | _ => exact ⟨rfl, nofun, nofun⟩

theorem exists_kinds_detached {s : Stmt} (hs : s.Canonical) (hd : s.Detached) :
    ∃ k ks, s.kinds = k :: ks ∧ Ends k := by
  obtain ⟨k, ks, hkinds, hk⟩ := exists_kinds_stmt s hs
  have hjoining : joining k = false := hd k (by rw [hkinds]; rfl)
  exact ⟨k, ks, hkinds, ends_of_beginsStmt hk hjoining⟩

/-! ### Operands -/

/-- Where the tokens of the expression stand, a climb begins with the expression on its left.  The
    token behind is no parenthesis and binds no tighter than the expression. -/
def ReadsOperand (e : Expr) : Prop :=
  ∀ (bound outer : Nat) (r : Reader) (k : TokenKind) (ks : List TokenKind),
    8 * e.kinds.length + 2 ≤ bound → r.kinds = e.kinds ++ k :: ks → k ≠ .mark .leftParen →
    (∀ p ∈ e.precedence?, outer < p ∧ ∀ op ∈ binaryOp? k, op.precedence ≤ p) →
    ∃ (depth : Nat) (left : Expr) (after : Reader), bound ≤ depth + e.kinds.length ∧
      binary bound outer r = climb depth outer left after ∧ left.bare = e.bare ∧
      after.kinds = k :: ks ∧ after.issues = r.issues

/-- The tokens of the expression are read by one call of `primary`, if there is no parenthesis
    behind them. -/
def ReadsPrimary (e : Expr) : Prop :=
  ∀ (bound : Nat) (r : Reader) (k : TokenKind) (ks : List TokenKind),
    8 * e.kinds.length + 1 ≤ bound → r.kinds = e.kinds ++ k :: ks → k ≠ .mark .leftParen →
    ReadsBack Expr.bare e (k :: ks) r.issues (primary bound r)

/-- The tokens of the expression are read by one call of `expression`, if the token behind them ends
    it. -/
def ReadsExpr (e : Expr) : Prop :=
  ∀ (bound : Nat) (r : Reader) (k : TokenKind) (ks : List TokenKind),
    8 * e.kinds.length + 3 ≤ bound → r.kinds = e.kinds ++ k :: ks → Ends k →
    ReadsBack Expr.bare e (k :: ks) r.issues (expression bound r)

/-- The tokens of arguments are read by one call of `arguments`, up to the closing parenthesis. -/
def ReadsArguments (args : List Expr) : Prop :=
  ∀ (bound : Nat) (r : Reader) (ks : List TokenKind),
    8 * (Expr.allKinds args).length + 4 ≤ bound →
    r.kinds = Expr.allKinds args ++ .mark .rightParen :: ks →
    ReadsBack Expr.allBare args (.mark .rightParen :: ks) r.issues (arguments bound r)

section

variable {e left right operand inner : Expr} {args : List Expr} {bound outer : Nat} {r : Reader}
  {k : TokenKind} {ks : List TokenKind}

theorem climb_of_stop (bound : Nat) (h : ∀ op ∈ binaryOp? r.kind, op.precedence ≤ outer) :
    climb bound outer left r = (left, r) := by
  cases bound with
  | zero => rfl
  | succ bound =>
    rw [climb]
    cases hop : binaryOp? r.kind with
    | none => rfl
    | some op => exact if_pos (h op hop)

/-- An operand is read to its end if the token behind it binds no tighter than the operator before
    it. -/
theorem ReadsOperand.reads (h : ReadsOperand e) (hbound : 8 * e.kinds.length + 2 ≤ bound)
    (hr : r.kinds = e.kinds ++ k :: ks) (hparen : k ≠ .mark .leftParen)
    (houter : ∀ p ∈ e.precedence?, outer < p) (hk : ∀ op ∈ binaryOp? k, op.precedence ≤ outer) :
    ReadsBack Expr.bare e (k :: ks) r.issues (binary bound outer r) := by
  have hfits : ∀ p ∈ e.precedence?, outer < p ∧ ∀ op ∈ binaryOp? k, op.precedence ≤ p := by
    intro p hp
    refine ⟨houter p hp, fun op hop => ?_⟩
    exact Nat.le_trans (hk op hop) (Nat.le_of_lt (houter p hp))
  obtain ⟨depth, left, after, -, heq, hsame, hbehind, hissues⟩ :=
    h bound outer r k ks hbound hr hparen hfits
  have hstop : ∀ op ∈ binaryOp? after.kind, op.precedence ≤ outer := by
    rwa [kind_of_kinds hbehind]
  exact ⟨left, after, heq.trans (climb_of_stop depth hstop), hsame, hbehind, hissues⟩

theorem ReadsPrimary.asOperand (h : ReadsPrimary e) {first : TokenKind} {others : List TokenKind}
    (hkinds : e.kinds = first :: others) (hfirst : unaryOp? first = none) : ReadsOperand e := by
  intro bound outer r k ks hbound hr hparen _
  cases bound with
  | zero => omega
  | succ bound =>
    obtain ⟨found, after, heq, hread⟩ := h bound r k ks (by omega) hr hparen
    have hkind : r.kind = first := kind_of_kinds (hr.trans (by rw [hkinds]; rfl))
    refine ⟨bound, found, after, ?_, ?_, hread⟩
    · rw [hkinds, List.length_cons]
      omega
    · rw [binary, hkind, hfirst]
      simp only [heq]

theorem readsOperand_unary {op : UnaryOp} {opSpan : Span} (h : ReadsOperand operand)
    (hoperand : operand.precedence? = none) : ReadsOperand (.unary op opSpan operand) := by
  intro bound outer r k ks hbound hr hparen _
  rw [Expr.kinds, List.length_cons] at hbound ⊢
  rw [Expr.kinds, List.cons_append] at hr
  cases bound with
  | zero => omega
  | succ bound =>
    have hadvance := kinds_advance hr (by simp)
    have hloose : ∀ op ∈ binaryOp? k, op.precedence ≤ UnaryOp.precedence := by
      intro op _
      exact Nat.le_of_lt op.precedence_lt_unary
    have hbinds : ∀ p ∈ operand.precedence?, UnaryOp.precedence < p := by
      rw [hoperand]
      exact fun p hp => absurd hp (Option.not_mem_none p)
    have hbound' : 8 * operand.kinds.length + 2 ≤ bound := by omega
    obtain ⟨found, after, heq, hsame, hread⟩ := h.reads hbound' hadvance hparen hbinds hloose
    refine ⟨bound, .unary op r.span found, after, by omega, ?_, ?_, hread⟩
    · rw [binary, kind_of_kinds hr, unaryOp?, unary?_mark]
      simp only [heq]
    · rw [Expr.bare, hsame, Expr.bare]

/-- A climb that has read the left operand goes on with the operator and the right operand. -/
theorem readsOperand_binary {op : BinaryOp} {opSpan : Span} (hl : ReadsOperand left)
    (hleft : ∀ p ∈ left.precedence?, op.precedence ≤ p) (hr : ReadsOperand right)
    (hright : ∀ p ∈ right.precedence?, op.precedence < p) :
    ReadsOperand (.binary left op opSpan right) := by
  intro bound outer r k ks hbound hkinds hparen hfits
  obtain ⟨houter, hk⟩ := hfits op.precedence rfl
  rw [Expr.kinds, List.length_append, List.length_cons] at hbound ⊢
  rw [Expr.kinds, List.append_assoc, List.cons_append] at hkinds
  -- the left operand, with the operator behind it
  have hop : binaryOp? (.mark op.mark) = some op := binary?_mark op
  have hfitsLeft : ∀ p ∈ left.precedence?,
      outer < p ∧ ∀ op' ∈ binaryOp? (.mark op.mark), op'.precedence ≤ p := by
    intro p hp
    refine ⟨Nat.lt_of_lt_of_le houter (hleft p hp), fun op' hop' => ?_⟩
    obtain rfl := Option.some.inj (hop.symm.trans hop')
    exact hleft p hp
  have hmark : TokenKind.mark op.mark ≠ .mark .leftParen := by
    intro heq
    exact op.mark_ne.1 (TokenKind.mark.inj heq)
  obtain ⟨depth, found, middle, hdepth, heq, hsame, hbehind, hissues⟩ :=
    hl bound outer r _ _ (by omega) hkinds hmark hfitsLeft
  obtain ⟨depth, rfl⟩ : ∃ d, depth = d + 1 := ⟨depth - 1, by omega⟩
  -- the operator and the right operand
  have hadvance := kinds_advance hbehind (by simp)
  have hbound' : 8 * right.kinds.length + 2 ≤ depth := by omega
  obtain ⟨found', after, heq', hsame', hread⟩ := hr.reads hbound' hadvance hparen hright hk
  refine ⟨depth, .binary found op middle.span found', after, by omega, ?_, ?_, ?_⟩
  · rw [heq, climb, kind_of_kinds hbehind, hop]
    simp only [if_neg (Nat.not_le.2 houter), heq']
  · rw [Expr.bare, hsame, hsame', Expr.bare]
  · rw [← hissues]
    exact hread

/-! ### Primary expressions -/

theorem readsPrimary_int (span : Span) (n : Int32) : ReadsPrimary (.int span n) := by
  intro bound r k ks hbound hr _
  cases bound with
  | zero => omega
  | succ bound =>
    rw [primary, kind_of_kinds hr]
    exact ⟨_, _, rfl, rfl, kinds_advance hr (List.cons_ne_nil _ _), rfl⟩

theorem readsPrimary_bool (span : Span) (b : Bool) : ReadsPrimary (.bool span b) := by
  intro bound r k ks hbound hr _
  cases bound with
  | zero => omega
  | succ bound =>
    rw [primary, kind_of_kinds hr]
    cases b with
    | true => exact ⟨_, _, rfl, rfl, kinds_advance hr (List.cons_ne_nil _ _), rfl⟩
    | false => exact ⟨_, _, rfl, rfl, kinds_advance hr (List.cons_ne_nil _ _), rfl⟩

theorem readsPrimary_string (span : Span) (text : String) : ReadsPrimary (.string span text) := by
  intro bound r k ks hbound hr _
  cases bound with
  | zero => omega
  | succ bound =>
    rw [primary, kind_of_kinds hr]
    exact ⟨_, _, rfl, rfl, kinds_advance hr (List.cons_ne_nil _ _), rfl⟩

theorem readsPrimary_name (ident : Ident) : ReadsPrimary (.name ident) := by
  intro bound r k ks hbound hr hparen
  cases bound with
  | zero => omega
  | succ bound =>
    have hadvance : r.advance.kinds = k :: ks := kinds_advance hr (List.cons_ne_nil _ _)
    rw [primary, kind_of_kinds hr]
    simp only [not_check_mark hadvance hparen]
    exact ⟨_, _, rfl, rfl, hadvance, rfl⟩

theorem readsPrimary_paren {opening closing : Span} (h : ReadsExpr inner) :
    ReadsPrimary (.paren opening inner closing) := by
  intro bound r k ks hbound hr _
  simp only [Expr.kinds, List.length_cons, List.length_append, List.length_nil] at hbound
  simp only [Expr.kinds, List.cons_append, List.append_assoc, List.nil_append] at hr
  cases bound with
  | zero => omega
  | succ bound =>
    have hadvance := kinds_advance hr (by simp)
    obtain ⟨found, after, heq, hsame, hbehind, hissues⟩ :=
      h bound r.advance _ _ (by omega) hadvance ends_rightParen
    have hclosing : after.expect (.mark .rightParen) = (after.span, after.advance) :=
      expect_of_kinds hbehind rfl
    rw [primary, kind_of_kinds hr]
    simp only [heq, hclosing]
    refine ⟨_, _, rfl, ?_, kinds_advance hbehind (List.cons_ne_nil _ _), hissues⟩
    rw [Expr.bare, hsame, Expr.bare]

theorem readsPrimary_call {callee : Ident} {closing : Span} (h : ReadsArguments args) :
    ReadsPrimary (.call callee args closing) := by
  intro bound r k ks hbound hr _
  simp only [Expr.kinds, List.length_cons, List.length_append, List.length_nil] at hbound
  simp only [Expr.kinds, List.cons_append, List.append_assoc, List.nil_append] at hr
  cases bound with
  | zero => omega
  | succ bound =>
    have hopening := kinds_advance hr (List.cons_ne_nil _ _)
    have hadvance := kinds_advance hopening (by simp)
    obtain ⟨found, after, heq, hsame, hbehind, hissues⟩ :=
      h bound r.advance.advance _ (by omega) hadvance
    have hclosing : after.expect (.mark .rightParen) = (after.span, after.advance) :=
      expect_of_kinds hbehind rfl
    rw [primary, kind_of_kinds hr]
    simp only [check_of_kinds hopening, TokenKind.toClass, BEq.rfl, if_true, heq, hclosing]
    refine ⟨_, _, rfl, ?_, kinds_advance hbehind (List.cons_ne_nil _ _), hissues⟩
    rw [Expr.bare, hsame, Expr.bare]
    rfl

/-! ### Arguments -/

theorem readsArguments_nil : ReadsArguments [] := by
  intro bound r ks hbound hr
  cases bound with
  | zero => omega
  | succ bound =>
    have hr : r.kinds = .mark .rightParen :: ks := hr
    rw [arguments, check_of_kinds hr]
    simp only [TokenKind.toClass, BEq.rfl, Bool.or_true, if_true]
    exact ⟨_, _, rfl, rfl, hr, rfl⟩

theorem not_closed_of_begins (h : beginsExpr k = true) (hr : r.kinds = k :: ks) :
    (r.cursor.atEnd || r.check (.mark .rightParen)) = false := by
  have hopen : k ≠ .mark .rightParen := by
    rintro rfl
    exact absurd h (by decide)
  have hgoes : k ≠ .endOfFile := by
    rintro rfl
    exact absurd h (by decide)
  rw [atEnd_of_kinds hr, not_check_mark hr hopen, beq_eq_false_iff_ne.2 hgoes]
  rfl

theorem readsArguments_one (he : e.Canonical) (h : ReadsExpr e) : ReadsArguments [e] := by
  intro bound r ks hbound hr
  obtain ⟨first, others, hkinds, hfirst⟩ := exists_kinds_expr e he
  rw [Expr.allKinds] at hbound hr
  cases bound with
  | zero => omega
  | succ bound =>
    have hgo := not_closed_of_begins hfirst (hr.trans (by rw [hkinds]; rfl))
    obtain ⟨found, after, heq, hsame, hbehind, hissues⟩ :=
      h bound r _ _ (by omega) hr ends_rightParen
    rw [arguments, hgo]
    simp only [heq, check_of_kinds hbehind]
    exact ⟨_, _, rfl, congrArg (fun e => [e]) hsame, hbehind, hissues⟩

theorem readsArguments_cons {e' : Expr} {es : List Expr} (he : e.Canonical) (h : ReadsExpr e)
    (hes : ReadsArguments (e' :: es)) : ReadsArguments (e :: e' :: es) := by
  intro bound r ks hbound hr
  obtain ⟨first, others, hkinds, hfirst⟩ := exists_kinds_expr e he
  rw [Expr.allKinds, List.length_append, List.length_cons] at hbound
  rw [Expr.allKinds, List.append_assoc, List.cons_append] at hr
  cases bound with
  | zero => omega
  | succ bound =>
    have hgo := not_closed_of_begins hfirst (hr.trans (by rw [hkinds]; rfl))
    obtain ⟨found, after, heq, hsame, hbehind, hissues⟩ :=
      h bound r _ _ (by omega) hr ends_comma
    have hadvance := kinds_advance hbehind (by simp)
    obtain ⟨others, last, heq', hsame', hread⟩ := hes bound after.advance _ (by omega) hadvance
    rw [arguments, hgo]
    simp only [heq, check_of_kinds hbehind, TokenKind.toClass, BEq.rfl, if_true, heq']
    refine ⟨_, _, rfl, ?_, ?_⟩
    · rw [Expr.allBare, hsame, hsame']
      rfl
    · rw [← hissues]
      exact hread

/-! ### Whole expressions -/

/-- No expression but an assignment is written with `=` behind a name at its beginning. -/
theorem kinds_ne_assignment : (e : Expr) → e.Canonical → ¬ e.IsAssign → ∀ {k : TokenKind}
    {ks : List TokenKind}, k ≠ .mark .eq → ∀ {name : String} {others : List TokenKind},
    e.kinds ++ k :: ks ≠ .ident name :: .mark .eq :: others
  | .error _, h, _, _, _, _, _, _ => h.elim
  | .int _ _, _, _, _, _, _, _, _ => nofun
  | .bool _ _, _, _, _, _, _, _, _ => nofun
  | .string _ _, _, _, _, _, _, _, _ => nofun
  | .name _, _, _, _, _, hk, _, _ => fun heq => hk (List.cons.inj (List.cons.inj heq).2).1
  | .assign _ _, _, h, _, _, _, _, _ => absurd trivial h
  | .unary _ _ _, _, _, _, _, _, _, _ => nofun
  | .binary left op _ right, h, _, k, ks, _, _, _ => by
    have hmark : TokenKind.mark op.mark ≠ .mark .eq := by
      intro heq
      exact op.mark_ne.2 (TokenKind.mark.inj heq)
    rw [Expr.kinds, List.append_assoc, List.cons_append]
    exact kinds_ne_assignment left h.1 h.2.1 hmark
  | .paren _ _ _, _, _, _, _, _, _, _ => nofun
  | .call _ _ _, _, _, _, _, _, _, _ => nofun

theorem not_atAssignment (he : e.Canonical) (hassign : ¬ e.IsAssign)
    (hr : r.kinds = e.kinds ++ k :: ks) (hk : k ≠ .mark .eq) : atAssignment r = false := by
  obtain ⟨first, others, hkinds, -⟩ := exists_kinds_expr e he
  obtain ⟨second, rest, hsecond⟩ : ∃ second rest, others ++ k :: ks = second :: rest :=
    List.exists_cons_of_ne_nil (by simp)
  have hboth : e.kinds ++ k :: ks = first :: second :: rest := by
    rw [hkinds, List.cons_append, hsecond]
  rw [hboth] at hr
  unfold atAssignment
  rw [check_of_kinds hr, kind_peek_of_kinds hr, Bool.and_eq_false_iff]
  by_cases heq : second = .mark .eq
  · subst heq
    left
    rw [beq_eq_false_iff_ne]
    intro hclass
    cases first with
    | ident name => exact kinds_ne_assignment e he hassign hk hboth
    | _ => cases hclass
  · right
    exact beq_eq_false_iff_ne.2 heq

theorem ReadsOperand.asExpr (h : ReadsOperand e) (he : e.Canonical) (hassign : ¬ e.IsAssign) :
    ReadsExpr e := by
  intro bound r k ks hbound hr hk
  cases bound with
  | zero => omega
  | succ bound =>
    have houter : ∀ p ∈ e.precedence?, 0 < p := by
      intro p hp
      cases e with
      | binary left op opSpan right =>
        obtain rfl := Option.some.inj hp
        exact op.precedence_pos
      | _ => cases hp
    have hstop : ∀ op ∈ binaryOp? k, op.precedence ≤ 0 := by
      rw [hk.operator]
      exact fun op hop => absurd hop (Option.not_mem_none op)
    rw [expression, not_atAssignment he hassign hr hk.eq]
    exact h.reads (by omega) hr hk.paren houter hstop

theorem readsExpr_assign {target : Ident} (h : ReadsExpr e) : ReadsExpr (.assign target e) := by
  intro bound r k ks hbound hr hk
  rw [Expr.kinds, List.length_cons, List.length_cons] at hbound
  have hr : r.kinds = .ident target.name :: .mark .eq :: (e.kinds ++ k :: ks) := hr
  cases bound with
  | zero => omega
  | succ bound =>
    have hadvance := kinds_advance (kinds_advance hr (List.cons_ne_nil _ _)) (by simp)
    have hat : atAssignment r = true := by
      unfold atAssignment
      rw [check_of_kinds hr, kind_peek_of_kinds hr]
      rfl
    obtain ⟨found, after, heq, hsame, hread⟩ := h bound r.advance.advance _ _ (by omega) hadvance hk
    rw [expression, hat]
    simp only [if_true, ident_of_kinds hr, heq]
    refine ⟨_, _, rfl, ?_, hread⟩
    rw [Expr.bare, hsame, Expr.bare]
    rfl

end

/-- An expression that is read back as an operand is read back as a whole too. -/
theorem ReadsOperand.both {e : Expr} (h : ReadsOperand e) (he : e.Canonical)
    (hassign : ¬ e.IsAssign) : ReadsExpr e ∧ (¬ e.IsAssign → ReadsOperand e) :=
  ⟨h.asExpr he hassign, fun _ => h⟩

mutual

/-- A canonical expression is read back, as a whole and, unless it is an assignment, as an
    operand. -/
theorem readsExpr : (e : Expr) → e.Canonical → ReadsExpr e ∧ (¬ e.IsAssign → ReadsOperand e)
  | .error _, h => h.elim
  | .int span n, h => ((readsPrimary_int span n).asOperand rfl rfl).both h id
  | .bool span b, h => ((readsPrimary_bool span b).asOperand rfl rfl).both h id
  | .string span text, h => ((readsPrimary_string span text).asOperand rfl rfl).both h id
  | .name ident, h => ((readsPrimary_name ident).asOperand rfl rfl).both h id
  | .assign target value, h =>
    ⟨readsExpr_assign (readsExpr value h.2).1, fun hassign => absurd trivial hassign⟩
  | .unary op opSpan operand, h =>
    (readsOperand_unary ((readsExpr operand h.1).2 h.2.1) h.2.2).both h id
  | .binary left op opSpan right, h => by
    obtain ⟨hl, hlassign, hleft, hr, hrassign, hright⟩ := id h
    have hoperand : ReadsOperand (.binary left op opSpan right) :=
      readsOperand_binary ((readsExpr left hl).2 hlassign) hleft
        ((readsExpr right hr).2 hrassign) hright
    exact hoperand.both h id
  | .paren opening inner closing, h => by
    have hprimary : ReadsPrimary (.paren opening inner closing) :=
      readsPrimary_paren (readsExpr inner h).1
    exact (hprimary.asOperand rfl rfl).both h id
  | .call callee args closing, h => by
    have hprimary : ReadsPrimary (.call callee args closing) :=
      readsPrimary_call (readsArguments args h.2)
    exact (hprimary.asOperand rfl rfl).both h id

theorem readsArguments : (args : List Expr) → Expr.AllCanonical args → ReadsArguments args
  | [], _ => readsArguments_nil
  | [e], h => readsArguments_one h.1 (readsExpr e h.1).1
  | e :: e' :: es, h =>
    readsArguments_cons h.1 (readsExpr e h.1).1 (readsArguments (e' :: es) h.2)

end

/-! ### Statements -/

/-- The tokens of the statement are read by one call of `statement`, if the token behind them goes on
    neither with an expression nor with a conditional at the end of the statement. -/
def ReadsStmt (s : Stmt) : Prop :=
  ∀ (bound : Nat) (r : Reader) (k : TokenKind) (ks : List TokenKind),
    8 * s.kinds.length + 4 ≤ bound → r.kinds = s.kinds ++ k :: ks →
    (s.EndsInExpr → Ends k) → (s.EndsOpen → k ≠ .word .elseWord) →
    ReadsBack Stmt.bare s (k :: ks) r.issues (statement bound r)

/-- A token that ends a sequence of statements. -/
def Closes (inBlock : Bool) (k : TokenKind) : Prop :=
  k = .endOfFile ∨ inBlock = true ∧ k = .mark .rightBrace

/-- The tokens of statements are read by one call of `statements`, up to a token that ends them. -/
def ReadsStmts (body : List Stmt) : Prop :=
  ∀ (bound : Nat) (inBlock : Bool) (r : Reader) (k : TokenKind) (ks : List TokenKind),
    8 * (Stmt.allKinds body).length + 5 ≤ bound → r.kinds = Stmt.allKinds body ++ k :: ks →
    Closes inBlock k →
    ReadsBack Stmt.allBare body (k :: ks) r.issues (statements bound inBlock r)

section

variable {e condition lower upper : Expr} {s yes no : Stmt} {body : List Stmt} {bound : Nat}
  {r : Reader} {k : TokenKind} {ks : List TokenKind} {opening closing keyword : Span} {name : Ident}

theorem Closes.ends {inBlock : Bool} (h : Closes inBlock k) : Ends k := by
  rcases h with rfl | ⟨-, rfl⟩
  · exact ⟨rfl, nofun, nofun⟩
  · exact ⟨rfl, nofun, nofun⟩

theorem Closes.ne_word {inBlock : Bool} (h : Closes inBlock k) (w : Keyword) : k ≠ .word w := by
  rcases h with rfl | ⟨-, rfl⟩
  · exact nofun
  · exact nofun

/-- An expression is read up to a statement behind it that does not go on with it. -/
theorem ReadsExpr.before (h : ReadsExpr e) (hs : s.Canonical) (hd : s.Detached) (bound : Nat)
    (hbound : 8 * e.kinds.length + 3 ≤ bound) (hr : r.kinds = e.kinds ++ (s.kinds ++ ks)) :
    ReadsBack Expr.bare e (s.kinds ++ ks) r.issues (expression bound r) := by
  obtain ⟨k, others, hkinds, hk⟩ := exists_kinds_detached hs hd
  rw [hkinds, List.cons_append] at hr ⊢
  exact h bound r k _ hbound hr hk

theorem readsStmt_block (h : ReadsStmts body) : ReadsStmt (.block opening body closing) := by
  intro bound r k ks hbound hr _ _
  simp only [Stmt.kinds, List.length_cons, List.length_append, List.length_nil] at hbound
  simp only [Stmt.kinds, List.cons_append, List.append_assoc, List.nil_append] at hr
  cases bound with
  | zero => omega
  | succ bound =>
    have hadvance := kinds_advance hr (by simp)
    obtain ⟨found, after, heq, hsame, hbehind, hissues⟩ :=
      h bound true r.advance _ _ (by omega) hadvance (.inr ⟨rfl, rfl⟩)
    have hclosing : after.expect (.mark .rightBrace) = (after.span, after.advance) :=
      expect_of_kinds hbehind rfl
    rw [statement, kind_of_kinds hr]
    simp only [heq, hclosing]
    refine ⟨_, _, rfl, ?_, kinds_advance hbehind (List.cons_ne_nil _ _), hissues⟩
    rw [Stmt.bare, hsame, Stmt.bare]

theorem readsBack_declaration (h : ReadsExpr e) {w : Keyword} (readOnly : Bool)
    (hbound : 8 * e.kinds.length + 4 ≤ bound)
    (hr : r.kinds = .word w :: .ident name.name :: .mark .eq :: (e.kinds ++ k :: ks))
    (hk : Ends k) :
    ReadsBack Stmt.bare (.declare keyword readOnly name e) (k :: ks) r.issues
      (declaration bound readOnly r) := by
  cases bound with
  | zero => omega
  | succ bound =>
    have hname := kinds_advance hr (List.cons_ne_nil _ _)
    have heq := kinds_advance hname (List.cons_ne_nil _ _)
    have hassign : r.advance.advance.expect (.mark .eq) = (_, r.advance.advance.advance) :=
      expect_of_kinds heq rfl
    have hinit := kinds_advance heq (by simp)
    obtain ⟨found, after, hfound, hsame, hread⟩ := h bound _ _ _ (by omega) hinit hk
    rw [declaration, ident_of_kinds hname]
    simp only [hassign, hfound]
    refine ⟨_, _, rfl, ?_, hread⟩
    rw [Stmt.bare, hsame, Stmt.bare]
    rfl

theorem readsStmt_declare {readOnly : Bool} (h : ReadsExpr e) :
    ReadsStmt (.declare keyword readOnly name e) := by
  intro bound r k ks hbound hr hk _
  simp only [Stmt.kinds, List.length_cons] at hbound
  simp only [Stmt.kinds, List.cons_append] at hr
  cases bound with
  | zero => omega
  | succ bound =>
    have hread : ReadsBack Stmt.bare (.declare keyword readOnly name e) (k :: ks) r.issues
        (declaration bound readOnly r) :=
      readsBack_declaration h readOnly (by omega) hr (hk trivial)
    rw [statement, kind_of_kinds hr]
    cases readOnly with
    | true => exact hread
    | false => exact hread

theorem readsStmt_ifThen (hc : ReadsExpr condition) (hyes : yes.Canonical) (hd : yes.Detached)
    (hy : ReadsStmt yes) : ReadsStmt (.ifThen keyword condition yes) := by
  intro bound r k ks hbound hr hk helse
  simp only [Stmt.kinds, List.length_cons, List.length_append] at hbound
  simp only [Stmt.kinds, List.cons_append, List.append_assoc] at hr
  cases bound with
  | zero => omega
  | succ bound =>
    have hadvance := kinds_advance hr (by simp)
    obtain ⟨found, middle, heq, hsame, hmiddle, hissues⟩ :=
      hc.before hyes hd bound (by omega) hadvance
    obtain ⟨found', after, heq', hsame', hafter, hissues'⟩ :=
      hy bound middle k ks (by omega) hmiddle hk fun _ => helse trivial
    rw [statement, kind_of_kinds hr]
    simp only [heq, heq', not_check_word hafter (helse trivial)]
    refine ⟨_, _, rfl, ?_, hafter, hissues'.trans hissues⟩
    rw [Stmt.bare, hsame, hsame', Stmt.bare]

theorem readsStmt_ifElse (hc : ReadsExpr condition) (hyes : yes.Canonical) (hd : yes.Detached)
    (hopen : ¬ yes.EndsOpen) (hy : ReadsStmt yes) (hn : ReadsStmt no) :
    ReadsStmt (.ifElse keyword condition yes no) := by
  intro bound r k ks hbound hr hk helse
  simp only [Stmt.kinds, List.length_cons, List.length_append] at hbound
  simp only [Stmt.kinds, List.cons_append, List.append_assoc] at hr
  cases bound with
  | zero => omega
  | succ bound =>
    have hadvance := kinds_advance hr (by simp)
    obtain ⟨found, middle, heq, hsame, hmiddle, hissues⟩ :=
      hc.before hyes hd bound (by omega) hadvance
    obtain ⟨found', after, heq', hsame', hafter, hissues'⟩ :=
      hy bound middle _ _ (by omega) hmiddle (fun _ => ends_of_word _)
        fun h => absurd h hopen
    have hother := kinds_advance hafter (by simp)
    obtain ⟨found'', last, heq'', hsame'', hlast, hissues''⟩ :=
      hn bound after.advance k ks (by omega) hother hk helse
    rw [statement, kind_of_kinds hr]
    simp only [heq, heq', check_of_kinds hafter, TokenKind.toClass, BEq.rfl, if_true, heq'']
    refine ⟨_, _, rfl, ?_, hlast, hissues''.trans (hissues'.trans hissues)⟩
    rw [Stmt.bare, hsame, hsame', hsame'', Stmt.bare]

theorem readsStmt_whileDo (hc : ReadsExpr condition) (hs : s.Canonical) (hd : s.Detached)
    (h : ReadsStmt s) : ReadsStmt (.whileDo keyword condition s) := by
  intro bound r k ks hbound hr hk helse
  simp only [Stmt.kinds, List.length_cons, List.length_append] at hbound
  simp only [Stmt.kinds, List.cons_append, List.append_assoc] at hr
  cases bound with
  | zero => omega
  | succ bound =>
    have hadvance := kinds_advance hr (by simp)
    obtain ⟨found, middle, heq, hsame, hmiddle, hissues⟩ := hc.before hs hd bound (by omega) hadvance
    obtain ⟨found', after, heq', hsame', hafter, hissues'⟩ :=
      h bound middle k ks (by omega) hmiddle hk helse
    rw [statement, kind_of_kinds hr]
    simp only [heq, heq']
    refine ⟨_, _, rfl, ?_, hafter, hissues'.trans hissues⟩
    rw [Stmt.bare, hsame, hsame', Stmt.bare]

theorem readsStmt_doWhile (h : ReadsStmt s) (hc : ReadsExpr condition) :
    ReadsStmt (.doWhile keyword s condition) := by
  intro bound r k ks hbound hr hk _
  simp only [Stmt.kinds, List.length_cons, List.length_append] at hbound
  simp only [Stmt.kinds, List.cons_append, List.append_assoc] at hr
  cases bound with
  | zero => omega
  | succ bound =>
    have hadvance := kinds_advance hr (by simp)
    obtain ⟨found, middle, heq, hsame, hmiddle, hissues⟩ :=
      h bound r.advance _ _ (by omega) hadvance (fun _ => ends_of_word _)
        fun _ => by simp
    have hword : middle.expect (.word .whileWord) = (middle.span, middle.advance) :=
      expect_of_kinds hmiddle rfl
    have htest := kinds_advance hmiddle (by simp)
    obtain ⟨found', after, heq', hsame', hafter, hissues'⟩ :=
      hc bound middle.advance k ks (by omega) htest (hk trivial)
    rw [statement, kind_of_kinds hr]
    simp only [heq, hword, heq']
    refine ⟨_, _, rfl, ?_, hafter, hissues'.trans hissues⟩
    rw [Stmt.bare, hsame, hsame', Stmt.bare]

theorem readsStmt_count (hl : ReadsExpr lower) (hu : ReadsExpr upper) (hs : s.Canonical)
    (hd : s.Detached) (h : ReadsStmt s) : ReadsStmt (.count keyword name lower upper s) := by
  intro bound r k ks hbound hr hk helse
  simp only [Stmt.kinds, List.length_cons, List.length_append] at hbound
  simp only [Stmt.kinds, List.cons_append, List.append_assoc] at hr
  cases bound with
  | zero => omega
  | succ bound =>
    have hname := kinds_advance hr (List.cons_ne_nil _ _)
    have heq := kinds_advance hname (List.cons_ne_nil _ _)
    have hassign : r.advance.advance.expect (.mark .eq) = (_, r.advance.advance.advance) :=
      expect_of_kinds heq rfl
    have hlower := kinds_advance heq (by simp)
    obtain ⟨found, middle, hfound, hsame, hmiddle, hissues⟩ :=
      hl bound _ _ _ (by omega) hlower (ends_of_word _)
    have hword : middle.expect (.word .toWord) = (middle.span, middle.advance) :=
      expect_of_kinds hmiddle rfl
    have hupper := kinds_advance hmiddle (by simp)
    obtain ⟨found', after, hfound', hsame', hafter, hissues'⟩ :=
      hu.before hs hd bound (by omega) hupper
    obtain ⟨found'', last, hfound'', hsame'', hlast, hissues''⟩ :=
      h bound after k ks (by omega) hafter hk helse
    rw [statement, kind_of_kinds hr]
    simp only [ident_of_kinds hname, hassign, hfound, hword, hfound', hfound'']
    refine ⟨_, _, rfl, ?_, hlast, hissues''.trans (hissues'.trans hissues)⟩
    rw [Stmt.bare, hsame, hsame', hsame'', Stmt.bare]
    rfl

/-- What begins an expression makes `statement` read one. -/
theorem statement_of_beginsExpr (h : beginsExpr r.kind = true) :
    statement (bound + 1) r = (.expr (expression bound r).1, (expression bound r).2) := by
  rw [statement]
  split <;> first | rfl | (next hkind => rw [hkind] at h; exact absurd h (by decide))

theorem readsStmt_expr (he : e.Canonical) (h : ReadsExpr e) : ReadsStmt (.expr e) := by
  intro bound r k ks hbound hr hk _
  obtain ⟨first, others, hkinds, hfirst⟩ := exists_kinds_expr e he
  rw [Stmt.kinds] at hbound hr
  cases bound with
  | zero => omega
  | succ bound =>
    have hkind : r.kind = first := kind_of_kinds (hr.trans (by rw [hkinds]; rfl))
    obtain ⟨found, after, heq, hsame, hread⟩ := h bound r k ks (by omega) hr (hk trivial)
    rw [statement_of_beginsExpr (hkind ▸ hfirst), heq]
    exact ⟨_, _, rfl, congrArg Stmt.expr hsame, hread⟩

/-! ### Sequences of statements -/

theorem readsStmts_nil : ReadsStmts [] := by
  intro bound inBlock r k ks hbound hr hk
  have hr : r.kinds = k :: ks := hr
  cases bound with
  | zero => omega
  | succ bound =>
    have hstop : (r.cursor.atEnd || (inBlock && r.check (.mark .rightBrace))) = true := by
      rw [atEnd_of_kinds hr, check_of_kinds hr]
      rcases hk with rfl | ⟨rfl, rfl⟩
      · rfl
      · rfl
    rw [statements, hstop]
    exact ⟨_, _, rfl, rfl, hr, rfl⟩

theorem not_stopped_of_begins (h : beginsStmt k = true) (hr : r.kinds = k :: ks) (inBlock : Bool) :
    (r.cursor.atEnd || (inBlock && r.check (.mark .rightBrace))) = false := by
  have hopen : k ≠ .mark .rightBrace := by
    rintro rfl
    exact absurd h (by decide)
  have hgoes : k ≠ .endOfFile := by
    rintro rfl
    exact absurd h (by decide)
  rw [atEnd_of_kinds hr, not_check_mark hr hopen, beq_eq_false_iff_ne.2 hgoes, Bool.and_false]
  rfl

/-- What stands behind a statement of a canonical sequence goes on with nothing in it. -/
theorem exists_behind {inBlock : Bool} (h : Stmt.AllCanonical (s :: body)) (hk : Closes inBlock k)
    (ks : List TokenKind) :
    ∃ k' ks', Stmt.allKinds body ++ k :: ks = k' :: ks' ∧ (s.EndsInExpr → Ends k') ∧
      k' ≠ .word .elseWord := by
  cases body with
  | nil => exact ⟨k, ks, rfl, fun _ => hk.ends, hk.ne_word _⟩
  | cons t rest =>
    obtain ⟨-, hdetached, ht, -, -⟩ := h
    obtain ⟨k', ks', hkinds, hk'⟩ := exists_kinds_stmt t ht
    refine ⟨k', ks' ++ Stmt.allKinds rest ++ k :: ks, ?_, ?_, ?_⟩
    · rw [Stmt.allKinds, hkinds]
      rfl
    · intro hends
      have hjoining : joining k' = false := hdetached hends t rfl k' (by rw [hkinds]; rfl)
      exact ends_of_beginsStmt hk' hjoining
    · rintro rfl
      exact absurd hk' (by decide)

theorem readsStmts_cons (hbody : Stmt.AllCanonical (s :: body)) (h : ReadsStmt s)
    (hrest : ReadsStmts body) : ReadsStmts (s :: body) := by
  intro bound inBlock r k ks hbound hr hk
  obtain ⟨first, others, hkinds, hfirst⟩ := exists_kinds_stmt s hbody.1
  obtain ⟨k', ks', hbehind, hends, helse⟩ := exists_behind hbody hk ks
  rw [Stmt.allKinds, List.length_append] at hbound
  rw [Stmt.allKinds, List.append_assoc] at hr
  cases bound with
  | zero => omega
  | succ bound =>
    have hgo := not_stopped_of_begins hfirst (hr.trans (by rw [hkinds]; rfl)) inBlock
    obtain ⟨found, after, heq, hsame, hafter, hissues⟩ :=
      h bound r k' ks' (by omega) (by rw [hr, hbehind]) hends fun _ => helse
    rw [← hbehind] at hafter
    -- the statement has tokens, so the reader is not where it was
    have hmoved : after.cursor.position ≠ r.cursor.position := by
      have htotal := ((reaches_statement bound r).part heq).total
      have hbefore := length_kinds r
      have hlater := length_kinds after
      rw [hr, List.length_append] at hbefore
      rw [hafter] at hlater
      rw [hkinds, List.length_cons] at hbefore
      omega
    obtain ⟨found', last, heq', hsame', hread⟩ :=
      hrest bound inBlock after k ks (by rw [hkinds, List.length_cons] at hbound; omega) hafter hk
    rw [statements, hgo]
    simp only [heq, if_neg hmoved, heq']
    refine ⟨_, _, rfl, ?_, ?_⟩
    · rw [Stmt.allBare, hsame, hsame', Stmt.allBare]
    · rw [← hissues]
      exact hread

end

mutual

/-- A canonical statement is read back. -/
theorem readsStmt : (s : Stmt) → s.Canonical → ReadsStmt s
  | .block _ body _, h => readsStmt_block (readsStmts body h)
  | .declare _ _ _ init, h => readsStmt_declare (readsExpr init h.2).1
  | .ifThen _ condition yes, ⟨hc, hyes, hd⟩ =>
    readsStmt_ifThen (readsExpr condition hc).1 hyes hd (readsStmt yes hyes)
  | .ifElse _ condition yes no, ⟨hc, hyes, hd, hopen, hno⟩ =>
    readsStmt_ifElse (readsExpr condition hc).1 hyes hd hopen (readsStmt yes hyes)
      (readsStmt no hno)
  | .whileDo _ condition body, ⟨hc, hbody, hd⟩ =>
    readsStmt_whileDo (readsExpr condition hc).1 hbody hd (readsStmt body hbody)
  | .doWhile _ body condition, ⟨hbody, hc⟩ =>
    readsStmt_doWhile (readsStmt body hbody) (readsExpr condition hc).1
  | .count _ _ lower upper body, ⟨_, hl, hu, hbody, hd⟩ =>
    readsStmt_count (readsExpr lower hl).1 (readsExpr upper hu).1 hbody hd (readsStmt body hbody)
  | .expr e, h => readsStmt_expr h (readsExpr e h).1

/-- A canonical sequence of statements is read back. -/
theorem readsStmts : (body : List Stmt) → Stmt.AllCanonical body → ReadsStmts body
  | [], _ => readsStmts_nil
  | s :: rest, h => readsStmts_cons h (readsStmt s h.1) (readsStmts rest h.2.2)

end

end Parser

/-- From tokens of the kinds that canonical statements are written with, the parser makes those
    statements again, but for their places, and reports nothing. -/
theorem statements_of_kinds {body : List Tree.Stmt} (h : Tree.Stmt.AllCanonical body)
    {tokens : List Token} (htokens : tokens.map (·.kind) = Tree.Stmt.allKinds body ++ [.endOfFile]) :
    (parseTokens tokens).2 = [] ∧
      Tree.Stmt.allBare (parseTokens tokens).1.statements = Tree.Stmt.allBare body := by
  have hlength : tokens.length = (Tree.Stmt.allKinds body).length + 1 := by
    rw [← List.length_map (·.kind), htokens, List.length_append]
    rfl
  have hstart : (Reader.ofTokens tokens).kinds = Tree.Stmt.allKinds body ++ [.endOfFile] := by
    cases tokens with
    | nil => simp at hlength
    | cons t ts => exact htokens
  have hbound : 8 * (Tree.Stmt.allKinds body).length + 5 ≤ Parser.depthBound tokens.length := by
    unfold Parser.depthBound
    omega
  obtain ⟨found, after, heq, hsame, -, hissues⟩ :=
    Parser.readsStmts body h _ false _ _ _ hbound hstart (.inl rfl)
  unfold parseTokens
  simp only [heq]
  exact ⟨hissues, hsame⟩

/-- Parsing undoes printing: from tokens of the kinds that a canonical tree is written with, the
    parser makes that tree again, but for its places, and reports nothing. -/
theorem parseTokens_of_kinds {root : Tree.Root} (h : Tree.Stmt.AllCanonical root.statements)
    {tokens : List Token} (htokens : tokens.map (·.kind) = root.kinds) :
    (parseTokens tokens).2 = [] ∧ (parseTokens tokens).1.bare = root.bare := by
  obtain ⟨hissues, hsame⟩ := statements_of_kinds h htokens
  refine ⟨hissues, ?_⟩
  rw [Tree.Root.bare, hsame, Tree.Root.bare]

/-- The tokens of `if a < b - 1 c = d = -2 else do f(g(), x = 3) while true !(y)`, where no phrase is
    marked off from the next one. -/
theorem parseTokens_of_kinds_conditional :
    let name (text : String) : Tree.Ident := ⟨text, Tree.nowhere⟩
    let condition : Tree.Expr := .binary (.name (name "a")) .lt Tree.nowhere
      (.binary (.name (name "b")) .minus Tree.nowhere (.int Tree.nowhere 1))
    let yes : Tree.Stmt := .expr (.assign (name "c") (.assign (name "d")
      (.unary .minus Tree.nowhere (.int Tree.nowhere 2))))
    let no : Tree.Stmt := .doWhile Tree.nowhere
      (.expr (.call (name "f") [.call (name "g") [] Tree.nowhere,
        .assign (name "x") (.int Tree.nowhere 3)] Tree.nowhere)) (.bool Tree.nowhere true)
    let last : Tree.Stmt := .expr (.unary .bang Tree.nowhere
      (.paren Tree.nowhere (.name (name "y")) Tree.nowhere))
    let root : Tree.Root := ⟨[.ifElse Tree.nowhere condition yes no, last], Tree.nowhere⟩
    let tokens : List Token := [.word .ifWord, .ident "a", .mark .lt, .ident "b", .mark .minus,
      .int 1, .ident "c", .mark .eq, .ident "d", .mark .eq, .mark .minus, .int 2, .word .elseWord,
      .word .doWord, .ident "f", .mark .leftParen, .ident "g", .mark .leftParen, .mark .rightParen,
      .mark .comma, .ident "x", .mark .eq, .int 3, .mark .rightParen, .word .whileWord,
      .word .trueWord, .mark .bang, .mark .leftParen, .ident "y", .mark .rightParen,
      .endOfFile].map fun kind => ⟨kind, Tree.nowhere⟩
    (parseTokens tokens).2 = [] ∧ (parseTokens tokens).1.bare = root.bare := by
  intro name condition yes no last root tokens
  have h : Tree.Stmt.AllCanonical root.statements := by
    simp [root, condition, yes, no, last, name, Tree.Stmt.AllCanonical, Tree.Stmt.Canonical,
      Tree.Expr.Canonical, Tree.Expr.AllCanonical, Tree.Expr.IsAssign, Tree.Expr.precedence?,
      Tree.Stmt.Detached, Tree.Stmt.kinds, Tree.Expr.kinds, Tree.joining, Tree.Stmt.EndsOpen,
      Tree.Stmt.EndsInExpr, BinaryOp.precedence, UnaryOp.mark]
  exact parseTokens_of_kinds h rfl

end SnippetLang
