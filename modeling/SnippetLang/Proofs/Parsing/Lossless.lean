import SnippetLang.Proofs.Parsing.Spelling

/-!
# Parsing loses nothing

When the parser reports nothing, the tokens of its tree are the tokens that it was given, and the
tree groups as its precedences tell.  Every phrase accounts for the tokens between the reader that
it was given and the one that it answers.  The only places where a token could get lost are those
where the one expected is missing, which is reported, and the step that `statements` makes after a
statement that passed no token, which never happens without a report because the tokens of a
statement are not none.

That operators group follows from where a climb stops: it never leaves an operator unread that binds
tighter than the one before it.
-/

namespace SnippetLang

open SnippetLang.Tree

theorem Reader.rest_of_ident {r : Reader} (hr : Closed r.cursor.rest) (h : r.ident.2.issues = []) :
    r.cursor.rest = r.ident.1.token :: r.ident.2.cursor.rest := by
  unfold Reader.ident at h ⊢
  split
  · next name hkind => exact Reader.rest_of_kind hr hkind nofun
  · next hkind =>
    split at h
    · next name hname => exact absurd hname (hkind name)
    · simp [Reader.unexpected] at h

namespace Parser

open Reader

/-- The two tokens that make the parser read an assignment. -/
theorem rest_of_atAssignment {r : Reader} (hr : Closed r.cursor.rest)
    (h : atAssignment r = true) :
    r.cursor.rest =
      r.ident.1.token :: ⟨.mark .eq, r.advance.span⟩ :: r.ident.2.advance.cursor.rest := by
  obtain ⟨hcheck, hpeek⟩ := Bool.and_eq_true_iff.1 h
  obtain ⟨name, hname⟩ := kind_of_check_ident hcheck
  have hkind : r.kind ≠ .endOfFile := by simp [hname]
  rw [peek_one_of_ahead_ne_nil (ahead_ne_nil_of_closed hr hkind), beq_iff_eq] at hpeek
  rw [ident_of_kind hname, rest_of_kind hr hname nofun]
  exact congrArg _ (rest_of_mark (r.reaches_advance.closed hr) hpeek)

/-! ### What a phrase accounts for -/

/-- Unless an issue was found by then, the tokens between a reader and the one that an answer goes
    on with are those of what was read. -/
def Accounts {α : Type} (reads : α → List Token → Prop) (r : Reader) (answer : α × Reader) : Prop :=
  answer.2.issues = [] → ∃ ts, r.cursor.rest = ts ++ answer.2.cursor.rest ∧ reads answer.1 ts

/-- The expression was read from the tokens and groups. -/
def ExprFrom (e : Expr) (ts : List Token) : Prop := e.Spells ts ∧ e.Grouped

/-- The arguments were read from the tokens and group. -/
def ArgumentsFrom (es : List Expr) (ts : List Token) : Prop :=
  Expr.SpellArguments es ts ∧ Expr.AllGrouped es

/-- The statement was read from the tokens and groups. -/
def StmtFrom (s : Stmt) (ts : List Token) : Prop := s.Spells ts ∧ s.Grouped

/-- The statements were read from the tokens and group. -/
def StmtsFrom (ss : List Stmt) (ts : List Token) : Prop :=
  Stmt.AllSpell ss ts ∧ Stmt.AllGrouped ss

/-- The expression was read from the tokens and can stand behind an operator of that precedence. -/
structure OperandFrom (outer : Nat) (e : Expr) (ts : List Token) : Prop where
  spells : e.Spells ts
  grouped : e.Grouped
  closed : ¬ e.IsAssign
  above : ∀ p ∈ e.precedence?, outer < p

/-- The next operator, if the reader is at one, can stand behind the expression. -/
def CanFollow (left : Expr) (r : Reader) : Prop :=
  ∀ op, binaryOp? r.kind = some op → ∀ p ∈ left.precedence?, op.precedence ≤ p

/-- The reader is at no operator that binds tighter than one of that precedence. -/
def StopsAt (outer : Nat) (r : Reader) : Prop :=
  ∀ op, binaryOp? r.kind = some op → op.precedence ≤ outer

/-! ### Where a climb stops -/

theorem stopsAt_climb : (bound outer : Nat) → (left : Expr) → (r : Reader) →
    Closed r.cursor.rest → 8 * r.cursor.ahead.length + 1 ≤ bound →
    StopsAt outer (climb bound outer left r).2
  | bound + 1, outer, left, r, hr, hbound => by
    rw [climb]
    split
    · next op hop =>
      have hne : r.kind ≠ .endOfFile := fun heq => by simp [heq, binaryOp?] at hop
      have hlength := length_advance_of_ne_nil (ahead_ne_nil_of_closed hr hne)
      split
      · next hle =>
        intro op' hop'
        obtain rfl := Option.some.inj (hop.symm.trans hop')
        exact hle
      · have hreaches := r.reaches_advance.trans (reaches_binary bound op.precedence _)
        have := (reaches_binary bound op.precedence r.advance).length_le
        exact stopsAt_climb bound outer _ _ (hreaches.closed hr) (by omega)
    · next hop =>
      intro op' hop'
      rw [hop] at hop'
      cases hop'

theorem stopsAt_binary (bound outer : Nat) (r : Reader) (hr : Closed r.cursor.rest)
    (hbound : 8 * r.cursor.ahead.length + 2 ≤ bound) : StopsAt outer (binary bound outer r).2 := by
  cases bound with
  | zero => omega
  | succ bound =>
    rw [binary]
    split
    · have hreaches := r.reaches_advance.trans (reaches_binary bound UnaryOp.precedence _)
      have := hreaches.length_le
      exact stopsAt_climb bound outer _ _ (hreaches.closed hr) (by omega)
    · have hreaches := reaches_primary bound r
      have := hreaches.length_le
      exact stopsAt_climb bound outer _ _ (hreaches.closed hr) (by omega)

/-! ### Expressions -/

theorem kind_of_unaryOp? {k : TokenKind} {op : UnaryOp} (h : unaryOp? k = some op) :
    k = .mark op.mark := by
  cases k with
  | mark m => cases m <;> cases h <;> rfl
  | _ => cases h

theorem kind_of_binaryOp? {k : TokenKind} {op : BinaryOp} (h : binaryOp? k = some op) :
    k = .mark op.mark := by
  cases k with
  | mark m => cases m <;> cases h <;> rfl
  | _ => cases h

theorem precedence?_eq_none {e : Expr} (h : ∀ p ∈ e.precedence?, UnaryOp.precedence < p) :
    e.precedence? = none := by
  cases e with
  | binary left op span right =>
    have := h _ rfl
    have := op.precedence_lt_unary
    omega
  | _ => rfl

/-- The expression was read from the tokens and is neither an assignment nor binary, so that it can
    stand next to any operator. -/
structure AtomFrom (e : Expr) (ts : List Token) : Prop where
  spells : e.Spells ts
  grouped : e.Grouped
  closed : ¬ e.IsAssign
  precedence : e.precedence? = none

theorem AtomFrom.operand {e : Expr} {ts : List Token} (h : AtomFrom e ts) (outer : Nat) :
    OperandFrom outer e ts := by
  refine ⟨h.spells, h.grouped, h.closed, ?_⟩
  rw [h.precedence]
  nofun

theorem AtomFrom.canFollow {e : Expr} {ts : List Token} (h : AtomFrom e ts) (r : Reader) :
    CanFollow e r := by
  intro op _
  rw [h.precedence]
  nofun

mutual

theorem accounts_expression : (bound : Nat) → (r : Reader) → Closed r.cursor.rest →
    8 * r.cursor.ahead.length + 3 ≤ bound → Accounts ExprFrom r (expression bound r)
  | bound + 1, r, hr, hbound => by
    rw [expression]
    split
    · next hassign =>
      have hcheck := (Bool.and_eq_true_iff.1 hassign).1
      have hne := ahead_ne_nil_of_closed hr (kind_ne_of_check hcheck nofun)
      have hlength := length_advance_of_ne_nil hne
      have := r.advance.reaches_advance.length_le
      have hreaches := r.reaches_ident.trans (reaches_advance _)
      intro h
      obtain ⟨ts, hts, hspells, hgrouped⟩ := accounts_expression bound r.ident.2.advance
        (hreaches.closed hr) (by rw [ident_of_check hcheck]; omega) h
      refine ⟨_, ?_, .assign r.ident.1 r.advance.span hspells, hgrouped⟩
      rw [rest_of_atAssignment hr hassign, hts]
      rfl
    · intro h
      obtain ⟨ts, hts, hreads⟩ := accounts_binary bound 0 r hr (by omega) h
      exact ⟨ts, hts, hreads.spells, hreads.grouped⟩

theorem accounts_binary : (bound outer : Nat) → (r : Reader) → Closed r.cursor.rest →
    8 * r.cursor.ahead.length + 2 ≤ bound →
    Accounts (OperandFrom outer) r (binary bound outer r)
  | bound + 1, outer, r, hr, hbound => by
    rw [binary]
    split
    · next op hop =>
      have hne : r.kind ≠ .endOfFile := fun heq => by simp [heq, unaryOp?] at hop
      have hlength := length_advance_of_ne_nil (ahead_ne_nil_of_closed hr hne)
      have hreaches := r.reaches_advance.trans (reaches_binary bound UnaryOp.precedence _)
      have := (reaches_binary bound UnaryOp.precedence r.advance).length_le
      refine accounts_climb bound outer _ r _ (hreaches.closed hr) (by omega) ?_
      intro h
      obtain ⟨ts, hts, hreads⟩ := accounts_binary bound UnaryOp.precedence r.advance
        (r.reaches_advance.closed hr) (by omega) h
      have hatom := precedence?_eq_none hreads.above
      have hunary : AtomFrom (.unary op r.span (binary bound UnaryOp.precedence r.advance).1)
          (⟨.mark op.mark, r.span⟩ :: ts) :=
        ⟨.unary op r.span hreads.spells, ⟨hreads.grouped, hreads.closed, hatom⟩, id, rfl⟩
      refine ⟨_, ?_, hunary.operand outer, hunary.canFollow _⟩
      rw [rest_of_mark hr (kind_of_unaryOp? hop), hts]
      rfl
    · have hreaches := reaches_primary bound r
      have := hreaches.length_le
      refine accounts_climb bound outer _ r _ (hreaches.closed hr) (by omega) ?_
      intro h
      obtain ⟨ts, hts, hatom⟩ := accounts_primary bound r hr (by omega) h
      exact ⟨ts, hts, hatom.operand outer, hatom.canFollow _⟩

/-- A climb that is given what was read since `start` as its left operand accounts for the tokens
    since then. -/
theorem accounts_climb : (bound outer : Nat) → (left : Expr) → (start r : Reader) →
    Closed r.cursor.rest → 8 * r.cursor.ahead.length + 1 ≤ bound →
    Accounts (fun e ts => OperandFrom outer e ts ∧ CanFollow e r) start (left, r) →
    Accounts (OperandFrom outer) start (climb bound outer left r)
  | 0, _, _, _, _ => by omega
  | bound + 1, outer, left, start, r => by
    intro hr hbound hleft
    have hkeep : Accounts (OperandFrom outer) start (left, r) := by
      intro h
      obtain ⟨ts, hts, hreads, -⟩ := hleft h
      exact ⟨ts, hts, hreads⟩
    rw [climb]
    split
    · next op hop =>
      have hne : r.kind ≠ .endOfFile := fun heq => by simp [heq, binaryOp?] at hop
      have hlength := length_advance_of_ne_nil (ahead_ne_nil_of_closed hr hne)
      split
      · exact hkeep
      · next hle =>
        have hadvanced := r.reaches_advance.closed hr
        have hreaches := r.reaches_advance.trans (reaches_binary bound op.precedence _)
        have := (reaches_binary bound op.precedence r.advance).length_le
        refine accounts_climb bound outer _ start _ (hreaches.closed hr) (by omega) ?_
        intro h
        obtain ⟨ls, hls, hl, hfollow⟩ := hleft (hreaches.clean h)
        obtain ⟨rs, hrs, hr'⟩ := accounts_binary bound op.precedence r.advance hadvanced
          (by omega) h
        have hstops := stopsAt_binary bound op.precedence r.advance hadvanced (by omega)
        refine ⟨_, ?_, ⟨.binary op r.span hl.spells hr'.spells, ?_, id, ?_⟩, ?_⟩
        · rw [hls, rest_of_mark hr (kind_of_binaryOp? hop), hrs]
          simp
        · exact ⟨hl.grouped, hl.closed, hfollow op hop, hr'.grouped, hr'.closed, hr'.above⟩
        · rintro p ⟨⟩
          omega
        · rintro op' hop' p ⟨⟩
          exact hstops op' hop'
    · exact hkeep

theorem accounts_primary : (bound : Nat) → (r : Reader) → Closed r.cursor.rest →
    8 * r.cursor.ahead.length + 1 ≤ bound → Accounts AtomFrom r (primary bound r)
  | bound + 1, r, hr, hbound => by
    have hadvanced := r.reaches_advance.closed hr
    rw [primary]
    split
    · next hkind =>
      have hlength := length_advance_of_ne_nil (ahead_ne_nil_of_closed hr (by simp [hkind]))
      have hafter := (reaches_expression bound r.advance).closed hadvanced
      intro h
      obtain ⟨ts, hts, hspells, hgrouped⟩ := accounts_expression bound r.advance hadvanced
        (by omega) ((reaches_expect _ _).clean h)
      refine ⟨_, ?_, .paren r.span _ hspells, hgrouped, id, rfl⟩
      rw [rest_of_mark hr hkind, hts, rest_of_expect_mark hafter h]
      simp [expect]
    · next hkind =>
      exact fun _ => ⟨_, rest_of_word hr hkind, .bool r.span true, trivial, id, rfl⟩
    · next hkind =>
      exact fun _ => ⟨_, rest_of_word hr hkind, .bool r.span false, trivial, id, rfl⟩
    · next n hkind =>
      exact fun _ => ⟨_, rest_of_kind hr hkind nofun, .int r.span n, trivial, id, rfl⟩
    · next s hkind =>
      exact fun _ => ⟨_, rest_of_kind hr hkind nofun, .string r.span s, trivial, id, rfl⟩
    · next name hkind =>
      dsimp only
      split
      · next hparen =>
        have hreaches := r.reaches_advance.trans (reaches_advance _)
        have hlength := length_advance_of_ne_nil (ahead_ne_nil_of_closed hr (by simp [hkind]))
        have := (reaches_advance r.advance).length_le
        have hafter := (reaches_arguments bound _).closed (hreaches.closed hr)
        intro h
        obtain ⟨ts, hts, hspells, hgrouped⟩ := accounts_arguments bound r.advance.advance
          (hreaches.closed hr) (by omega) ((reaches_expect _ _).clean h)
        refine ⟨_, ?_, .call ⟨name, r.span⟩ r.advance.span _ hspells, hgrouped, id, rfl⟩
        rw [rest_of_kind hr hkind nofun,
          rest_of_mark hadvanced (kind_of_check_mark hparen), hts,
          rest_of_expect_mark hafter h]
        simp [expect, Ident.token]
      · exact fun _ =>
          ⟨_, rest_of_kind hr hkind nofun, .name ⟨name, r.span⟩, trivial, id, rfl⟩
    · split
      · next hkind =>
        exact fun _ => ⟨_, rest_of_kind hr hkind nofun, .error r.span, trivial, id, rfl⟩
      · intro h
        simp [unexpected] at h

theorem accounts_arguments : (bound : Nat) → (r : Reader) → Closed r.cursor.rest →
    8 * r.cursor.ahead.length + 4 ≤ bound → Accounts ArgumentsFrom r (arguments bound r)
  | bound + 1, r, hr, hbound => by
    rw [arguments]
    split
    · exact fun _ => ⟨[], rfl, .none, trivial⟩
    · split
      next first after hfirst =>
      have hreaches : r.Reaches after := (reaches_expression bound r).part hfirst
      have haccounts := hfirst ▸ accounts_expression bound r hr (by omega)
      have hclosed := hreaches.closed hr
      split
      · next hcomma =>
        have hlength := length_advance_of_ne_nil
          (ahead_ne_nil_of_closed hclosed (kind_ne_of_check hcomma nofun))
        have := hreaches.length_le
        have hrest := hreaches.trans (reaches_advance _)
        intro h
        obtain ⟨ts, hts, hspells, hgrouped⟩ :=
          haccounts (((reaches_advance _).trans (reaches_arguments bound _)).clean h)
        obtain ⟨us, hus, hothers, hall⟩ :=
          accounts_arguments bound after.advance (hrest.closed hr) (by omega) h
        refine ⟨_, ?_, hothers.prepend after.span hspells, hgrouped, hall⟩
        rw [hts, rest_of_mark hclosed (kind_of_check_mark hcomma), hus]
        simp
      · intro h
        obtain ⟨ts, hts, hspells, hgrouped⟩ := haccounts h
        exact ⟨ts, hts, .last hspells, hgrouped, trivial⟩

end

/-! ### Statements -/

theorem position_lt_statement {bound : Nat} {r : Reader}
    (h : Accounts StmtFrom r (statement bound r)) (hclean : (statement bound r).2.issues = []) :
    r.cursor.position < (statement bound r).2.cursor.position := by
  obtain ⟨ts, hts, hspells, -⟩ := h hclean
  have htotal := (reaches_statement bound r).total
  have hlength := congrArg List.length hts
  have hpos := List.length_pos_iff.2 hspells.ne_nil
  simp only [Cursor.rest, List.length_append, List.length_cons] at hlength
  omega

/-- Statements are accounted for where the bound is large enough for them. -/
def AccountsStatements (bound : Nat) : Prop :=
  ∀ r : Reader, Closed r.cursor.rest → 8 * r.cursor.ahead.length + 4 ≤ bound →
    Accounts StmtFrom r (statement bound r)

theorem accounts_if {bound : Nat} {r : Reader} (hstatement : AccountsStatements bound)
    (hr : Closed r.cursor.rest) (hkind : r.kind = .word .ifWord)
    (hbound : 8 * r.cursor.ahead.length + 4 ≤ bound + 1) :
    Accounts StmtFrom r (statement (bound + 1) r) := by
  have hadvanced := r.reaches_advance.closed hr
  have hlength := length_advance_of_ne_nil (ahead_ne_nil_of_closed hr (by simp [hkind]))
  rw [statement, hkind]
  dsimp only
  rcases hcondition : expression bound r.advance with ⟨condition, before⟩
  have hbefore : r.advance.Reaches before := (reaches_expression bound _).part hcondition
  have hc := hcondition ▸ accounts_expression bound r.advance hadvanced (by omega)
  have := hbefore.length_le
  have hclosed := hbefore.closed hadvanced
  rcases hyes : statement bound before with ⟨yes, after⟩
  have hafter : before.Reaches after := (reaches_statement bound _).part hyes
  have hy := hyes ▸ hstatement before hclosed (by omega)
  have := hafter.length_le
  dsimp only
  split
  · next helse =>
    have hnext := after.reaches_advance
    have := hnext.length_le
    have hclosed := hafter.closed hclosed
    intro h
    have hclean := (hnext.trans (reaches_statement bound _)).clean h
    obtain ⟨ns, hns, hno, hnoGrouped⟩ :=
      hstatement after.advance (hnext.closed hclosed) (by omega) h
    obtain ⟨cs, hcs, hspells, hgrouped⟩ := hc (hafter.clean hclean)
    obtain ⟨ys, hys, hyesSpells, hyesGrouped⟩ := hy hclean
    refine ⟨_, ?_, .ifElse r.span after.span hspells hyesSpells hno,
      hgrouped, hyesGrouped, hnoGrouped⟩
    rw [rest_of_word hr hkind, hcs, hys,
      rest_of_word hclosed (kind_of_check_word helse), hns]
    simp
  · intro h
    obtain ⟨cs, hcs, hspells, hgrouped⟩ := hc (hafter.clean h)
    obtain ⟨ys, hys, hyesSpells, hyesGrouped⟩ := hy h
    refine ⟨_, ?_, .ifThen r.span hspells hyesSpells, hgrouped, hyesGrouped⟩
    rw [rest_of_word hr hkind, hcs, hys]
    simp

theorem accounts_count {bound : Nat} {r : Reader} (hstatement : AccountsStatements bound)
    (hr : Closed r.cursor.rest) (hkind : r.kind = .word .forWord)
    (hbound : 8 * r.cursor.ahead.length + 4 ≤ bound + 1) :
    Accounts StmtFrom r (statement (bound + 1) r) := by
  have hadvanced := r.reaches_advance.closed hr
  have hlength := length_advance_of_ne_nil (ahead_ne_nil_of_closed hr (by simp [hkind]))
  rw [statement, hkind]
  dsimp only
  rcases hname : r.advance.ident with ⟨name, named⟩
  have hn := hname ▸ @rest_of_ident r.advance hadvanced
  have hnamed : r.advance.Reaches named := (reaches_ident _).part hname
  have hnamedClosed := hnamed.closed hadvanced
  rcases hopening : named.expect (.mark .eq) with ⟨opening, before⟩
  have he := hopening ▸ @rest_of_expect_mark named .eq hnamedClosed
  have hbefore : named.Reaches before := (reaches_expect _ _).part hopening
  have := (hnamed.trans hbefore).length_le
  have hclosed := hbefore.closed hnamedClosed
  rcases hlower : expression bound before with ⟨lower, middle⟩
  have hl := hlower ▸ accounts_expression bound before hclosed (by omega)
  have hmiddle : before.Reaches middle := (reaches_expression bound _).part hlower
  have hmiddleClosed := hmiddle.closed hclosed
  rcases hclosing : middle.expect (.word .toWord) with ⟨closing, after⟩
  have ht := hclosing ▸ @rest_of_expect_word middle .toWord hmiddleClosed
  have hafter : middle.Reaches after := (reaches_expect _ _).part hclosing
  have := (hmiddle.trans hafter).length_le
  have hafterClosed := hafter.closed hmiddleClosed
  rcases hupper : expression bound after with ⟨upper, last⟩
  have hu := hupper ▸ accounts_expression bound after hafterClosed (by omega)
  have hlast : after.Reaches last := (reaches_expression bound _).part hupper
  have := hlast.length_le
  intro h
  obtain ⟨bs, hbs, hbody, hbodyGrouped⟩ :=
    hstatement last (hlast.closed hafterClosed) (by omega) h
  have hlastClean := (reaches_statement bound last).clean h
  have hafterClean := hlast.clean hlastClean
  have hmiddleClean := hafter.clean hafterClean
  have hbeforeClean := hmiddle.clean hmiddleClean
  obtain ⟨ls, hls, hlowerSpells, hlowerGrouped⟩ := hl hmiddleClean
  obtain ⟨us, hus, hupperSpells, hupperGrouped⟩ := hu hlastClean
  refine ⟨_, ?_, .count r.span name named.span middle.span hlowerSpells hupperSpells hbody,
    hlowerGrouped, hupperGrouped, hbodyGrouped⟩
  rw [rest_of_word hr hkind, hn (hbefore.clean hbeforeClean), he hbeforeClean, hls,
    ht hafterClean, hus, hbs]
  simp

mutual

theorem accounts_statement : (bound : Nat) → (r : Reader) → Closed r.cursor.rest →
    8 * r.cursor.ahead.length + 4 ≤ bound → Accounts StmtFrom r (statement bound r)
  | bound + 1, r, hr, hbound => by
    have hadvanced := r.reaches_advance.closed hr
    have hpassed : r.kind ≠ .endOfFile →
        r.advance.cursor.ahead.length + 1 = r.cursor.ahead.length :=
      fun hne => length_advance_of_ne_nil (ahead_ne_nil_of_closed hr hne)
    rw [statement]
    split
    · next hkind =>
      have hlength := hpassed (by simp [hkind])
      have hafter := (reaches_statements bound true r.advance).closed hadvanced
      intro h
      obtain ⟨ts, hts, hspells, hgrouped⟩ := accounts_statements bound true r.advance hadvanced
        (by omega) ((reaches_expect _ _).clean h)
      refine ⟨_, ?_, .block r.span _ hspells, hgrouped⟩
      rw [rest_of_mark hr hkind, hts, rest_of_expect_mark hafter h]
      simp [expect]
    · next hkind =>
      exact accounts_declaration bound false r hr hkind (by omega)
    · next hkind =>
      exact accounts_declaration bound true r hr hkind (by omega)
    · next hkind =>
      have hif := accounts_if (accounts_statement bound) hr hkind hbound
      rwa [statement, hkind] at hif
    · next hkind =>
      have hlength := hpassed (by simp [hkind])
      have hbefore := reaches_expression bound r.advance
      have := hbefore.length_le
      intro h
      obtain ⟨cs, hcs, hspells, hgrouped⟩ := accounts_expression bound r.advance hadvanced
        (by omega) ((reaches_statement bound _).clean h)
      obtain ⟨bs, hbs, hbody, hbodyGrouped⟩ :=
        accounts_statement bound _ (hbefore.closed hadvanced) (by omega) h
      refine ⟨_, ?_, .whileDo r.span hspells hbody, hgrouped, hbodyGrouped⟩
      rw [rest_of_word hr hkind, hcs, hbs]
      simp
    · next hkind =>
      have hlength := hpassed (by simp [hkind])
      have hbody := reaches_statement bound r.advance
      have hexpect := reaches_expect (statement bound r.advance).2 (.word .whileWord)
      have := (hbody.trans hexpect).length_le
      intro h
      have hclean := (reaches_expression bound _).clean h
      obtain ⟨bs, hbs, hspells, hgrouped⟩ :=
        accounts_statement bound r.advance hadvanced (by omega) (hexpect.clean hclean)
      obtain ⟨cs, hcs, hcondition, hconditionGrouped⟩ := accounts_expression bound
        ((statement bound r.advance).2.expect (.word .whileWord)).2
        ((hbody.trans hexpect).closed hadvanced) (by omega) h
      refine ⟨_, ?_, .doWhile r.span (statement bound r.advance).2.span hspells hcondition,
        hgrouped, hconditionGrouped⟩
      rw [rest_of_word hr hkind, hbs,
        rest_of_expect_word (hbody.closed hadvanced) hclean, hcs]
      simp
    · next hkind =>
      have hcount := accounts_count (accounts_statement bound) hr hkind hbound
      rwa [statement, hkind] at hcount
    · intro h
      obtain ⟨ts, hts, hspells, hgrouped⟩ := accounts_expression bound r hr (by omega) h
      exact ⟨ts, hts, .expr hspells, hgrouped⟩

theorem accounts_declaration : (bound : Nat) → (readOnly : Bool) → (r : Reader) →
    Closed r.cursor.rest → r.kind = .word (if readOnly then .letWord else .varWord) →
    8 * r.cursor.ahead.length + 1 ≤ bound →
    Accounts StmtFrom r (declaration bound readOnly r)
  | bound + 1, readOnly, r, hr, hkind, hbound => by
    have hlength := length_advance_of_ne_nil (ahead_ne_nil_of_closed hr (by simp [hkind]))
    have hadvanced := r.reaches_advance.closed hr
    have hname := reaches_ident r.advance
    have hexpect := reaches_expect r.advance.ident.2 (.mark .eq)
    have := (hname.trans hexpect).length_le
    rw [declaration]
    intro h
    have hclean := (reaches_expression bound _).clean h
    obtain ⟨ts, hts, hspells, hgrouped⟩ := accounts_expression bound
      (r.advance.ident.2.expect (.mark .eq)).2 ((hname.trans hexpect).closed hadvanced)
      (by omega) h
    refine ⟨_, ?_, .declare r.span readOnly r.advance.ident.1 r.advance.ident.2.span hspells,
      hgrouped⟩
    rw [rest_of_word hr hkind, rest_of_ident hadvanced (hexpect.clean hclean),
      rest_of_expect_mark (hname.closed hadvanced) hclean, hts]
    rfl

theorem accounts_statements : (bound : Nat) → (inBlock : Bool) → (r : Reader) →
    Closed r.cursor.rest → 8 * r.cursor.ahead.length + 5 ≤ bound →
    Accounts StmtsFrom r (statements bound inBlock r)
  | bound + 1, inBlock, r, hr, hbound => by
    rw [statements]
    split
    · exact fun _ => ⟨[], rfl, .nil, trivial⟩
    · have haccounts := accounts_statement bound r hr (by omega)
      have hlt := fun hclean => position_lt_statement haccounts hclean
      split
      next first after hfirst =>
      have hafter : r.Reaches after := (reaches_statement bound r).part hfirst
      rw [hfirst] at haccounts hlt
      split
      · next hstuck =>
        -- A reader that stands still has found an issue, so nothing is asked of what is skipped.
        intro h
        have hclean := (after.reaches_advance.trans (reaches_statements bound inBlock _)).clean h
        exact absurd hstuck (Nat.ne_of_gt (hlt hclean))
      · next hmoved =>
        have htotal := hafter.total
        have hpassed := hafter.rest.length_le
        intro h
        have hclean := (reaches_statements bound inBlock after).clean h
        have := hlt hclean
        obtain ⟨ts, hts, hspells, hgrouped⟩ := haccounts hclean
        obtain ⟨us, hus, hothers, hall⟩ := accounts_statements bound inBlock after
          (hafter.closed hr) (by dsimp only at this; omega) h
        refine ⟨_, ?_, .cons hspells hothers, hgrouped, hall⟩
        rw [hts, hus, List.append_assoc]

end

/-- Outside a block, statements are read up to the end of the file. -/
theorem atEnd_statements : (bound : Nat) → (r : Reader) → Closed r.cursor.rest →
    8 * r.cursor.ahead.length + 5 ≤ bound → (statements bound false r).2.cursor.atEnd = true
  | bound + 1, r, hr, hbound => by
    rw [statements]
    split
    · next hstop => simpa using hstop
    · next hstop =>
      have hne := ahead_ne_nil_of_closed hr fun heq => hstop (by simp [Cursor.atEnd, ← heq, kind])
      have hpos := List.length_pos_iff.2 hne
      split
      next first after hfirst =>
      have hafter : r.Reaches after := (reaches_statement bound r).part hfirst
      have htotal := hafter.total
      split
      · have hlength := length_advance_of_ne_nil (r := after) (List.length_pos_iff.1 (by omega))
        exact atEnd_statements bound after.advance
          ((hafter.trans after.reaches_advance).closed hr) (by omega)
      · have := hafter.length_le
        exact atEnd_statements bound after (hafter.closed hr) (by omega)

end Parser

/-! ### Whole sequences -/

/-- The first end of the file behind tokens that are none is the one that closes them. -/
theorem eq_of_append_endOfFile {body ts ahead : List Token} {eof current : Token}
    (hbody : ∀ t ∈ body, t.kind ≠ .endOfFile) (hcurrent : current.kind = .endOfFile)
    (h : body ++ [eof] = ts ++ current :: ahead) : body = ts := by
  rcases List.append_eq_append_iff.1 h with ⟨us, hts, hus⟩ | ⟨us, hbody', hus⟩
  · cases us with
    | nil => simpa using hts.symm
    | cons u us => simp at hus
  · cases us with
    | nil => simpa using hbody'
    | cons u us =>
      obtain ⟨rfl, -⟩ := List.cons.inj hus
      exact absurd hcurrent (hbody current (by simp [hbody']))

/-- The statements that the parser answers without an issue were read from exactly the tokens before
    the end of the file, and their expressions group as the precedences of the operators tell. -/
theorem spells_of_parseTokens {body : List Token} {eof : Token}
    (hbody : ∀ t ∈ body, t.kind ≠ .endOfFile) (heof : eof.kind = .endOfFile)
    (hclean : (parseTokens (body ++ [eof])).2 = []) :
    Stmt.AllSpell (parseTokens (body ++ [eof])).1.statements body ∧
      Stmt.AllGrouped (parseTokens (body ++ [eof])).1.statements := by
  have hrest : (Reader.ofTokens (body ++ [eof])).cursor.rest = body ++ [eof] := by
    cases body <;> rfl
  have hclosed : Closed (Reader.ofTokens (body ++ [eof])).cursor.rest := by
    simp [hrest, Closed, heof]
  have hbound : 8 * (Reader.ofTokens (body ++ [eof])).cursor.ahead.length + 5 ≤
      Parser.depthBound (body ++ [eof]).length := by
    have hlength := congrArg List.length hrest
    rw [Cursor.rest, List.length_cons] at hlength
    rw [Parser.depthBound, ← hlength]
    omega
  have hend := Parser.atEnd_statements _ _ hclosed hbound
  obtain ⟨ts, hts, hspells, hgrouped⟩ := Parser.accounts_statements _ false _ hclosed hbound hclean
  rw [hrest, Cursor.rest] at hts
  obtain rfl := eq_of_append_endOfFile hbody (beq_iff_eq.1 hend) hts
  exact ⟨hspells, hgrouped⟩

/-- The tokens of `f(-1*2, @, )`, of which `@` begins none that is valid. -/
def invalidArgument : List Token :=
  [⟨.ident "f", 0, 1⟩, ⟨.mark .leftParen, ⟨1, 2⟩⟩, ⟨.mark .minus, ⟨2, 3⟩⟩, ⟨.int 1, ⟨3, 4⟩⟩,
    ⟨.mark .star, ⟨4, 5⟩⟩, ⟨.int 2, ⟨5, 6⟩⟩, ⟨.mark .comma, ⟨6, 7⟩⟩, ⟨.invalid, ⟨8, 9⟩⟩,
    ⟨.mark .comma, ⟨9, 10⟩⟩, ⟨.mark .rightParen, ⟨11, 12⟩⟩]

/-- Neither the invalid token nor the comma behind it is lost. -/
theorem spells_invalidArgument :
    (parseTokens (invalidArgument ++ [⟨.endOfFile, .point 12⟩])).2 = [] ∧
      Stmt.AllSpell (parseTokens (invalidArgument ++ [⟨.endOfFile, .point 12⟩])).1.statements
        invalidArgument := by
  have hbody : ∀ t ∈ invalidArgument, t.kind ≠ .endOfFile := by decide
  have hclean : (parseTokens (invalidArgument ++ [⟨.endOfFile, .point 12⟩])).2 = [] := by decide
  exact ⟨hclean, (spells_of_parseTokens hbody rfl hclean).1⟩

end SnippetLang
