import SnippetLang.Proofs.Parsing.Reading

/-!
# Trees without gaps

A tree has a gap where the parser found nothing to put: an error node, or a name without
characters.  The parser fills no gap silently.  When it reads a readable sequence and reports
nothing, its tree has no gaps; in particular the bound on the depth of its recursion was never used
up.
-/

namespace SnippetLang

namespace Tree

mutual

/-- Nothing is missing from an expression: it has no error node and no name without characters. -/
def Expr.Complete : Expr → Prop
  | .error _ => False
  | .int _ _ => True
  | .bool _ _ => True
  | .string _ _ => True
  | .name ident => ident.name ≠ ""
  | .assign target value => target.name ≠ "" ∧ value.Complete
  | .unary _ _ operand => operand.Complete
  | .binary left _ _ right => left.Complete ∧ right.Complete
  | .paren _ inner _ => inner.Complete
  | .call callee args _ => callee.name ≠ "" ∧ Expr.AllComplete args

/-- Nothing is missing from any of the expressions. -/
def Expr.AllComplete : List Expr → Prop
  | [] => True
  | e :: es => e.Complete ∧ Expr.AllComplete es

end

mutual

/-- Nothing is missing from a statement. -/
def Stmt.Complete : Stmt → Prop
  | .block _ body _ => Stmt.AllComplete body
  | .declare _ _ name init => name.name ≠ "" ∧ init.Complete
  | .ifThen _ condition yes => condition.Complete ∧ yes.Complete
  | .ifElse _ condition yes no => condition.Complete ∧ yes.Complete ∧ no.Complete
  | .whileDo _ condition body => condition.Complete ∧ body.Complete
  | .doWhile _ body condition => body.Complete ∧ condition.Complete
  | .count _ name lower upper body =>
    name.name ≠ "" ∧ lower.Complete ∧ upper.Complete ∧ body.Complete
  | .expr e => e.Complete

/-- Nothing is missing from any of the statements. -/
def Stmt.AllComplete : List Stmt → Prop
  | [] => True
  | s :: rest => s.Complete ∧ Stmt.AllComplete rest

end

end Tree

namespace Parser

open SnippetLang.Tree Reader

/-! ### Parsing goes forward -/

mutual

theorem reaches_expression : (bound : Nat) → (r : Reader) → r.Reaches (expression bound r).2
  | 0, r => .refl r
  | bound + 1, r => by
    rw [expression]
    split
    · exact (r.reaches_ident.trans (reaches_advance _)).trans (reaches_expression bound _)
    · exact reaches_binary bound 0 r

theorem reaches_binary : (bound outer : Nat) → (r : Reader) →
    r.Reaches (binary bound outer r).2
  | 0, _, r => .refl r
  | bound + 1, outer, r => by
    rw [binary]
    split
    · exact (r.reaches_advance.trans (reaches_binary bound _ _)).trans (reaches_climb bound _ _ _)
    · exact (reaches_primary bound r).trans (reaches_climb bound _ _ _)

theorem reaches_climb : (bound outer : Nat) → (left : Expr) → (r : Reader) →
    r.Reaches (climb bound outer left r).2
  | 0, _, _, r => .refl r
  | bound + 1, outer, left, r => by
    rw [climb]
    split
    · split
      · exact .refl r
      · exact (r.reaches_advance.trans (reaches_binary bound _ _)).trans
          (reaches_climb bound _ _ _)
    · exact .refl r

theorem reaches_primary : (bound : Nat) → (r : Reader) → r.Reaches (primary bound r).2
  | 0, r => .refl r
  | bound + 1, r => by
    rw [primary]
    split
    · exact (r.reaches_advance.trans (reaches_expression bound _)).trans (reaches_expect _ _)
    · exact r.reaches_advance
    · exact r.reaches_advance
    · exact r.reaches_advance
    · exact r.reaches_advance
    · dsimp only
      split
      · exact ((r.reaches_advance.trans (reaches_advance _)).trans
          (reaches_arguments bound _)).trans (reaches_expect _ _)
      · exact r.reaches_advance
    · split
      · exact r.reaches_advance
      · exact r.reaches_unexpected .ident

theorem reaches_arguments : (bound : Nat) → (r : Reader) → r.Reaches (arguments bound r).2
  | 0, r => .refl r
  | bound + 1, r => by
    rw [arguments]
    split
    · exact .refl r
    · split
      next first after hfirst =>
      have hreaches := (reaches_expression bound r).part hfirst
      split
      · exact (hreaches.trans (reaches_advance _)).trans (reaches_arguments bound _)
      · exact hreaches

end

mutual

theorem reaches_statement : (bound : Nat) → (r : Reader) → r.Reaches (statement bound r).2
  | 0, r => .refl r
  | bound + 1, r => by
    rw [statement]
    split
    · exact (r.reaches_advance.trans (reaches_statements bound true _)).trans (reaches_expect _ _)
    · exact reaches_declaration bound false r
    · exact reaches_declaration bound true r
    · split
      next condition before hcondition =>
      split
      next yes after hyes =>
      have hreaches := (hcondition ▸ r.reaches_advance.trans (reaches_expression bound _)).trans
        (hyes ▸ reaches_statement bound _)
      split
      · exact (hreaches.trans (reaches_advance _)).trans (reaches_statement bound _)
      · exact hreaches
    · exact (r.reaches_advance.trans (reaches_expression bound _)).trans (reaches_statement bound _)
    · exact ((r.reaches_advance.trans (reaches_statement bound _)).trans (reaches_expect _ _)).trans
        (reaches_expression bound _)
    · have hlower := ((r.reaches_advance.trans (reaches_ident _)).trans
        (reaches_expect _ (.mark .eq))).trans (reaches_expression bound _)
      exact ((hlower.trans (reaches_expect _ (.word .toWord))).trans
        (reaches_expression bound _)).trans (reaches_statement bound _)
    · exact reaches_expression bound r

theorem reaches_declaration : (bound : Nat) → (readOnly : Bool) → (r : Reader) →
    r.Reaches (declaration bound readOnly r).2
  | 0, _, r => .refl r
  | bound + 1, _, r => by
    rw [declaration]
    exact ((r.reaches_advance.trans (reaches_ident _)).trans (reaches_expect _ _)).trans
      (reaches_expression bound _)

theorem reaches_statements : (bound : Nat) → (inBlock : Bool) → (r : Reader) →
    r.Reaches (statements bound inBlock r).2
  | 0, _, r => .refl r
  | bound + 1, inBlock, r => by
    rw [statements]
    split
    · exact .refl r
    · have hfirst := reaches_statement bound r
      refine Reaches.trans ?_ (reaches_statements bound inBlock _)
      split
      · exact hfirst.trans (reaches_advance _)
      · exact hfirst

end

/-! ### Parsing leaves no gap unreported -/

theorem kind_ne_of_check {r : Reader} {expected : TokenClass} (h : r.check expected = true)
    (hne : expected ≠ .endOfFile) : r.kind ≠ .endOfFile := by
  intro heq
  have hclass := toClass_of_check h
  rw [heq] at hclass
  exact hne hclass.symm

theorem ident_of_check {r : Reader} (h : r.check .ident = true) : r.ident.2 = r.advance := by
  obtain ⟨name, hname⟩ := kind_of_check_ident h
  rw [ident_of_kind hname]

/-- What was read is complete, unless an issue was found by then. -/
def Faithful {α : Type} (complete : α → Prop) (answer : α × Reader) : Prop :=
  answer.2.issues = [] → complete answer.1

mutual

theorem faithful_expression : (bound : Nat) → (r : Reader) → Readable r.cursor.rest →
    8 * r.cursor.ahead.length + 3 ≤ bound → Faithful Expr.Complete (expression bound r)
  | bound + 1, r, hr, hbound => by
    rw [expression]
    split
    · next hassign =>
      intro h
      have hident := ident_of_check (Bool.and_eq_true_iff.1 hassign).1
      have hlength := length_advance hr (kind_ne_of_check (Bool.and_eq_true_iff.1 hassign).1 nofun)
      have hreaches := r.reaches_ident.trans (reaches_advance _)
      have := (reaches_advance r.advance).length_le
      refine ⟨ident_ne_empty hr (((reaches_advance _).trans (reaches_expression bound _)).clean h),
        faithful_expression bound r.ident.2.advance (hreaches.readable hr) ?_ h⟩
      rw [hident]
      omega
    · exact faithful_binary bound 0 r hr (by omega)

theorem faithful_binary : (bound outer : Nat) → (r : Reader) → Readable r.cursor.rest →
    8 * r.cursor.ahead.length + 2 ≤ bound → Faithful Expr.Complete (binary bound outer r)
  | bound + 1, outer, r, hr, hbound => by
    rw [binary]
    split
    · next op hop =>
      have hne : r.kind ≠ .endOfFile := fun heq => by simp [heq, unaryOp?] at hop
      have hlength := length_advance hr hne
      have hreaches := r.reaches_advance.trans (reaches_binary bound UnaryOp.precedence _)
      have := (reaches_binary bound UnaryOp.precedence r.advance).length_le
      refine faithful_climb bound outer _ _ (hreaches.readable hr) (by omega) ?_
      exact faithful_binary bound _ _ (r.reaches_advance.readable hr) (by omega)
    · have hreaches := reaches_primary bound r
      have := hreaches.length_le
      refine faithful_climb bound outer _ _ (hreaches.readable hr) (by omega) ?_
      exact faithful_primary bound r hr (by omega)

/-- The operators after a left operand keep to it. -/
theorem faithful_climb : (bound outer : Nat) → (left : Expr) → (r : Reader) →
    Readable r.cursor.rest → 8 * r.cursor.ahead.length + 1 ≤ bound →
    Faithful Expr.Complete (left, r) → Faithful Expr.Complete (climb bound outer left r)
  | bound + 1, outer, left, r, hr, hbound, hleft => by
    rw [climb]
    split
    · next op hop =>
      have hne : r.kind ≠ .endOfFile := fun heq => by simp [heq, binaryOp?] at hop
      have hlength := length_advance hr hne
      split
      · exact hleft
      · have hreaches := r.reaches_advance.trans (reaches_binary bound op.precedence _)
        have := (reaches_binary bound op.precedence r.advance).length_le
        refine faithful_climb bound outer _ _ (hreaches.readable hr) (by omega) ?_
        intro h
        exact ⟨hleft (hreaches.clean h),
          faithful_binary bound _ _ (r.reaches_advance.readable hr) (by omega) h⟩
    · exact hleft

theorem faithful_primary : (bound : Nat) → (r : Reader) → Readable r.cursor.rest →
    8 * r.cursor.ahead.length + 1 ≤ bound → Faithful Expr.Complete (primary bound r)
  | bound + 1, r, hr, hbound => by
    have hlegible := hr.legible r.cursor.current (by simp [Cursor.rest])
    rw [primary]
    split
    · next hkind =>
      have hlength := length_advance hr (by simp [hkind])
      intro h
      exact faithful_expression bound _ (r.reaches_advance.readable hr) (by omega)
        ((reaches_expect _ _).clean h)
    · exact fun _ => trivial
    · exact fun _ => trivial
    · exact fun _ => trivial
    · exact fun _ => trivial
    · next name hkind =>
      have hname : name ≠ "" := by
        rintro rfl
        exact hlegible.2 hkind
      dsimp only
      split
      · next hparen =>
        have hreaches := r.reaches_advance.trans (reaches_advance _)
        have hlength := length_advance hr (by simp [hkind])
        have := (reaches_advance r.advance).length_le
        intro h
        exact ⟨hname, faithful_arguments bound _ (hreaches.readable hr) (by omega)
          ((reaches_expect _ _).clean h)⟩
      · exact fun _ => hname
    · have hvalid : r.kind ≠ .invalid := hlegible.1
      rw [if_neg hvalid]
      intro h
      simp [unexpected] at h

theorem faithful_arguments : (bound : Nat) → (r : Reader) → Readable r.cursor.rest →
    8 * r.cursor.ahead.length + 4 ≤ bound → Faithful Expr.AllComplete (arguments bound r)
  | bound + 1, r, hr, hbound => by
    rw [arguments]
    split
    · exact fun _ => trivial
    · split
      next first after hfirst =>
      have hreaches : r.Reaches after := (reaches_expression bound r).part hfirst
      have hcomplete := hfirst ▸ faithful_expression bound r hr (by omega)
      split
      · next hcomma =>
        have hlength := length_advance (hreaches.readable hr) (kind_ne_of_check hcomma nofun)
        have := hreaches.length_le
        intro h
        have hrest := hreaches.trans (reaches_advance _)
        refine ⟨hcomplete (((reaches_advance _).trans (reaches_arguments bound _)).clean h), ?_⟩
        exact faithful_arguments bound _ (hrest.readable hr) (by omega) h
      · intro h
        exact ⟨hcomplete h, trivial⟩

end

mutual

theorem faithful_statement : (bound : Nat) → (r : Reader) → Readable r.cursor.rest →
    8 * r.cursor.ahead.length + 4 ≤ bound → Faithful Stmt.Complete (statement bound r)
  | bound + 1, r, hr, hbound => by
    have hadvanced := r.reaches_advance.readable hr
    rw [statement]
    split
    · next hkind =>
      have hlength := length_advance hr (by simp [hkind])
      intro h
      exact faithful_statements bound true _ hadvanced (by omega) ((reaches_expect _ _).clean h)
    · next hkind =>
      exact faithful_declaration bound false r hr (by simp [hkind]) (by omega)
    · next hkind =>
      exact faithful_declaration bound true r hr (by simp [hkind]) (by omega)
    · next hkind =>
      have hlength := length_advance hr (by simp [hkind])
      split
      next condition before hcondition =>
      have hbefore : r.advance.Reaches before :=
        (reaches_expression bound _).part hcondition
      have hc := hcondition ▸ faithful_expression bound _ hadvanced (by omega)
      have := hbefore.length_le
      split
      next yes after hyes =>
      have hafter : before.Reaches after := (reaches_statement bound _).part hyes
      have hy := hyes ▸ faithful_statement bound _ (hbefore.readable hadvanced) (by omega)
      have := hafter.length_le
      split
      · have helse := after.reaches_advance
        have := helse.length_le
        have hreadable := (hbefore.trans (hafter.trans helse)).readable hadvanced
        intro h
        have hno := faithful_statement bound _ hreadable (by omega) h
        have hclean := (helse.trans (reaches_statement bound _)).clean h
        exact ⟨hc (hafter.clean hclean), hy hclean, hno⟩
      · intro h
        exact ⟨hc (hafter.clean h), hy h⟩
    · next hkind =>
      have hlength := length_advance hr (by simp [hkind])
      have hbefore := reaches_expression bound r.advance
      have := hbefore.length_le
      intro h
      exact ⟨faithful_expression bound _ hadvanced (by omega) ((reaches_statement bound _).clean h),
        faithful_statement bound _ (hbefore.readable hadvanced) (by omega) h⟩
    · next hkind =>
      have hlength := length_advance hr (by simp [hkind])
      have hbody := (reaches_statement bound r.advance).trans (reaches_expect _ (.word .whileWord))
      have := hbody.length_le
      intro h
      exact ⟨faithful_statement bound _ hadvanced (by omega)
          (((reaches_expect _ _).trans (reaches_expression bound _)).clean h),
        faithful_expression bound ((statement bound r.advance).2.expect (.word .whileWord)).2
          (hbody.readable hadvanced) (by omega) h⟩
    · next hkind =>
      have hlength := length_advance hr (by simp [hkind])
      split
      next name named hname =>
      have hn := hname ▸ @ident_ne_empty r.advance hadvanced
      have hnamed : r.advance.Reaches named := (reaches_ident _).part hname
      split
      next opening before hopening =>
      have hbefore : named.Reaches before := (reaches_expect _ _).part hopening
      have := (hnamed.trans hbefore).length_le
      have hreadable := (hnamed.trans hbefore).readable hadvanced
      split
      next lower middle hlower =>
      have hl := hlower ▸ faithful_expression bound before hreadable (by omega)
      have hmiddle : before.Reaches middle := (reaches_expression bound _).part hlower
      split
      next closing after hclosing =>
      have hafter : middle.Reaches after := (reaches_expect _ _).part hclosing
      have := (hmiddle.trans hafter).length_le
      have hreadable := (hmiddle.trans hafter).readable hreadable
      split
      next upper last hupper =>
      have hu := hupper ▸ faithful_expression bound after hreadable (by omega)
      have hlast : after.Reaches last := (reaches_expression bound _).part hupper
      have := hlast.length_le
      intro h
      have hclean := (reaches_statement bound last).clean h
      have hmiddleClean := hafter.clean (hlast.clean hclean)
      exact ⟨hn (hbefore.clean (hmiddle.clean hmiddleClean)), hl hmiddleClean, hu hclean,
        faithful_statement bound last (hlast.readable hreadable) (by omega) h⟩
    · exact faithful_expression bound r hr (by omega)

theorem faithful_declaration : (bound : Nat) → (readOnly : Bool) → (r : Reader) →
    Readable r.cursor.rest → r.kind ≠ .endOfFile → 8 * r.cursor.ahead.length + 1 ≤ bound →
    Faithful Stmt.Complete (declaration bound readOnly r)
  | bound + 1, readOnly, r, hr, hkind, hbound => by
    have hlength := length_advance hr hkind
    have hadvanced := r.reaches_advance.readable hr
    have hname := (reaches_ident r.advance).trans (reaches_expect _ (.mark .eq))
    have := hname.length_le
    rw [declaration]
    intro h
    exact ⟨ident_ne_empty hadvanced
        (((reaches_expect _ _).trans (reaches_expression bound _)).clean h),
      faithful_expression bound (r.advance.ident.2.expect (.mark .eq)).2 (hname.readable hadvanced)
        (by omega) h⟩

theorem faithful_statements : (bound : Nat) → (inBlock : Bool) → (r : Reader) →
    Readable r.cursor.rest → 8 * r.cursor.ahead.length + 5 ≤ bound →
    Faithful Stmt.AllComplete (statements bound inBlock r)
  | bound + 1, inBlock, r, hr, hbound => by
    rw [statements]
    split
    · exact fun _ => trivial
    · next hstop =>
      have hkind : r.kind ≠ .endOfFile := by
        intro heq
        have hend : r.cursor.atEnd = true := beq_iff_eq.2 heq
        simp [hend] at hstop
      split
      next first after hfirst =>
      have hafter : r.Reaches after := (reaches_statement bound r).part hfirst
      have hf := hfirst ▸ faithful_statement bound r hr (by omega)
      have htotal := hafter.total
      have hne := List.length_pos_iff.2 (ahead_ne_nil hr hkind)
      split
      · next hstuck =>
        have hnext := after.reaches_advance
        have hreadable := (hafter.trans hnext).readable hr
        have hlength : after.advance.cursor.ahead.length + 1 = after.cursor.ahead.length :=
          length_advance_of_ne_nil (List.length_pos_iff.1 (by omega))
        intro h
        have hrest := faithful_statements bound inBlock after.advance hreadable (by omega) h
        exact ⟨hf ((hnext.trans (reaches_statements bound inBlock _)).clean h), hrest⟩
      · next hpassed =>
        have := hafter.length_le
        intro h
        have hrest := faithful_statements bound inBlock after (hafter.readable hr) (by omega) h
        exact ⟨hf ((reaches_statements bound inBlock _).clean h), hrest⟩

end

end Parser

/-- Tokens that can be read and that the parser reports nothing about have a tree without gaps. -/
theorem complete_of_parseTokens {tokens : List Token} (h : Readable tokens)
    (hclean : (parseTokens tokens).2 = []) :
    Tree.Stmt.AllComplete (parseTokens tokens).1.statements := by
  cases tokens with
  | nil => exact absurd rfl h.ne_nil
  | cons t ts =>
    refine Parser.faithful_statements (Parser.depthBound (t :: ts).length) false
      (Reader.ofTokens (t :: ts)) h ?_ hclean
    simp [Parser.depthBound, Reader.ofTokens, Cursor.ofTokens]
    omega

/-- A source that neither the lexer nor the parser reports anything about has a tree without
    gaps. -/
theorem complete_of_parse {source : String} (h : (parse source).issues = []) :
    Tree.Stmt.AllComplete (parse source).root.statements := by
  obtain ⟨hlexical, hsyntactic⟩ := List.append_eq_nil_iff.1 h
  exact complete_of_parseTokens (Lexer.readable_of_scan 0 _ hlexical) hsyntactic

end SnippetLang
