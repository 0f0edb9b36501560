import SnippetLang.Proofs.Parsing.Runs

/-!
# How parsing ends

Recursive descent through a closed sequence ends, on its last token, however malformed the sequence
is: a production that passes nothing is followed by one that does, or by the step that `statements`
makes behind a statement that passed nothing.  On the way the reader never goes back.

Nothing is made up in silence either.  Where the tree has a name or an error node that no token was
read for, or a token was skipped, there is an issue.
-/

namespace SnippetLang

open SnippetLang.Tree
open Reader (Move)

/-! ### Names and error nodes -/

/-- Whether a token leaves a name or an error node in the tree. -/
def Token.isLeaf (t : Token) : Bool :=
  match t.kind with
  | .ident _ => true
  | .invalid => true
  | _ => false

namespace Tree

mutual

/-- The tokens that the names and error nodes of an expression stand for, from left to right. -/
def Expr.leaves : Expr → List Token
  | .error span => [⟨.invalid, span⟩]
  | .int _ _ => []
  | .bool _ _ => []
  | .string _ _ => []
  | .name ident => [ident.token]
  | .assign target value => target.token :: value.leaves
  | .unary _ _ operand => operand.leaves
  | .binary left _ _ right => left.leaves ++ right.leaves
  | .paren _ inner _ => inner.leaves
  | .call callee args _ => callee.token :: Expr.allLeaves args

def Expr.allLeaves : List Expr → List Token
  | [] => []
  | e :: es => e.leaves ++ Expr.allLeaves es

end

mutual

/-- The tokens that the names and error nodes of a statement stand for, from left to right. -/
def Stmt.leaves : Stmt → List Token
  | .block _ body _ => Stmt.allLeaves body
  | .declare _ _ name init => name.token :: init.leaves
  | .ifThen _ condition yes => condition.leaves ++ yes.leaves
  | .ifElse _ condition yes no => condition.leaves ++ (yes.leaves ++ no.leaves)
  | .whileDo _ condition body => condition.leaves ++ body.leaves
  | .doWhile _ body condition => body.leaves ++ condition.leaves
  | .count _ name lower upper body =>
    name.token :: (lower.leaves ++ (upper.leaves ++ body.leaves))
  | .expr e => e.leaves

def Stmt.allLeaves : List Stmt → List Token
  | [] => []
  | s :: rest => s.leaves ++ Stmt.allLeaves rest

end

@[simp] theorem isLeaf_token (ident : Ident) : ident.token.isLeaf = true := rfl

@[simp] theorem isLeaf_mark (m : Mark) (span : Span) : Token.isLeaf ⟨.mark m, span⟩ = false := rfl

@[simp] theorem isLeaf_word (w : Keyword) (span : Span) : Token.isLeaf ⟨.word w, span⟩ = false := rfl

mutual

/-- An expression has a name or an error node for each token that leaves one, and no other. -/
theorem Expr.Spells.leaves_eq : {e : Expr} → {ts : List Token} → e.Spells ts →
    e.leaves = ts.filter Token.isLeaf
  | _, _, .error _ => rfl
  | _, _, .int _ _ => rfl
  | _, _, .bool _ _ => rfl
  | _, _, .string _ _ => rfl
  | _, _, .name _ => rfl
  | _, _, .assign _ _ hvalue => by
    simp [Expr.leaves, List.filter_cons, hvalue.leaves_eq]
  | _, _, .unary _ _ hoperand => by simp [Expr.leaves, hoperand.leaves_eq]
  | _, _, .binary _ _ hleft hright => by simp [Expr.leaves, hleft.leaves_eq, hright.leaves_eq]
  | _, _, .paren _ _ hinner => by simp [Expr.leaves, hinner.leaves_eq]
  | _, _, .call _ _ _ hargs => by
    simp [Expr.leaves, List.filter_cons, hargs.leaves_eq]

theorem Expr.SpellArguments.leaves_eq : {es : List Expr} → {ts : List Token} →
    Expr.SpellArguments es ts → Expr.allLeaves es = ts.filter Token.isLeaf
  | _, _, .none => rfl
  | _, _, .last he => by simp [Expr.allLeaves, he.leaves_eq]
  | _, _, .lastComma _ he => by simp [Expr.allLeaves, he.leaves_eq]
  | _, _, .cons _ he hes => by
    have hrest := hes.leaves_eq
    simp only [Expr.allLeaves] at hrest ⊢
    simp [he.leaves_eq, hrest]

end

mutual

theorem Stmt.Spells.leaves_eq : {s : Stmt} → {ts : List Token} → s.Spells ts →
    s.leaves = ts.filter Token.isLeaf
  | _, _, .block _ _ hbody => by simp [Stmt.leaves, hbody.leaves_eq]
  | _, _, .declare _ _ _ _ hinit => by
    simp [Stmt.leaves, List.filter_cons, hinit.leaves_eq]
  | _, _, .ifThen _ hcondition hyes => by simp [Stmt.leaves, hcondition.leaves_eq, hyes.leaves_eq]
  | _, _, .ifElse _ _ hcondition hyes hno => by
    simp [Stmt.leaves, hcondition.leaves_eq, hyes.leaves_eq, hno.leaves_eq]
  | _, _, .whileDo _ hcondition hbody => by
    simp [Stmt.leaves, hcondition.leaves_eq, hbody.leaves_eq]
  | _, _, .doWhile _ _ hbody hcondition => by
    simp [Stmt.leaves, hbody.leaves_eq, hcondition.leaves_eq]
  | _, _, .count _ _ _ _ hlower hupper hbody => by
    simp [Stmt.leaves, List.filter_cons, hlower.leaves_eq, hupper.leaves_eq, hbody.leaves_eq]
  | _, _, .expr he => by simp [Stmt.leaves, he.leaves_eq]

theorem Stmt.AllSpell.leaves_eq : {ss : List Stmt} → {ts : List Token} → Stmt.AllSpell ss ts →
    Stmt.allLeaves ss = ts.filter Token.isLeaf
  | _, _, .nil => rfl
  | _, _, .cons hs hrest => by simp [Stmt.allLeaves, hs.leaves_eq, hrest.leaves_eq]

end

end Tree

/-! ### Skipped tokens -/

namespace Parser

open Reader

/-- If moves through a closed sequence skip a token, an issue is found by their end. -/
def Reported (r : Reader) (moves : List Move) : Prop :=
  Closed r.cursor.rest → .skip ∈ moves → (r.after moves).issues ≠ []

namespace Reported

variable {r middle : Reader} {m : Move} {front back moves : List Move}

theorem nil : Reported r [] := fun _ h => nomatch h

theorem cons (hm : m ≠ .skip) (h : Reported (r.move m) moves) : Reported r (m :: moves) := by
  intro hr hskip
  rcases List.mem_cons.1 hskip with hskip | hskip
  · exact absurd hskip.symm hm
  · exact h ((r.reaches_move m).closed hr) hskip

theorem pass (h : Reported r.advance moves) : Reported r (.pass :: moves) := h.cons nofun

theorem expect {expected : TokenClass} (h : Reported (r.expect expected).2 moves) :
    Reported r (r.expectMove expected :: moves) := by
  rw [← move_expectMove] at h
  refine h.cons ?_
  unfold expectMove
  split <;> nofun

theorem ident (h : Reported r.ident.2 moves) : Reported r (r.identMove :: moves) := by
  rw [← move_identMove] at h
  refine h.cons ?_
  unfold identMove
  split <;> nofun

theorem append (h : Reported r front) (hmiddle : r.after front = middle)
    (h' : Reported middle back) : Reported r (front ++ back) := by
  subst hmiddle
  intro hr hskip
  rw [after_append]
  rcases List.mem_append.1 hskip with hskip | hskip
  · exact mt (reaches_after _ back).clean (h hr hskip)
  · exact h' ((reaches_after r front).closed hr) hskip

end Reported

section

variable {c : Category} {p : Production c} {r s : Reader} {moves : List Move} {a : c.Tree}

/-- A statement that is read without an issue passes a token. -/
theorem Reads.position_lt {statement : Stmt} (h : Reads .statement r moves statement s)
    (hr : Closed r.cursor.rest) (hclean : s.issues = []) :
    r.cursor.position < s.cursor.position := by
  obtain ⟨bound, hbound, hread⟩ :=
    ((Filter.eventually_ge_atTop (8 * r.cursor.ahead.length + 4)).and h.eventually_read).exists
  have hlt := position_lt_statement (accounts_statement bound r hr hbound)
  simp only [Production.read] at hread
  rw [hread] at hlt
  exact hlt hclean

/-- A token is skipped only behind a statement that passed none, which has found an issue. -/
theorem Reads.reported (h : Reads p r moves a s) : Reported r moves := by
  induction h with
  | assignment _ _ ih => exact ih.pass.ident
  | operation _ _ ih => exact ih
  | unary _ hoperand _ ih ih' => exact (ih.append hoperand.after_eq ih').pass
  | operand _ hoperand _ ih ih' => exact ih.append hoperand.after_eq ih'
  | noOperator | weakOperator => exact .nil
  | operator _ _ hright _ ih ih' => exact (ih.append hright.after_eq ih').pass
  | paren _ hinner ih => exact (ih.append hinner.after_eq (.expect .nil)).pass
  | trueWord | falseWord | int | string | name | invalid => exact .pass .nil
  | call _ _ hargs ih => exact (ih.append hargs.after_eq (.expect .nil)).pass.pass
  | nothing => exact .cons nofun .nil
  | noArgument => exact .nil
  | argument _ he _ _ ih ih' => exact ih.append he.after_eq ih'.pass
  | lastArgument _ _ _ ih => exact ih
  | block _ hbody ih => exact (ih.append hbody.after_eq (.expect .nil)).pass
  | declare _ _ ih => exact ih.expect.ident.pass
  | ifThen _ hcondition _ _ ih ih' => exact (ih.append hcondition.after_eq ih').pass
  | ifElse _ hcondition hyes _ _ ih ih' ih'' =>
    exact (ih.append hcondition.after_eq (ih'.append hyes.after_eq ih''.pass)).pass
  | whileDo _ hcondition _ ih ih' => exact (ih.append hcondition.after_eq ih').pass
  | doWhile _ hbody _ ih ih' => exact (ih.append hbody.after_eq ih'.expect).pass
  | count _ hlower hupper _ ih ih' ih'' =>
    have hbounds := ih.append hlower.after_eq (ih'.append hupper.after_eq ih'').expect
    exact hbounds.expect.ident.pass
  | expr _ _ ih => exact ih
  | noStatement => exact .nil
  | next _ hfirst _ _ ih ih' => exact ih.append hfirst.after_eq ih'
  | @stuck _ r middle after front back _ _ _ hfirst hstuck hothers _ _ =>
    intro hr _ hclean
    have hskipped : middle.Reaches (r.after (front ++ .skip :: back)) := by
      rw [after_append, hfirst.after_eq]
      exact reaches_after middle (.skip :: back)
    exact absurd hstuck (Nat.ne_of_gt (hfirst.position_lt hr (hskipped.clean hclean)))

end

/-! ### The way to the end -/

theorem position_le_after (r : Reader) (moves : List Move) :
    r.cursor.position ≤ (r.after moves).cursor.position := by
  have hreaches := r.reaches_after moves
  have htotal := hreaches.total
  have := hreaches.length_le
  omega

/-- The tokens that are passed and those that are not make up the whole sequence. -/
theorem position_of_reaches {tokens : List Token} (hclosed : Closed tokens) {r : Reader}
    (h : (Reader.ofTokens tokens).Reaches r) :
    r.cursor.position + r.cursor.ahead.length + 1 = tokens.length := by
  have htotal := h.total
  cases tokens with
  | nil => cases hclosed
  | cons t ts =>
    simp only [Reader.ofTokens, Cursor.ofTokens, Cursor.position, List.length_nil] at htotal ⊢
    simp only [List.length_cons]
    omega

/-- A run from the beginning of a closed sequence ends at the end of the file. -/
theorem Reads.atEnd {tokens : List Token} {moves : List Move} {statements : List Stmt}
    {stop : Reader} (h : Reads (.statements false) (.ofTokens tokens) moves statements stop)
    (hclosed : Closed tokens) : stop.cursor.atEnd = true := by
  have hstart : Closed (Reader.ofTokens tokens).cursor.rest := by rwa [rest_ofTokens hclosed]
  obtain ⟨bound, hbound, hread⟩ := ((Filter.eventually_ge_atTop
    (8 * (Reader.ofTokens tokens).cursor.ahead.length + 5)).and h.eventually_read).exists
  have hatEnd := atEnd_statements bound (.ofTokens tokens) hstart hbound
  simp only [Production.read] at hread
  rwa [hread] at hatEnd

/-- What a run of the parser comes to that reads some tokens and the end of the file behind them. -/
structure Ending (body : List Token) (eof : Token) (moves : List Move) (statements : List Stmt)
    (stop : Reader) : Prop where
  /-- The tree and the issues are those that parsing answers. -/
  answer : statements = (parseTokens (body ++ [eof])).1.statements ∧
    stop.issues = (parseTokens (body ++ [eof])).2
  atEnd : stop.cursor.current = eof ∧ stop.cursor.position = body.length
  /-- The last reader is the one after all moves. -/
  reached : (Reader.ofTokens (body ++ [eof])).after moves = stop
  /-- No reader on the way is before an earlier one, or beyond the end of the file. -/
  forward : ∀ k l, k ≤ l →
    ((Reader.ofTokens (body ++ [eof])).after (moves.take k)).cursor.position ≤
        ((Reader.ofTokens (body ++ [eof])).after (moves.take l)).cursor.position ∧
      ((Reader.ofTokens (body ++ [eof])).after (moves.take l)).cursor.position ≤ body.length
  skipped : .skip ∈ moves → stop.issues ≠ []
  /-- Unless there is an issue, each error node is made from an invalid token and each name from the
      token of a name: they are those tokens one for one. -/
  made : Stmt.allLeaves statements ≠ body.filter Token.isLeaf → stop.issues ≠ []
  /-- An error node that is not made from an invalid token is an issue. -/
  error : ∀ span, ⟨.invalid, span⟩ ∈ Stmt.allLeaves statements → ⟨.invalid, span⟩ ∉ body →
    stop.issues ≠ []
  /-- So is a name without characters, unless it is that of a token. -/
  unnamed : ∀ span, ⟨.ident "", span⟩ ∈ Stmt.allLeaves statements → ⟨.ident "", span⟩ ∉ body →
    stop.issues ≠ []

end Parser

/-- However malformed a sequence is, recursive descent through it ends, at its end, without going
    back or beyond it, and neither a gap in its tree nor a skipped token is without an issue. -/
theorem parseTokens_ends {body : List Token} {eof : Token}
    (hbody : ∀ t ∈ body, t.kind ≠ .endOfFile) (heof : eof.kind = .endOfFile) :
    (∃ moves statements stop, Parser.Reads (.statements false) (.ofTokens (body ++ [eof])) moves
      statements stop) ∧
    ∀ moves statements stop, Parser.Reads (.statements false) (.ofTokens (body ++ [eof])) moves
      statements stop → Parser.Ending body eof moves statements stop := by
  have hclosed : Closed (body ++ [eof]) := by simp [Closed, heof]
  have hrest := rest_ofTokens hclosed
  obtain ⟨run, last, hrun, hissues⟩ := exists_reads hclosed
  refine ⟨⟨run, _, last, hrun⟩, ?_⟩
  intro moves statements stop hreads
  obtain ⟨rfl, rfl⟩ := hrun.unique hreads
  have hreaches := hreads.reaches
  -- The reader stops on the first end of the file, which is the last token.
  obtain ⟨passed, hpassed⟩ := hreaches.rest
  have hsplit : body ++ [eof] = passed ++ last.cursor.current :: last.cursor.ahead := by
    rw [← hrest, ← hpassed]
    rfl
  obtain rfl := eq_of_append_endOfFile hbody (beq_iff_eq.1 (hreads.atEnd hclosed)) hsplit
  obtain ⟨hcurrent, hahead⟩ := List.cons.inj (List.append_cancel_left hsplit)
  have hposition : ∀ r, (Reader.ofTokens (body ++ [eof])).Reaches r →
      r.cursor.position + r.cursor.ahead.length = body.length := by
    intro r hr
    have := Parser.position_of_reaches hclosed hr
    rw [List.length_append] at this
    exact Nat.succ.inj this
  have hleaves : last.issues = [] → Stmt.allLeaves (parseTokens (body ++ [eof])).1.statements =
      body.filter Token.isLeaf := by
    intro hclean
    exact (spells_of_parseTokens hbody heof (hissues ▸ hclean)).1.leaves_eq
  have hgiven : ∀ t ∈ Stmt.allLeaves (parseTokens (body ++ [eof])).1.statements, t ∉ body →
      last.issues ≠ [] := by
    intro t ht hnot hclean
    rw [hleaves hclean] at ht
    exact hnot (List.mem_filter.1 ht).1
  constructor
  · exact ⟨rfl, hissues⟩
  · refine ⟨hcurrent.symm, ?_⟩
    have := hposition last hreaches
    rwa [← hahead] at this
  · exact hreads.after_eq
  · intro k l hkl
    obtain ⟨further, rfl⟩ := Nat.exists_eq_add_of_le hkl
    refine ⟨?_, Nat.le_of_add_right_le (hposition _ (Reader.reaches_after _ _)).le⟩
    rw [List.take_add, Reader.after_append]
    exact Parser.position_le_after _ _
  · rw [← hreads.after_eq]
    exact hreads.reported (by rwa [hrest])
  · exact mt hleaves
  · exact fun span => hgiven ⟨.invalid, span⟩
  · exact fun span => hgiven ⟨.ident "", span⟩

/-- The tokens of `) ) 1 var`. -/
def strayTokens : List Token :=
  [⟨.mark .rightParen, 0, 1⟩, ⟨.mark .rightParen, 2, 3⟩, ⟨.int 1, 4, 5⟩, ⟨.word .varWord, 6, 9⟩]

/-- Stray parentheses are skipped, and a declaration may lack all that it should have. -/
theorem parseTokens_ends_stray :
    (∀ t ∈ strayTokens, t.kind ≠ .endOfFile) ∧
      (parseTokens (strayTokens ++ [⟨.endOfFile, .point 9⟩])).2.length = 5 ∧
      ∃ moves statements stop, Parser.Reads (.statements false)
        (.ofTokens (strayTokens ++ [⟨.endOfFile, .point 9⟩])) moves statements stop ∧
        Parser.Ending strayTokens ⟨.endOfFile, .point 9⟩ moves statements stop := by
  have hbody : ∀ t ∈ strayTokens, t.kind ≠ .endOfFile := by decide
  obtain ⟨⟨moves, statements, stop, hreads⟩, hall⟩ :=
    @parseTokens_ends strayTokens ⟨.endOfFile, .point 9⟩ hbody rfl
  exact ⟨hbody, by decide, moves, statements, stop, hreads, hall _ _ _ hreads⟩

/-- The exception for names of tokens is needed: a token without a name is read like any other. -/
theorem parseTokens_ends_unnamed :
    let body : List Token := [⟨.ident "", .point 0⟩]
    let parsed := parseTokens (body ++ [⟨.endOfFile, .point 0⟩])
    (∀ t ∈ body, t.kind ≠ .endOfFile) ∧ parsed.2 = [] ∧
      parsed.1.statements = [.expr (.name ⟨"", .point 0⟩)] :=
  ⟨by decide, rfl, rfl⟩

end SnippetLang
