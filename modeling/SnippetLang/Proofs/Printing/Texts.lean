import SnippetLang.Proofs.Converting.Numerals
import SnippetLang.Proofs.Lexing.Literals
import SnippetLang.Proofs.Printing.Surface

/-!
# Lexing the texts of typed expressions

The text of an answer is lexed to the tokens that its surface is written with.  Inside the text of a
larger expression, what stands behind it is a blank, a comma or a closing parenthesis.  None of them
goes on with any token, so `LexesAs` can leave open what else there is behind a text.

A carriage return in a literal would end the string, which is why there may be none.
-/

namespace SnippetLang

namespace Lexer

/-! ### Texts in front of others -/

/-- If there is a first character, it is one that can stand behind an expression in the text of
    another one. -/
def Stops (cs : List Char) : Prop := ∀ c ∈ cs.head?, c = ' ' ∨ c = ',' ∨ c = ')'

theorem Stops.not_goesOn {cs : List Char} (h : Stops cs) (kind : TokenKind) :
    ∀ c ∈ cs.head?, goesOn kind c = false := by
  intro c hc
  rcases h c hc with rfl | rfl | rfl <;> cases kind with
  | mark m => cases m <;> rfl
  | _ => rfl

theorem stops_blank (cs : List Char) : Stops (' ' :: cs) := by simp [Stops]

theorem stops_comma (cs : List Char) : Stops (',' :: cs) := by simp [Stops]

theorem stops_rightParen (cs : List Char) : Stops (')' :: cs) := by simp [Stops]

/-- A text is lexed to tokens of the kinds, whatever stops it. -/
def LexesAs (text : List Char) (kinds : List TokenKind) : Prop :=
  ∀ rest others, Stops rest → Lexes rest others → Lexes (text ++ rest) (kinds ++ others)

namespace LexesAs

variable {text text' : List Char} {kinds kinds' : List TokenKind}

theorem nil : LexesAs [] [] := fun _ _ _ h => h

theorem spelled {kind : TokenKind} (h : Spelled kind text) : LexesAs text [kind] :=
  fun _ _ hrest hlexes => .spelled h (hrest.not_goesOn kind) hlexes

/-- Two texts with a blank between them. -/
theorem spaced (h : LexesAs text kinds) (h' : LexesAs text' kinds') :
    LexesAs (text ++ ' ' :: text') (kinds ++ kinds') := by
  intro rest others hrest hlexes
  have hright : Lexes (' ' :: (text' ++ rest)) (kinds' ++ others) := (h' _ _ hrest hlexes).layout rfl
  have hleft := h _ _ (stops_blank _) hright
  simpa using hleft

/-- Two texts with a mark between them that has blanks around it. -/
theorem infixed (m : Mark) (h : LexesAs text kinds) (h' : LexesAs text' kinds') :
    LexesAs (text ++ ' ' :: (m.spelling.toList ++ ' ' :: text')) (kinds ++ .mark m :: kinds') := by
  intro rest others hrest hlexes
  have hright : Lexes (' ' :: (text' ++ rest)) (kinds' ++ others) := (h' _ _ hrest hlexes).layout rfl
  have hmark := Lexes.spelled (.mark m) ((stops_blank _).not_goesOn _) hright
  have hleft := h _ _ (stops_blank _) (hmark.layout (c := ' ') rfl)
  simpa using hleft

/-- Two texts with a comma between them. -/
theorem separated (h : LexesAs text kinds) (h' : LexesAs text' kinds') :
    LexesAs (text ++ ',' :: ' ' :: text') (kinds ++ .mark .comma :: kinds') := by
  intro rest others hrest hlexes
  have hright : Lexes (' ' :: (text' ++ rest)) (kinds' ++ others) := (h' _ _ hrest hlexes).layout rfl
  have hcomma := Lexes.spelled (.mark .comma) ((stops_blank _).not_goesOn _) hright
  have hleft := h _ _ (stops_comma _) hcomma
  simpa using hleft

/-- A text in parentheses, in front of what stops it. -/
theorem lexes_enclosed (h : LexesAs text kinds) {rest : List Char} {others : List TokenKind}
    (hrest : Stops rest) (hlexes : Lexes rest others) :
    Lexes ('(' :: (text ++ ')' :: rest)) (.mark .leftParen :: (kinds ++ .mark .rightParen :: others)) := by
  have hclosing : Lexes (')' :: rest) (.mark .rightParen :: others) :=
    .spelled (.mark .rightParen) (hrest.not_goesOn _) hlexes
  exact .spelled (.mark .leftParen) (fun _ _ => rfl) (h _ _ (stops_rightParen _) hclosing)

theorem enclosed (h : LexesAs text kinds) :
    LexesAs ('(' :: (text ++ [')'])) (.mark .leftParen :: (kinds ++ [.mark .rightParen])) := by
  intro rest others hrest hlexes
  simpa using h.lexes_enclosed hrest hlexes

theorem called {name : List Char} {kind : TokenKind} (hname : Spelled kind name)
    (hkind : goesOn kind '(' = false) (h : LexesAs text kinds) :
    LexesAs (name ++ '(' :: (text ++ [')']))
      (kind :: .mark .leftParen :: (kinds ++ [.mark .rightParen])) := by
  intro rest others hrest hlexes
  have hname := Lexes.spelled hname (by simpa using hkind) (h.lexes_enclosed hrest hlexes)
  simpa using hname

/-- A mark in front of a text that does not go on with it. -/
theorem prefixed {m : Mark} {c : Char} (h : LexesAs (c :: text) kinds) (hc : m.goesOn c = false) :
    LexesAs (m.spelling.toList ++ c :: text) (.mark m :: kinds) := by
  intro rest others hrest hlexes
  have hmark := Lexes.spelled (.mark m) (by simpa [goesOn] using hc) (h _ _ hrest hlexes)
  simpa using hmark

end LexesAs

/-- The text of a token that is no mark does not begin with `=`. -/
theorem Spelled.begins {kind : TokenKind} {text : List Char} (h : Spelled kind text)
    (hkind : ∀ m, kind ≠ .mark m) : ∃ c cs, text = c :: cs ∧ c ≠ '=' := by
  obtain ⟨c, cs, htext, -, heq⟩ := h.exists_cons
  refine ⟨c, cs, htext, fun hc => ?_⟩
  obtain ⟨m, hm⟩ := heq hc
  exact hkind m hm

theorem Spelled.begins_append {kind : TokenKind} {text : List Char} (h : Spelled kind text)
    (hkind : ∀ m, kind ≠ .mark m) (rest : List Char) :
    ∃ c cs, text ++ rest = c :: cs ∧ c ≠ '=' := by
  obtain ⟨c, cs, rfl, hc⟩ := h.begins hkind
  exact ⟨c, cs ++ rest, rfl, hc⟩

end Lexer

/-- A number that a literal can have is written as it is in a literal. -/
theorem spelled_writeInt {n : Int32} (h : (TokenKind.int n).Writable) :
    Lexer.Spelled (.int n) (Text.writeInt n) := by
  obtain ⟨_, h⟩ := h
  cases h with
  | int _ hn =>
    have hpositive : ¬ n.toInt < 0 := by omega
    obtain ⟨hne, hdigits, hvalue⟩ := Text.decimal_iff.1 (Text.decimal_toDigits n.toInt.natAbs)
    simp only [Text.writeInt, if_neg hpositive]
    refine .int ⟨hne, hdigits⟩ ?_
    rw [hvalue]
    omega

theorem UnaryOp.spelling_mark (op : UnaryOp) : op.mark.spelling = op.spelling := by
  cases op <;> rfl

theorem BinaryOp.spelling_mark (op : BinaryOp) : op.mark.spelling = op.spelling := by
  cases op <;> rfl

/-- Only `=` makes another mark of one of the unary operators. -/
theorem UnaryOp.goesOn_mark {c : Char} (hc : c ≠ '=') (op : UnaryOp) : op.mark.goesOn c = false := by
  cases op <;> simp [UnaryOp.mark, Mark.goesOn, hc]

namespace Typed.Expr

open Lexer

/-- There are no carriage returns in the literal texts of an expression. -/
def OneLine (e : Expr) : Prop := ∀ s, .literal (.string s) ∈ e.parts → '\r' ∉ s.toList

theorem OneLine.mono {e part : Expr} (h : e.OneLine) (hsub : part.parts ⊆ e.parts) : part.OneLine :=
  fun s hs => h s (hsub hs)

/-! ### Texts of answers -/

theorem lexesAs_textAll : {es : List Expr} →
    (∀ e ∈ es, LexesAs e.text.toList e.surface.kinds) →
    LexesAs (textAll es).toList (Tree.Expr.allKinds (allSurface es))
  | [], _ => .nil
  | [e], h => h e List.mem_cons_self
  | e :: e' :: es, h => by
    obtain ⟨hfirst, hothers⟩ := List.forall_mem_cons.1 h
    have hseparated := hfirst.separated (lexesAs_textAll hothers)
    simpa [textAll, allSurface, Tree.Expr.allKinds] using hseparated

section Characters

variable (x : Variable) (left right e : Expr) (f : Function) (args : List Expr) (target : Ty)

theorem toList_text_int (n : Int32) : (text (.literal (.int n))).toList = Text.writeInt n := by
  change (String.ofList (Text.writeInt n)).toList = Text.writeInt n
  exact String.toList_ofList

theorem toList_text_string (s : String) :
    (text (.literal (.string s))).toList = Escape.quote s.toList := by
  change (String.ofList (Escape.quote s.toList)).toList = Escape.quote s.toList
  exact String.toList_ofList

theorem toList_text_assign : (text (.assign x e)).toList =
    x.name.toList ++ ' ' :: (Mark.eq.spelling.toList ++ ' ' :: e.text.toList) := by
  change (x.name ++ " = " ++ e.text).toList = _
  simp [Mark.spelling]

theorem toList_text_unary (row : UnaryOperator) : (text (.unary row e)).toList =
    row.op.mark.spelling.toList ++ e.text.toList := by
  change (row.op.spelling ++ e.text).toList = _
  simp [UnaryOp.spelling_mark]

theorem toList_text_binary (row : BinaryOperator) : (text (.binary left row right)).toList =
    '(' :: ((left.text.toList ++
      ' ' :: (row.op.mark.spelling.toList ++ ' ' :: right.text.toList)) ++ [')']) := by
  change ("(" ++ left.text ++ " " ++ row.op.spelling ++ " " ++ right.text ++ ")").toList = _
  simp [BinaryOp.spelling_mark]

theorem toList_text_call : (text (.call f args)).toList =
    f.name.toList ++ '(' :: ((textAll args).toList ++ [')']) := by
  change (f.name ++ "(" ++ textAll args ++ ")").toList = _
  simp

theorem toList_text_convert : (text (.convert target e)).toList =
    target.name.toList ++ '(' :: (e.text.toList ++ [')']) := by
  change (target.name ++ "(" ++ e.text ++ ")").toList = _
  simp

end Characters

namespace Answered

variable {scope : Scope} {e : Expr}

/-- The text of an answer does not begin with `=`. -/
theorem begins (h : e.Answered scope) : ∃ c cs, e.text.toList = c :: cs ∧ c ≠ '=' := by
  cases h with
  | int hn =>
    rw [toList_text_int]
    exact (spelled_writeInt hn).begins (by simp)
  | @bool b => cases b <;> exact ⟨_, _, rfl, by decide⟩
  | string =>
    rw [toList_text_string]
    exact ⟨_, _, rfl, by decide⟩
  | read hx => exact (spelled_of_writable hx.writable).begins (by simp)
  | assign hx =>
    rw [toList_text_assign]
    exact (spelled_of_writable hx.writable).begins_append (by simp) _
  | @unary row _ _ _ _ =>
    rw [toList_text_unary]
    cases row.op <;> exact ⟨_, _, rfl, by decide⟩
  | binary =>
    rw [toList_text_binary]
    exact ⟨_, _, rfl, by decide⟩
  | call hf =>
    rw [toList_text_call]
    exact (spelled_of_writable (writable_of_mem hf)).begins_append (by simp) _
  | convert hc =>
    rw [toList_text_convert]
    exact (spelled_of_writable (writable_of_named hc.named.2)).begins_append (by simp) _

/-- The text of an answer is lexed to the tokens that its surface is written with. -/
theorem lexesAs_text (h : e.Answered scope) (hline : e.OneLine) :
    LexesAs e.text.toList e.surface.kinds := by
  induction h with
  | int hn =>
    rw [toList_text_int]
    exact .spelled (spelled_writeInt hn)
  | @bool b =>
    cases b with
    | true => exact .spelled (.word .trueWord)
    | false => exact .spelled (.word .falseWord)
  | @string s =>
    rw [toList_text_string]
    exact .spelled (spelled_quote (hline s (mem_parts_self _)))
  | read hx => exact .spelled (spelled_of_writable hx.writable)
  | assign hx _ _ _ _ ih =>
    rw [toList_text_assign]
    have hname := LexesAs.spelled (spelled_of_writable hx.writable)
    exact hname.infixed .eq (ih (hline.mono (List.subset_cons_self _ _)))
  | @unary row operand _ _ hoperand ih =>
    obtain ⟨c, cs, htext, hc⟩ := hoperand.begins
    have ih := ih (hline.mono (List.subset_cons_self _ _))
    rw [toList_text_unary]
    rw [htext] at ih ⊢
    exact ih.prefixed (UnaryOp.goesOn_mark hc row.op)
  | @binary row left right _ _ _ _ _ ihl ihr =>
    have hsub : left.parts ++ right.parts ⊆ (Expr.binary left row right).parts :=
      List.subset_cons_self _ _
    have ihl := ihl (hline.mono (List.append_subset.1 hsub).1)
    have ihr := ihr (hline.mono (List.append_subset.1 hsub).2)
    rw [toList_text_binary]
    exact (ihl.infixed row.op.mark ihr).enclosed
  | call hf _ _ ih =>
    have hargs := lexesAs_textAll fun arg harg =>
      ih arg harg (hline.mono (List.subset_cons_of_subset _ (parts_subset harg)))
    rw [toList_text_call]
    exact hargs.called (spelled_of_writable (writable_of_mem hf)) rfl
  | convert hc _ ih =>
    have ih := ih (hline.mono (List.subset_cons_self _ _))
    rw [toList_text_convert]
    exact ih.called (spelled_of_writable (writable_of_named hc.named.2)) rfl

end Answered

end Typed.Expr

end SnippetLang
