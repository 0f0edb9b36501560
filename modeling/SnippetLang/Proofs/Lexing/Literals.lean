import SnippetLang.Proofs.Lexing.Lookahead
import SnippetLang.Typed.Printer

/-!
# Literals that are read back

A literal text is written with escapes for the four characters that have one.  A carriage return has
none and is written as it is, but the inside of a string ends at it.  So the texts whose literals are
read back are the ones without it, and there is nothing else that goes wrong.
-/

namespace SnippetLang

namespace Lexer

open Escape

/-! ### Without a carriage return -/

/-- What is written for a character can stand inside a string, unless it is a carriage return. -/
theorem inside_encodeChar_append {c : Char} (hc : c ≠ '\r') {cs : List Char} (h : Inside cs) :
    Inside (encodeChar c ++ cs) := by
  unfold encodeChar
  split
  · exact .escape (by decide) h
  split
  · exact .escape (by decide) h
  split
  · exact .escape (by decide) h
  split
  · exact .escape (by decide) h
  · next hquote hbackslash hfeed _ =>
    exact .plain (by simp [isPlain, hquote, hbackslash, hfeed, hc]) h

theorem inside_encode {text : List Char} (h : '\r' ∉ text) : Inside (text.flatMap encodeChar) := by
  induction text with
  | nil => exact .nil
  | cons c cs ih =>
    simp only [List.mem_cons, not_or] at h
    rw [List.flatMap_cons]
    exact inside_encodeChar_append (Ne.symm h.1) (ih h.2)

/-- A literal is a text of the string that it denotes. -/
theorem spelled_quote {s : String} (h : '\r' ∉ s.toList) :
    Spelled (.string s) (quote s.toList) := by
  have hspelled := Spelled.string (inside_encode h)
  rwa [decode_encode, String.ofList_toList] at hspelled

/-! ### With one -/

/-- The literal of a text with a carriage return is not terminated. -/
theorem cause_quote {text : List Char} (h : '\r' ∈ text) :
    ∃ cs, quote text = '"' :: cs ∧ (next '"' cs).cause = some .unterminatedString := by
  obtain ⟨before, behind, rfl, hbefore⟩ := List.eq_append_cons_of_mem h
  -- The string ends at the first carriage return, since all that is before it can stand inside.
  have hcut : (spanString (before.flatMap encodeChar ++
      '\r' :: (behind.flatMap encodeChar ++ ['"']))).2 =
      '\r' :: (behind.flatMap encodeChar ++ ['"']) := by
    rw [spanString_inside (inside_encode hbefore)]
    cases behind.flatMap encodeChar <;> rfl
  refine ⟨(before ++ '\r' :: behind).flatMap encodeChar ++ ['"'], rfl, ?_⟩
  have hquote : (before ++ '\r' :: behind).flatMap encodeChar ++ ['"'] =
      before.flatMap encodeChar ++ '\r' :: (behind.flatMap encodeChar ++ ['"']) := by
    simp [encodeChar]
  rw [hquote, next_quote, string_of_no_quote fun rest => by simp [hcut]]

theorem scan_issues_ne_nil {c : Char} {cs : List Char} {cause : Cause}
    (h : (next c cs).cause = some cause) (offset : Nat) : (scan offset (c :: cs)).2 ≠ [] := by
  rw [scan]
  simp only [h]
  exact List.cons_ne_nil _ _

end Lexer

/-- A literal is lexed to the one string that it was written for, with nothing wrong, exactly if there
    is no carriage return in it. -/
theorem lex_literalText_iff (s : String) :
    ((lex (Typed.literalText (.string s))).1.map (·.kind) = [.string s, .endOfFile] ∧
      (lex (Typed.literalText (.string s))).2 = []) ↔ '\r' ∉ s.toList := by
  have htext : (Typed.literalText (.string s)).toList = Escape.quote s.toList :=
    String.toList_ofList
  constructor
  · rintro ⟨-, hclean⟩ hreturn
    obtain ⟨cs, hcs, hcause⟩ := Lexer.cause_quote hreturn
    rw [lex, htext, hcs] at hclean
    exact Lexer.scan_issues_ne_nil hcause 0 hclean
  · intro h
    apply lex_of_lexes
    rw [htext, ← List.append_nil (Escape.quote s.toList)]
    exact .spelled (Lexer.spelled_quote h) nofun .done

/-- A backslash in front of the carriage return is escaped itself and does not take it in. -/
example : (lex (Typed.literalText (.string "\\\r"))).2 ≠ [] := by
  decide +kernel

end SnippetLang
