import SnippetLang.Proofs.Lexing.Lookahead

/-!
# Layout does not matter

A source can be laid out anew: between two tokens anything may stand that begins with a character of
layout and goes on with layout and with comments that end before it does, and the same may stand at
the two ends, in addition to what was there or in its place.  As long as nothing is wrong with its
tokens, the lexer makes the same of it.

Such a text between two tokens keeps them apart, since no token goes on with a character of layout.
What stood at the end of a source needs more care than what stood anywhere else: it can end in a comment
without a line feed, and then what is added behind it becomes part of the comment, up to the first
line feed.
-/

namespace SnippetLang

namespace Lexer

/-! ### What may stand between tokens -/

/-- Layout, and comments with the line feeds that end them. -/
inductive Filler : List Char → Prop where
  | nil : Filler []
  | layout {c : Char} {cs : List Char} : isLayout c = true → Filler cs → Filler (c :: cs)
  | comment {body cs : List Char} : (∀ c ∈ body, c ≠ '\n') → Filler cs →
    Filler ('/' :: '/' :: (body ++ '\n' :: cs))

/-- A text that may stand between any two tokens. -/
structure Spacer (cs : List Char) : Prop where
  begins : ∃ c ∈ cs.head?, isLayout c = true
  filler : Filler cs

/-- Texts one after the other, with a spacer between any two that are neighbours. -/
inductive Spread : List String → List Char → Prop where
  | none : Spread [] []
  | one {text : String} : Spread [text] text.toList
  | more {text next : String} {texts : List String} {gap cs : List Char} :
    Spacer gap → Spread (next :: texts) cs →
      Spread (text :: next :: texts) (text.toList ++ (gap ++ cs))

end Lexer

/-! ### Sources laid out anew -/

/-- The texts of a source at its tokens, the end of the file left out. -/
def textsAt (source : String) (tokens : List Token) : List String :=
  tokens.dropLast.map fun t => t.span.text source

/-- Where the last token ends that is not the end of the file, if there is one behind the offset. -/
def lastStop : Nat → List Token → Nat
  | _, t :: u :: rest => lastStop t.span.stop (u :: rest)
  | offset, _ => offset

/-- The text of a source in front of its first token. -/
def leading (source : String) (tokens : List Token) : String :=
  (⟨0, (tokens.head?.map (·.span.start)).getD 0⟩ : Span).text source

/-- The text of a source behind its last token, if that token is behind the offset. -/
def trailing (source : String) (offset : Nat) (tokens : List Token) : String :=
  (⟨lastStop offset tokens, source.utf8ByteSize⟩ : Span).text source

/-- A text has the tokens of a source and other gaps between them.  At its ends is what was at the
    ends of the source, or nothing, and there may be a spacer outside of that. -/
inductive Relaid (source : String) : String → Prop where
  | mk {before first body last behind : List Char} :
    (before = [] ∨ Lexer.Spacer before) →
    (first = [] ∨ first = (leading source (lex source).1).toList) →
    Lexer.Spread (textsAt source (lex source).1) body →
    (last = [] ∨ last = (trailing source 0 (lex source).1).toList) →
    (behind = [] ∨ Lexer.Spacer behind) →
      Relaid source (String.ofList (before ++ (first ++ (body ++ (last ++ behind)))))

/-! ### Texts at spans -/

theorem splitBytes_append (front back : List Char) :
    splitBytes (front ++ back) (utf8Length front) = some (front, back) := by
  induction front with
  | nil => cases back <;> rfl
  | cons c cs ih =>
    have hpos := c.utf8Size_pos
    obtain ⟨n, hn⟩ : ∃ n, utf8Length (c :: cs) = n + 1 := ⟨utf8Length (c :: cs) - 1, by
      rw [utf8Length]
      omega⟩
    have hrest : n + 1 - c.utf8Size = utf8Length cs := by
      rw [← hn, utf8Length]
      omega
    have hfits : c.utf8Size ≤ n + 1 := by
      rw [← hn, utf8Length]
      omega
    rw [hn, List.cons_append, splitBytes, if_pos hfits, hrest, ih]
    rfl

/-- The source goes on with the characters at an offset, up to its end. -/
def RestAt (source : String) (offset : Nat) (cs : List Char) : Prop :=
  ∃ front, source.toList = front ++ cs ∧ offset = utf8Length front

namespace RestAt

variable {source : String} {offset : Nat}

theorem start (source : String) : RestAt source 0 source.toList := ⟨[], rfl, rfl⟩

theorem skip {text rest : List Char} (h : RestAt source offset (text ++ rest)) :
    RestAt source (offset + utf8Length text) rest := by
  obtain ⟨front, hsource, hoffset⟩ := h
  exact ⟨front ++ text, by simp [hsource], by simp [hoffset]⟩

theorem size {cs : List Char} (h : RestAt source offset cs) :
    source.utf8ByteSize = offset + utf8Length cs := by
  obtain ⟨front, hsource, hoffset⟩ := h
  rw [← utf8Length_toList, hsource, utf8Length_append, hoffset]

/-- The text at the place of a part of a source is that part. -/
theorem text {text rest : List Char} {span : Span} (h : RestAt source span.start (text ++ rest))
    (hstop : span.stop = span.start + utf8Length text) : span.text source = String.ofList text := by
  obtain ⟨front, hsource, hoffset⟩ := h
  have hlength : span.length = utf8Length text := by
    rw [Span.length, hstop]
    omega
  rw [Span.text, if_pos (by omega), hsource, hoffset, splitBytes_append]
  simp only [hlength, splitBytes_append]

/-- The text from an offset to the end of a source is all that is left of it there. -/
theorem text_of_size {cs : List Char} (h : RestAt source offset cs) :
    (⟨offset, source.utf8ByteSize⟩ : Span).text source = String.ofList cs := by
  have hwhole : RestAt source offset (cs ++ []) := by rwa [List.append_nil]
  exact @text source cs [] ⟨offset, source.utf8ByteSize⟩ hwhole h.size

end RestAt

namespace Lexer

/-! ### Gaps and fillers -/

theorem Filler.gap {cs : List Char} (h : Filler cs) (rest : List Char) : Gap cs rest := by
  induction h with
  | nil => exact .none rest
  | layout hc _ ih => exact .layout hc ih
  | comment hbody _ ih => exact .comment hbody (by simp) (.layout rfl ih)

/-- A gap in front of a character that does not end a comment is a filler. -/
theorem Gap.filler {gap rest : List Char} (h : Gap gap rest)
    (hrest : ∃ c ∈ rest.head?, c ≠ '\n') : Filler gap := by
  induction h with
  | none => exact .nil
  | layout hc _ ih => exact .layout hc (ih hrest)
  | @comment body cs rest hbody hstop _ ih =>
    obtain ⟨c, hc, hne⟩ := hrest
    have hcs := ih ⟨c, hc, hne⟩
    -- The line feed that ends the comment is in the gap, and not the character behind it.
    rcases cs with _ | ⟨d, ds⟩
    · exact absurd (hstop c hc) hne
    · obtain rfl : d = '\n' := hstop d rfl
      cases hcs with
      | layout _ hds => exact .comment hbody hds

/-- What is left of a gap from the first line feed on is a gap. -/
theorem Gap.dropLine {gap rest : List Char} (h : Gap gap rest) :
    Gap (gap.dropWhile (· != '\n')) rest := by
  induction h with
  | none rest => exact .none rest
  | @layout c cs rest hc hcs ih =>
    by_cases hfeed : c = '\n'
    · rw [List.dropWhile_cons_of_neg (by simp [hfeed])]
      exact .layout hc hcs
    · rwa [List.dropWhile_cons_of_pos (by simpa using hfeed)]
  | comment hbody _ _ ih =>
    rw [List.dropWhile_cons_of_pos (by decide), List.dropWhile_cons_of_pos (by decide),
      List.dropWhile_append_of_pos fun c hc => by simpa using hbody c hc]
    exact ih

/-- At the end of the input, gaps one behind the other are a gap; the first one may end in a comment
    that takes in the beginning of the second one. -/
theorem gap_append {front back rest : List Char} (h : Gap front rest) (hrest : rest = [])
    (h' : Gap back []) : Gap (front ++ back) [] := by
  induction h with
  | none => exact h'
  | layout hc _ ih => exact .layout hc (ih hrest)
  | @comment body cs rest hbody hstop _ ih =>
    subst hrest
    simp only [List.cons_append, List.append_assoc]
    rcases cs with _ | ⟨d, ds⟩
    · have hline : ∀ c ∈ back.takeWhile (· != '\n'), c ≠ '\n' := by
        intro c hc
        simpa using forall_mem_takeWhile _ back c hc
      have hbehind : ∀ c ∈ (back.dropWhile (· != '\n') ++ []).head?, c = '\n' := by
        intro c hc
        rw [List.append_nil] at hc
        have hfound := List.head?_dropWhile_not (· != '\n') back
        rw [hc] at hfound
        simpa using hfound
      have hjoined := Gap.comment (List.forall_mem_append.2 ⟨hbody, hline⟩) hbehind h'.dropLine
      rwa [List.append_assoc, List.takeWhile_append_dropWhile] at hjoined
    · obtain rfl : d = '\n' := hstop d rfl
      exact .comment hbody (by simp) (ih rfl)

theorem gap_of_optional {cs : List Char} (h : cs = [] ∨ Spacer cs) (rest : List Char) :
    Gap cs rest := by
  rcases h with rfl | h
  · exact .none rest
  · exact h.filler.gap rest

/-! ### First characters -/

/-- No token goes on with layout. -/
theorem goesOn_of_isLayout {c : Char} (h : isLayout c = true) (kind : TokenKind) :
    goesOn kind c = false := by
  rcases isLayout_cases h with rfl | rfl | rfl | rfl <;> cases kind with
  | mark m => cases m <;> rfl
  | _ => rfl

/-! ### The ends of a source -/

section Ends

variable {source : String} {offset : Nat} {cs : List Char} {tokens : List Token}
  {issues : List Issue}

theorem Cuts.exists_cons (h : Cuts offset cs tokens issues) : ∃ t ts, tokens = t :: ts := by
  cases h <;> exact ⟨_, _, rfl⟩

/-- Behind the last token of a source is a gap. -/
theorem Cuts.gap_trailing (h : Cuts offset cs tokens issues) (hsource : RestAt source offset cs) :
    Gap (trailing source offset tokens).toList [] := by
  induction h with
  | done hgap =>
    have htext := hsource.text_of_size
    rw [trailing, lastStop, htext, String.toList_ofList]
    · exact hgap
    · nofun
  | lexeme _ _ hstart hstop hcuts ih =>
    obtain ⟨t, ts, rfl⟩ := hcuts.exists_cons
    have hrest := hsource.skip.skip
    rw [← hstart, ← hstop] at hrest
    exact ih hrest

/-- In front of the first token of a source is a filler. -/
theorem filler_leading {gap text rest : List Char} {kind : TokenKind} {span : Span}
    (hgap : Gap gap (text ++ rest)) (hkind : Spelled kind text)
    (hsource : RestAt source 0 (gap ++ (text ++ rest))) (hstart : span.start = utf8Length gap) :
    Filler (leading source (⟨kind, span⟩ :: tokens)).toList := by
  have htext : leading source (⟨kind, span⟩ :: tokens) = String.ofList gap :=
    @RestAt.text source gap (text ++ rest) ⟨0, span.start⟩ hsource (by simp [hstart])
  rw [htext, String.toList_ofList]
  obtain ⟨c, cs, rfl, hlayout, -⟩ := hkind.exists_cons
  refine hgap.filler ⟨c, rfl, ?_⟩
  rintro rfl
  cases hlayout

end Ends

/-! ### The tokens of a source with other gaps -/

section Tokens

variable {source : String} {offset : Nat} {cs : List Char} {tokens : List Token}
  {issues : List Issue} {body tail : List Char}

theorem cause_eq_none {cause : Option Cause} {span : Span}
    (h : (cause.map fun cause => (⟨cause, span⟩ : Issue)).toList ++ issues = []) :
    cause = none ∧ issues = [] := by
  cases cause with
  | none => exact ⟨rfl, h⟩
  | some cause => cases h

/-- What stands behind the last token of a source does so without going on with it, and so does
    anything that begins with layout, or as what stood there did. -/
theorem lexes_of_spread (h : Cuts offset cs tokens issues) (hclean : issues = [])
    (hsource : RestAt source offset cs) (hbody : Spread (textsAt source tokens) body)
    (htail : Gap tail [])
    (hstop : (∀ c ∈ tail.head?, isLayout c = true) ∨
      tail.head? = (trailing source offset tokens).toList.head?) :
    Lexes (body ++ tail) (tokens.map (·.kind)) := by
  induction h generalizing body with
  | done =>
    cases hbody
    have hlexes := Lexes.gap htail .done
    rwa [List.append_nil] at hlexes
  | @lexeme offset gap text rest kind cause span tokens issues hgap hlexeme hstart hspan hcuts ih =>
    obtain ⟨rfl, hclean⟩ := cause_eq_none hclean
    have hthere := hsource.skip
    rw [← hstart] at hthere
    have hrest := hthere.skip
    rw [← hspan] at hrest
    have htext : span.text source = String.ofList text := hthere.text hspan
    cases hcuts with
    | done hlast =>
      -- this is the last token, and the rest of the source is the gap behind it
      have htrailing : (trailing source offset (⟨kind, span⟩ ::
          [⟨.endOfFile, .point (span.stop + utf8Length rest)⟩])).toList = rest := by
        rw [trailing, lastStop, lastStop, hrest.text_of_size, String.toList_ofList]
        nofun
      have hapart : ∀ c ∈ tail.head?, goesOn kind c = false := by
        rcases hstop with hlayout | hsame
        · exact fun c hc => goesOn_of_isLayout (hlayout c hc) kind
        · rw [hsame, htrailing]
          exact hlexeme.not_goesOn
      have hone : body = text := by
        have hspread : Spread [span.text source] body := hbody
        cases hspread
        rw [htext, String.toList_ofList]
      rw [hone]
      exact .spelled hlexeme.spelled hapart (ih hclean hrest .none hstop)
    | @lexeme _ _ _ _ _ _ span' _ _ _ _ _ _ hcuts =>
      obtain ⟨v, vs, rfl⟩ := hcuts.exists_cons
      have hspread : Spread (span.text source :: span'.text source ::
        (v :: vs).dropLast.map fun t => t.span.text source) body := hbody
      cases hspread with
      | @more _ _ _ gap cs hgap hspread =>
        have hapart : ∀ c ∈ (gap ++ (cs ++ tail)).head?, goesOn kind c = false := by
          obtain ⟨d, hd, hlayout⟩ := hgap.begins
          obtain ⟨ds, rfl⟩ := List.head?_eq_some_iff.1 hd
          rintro c hc
          obtain rfl := Option.some.inj hc
          exact goesOn_of_isLayout hlayout kind
        rw [htext, String.toList_ofList, List.append_assoc, List.append_assoc]
        exact .spelled hlexeme.spelled hapart
          ((ih hclean hrest hspread hstop).gap (hgap.filler.gap _))

/-- What stands in front of the first token of a source can do so anywhere; where there is no token,
    it is all of the source, and what it stands in front of is a gap too. -/
theorem lexes_leading (h : Cuts 0 source.toList tokens issues) (hclean : issues = [])
    (hcs : Lexes cs (tokens.map (·.kind))) (hempty : tokens.dropLast = [] → Gap cs []) :
    Lexes ((leading source tokens).toList ++ cs) (tokens.map (·.kind)) := by
  have hsource := RestAt.start source
  generalize source.toList = whole at h hsource
  cases h with
  | done hgap =>
    have htext : leading source [⟨.endOfFile, .point (0 + utf8Length whole)⟩] =
        String.ofList whole := by
      rw [← List.append_nil whole] at hsource
      exact @RestAt.text source whole [] ⟨0, 0 + utf8Length whole⟩ hsource rfl
    rw [htext, String.toList_ofList]
    have hjoined := gap_append hgap rfl (hempty rfl)
    have hlexes := Lexes.gap hjoined .done
    rwa [List.append_nil] at hlexes
  | lexeme hgap hlexeme hstart =>
    obtain ⟨rfl, -⟩ := cause_eq_none hclean
    rw [Nat.zero_add] at hstart
    exact hcs.gap ((filler_leading hgap hlexeme.spelled hsource hstart).gap cs)

end Tokens

theorem isLayout_of_optional {cs : List Char} (h : cs = [] ∨ Spacer cs) :
    ∀ c ∈ cs.head?, isLayout c = true := by
  rcases h with rfl | h
  · nofun
  · obtain ⟨c, hc, hlayout⟩ := h.begins
    intro d hd
    obtain rfl := Option.mem_unique hc hd
    exact hlayout

end Lexer

/-- Laying out a source anew makes no difference to its tokens but for their places, if nothing is
    wrong with them, and nothing is wrong afterwards. -/
theorem lex_relaid {source target : String} (hclean : (lex source).2 = [])
    (h : Relaid source target) :
    (lex target).1.map (·.kind) = (lex source).1.map (·.kind) ∧ (lex target).2 = [] := by
  have hcuts : Lexer.Cuts 0 source.toList (lex source).1 (lex source).2 :=
    Lexer.cuts_scan 0 source.toList
  obtain @⟨before, first, body, last, behind, hbefore, hfirst, hbody, hlast, hbehind⟩ := h
  have hend : Lexer.Gap (last ++ behind) [] := by
    rcases hlast with rfl | rfl
    · exact Lexer.gap_of_optional hbehind []
    · exact Lexer.gap_append (hcuts.gap_trailing (.start source)) rfl
        (Lexer.gap_of_optional hbehind [])
  have hstop : (∀ c ∈ (last ++ behind).head?, Lexer.isLayout c = true) ∨
      (last ++ behind).head? = (trailing source 0 (lex source).1).toList.head? := by
    rcases hlast with rfl | rfl
    · exact .inl (Lexer.isLayout_of_optional hbehind)
    · cases (trailing source 0 (lex source).1).toList with
      | nil => exact .inl (Lexer.isLayout_of_optional hbehind)
      | cons c cs => exact .inr rfl
  have htokens : Lexer.Lexes (body ++ (last ++ behind)) ((lex source).1.map (·.kind)) :=
    Lexer.lexes_of_spread hcuts hclean (.start source) hbody hend hstop
  have hempty : (lex source).1.dropLast = [] → Lexer.Gap (body ++ (last ++ behind)) [] := by
    intro hnone
    rw [textsAt, hnone] at hbody
    cases hbody
    exact hend
  have hwhole : Lexer.Lexes (first ++ (body ++ (last ++ behind))) ((lex source).1.map (·.kind)) := by
    rcases hfirst with rfl | rfl
    · exact htokens
    · exact Lexer.lexes_leading hcuts hclean htokens hempty
  apply lex_of_lexes
  rw [String.toList_ofList]
  exact hwhole.gap (Lexer.gap_of_optional hbefore _)

theorem spacer_layout {c : Char} (hc : Lexer.isLayout c = true) : Lexer.Spacer [c] where
  begins := ⟨c, rfl, hc⟩
  filler := .layout hc .nil

/-- The tokens of `a=b/1`, drawn apart by a comment and by layout.  The comment at the end is kept,
    and what stands behind it becomes part of it. -/
theorem lex_relaid_apart :
    let source := "a=b/1// end"
    let target := "\ta //\n =\nb\r/ 1// end //\n"
    (lex source).2 = [] ∧ Relaid source target ∧
      (lex target).1.map (·.kind) = (lex source).1.map (·.kind) ∧ (lex target).2 = [] := by
  intro source target
  have hclean : (lex source).2 = [] := by decide +kernel
  have hcomment : Lexer.Spacer " //\n ".toList :=
    ⟨⟨' ', rfl, rfl⟩, .layout rfl (@Lexer.Filler.comment [] [' '] nofun (.layout rfl .nil))⟩
  have hbehind : Lexer.Spacer " //\n".toList :=
    ⟨⟨' ', rfl, rfl⟩, .layout rfl (@Lexer.Filler.comment [] [] nofun .nil)⟩
  have htexts : textsAt source (lex source).1 = ["a", "=", "b", "/", "1"] := by decide +kernel
  have htrailing : trailing source 0 (lex source).1 = "// end" := by decide +kernel
  have hspread : Lexer.Spread (textsAt source (lex source).1) "a //\n =\nb\r/ 1".toList := by
    rw [htexts]
    exact .more hcomment (.more (spacer_layout rfl) (.more (spacer_layout rfl)
      (.more (spacer_layout rfl) .one)))
  have hrelaid : Relaid source target :=
    @Relaid.mk source ['\t'] [] "a //\n =\nb\r/ 1".toList "// end".toList " //\n".toList
      (.inr (spacer_layout rfl)) (.inl rfl) hspread (.inr (by rw [htrailing])) (.inr hbehind)
  exact ⟨hclean, hrelaid, lex_relaid hclean hrelaid⟩

end SnippetLang
