import SnippetLang.Proofs.Lexing.Munching

/-!
# One character behind a token decides

Maximal munch compares a lexeme with everything that stands behind it.  Of that, only the first
character matters: a lexeme is cut off where it is exactly if the character behind it does not go on
with it, and for each kind of token a few characters do.

So texts can be put together from the texts of tokens.  `Lexes` says what a text lexes to, without
places and without issues, and it is built up from the back of the text: a token or a gap can be put
in front of any text that begins with the right character.
-/

namespace SnippetLang

/-- A character behind a mark makes another mark of the two, or a comment. -/
def Mark.goesOn : Mark → Char → Bool
  | .eq, '=' | .bang, '=' | .lt, '=' | .gt, '=' | .amp, '&' | .pipe, '|' | .slash, '/' => true
  | _, _ => false

namespace Lexer

/-! ### Texts of tokens -/

/-- The texts that a token is written as if nothing is wrong with it. -/
inductive Spelled : TokenKind → List Char → Prop where
  | word (w : Keyword) : Spelled (.word w) w.spelling.toList
  | ident {text : List Char} : Rule.ident.Matches text →
    (∀ w : Keyword, ¬ (Rule.word w).Matches text) → Spelled (.ident (String.ofList text)) text
  | mark (m : Mark) : Spelled (.mark m) m.spelling.toList
  | int {n : Int32} {text : List Char} : Rule.int.Matches text →
    n.toInt = Text.digitsValue text → Spelled (.int n) text
  | string {inside : List Char} : Inside inside →
    Spelled (.string (String.ofList (Escape.decode inside))) ('"' :: (inside ++ ['"']))

/-- The lexeme of a token that nothing is wrong with is one of its texts. -/
theorem Lexeme.spelled {text rest : List Char} {kind : TokenKind} (h : Lexeme text rest kind none) :
    Spelled kind text := by
  cases h with
  | word w h =>
    obtain rfl : text = w.spelling.toList := h.matched
    exact .word w
  | ident h hword => exact .ident h.matched hword
  | mark m h =>
    obtain rfl : text = m.spelling.toList := h.matched
    exact .mark m
  | int n h hn => exact .int h.matched hn
  | string inside h htext =>
    obtain ⟨inside', htext', hinside⟩ := h.matched
    obtain rfl : inside' = inside := by simpa [htext] using htext'.symm
    rw [htext]
    exact .string hinside

/-- The text of a token begins with a character that is not layout, and with `=` only if it is a
    mark. -/
theorem Spelled.exists_cons {kind : TokenKind} {text : List Char} (h : Spelled kind text) :
    ∃ c cs, text = c :: cs ∧ isLayout c = false ∧ (c = '=' → ∃ m, kind = .mark m) := by
  cases h with
  | word w => cases w <;> exact ⟨_, _, rfl, rfl, fun h => absurd h (by decide)⟩
  | mark m => cases m <;> exact ⟨_, _, rfl, rfl, fun _ => ⟨_, rfl⟩⟩
  | string _ => exact ⟨_, _, rfl, rfl, by simp⟩
  | ident h _ =>
    obtain ⟨c, cs, rfl, hc, -⟩ := h
    refine ⟨c, cs, rfl, not_isLayout_of_isWordStart hc, ?_⟩
    rintro rfl
    cases hc
  | int h _ =>
    obtain ⟨c, cs, rfl⟩ := List.exists_cons_of_ne_nil h.1
    have hc := h.2 c List.mem_cons_self
    refine ⟨c, cs, rfl, not_isLayout_of_isDigit hc, ?_⟩
    rintro rfl
    cases hc

theorem Spelled.ne_nil {kind : TokenKind} {text : List Char} (h : Spelled kind text) : text ≠ [] := by
  obtain ⟨c, cs, rfl, -⟩ := h.exists_cons
  exact List.cons_ne_nil c cs

/-- Right behind a token of the kind, the character goes on with it. -/
def goesOn : TokenKind → Char → Bool
  | .int _, c => Text.isDigit c
  | .word _, c | .ident _, c => isWordPart c
  | .mark m, c => m.goesOn c
  | .string _, _ | .invalid, _ | .endOfFile, _ => false

/-! ### A character that goes on makes the lexeme longer -/

theorem matches_of_goesOn_word {text : List Char} {c : Char} (h : Rule.ident.Matches text)
    (hc : isWordPart c = true) : Rule.ident.Matches (text ++ [c]) := by
  obtain ⟨d, ds, rfl, hd, hds⟩ := h
  refine ⟨d, ds ++ [c], rfl, hd, ?_⟩
  exact List.forall_mem_append.2 ⟨hds, List.forall_mem_singleton.2 hc⟩

theorem matches_of_goesOn_mark {m : Mark} {c : Char} (h : m.goesOn c = true) :
    ∃ rule : Rule, rule.Matches (m.spelling.toList ++ [c]) := by
  unfold Mark.goesOn at h
  split at h
  · exact ⟨.mark .eqEq, rfl⟩
  · exact ⟨.mark .notEq, rfl⟩
  · exact ⟨.mark .ltEq, rfl⟩
  · exact ⟨.mark .gtEq, rfl⟩
  · exact ⟨.mark .ampAmp, rfl⟩
  · exact ⟨.mark .pipePipe, rfl⟩
  · exact ⟨.comment, [], rfl, nofun⟩
  · cases h

theorem Spelled.matches_of_goesOn {kind : TokenKind} {text : List Char} {c : Char}
    (h : Spelled kind text) (hc : goesOn kind c = true) :
    ∃ rule : Rule, rule.Matches (text ++ [c]) := by
  cases h with
  | word w => exact ⟨.ident, matches_of_goesOn_word (ident_of_word (w := w) rfl) hc⟩
  | ident h _ => exact ⟨.ident, matches_of_goesOn_word h hc⟩
  | mark m => exact matches_of_goesOn_mark hc
  | int h _ =>
    exact ⟨.int, by simp, List.forall_mem_append.2 ⟨h.2, List.forall_mem_singleton.2 hc⟩⟩
  | string _ => cases hc

/-- Behind a lexeme, no character goes on with it. -/
theorem Lexeme.not_goesOn {text rest : List Char} {kind : TokenKind}
    (h : Lexeme text rest kind none) : ∀ c ∈ rest.head?, goesOn kind c = false := by
  intro c hc
  obtain ⟨cs, rfl⟩ := List.head?_eq_some_iff.1 hc
  rw [← Bool.not_eq_true]
  intro hgoes
  obtain ⟨rule, hrule⟩ := h.spelled.matches_of_goesOn hgoes
  have hlongest : ∀ rule', Rule.Munches rule' text (c :: cs) → False := by
    intro rule' hmunches
    have hlength := hmunches.longest rule (text ++ [c]) cs hrule (by simp)
    simp only [List.length_append, List.length_singleton] at hlength
    omega
  cases h with
  | word _ h => exact hlongest _ h
  | ident h _ => exact hlongest _ h
  | mark _ h => exact hlongest _ h
  | int _ h _ => exact hlongest _ h
  | string _ h _ => exact hlongest _ h

/-! ### Without one, the lexeme is cut off there -/

section Cut

variable {p : Char → Bool} {cs rest : List Char}

theorem takeWhile_append_of_stop (hcs : ∀ c ∈ cs, p c = true)
    (hrest : ∀ c ∈ rest.head?, p c = false) : (cs ++ rest).takeWhile p = cs := by
  rw [List.takeWhile_append_of_pos hcs]
  cases rest with
  | nil => exact List.append_nil cs
  | cons c rest => rw [List.takeWhile_cons_of_neg (by simp [hrest c rfl]), List.append_nil]

theorem dropWhile_append_of_stop (hcs : ∀ c ∈ cs, p c = true)
    (hrest : ∀ c ∈ rest.head?, p c = false) : (cs ++ rest).dropWhile p = rest := by
  rw [List.dropWhile_append_of_pos hcs]
  cases rest with
  | nil => rfl
  | cons c rest => rw [List.dropWhile_cons_of_neg (by simp [hrest c rfl])]

end Cut

theorem wordKind_spelling (w : Keyword) : wordKind w.spelling = .word w := by
  cases w <;> decide

theorem wordKind_of_not_word {text : List Char} (h : ∀ w : Keyword, ¬ (Rule.word w).Matches text) :
    wordKind (String.ofList text) = .ident (String.ofList text) := by
  unfold wordKind
  split
  · next w hw =>
    have hspelling : w.spelling = String.ofList text := by
      rw [Keyword.ofSpelling?] at hw
      have hfound := List.find?_some hw
      exact beq_iff_eq.1 hfound
    exact absurd (by rw [Rule.Matches, hspelling, String.toList_ofList]) (h w)
  · rfl

/-- A mark is found where it stands, if the character behind it does not go on with it. -/
theorem mark?_of_stop {m : Mark} {rest : List Char} (h : ∀ c ∈ rest.head?, m.goesOn c = false) :
    mark? (m.spelling.toList ++ rest) = some (m, rest) := by
  -- Only `=`, `&` and `|` make a mark of the one before them.
  rcases rest with _ | ⟨c, cs⟩
  · cases m <;> rfl
  have hc := h c rfl
  by_cases heq : c = '='
  · subst heq
    cases m <;> first | rfl | cases hc
  by_cases hamp : c = '&'
  · subst hamp
    cases m <;> first | rfl | cases hc
  by_cases hpipe : c = '|'
  · subst hpipe
    cases m <;> first | rfl | cases hc
  cases m <;> first | rfl | simp [Mark.spelling, mark?, heq, hamp, hpipe]

theorem next_of_word {text rest : List Char} (h : Rule.ident.Matches text)
    (hstop : ∀ c ∈ rest.head?, isWordPart c = false) : ∃ c cs, text ++ rest = c :: cs ∧
      next c cs = ⟨text, some (wordKind (String.ofList text)), none, rest⟩ := by
  obtain ⟨c, cs, rfl, hc, hcs⟩ := h
  refine ⟨c, cs ++ rest, rfl, ?_⟩
  rw [next_of_isWordStart hc, takeWhile_append_of_stop hcs hstop, dropWhile_append_of_stop hcs hstop]

theorem next_of_int {text rest : List Char} {n : Int32} (h : Rule.int.Matches text)
    (hn : n.toInt = Text.digitsValue text) (hstop : ∀ c ∈ rest.head?, Text.isDigit c = false) :
    ∃ c cs, text ++ rest = c :: cs ∧ next c cs = ⟨text, some (.int n), none, rest⟩ := by
  obtain ⟨hne, hall⟩ := h
  obtain ⟨c, cs, rfl⟩ := List.exists_cons_of_ne_nil hne
  obtain ⟨hc, hcs⟩ := List.forall_mem_cons.1 hall
  refine ⟨c, cs ++ rest, rfl, ?_⟩
  have hle : Text.digitsValue (c :: cs) ≤ Text.maxInt := by
    have := Int32.toInt_lt n
    simp only [Text.maxInt]
    omega
  have hvalue : Int32.ofNat (Text.digitsValue (c :: cs)) = n := by
    rw [← Int32.toInt_inj, hn]
    exact Int32.toInt_ofNat_of_lt (Nat.lt_succ_of_le hle)
  rw [next_of_isDigit hc, takeWhile_append_of_stop hcs hstop, dropWhile_append_of_stop hcs hstop]
  simp only [number, if_pos hle, hvalue]

theorem next_of_mark {m : Mark} {rest : List Char} (hstop : ∀ c ∈ rest.head?, m.goesOn c = false) :
    ∃ c cs, m.spelling.toList ++ rest = c :: cs ∧
      next c cs = ⟨m.spelling.toList, some (.mark m), none, rest⟩ := by
  have hmark := mark?_of_stop hstop
  obtain ⟨c, cs, hcs⟩ := List.exists_cons_of_ne_nil (Spelled.mark m).ne_nil
  rw [hcs, List.cons_append] at hmark ⊢
  refine ⟨c, cs ++ rest, rfl, ?_⟩
  rw [← hcs]
  refine next_of_mark? hmark ?_
  rintro ⟨rfl, hhead⟩
  obtain ⟨ds, hds⟩ := List.head?_eq_some_iff.1 hhead
  cases m with
  | slash =>
    obtain rfl : cs = [] := (List.cons.inj hcs).2.symm
    rw [List.nil_append] at hds
    subst hds
    cases hstop '/' rfl
  | _ => cases hcs

theorem next_of_string {inside rest : List Char} (h : Inside inside) :
    next '"' (inside ++ ['"'] ++ rest) = ⟨'"' :: (inside ++ ['"']),
      some (.string (String.ofList (Escape.decode inside))), none, rest⟩ := by
  have hspan := spanString_inside h ('"' :: rest)
  rw [spanString_quote, List.append_nil] at hspan
  rw [List.append_assoc, List.singleton_append, next_quote,
    string_of_quote (congrArg Prod.snd hspan), hspan]

/-- In front of a character that does not go on with it, the text of a token is cut off as that
    token. -/
theorem next_of_spelled {kind : TokenKind} {text rest : List Char} (h : Spelled kind text)
    (hstop : ∀ c ∈ rest.head?, goesOn kind c = false) : ∃ c cs, text ++ rest = c :: cs ∧
      next c cs = ⟨text, some kind, none, rest⟩ := by
  cases h with
  | word w =>
    have hnext := next_of_word (ident_of_word (w := w) rfl) hstop
    rwa [String.ofList_toList, wordKind_spelling] at hnext
  | ident h hword =>
    have hnext := next_of_word h hstop
    rwa [wordKind_of_not_word hword] at hnext
  | mark m => exact next_of_mark hstop
  | int h hn => exact next_of_int h hn hstop
  | string h => exact ⟨_, _, rfl, next_of_string h⟩

/-! ### Whole texts -/

/-- A text is cut into tokens of the kinds, with nothing wrong with any of them. -/
inductive Lexes : List Char → List TokenKind → Prop where
  | done : Lexes [] [.endOfFile]
  | skip {c : Char} {cs : List Char} {kinds : List TokenKind} :
    (next c cs).kind = none → Lexes (next c cs).rest kinds → Lexes (c :: cs) kinds
  | token {c : Char} {cs : List Char} {kind : TokenKind} {kinds : List TokenKind} :
    (next c cs).kind = some kind → (next c cs).cause = none → Lexes (next c cs).rest kinds →
      Lexes (c :: cs) (kind :: kinds)

namespace Lexes

variable {cs rest : List Char} {kinds : List TokenKind}

theorem scan (h : Lexes cs kinds) (offset : Nat) :
    (scan offset cs).1.map (·.kind) = kinds ∧ (scan offset cs).2 = [] := by
  induction h generalizing offset with
  | done =>
    rw [Lexer.scan]
    exact ⟨rfl, rfl⟩
  | @skip c cs kinds hkind _ ih =>
    rw [Lexer.scan]
    simp only [hkind, (gap_of_next hkind).1]
    exact ih _
  | @token c cs kind kinds hkind hcause _ ih =>
    rw [Lexer.scan]
    simp only [hkind, hcause, List.map_cons]
    exact ⟨congrArg (kind :: ·) (ih _).1, (ih _).2⟩

/-- A token can be put in front of a text that does not go on with it. -/
theorem spelled {kind : TokenKind} {text : List Char} (hkind : Spelled kind text)
    (hstop : ∀ c ∈ rest.head?, goesOn kind c = false) (h : Lexes rest kinds) :
    Lexes (text ++ rest) (kind :: kinds) := by
  obtain ⟨c, cs, htext, hnext⟩ := next_of_spelled hkind hstop
  rw [htext]
  exact .token (by rw [hnext]) (by rw [hnext]) (by rwa [hnext])

theorem dropLayout (h : Lexes cs kinds) : Lexes (cs.dropWhile isLayout) kinds := by
  rcases cs with _ | ⟨c, cs⟩
  · exact h
  by_cases hc : isLayout c = true
  · rw [List.dropWhile_cons_of_pos hc]
    cases h with
    | skip _ h => rwa [next_of_isLayout hc] at h
    | token hkind => simp [next_of_isLayout hc] at hkind
  · rwa [List.dropWhile_cons_of_neg hc]

theorem layout {c : Char} (hc : isLayout c = true) (h : Lexes cs kinds) : Lexes (c :: cs) kinds :=
  .skip (by rw [next_of_isLayout hc]) (by
    rw [next_of_isLayout hc]
    exact h.dropLayout)

theorem comment {body : List Char} (hbody : ∀ c ∈ body, c ≠ '\n')
    (hstop : ∀ c ∈ cs.head?, c = '\n') (h : Lexes cs kinds) :
    Lexes ('/' :: '/' :: (body ++ cs)) kinds := by
  refine .skip (by rw [next_comment]) ?_
  rw [next_comment, dropWhile_append_of_stop (fun c hc => by simpa using hbody c hc)
    fun c hc => by simp [hstop c hc]]
  exact h

/-- A gap can be put in front of a text. -/
theorem gap {gap : List Char} (hgap : Gap gap rest) (h : Lexes rest kinds) :
    Lexes (gap ++ rest) kinds := by
  induction hgap with
  | none => exact h
  | layout hc _ ih => exact (ih h).layout hc
  | @comment body cs rest hbody hstop _ ih =>
    simp only [List.cons_append, List.append_assoc]
    exact (ih h).comment hbody hstop

end Lexes

end Lexer

/-- The lexer answers tokens of the kinds that a text lexes to, and reports nothing. -/
theorem lex_of_lexes {source : String} {kinds : List TokenKind}
    (h : Lexer.Lexes source.toList kinds) :
    (lex source).1.map (·.kind) = kinds ∧ (lex source).2 = [] :=
  h.scan 0

end SnippetLang
