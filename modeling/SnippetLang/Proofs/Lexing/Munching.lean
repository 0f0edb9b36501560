import SnippetLang.Proofs.Lexing.Rules

/-!
# Lexing is maximal munch

A source is cut into gaps and lexemes.  A gap is layout and comments; a lexeme is the longest prefix
of the input at its place that any rule matches, or one character where no rule matches.  `Cuts`
says so of a whole input, together with the token and the issue that each lexeme leaves.  The lexer
answers such a cutting of every source, and from it one reads off where its tokens are.
-/

namespace SnippetLang

namespace Lexer

/-! ### Lexemes -/

/-- What the text at the front of an input leaves: the kind of its token, and what is wrong. -/
inductive Lexeme (text rest : List Char) : TokenKind → Option Cause → Prop where
  | word (w : Keyword) : (Rule.word w).Munches text rest → Lexeme text rest (.word w) none
  | ident : Rule.ident.Munches text rest → (∀ w : Keyword, ¬ (Rule.word w).Matches text) →
    Lexeme text rest (.ident (String.ofList text)) none
  | mark (m : Mark) : (Rule.mark m).Munches text rest → Lexeme text rest (.mark m) none
  | int (n : Int32) : Rule.int.Munches text rest → n.toInt = Text.digitsValue text →
    Lexeme text rest (.int n) none
  | tooLarge : Rule.int.Munches text rest → Int32.maxValue.toInt < Text.digitsValue text →
    Lexeme text rest (.int 0) (some (.numberOutOfRange (String.ofList text)))
  | string (inside : List Char) : Rule.string.Munches text rest → text = '"' :: (inside ++ ['"']) →
    Lexeme text rest (.string (String.ofList (Escape.decode inside))) none
  | unterminated (inside : List Char) : Rule.unterminated.Munches text rest →
    text = '"' :: inside →
    Lexeme text rest (.string (String.ofList (Escape.decode inside))) (some .unterminatedString)
  | invalid (c : Char) : text = [c] →
    (∀ (rule : Rule) (text' rest' : List Char), rule.Matches text' →
      text' ++ rest' ≠ text ++ rest) →
    Lexeme text rest .invalid (some (.badCharacter (String.ofList text)))

theorem munches_of_next {rule : Rule} {c : Char} {cs : List Char}
    (h : rule.Matches (next c cs).text) : rule.Munches (next c cs).text (next c cs).rest := by
  constructor
  · exact h
  · intro rule' text' rest' hmatches heq
    rw [text_append_rest] at heq
    exact (length_le_next hmatches heq).1

theorem mem_all_keyword (w : Keyword) : w ∈ Keyword.all := by
  cases w <;> decide

theorem forall_mem_takeWhile (p : Char → Bool) (cs : List Char) :
    ∀ c ∈ cs.takeWhile p, p c = true :=
  List.all_eq_true.1 List.all_takeWhile

/-- A word is reserved if its text is, and a name otherwise. -/
theorem lexeme_word {text rest : List Char} (h : Rule.ident.Munches text rest) :
    Lexeme text rest (wordKind (String.ofList text)) none := by
  unfold wordKind
  split
  · next w hw =>
    have hspelling : text = w.spelling.toList := by
      rw [Keyword.ofSpelling?] at hw
      have hfound := List.find?_some hw
      rw [beq_iff_eq.1 hfound, String.toList_ofList]
    exact .word w ⟨hspelling, h.longest⟩
  · next hnone =>
    refine .ident h fun w hw => ?_
    have hne := List.find?_eq_none.1 hnone w (mem_all_keyword w)
    obtain rfl : text = w.spelling.toList := hw
    simp at hne

theorem lexeme_number {text rest after : List Char} {kind : TokenKind}
    (h : Rule.int.Munches text rest) (hkind : (number text after).kind = some kind) :
    Lexeme text rest kind (number text after).cause := by
  obtain rfl := Option.some.inj hkind
  simp only [number]
  split
  · next hle =>
    exact .int _ h (Int32.toInt_ofNat_of_lt (Nat.lt_succ_of_le hle))
  · next hlt => exact .tooLarge h (Int.ofNat_lt.2 (Nat.lt_of_not_le hlt))

theorem lexeme_string {cs : List Char} {kind : TokenKind}
    (hkind : (next '"' cs).kind = some kind) :
    Lexeme (next '"' cs).text (next '"' cs).rest kind (next '"' cs).cause := by
  have hinside := inside_spanString cs
  have hclosed := @munches_of_next .string '"' cs
  have hopen := @munches_of_next .unterminated '"' cs
  rw [next_quote] at hkind hclosed hopen ⊢
  by_cases hquote : ∃ rest, (spanString cs).2 = '"' :: rest
  · obtain ⟨rest, hrest⟩ := hquote
    rw [string_of_quote hrest] at hkind hclosed ⊢
    obtain rfl := Option.some.inj hkind
    exact .string _ (hclosed ⟨_, rfl, hinside⟩) rfl
  · rw [string_of_no_quote (not_exists.1 hquote)] at hkind hopen ⊢
    obtain rfl := Option.some.inj hkind
    exact .unterminated _ (hopen ⟨_, rfl, hinside⟩) rfl

/-- The piece that is cut off the front of an input is a lexeme if it leaves a token. -/
theorem lexeme_of_next {c : Char} {cs : List Char} {kind : TokenKind}
    (hkind : (next c cs).kind = some kind) :
    Lexeme (next c cs).text (next c cs).rest kind (next c cs).cause := by
  by_cases hlayout : isLayout c = true
  · rw [next_of_isLayout hlayout] at hkind
    cases hkind
  by_cases hcomment : c = '/' ∧ cs.head? = some '/'
  · obtain ⟨rfl, hhead⟩ := hcomment
    obtain ⟨ds, rfl⟩ := List.head?_eq_some_iff.1 hhead
    rw [next_comment] at hkind
    cases hkind
  by_cases hdigit : Text.isDigit c = true
  · have hmunches := @munches_of_next .int c cs
    rw [next_of_isDigit hdigit] at hkind hmunches ⊢
    refine lexeme_number (hmunches ⟨List.cons_ne_nil _ _, ?_⟩) hkind
    exact List.forall_mem_cons.2 ⟨hdigit, forall_mem_takeWhile _ cs⟩
  by_cases hword : isWordStart c = true
  · have hmunches := @munches_of_next .ident c cs
    rw [next_of_isWordStart hword] at hkind hmunches ⊢
    obtain rfl := Option.some.inj hkind
    exact lexeme_word (hmunches ⟨c, _, rfl, hword, forall_mem_takeWhile _ cs⟩)
  by_cases hquote : c = '"'
  · subst hquote
    exact lexeme_string hkind
  cases hmark : mark? (c :: cs) with
  | some answer =>
    obtain ⟨m, rest⟩ := answer
    have hmunches := @munches_of_next (.mark m) c cs
    rw [next_of_mark? hmark hcomment] at hkind hmunches ⊢
    obtain rfl := Option.some.inj hkind
    exact .mark m (hmunches rfl)
  | none =>
    have hinvalid : next c cs =
        ⟨[c], some .invalid, some (.badCharacter (String.ofList [c])), cs⟩ := by
      simp only [next, if_neg hlayout, if_neg hcomment, if_neg hdigit, if_neg hword,
        if_neg hquote, hmark]
    rw [hinvalid] at hkind ⊢
    obtain rfl := Option.some.inj hkind
    refine .invalid c rfl fun rule text' rest' hmatches heq => ?_
    exact (length_le_next hmatches heq).2 (congrArg Piece.kind hinvalid)

/-! ### Gaps -/

/-- What stands between two lexemes: layout, and comments that run up to a line feed or to the end
    of the input. -/
inductive Gap : List Char → List Char → Prop where
  | none (rest : List Char) : Gap [] rest
  | layout {c : Char} {cs rest : List Char} : isLayout c = true → Gap cs rest → Gap (c :: cs) rest
  | comment {body cs rest : List Char} : (∀ c ∈ body, c ≠ '\n') →
    (∀ c ∈ (cs ++ rest).head?, c = '\n') → Gap cs rest →
    Gap ('/' :: '/' :: (body ++ cs)) rest

theorem gap_layout {text cs rest : List Char} (htext : ∀ c ∈ text, isLayout c = true)
    (h : Gap cs rest) : Gap (text ++ cs) rest := by
  induction text with
  | nil => exact h
  | cons c text ih =>
    obtain ⟨hc, htext⟩ := List.forall_mem_cons.1 htext
    exact .layout hc (ih htext)

/-- A piece that leaves no token is nothing wrong and part of the gap that it begins. -/
theorem gap_of_next {c : Char} {cs : List Char} (hkind : (next c cs).kind = none) :
    (next c cs).cause = none ∧ ∀ gap rest, (next c cs).rest = gap ++ rest → Gap gap rest →
      Gap ((next c cs).text ++ gap) rest := by
  by_cases hlayout : isLayout c = true
  · rw [next_of_isLayout hlayout]
    refine ⟨rfl, fun gap rest _ hgap => ?_⟩
    exact gap_layout (List.forall_mem_cons.2 ⟨hlayout, forall_mem_takeWhile _ cs⟩) hgap
  by_cases hcomment : c = '/' ∧ cs.head? = some '/'
  · obtain ⟨rfl, hhead⟩ := hcomment
    obtain ⟨ds, rfl⟩ := List.head?_eq_some_iff.1 hhead
    rw [next_comment]
    refine ⟨rfl, fun gap rest hrest hgap => .comment ?_ ?_ hgap⟩
    · intro d hd
      simpa using forall_mem_takeWhile _ ds d hd
    · intro d hd
      have hstop := List.head?_dropWhile_not (· != '\n') ds
      dsimp only at hrest
      rw [hrest, hd] at hstop
      simpa using hstop
  unfold next at hkind
  rw [if_neg hlayout, if_neg hcomment] at hkind
  split at hkind
  · cases hkind
  split at hkind
  · cases hkind
  split at hkind
  · rw [kind_string] at hkind
    cases hkind
  split at hkind <;> cases hkind

/-! ### Cuttings -/

/-- The input, which begins at an offset, is cut into gaps and lexemes, the last gap running to its
    end, and the tokens and issues are those that the lexemes leave at their places. -/
inductive Cuts : Nat → List Char → List Token → List Issue → Prop where
  | done {offset : Nat} {gap : List Char} : Gap gap [] →
    Cuts offset gap [⟨.endOfFile, .point (offset + utf8Length gap)⟩] []
  | lexeme {offset : Nat} {gap text rest : List Char} {kind : TokenKind} {cause : Option Cause}
      {span : Span} {tokens : List Token} {issues : List Issue} :
    Gap gap (text ++ rest) → Lexeme text rest kind cause →
    span.start = offset + utf8Length gap → span.stop = span.start + utf8Length text →
    Cuts span.stop rest tokens issues →
    Cuts offset (gap ++ (text ++ rest)) (⟨kind, span⟩ :: tokens)
      ((cause.map fun cause => ⟨cause, span⟩).toList ++ issues)

/-- A piece that is part of a gap can be put in front of a cutting. -/
theorem Cuts.prepend {offset : Nat} {text rest : List Char} {tokens : List Token}
    {issues : List Issue} (h : Cuts (offset + utf8Length text) rest tokens issues)
    (hgap : ∀ gap rest', rest = gap ++ rest' → Gap gap rest' → Gap (text ++ gap) rest') :
    Cuts offset (text ++ rest) tokens issues := by
  cases h with
  | done h =>
    rw [Nat.add_assoc, ← utf8Length_append]
    exact .done (hgap rest [] (List.append_nil rest).symm h)
  | lexeme h hlexeme hstart hstop hcuts =>
    rw [← List.append_assoc]
    refine .lexeme (hgap _ _ rfl h) hlexeme ?_ hstop hcuts
    rw [hstart, utf8Length_append, Nat.add_assoc]

theorem cuts_scan (offset : Nat) (cs : List Char) :
    Cuts offset cs (scan offset cs).1 (scan offset cs).2 := by
  fun_induction scan offset cs with
  | case1 offset => exact .done (.none [])
  | case2 offset c cs piece span tokens issues hscan ih =>
    rw [hscan] at ih
    have hinput : c :: cs = piece.text ++ piece.rest := (text_append_rest c cs).symm
    rw [hinput]
    cases hkind : piece.kind with
    | none =>
      obtain ⟨hcause, hgap⟩ := gap_of_next hkind
      rw [show piece.cause = none from hcause]
      exact ih.prepend hgap
    | some kind =>
      have hcuts := Cuts.lexeme (.none _) (lexeme_of_next hkind) (Nat.add_zero offset) rfl ih
      cases hcause : piece.cause with
      | none => rwa [show (next c cs).cause = none from hcause] at hcuts
      | some cause => rwa [show (next c cs).cause = some cause from hcause] at hcuts

/-! ### Where the tokens are -/

theorem Rule.Matches.ne_nil {rule : Rule} {text : List Char} (h : rule.Matches text) :
    text ≠ [] := by
  cases rule with
  | layout => exact h.1
  | int => exact h.1
  | comment =>
    obtain ⟨body, rfl, -⟩ := h
    exact List.cons_ne_nil _ _
  | word w =>
    obtain rfl : text = w.spelling.toList := h
    cases w <;> decide
  | mark m =>
    obtain rfl : text = m.spelling.toList := h
    cases m <;> decide
  | string =>
    obtain ⟨inside, rfl, -⟩ := h
    exact List.cons_ne_nil _ _
  | unterminated =>
    obtain ⟨inside, rfl, -⟩ := h
    exact List.cons_ne_nil _ _
  | ident =>
    obtain ⟨c, cs, rfl, -⟩ := h
    exact List.cons_ne_nil _ _

theorem Lexeme.ne_nil {text rest : List Char} {kind : TokenKind} {cause : Option Cause}
    (h : Lexeme text rest kind cause) : text ≠ [] := by
  cases h with
  | invalid c htext _ => simp [htext]
  | word w h => exact h.matched.ne_nil
  | mark m h => exact h.matched.ne_nil
  | ident h => exact h.matched.ne_nil
  | int n h => exact h.matched.ne_nil
  | tooLarge h => exact h.matched.ne_nil
  | string inside h => exact h.matched.ne_nil
  | unterminated inside h => exact h.matched.ne_nil

theorem Lexeme.ne_endOfFile {text rest : List Char} {kind : TokenKind} {cause : Option Cause}
    (h : Lexeme text rest kind cause) : kind ≠ .endOfFile := by
  cases h <;> nofun

theorem utf8Length_pos {text : List Char} (h : text ≠ []) : 0 < utf8Length text := by
  cases text with
  | nil => exact absurd rfl h
  | cons c cs =>
    have := c.utf8Size_pos
    rw [utf8Length]
    omega

section Places

variable {offset : Nat} {cs : List Char} {tokens : List Token} {issues : List Issue}

theorem Cuts.start_le (h : Cuts offset cs tokens issues) :
    ∀ t ∈ tokens, offset ≤ t.span.start := by
  induction h with
  | done _ =>
    intro t ht
    obtain rfl := List.mem_singleton.1 ht
    exact Nat.le_add_right _ _
  | lexeme _ _ hstart hstop _ ih =>
    intro t ht
    rcases List.mem_cons.1 ht with rfl | ht
    · simp only
      omega
    · have := ih t ht
      omega

theorem Cuts.ordered (h : Cuts offset cs tokens issues) :
    tokens.Pairwise fun t u => t.span.stop ≤ u.span.start := by
  induction h with
  | done _ => exact List.pairwise_singleton _ _
  | lexeme _ _ _ _ hcuts ih => exact List.pairwise_cons.2 ⟨hcuts.start_le, ih⟩

/-- The end of the file is the last token and the only empty one. -/
theorem Cuts.closed (h : Cuts offset cs tokens issues) : ∃ front,
    tokens = front ++ [⟨.endOfFile, .point (offset + utf8Length cs)⟩] ∧
      ∀ t ∈ front, t.kind ≠ .endOfFile ∧ t.span.start < t.span.stop := by
  induction h with
  | done _ => exact ⟨[], rfl, by simp⟩
  | @lexeme _ _ _ _ kind _ span _ _ _ hlexeme hstart hstop _ ih =>
    obtain ⟨front, rfl, hfront⟩ := ih
    have hpos := utf8Length_pos hlexeme.ne_nil
    have hfirst : kind ≠ .endOfFile ∧ span.start < span.stop :=
      ⟨hlexeme.ne_endOfFile, by omega⟩
    refine ⟨⟨kind, span⟩ :: front, ?_, List.forall_mem_cons.2 ⟨hfirst, hfront⟩⟩
    simp only [List.cons_append, utf8Length_append, hstop, hstart, Nat.add_assoc]

/-- Both ends of every token are between two characters. -/
theorem Cuts.between (h : Cuts offset cs tokens issues) :
    ∀ t ∈ tokens, ∀ place ∈ [t.span.start, t.span.stop],
      ∃ front back, cs = front ++ back ∧ place = offset + utf8Length front := by
  induction h with
  | @done offset gap _ =>
    intro t ht place hplace
    obtain rfl := List.mem_singleton.1 ht
    refine ⟨gap, [], (List.append_nil gap).symm, ?_⟩
    simpa [Span.point] using hplace
  | @lexeme offset gap text rest kind cause span tokens issues _ _ hstart hstop _ ih =>
    intro t ht place hplace
    rcases List.mem_cons.1 ht with rfl | ht
    · rcases List.mem_cons.1 hplace with rfl | hplace
      · exact ⟨gap, text ++ rest, rfl, hstart⟩
      · obtain rfl := List.mem_singleton.1 hplace
        refine ⟨gap ++ text, rest, by simp, ?_⟩
        rw [utf8Length_append, ← Nat.add_assoc, ← hstart]
        exact hstop
    · obtain ⟨front, back, rfl, hplace⟩ := ih t ht place hplace
      refine ⟨gap ++ (text ++ front), back, by simp, ?_⟩
      simp only [utf8Length_append]
      omega

end Places

/-- A place between two characters of a text, in bytes. -/
theorem isValid_of_append {source : String} {front back : List Char}
    (h : source.toList = front ++ back) :
    String.Pos.Raw.IsValid source ⟨utf8Length front⟩ := by
  refine String.Pos.Raw.isValid_iff_exists_append.2
    ⟨String.ofList front, String.ofList back, ?_, ?_⟩
  · rw [← String.ofList_append, ← h, String.ofList_toList]
  · rw [String.rawEndPos, ← utf8Length_toList, String.toList_ofList]

end Lexer

/-- The lexer cuts every source by maximal munch.  Its tokens stand one behind the other, begin and
    end at character boundaries, and are not empty but for the end of the file, which is the last
    one and stands at the end of the source. -/
theorem lex_maximal_munch (source : String) :
    Lexer.Cuts 0 source.toList (lex source).1 (lex source).2 ∧
      (lex source).1.Pairwise (fun t u => t.span.stop ≤ u.span.start) ∧
      (∀ t ∈ (lex source).1, ∀ place ∈ [t.span.start, t.span.stop],
        String.Pos.Raw.IsValid source ⟨place⟩) ∧
      ∃ front, (lex source).1 = front ++ [⟨.endOfFile, .point source.utf8ByteSize⟩] ∧
        ∀ t ∈ front, t.kind ≠ .endOfFile ∧ t.span.start < t.span.stop := by
  have hcuts : Lexer.Cuts 0 source.toList (lex source).1 (lex source).2 :=
    Lexer.cuts_scan 0 source.toList
  refine ⟨hcuts, hcuts.ordered, ?_, ?_⟩
  · intro t ht place hplace
    obtain ⟨front, back, hsource, rfl⟩ := hcuts.between t ht place hplace
    rw [Nat.zero_add]
    exact Lexer.isValid_of_append hsource
  · have hclosed := hcuts.closed
    rwa [Nat.zero_add, utf8Length_toList] at hclosed

end SnippetLang
