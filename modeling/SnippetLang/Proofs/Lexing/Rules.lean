import SnippetLang.Token.Lexer

/-!
# The rules of the lexer

Eight rules say which texts are layout, comments and tokens.  They know nothing of each other, and
several of them can match prefixes of the same input.  Which one is taken is decided by length
alone, but for a reserved word, which is matched by the rule for names as well.

`next` decides on the first characters instead.  What is shown here is that the piece it cuts off is
at least as long as any prefix that any rule matches, and that where it cuts off an invalid
character no rule matches at all.
-/

namespace SnippetLang.Lexer

/-! ### What the rules match -/

/-- The inside of a string: characters that stand for themselves, and pairs of a backslash and any
    character but a line feed. -/
inductive Inside : List Char → Prop where
  | nil : Inside []
  | plain {c : Char} {cs : List Char} : isPlain c = true → Inside cs → Inside (c :: cs)
  | escape {c : Char} {cs : List Char} : c ≠ '\n' → Inside cs → Inside ('\\' :: c :: cs)

/-- A rule of the lexer. -/
inductive Rule where
  | layout
  | comment
  | word (w : Keyword)
  | mark (m : Mark)
  | int
  | string
  | unterminated
  | ident

/-- The texts that a rule matches; no rule matches the empty one. -/
def Rule.Matches : Rule → List Char → Prop
  | .layout, text => text ≠ [] ∧ ∀ c ∈ text, isLayout c = true
  | .comment, text => ∃ body, text = '/' :: '/' :: body ∧ ∀ c ∈ body, c ≠ '\n'
  | .word w, text => text = w.spelling.toList
  | .mark m, text => text = m.spelling.toList
  | .int, text => text ≠ [] ∧ ∀ c ∈ text, Text.isDigit c = true
  | .string, text => ∃ inside, text = '"' :: (inside ++ ['"']) ∧ Inside inside
  | .unterminated, text => ∃ inside, text = '"' :: inside ∧ Inside inside
  | .ident, text =>
    ∃ c cs, text = c :: cs ∧ isWordStart c = true ∧ ∀ d ∈ cs, isWordPart d = true

/-- The rule matches the text, and no rule matches a longer prefix of the text and the rest. -/
structure Rule.Munches (rule : Rule) (text rest : List Char) : Prop where
  matched : rule.Matches text
  longest : ∀ (rule' : Rule) (text' rest' : List Char), rule'.Matches text' →
    text' ++ rest' = text ++ rest → text'.length ≤ text.length

/-! ### First characters -/

theorem isLayout_cases {c : Char} (h : isLayout c = true) :
    c = ' ' ∨ c = '\t' ∨ c = '\r' ∨ c = '\n' := by
  simpa [isLayout, or_assoc] using h

theorem not_isDigit_of_isWordStart {c : Char} (h : isWordStart c = true) :
    Text.isDigit c = false := by
  cases hdigit : Text.isDigit c with
  | false => rfl
  | true =>
    simp only [isWordStart, Text.isDigit, Bool.or_eq_true, Bool.and_eq_true, decide_eq_true_eq,
      beq_iff_eq, Char.le_def, UInt32.le_iff_toNat_le] at h hdigit
    change 48 ≤ c.val.toNat ∧ c.val.toNat ≤ 57 at hdigit
    rcases h with (⟨h, -⟩ | ⟨h, -⟩) | rfl
    · change 97 ≤ c.val.toNat at h
      omega
    · change 65 ≤ c.val.toNat at h
      omega
    · exact absurd hdigit (by decide)

theorem not_isLayout_of_isWordStart {c : Char} (h : isWordStart c = true) :
    isLayout c = false := by
  cases hlayout : isLayout c with
  | false => rfl
  | true => rcases isLayout_cases hlayout with rfl | rfl | rfl | rfl <;> cases h

theorem not_isLayout_of_isDigit {c : Char} (h : Text.isDigit c = true) : isLayout c = false := by
  cases hlayout : isLayout c with
  | false => rfl
  | true => rcases isLayout_cases hlayout with rfl | rfl | rfl | rfl <;> cases h

theorem ne_slash_of_isWordStart {c : Char} (h : isWordStart c = true) : c ≠ '/' := by
  rintro rfl
  cases h

theorem ne_slash_of_isDigit {c : Char} (h : Text.isDigit c = true) : c ≠ '/' := by
  rintro rfl
  cases h

/-! ### What `next` does, by the first character -/

section Next

variable {c : Char} {cs : List Char}

theorem next_of_isLayout (h : isLayout c = true) :
    next c cs = ⟨c :: cs.takeWhile isLayout, none, none, cs.dropWhile isLayout⟩ := by
  rw [next, if_pos h]

theorem next_comment (cs : List Char) :
    next '/' ('/' :: cs) =
      ⟨'/' :: '/' :: cs.takeWhile (· != '\n'), none, none, cs.dropWhile (· != '\n')⟩ := by
  rfl

theorem next_of_isDigit (h : Text.isDigit c = true) :
    next c cs = number (c :: cs.takeWhile Text.isDigit) (cs.dropWhile Text.isDigit) := by
  have hslash := ne_slash_of_isDigit h
  simp [next, not_isLayout_of_isDigit h, hslash, h]

theorem next_of_isWordStart (h : isWordStart c = true) :
    next c cs = ⟨c :: cs.takeWhile isWordPart,
      some (wordKind (String.ofList (c :: cs.takeWhile isWordPart))), none,
      cs.dropWhile isWordPart⟩ := by
  have hslash := ne_slash_of_isWordStart h
  simp [next, not_isLayout_of_isWordStart h, hslash, not_isDigit_of_isWordStart h, h]

theorem next_quote (cs : List Char) : next '"' cs = string cs := by
  rfl

/-- A mark is found unless it begins a comment. -/
theorem next_of_mark? {m : Mark} {rest : List Char} (h : mark? (c :: cs) = some (m, rest))
    (hcomment : ¬ (c = '/' ∧ cs.head? = some '/')) :
    next c cs = ⟨m.spelling.toList, some (.mark m), none, rest⟩ := by
  have hspelling := spelling_append_of_mark? h
  obtain ⟨d, ds, hd⟩ : ∃ d ds, m.spelling.toList = d :: ds ∧ isLayout d = false ∧
      Text.isDigit d = false ∧ isWordStart d = false ∧ d ≠ '"' := by
    cases m <;> exact ⟨_, _, rfl, by decide⟩
  obtain ⟨hspells, hlayout, hdigit, hword, hquote⟩ := hd
  rw [hspells] at hspelling
  obtain rfl := (List.cons.inj hspelling).1
  rw [next, if_neg (by simp [hlayout]), if_neg hcomment, if_neg (by simp [hdigit]),
    if_neg (by simp [hword]), if_neg hquote, h]

end Next

/-! ### The inside of a string -/

theorem spanString_plain {c : Char} (h : isPlain c = true) (cs : List Char) :
    spanString (c :: cs) = (c :: (spanString cs).1, (spanString cs).2) := by
  cases cs with
  | nil => simp [spanString, h]
  | cons d cs => simp [spanString, h]

theorem spanString_escape {c : Char} (h : c ≠ '\n') (cs : List Char) :
    spanString ('\\' :: c :: cs) = ('\\' :: c :: (spanString cs).1, (spanString cs).2) := by
  have hplain : isPlain '\\' = false := rfl
  simp [spanString, hplain, h]

theorem spanString_quote (cs : List Char) : spanString ('"' :: cs) = ([], '"' :: cs) := by
  cases cs <;> rfl

theorem inside_spanString (cs : List Char) : Inside (spanString cs).1 := by
  fun_induction spanString cs with
  | case1 => exact .nil
  | case2 c hplain => exact .plain hplain .nil
  | case3 => exact .nil
  | case4 c d rest hplain inside after hspan ih =>
    rw [hspan] at ih
    exact .plain hplain ih
  | case5 c d rest _ hescape inside after hspan ih =>
    rw [hspan] at ih
    obtain ⟨rfl, hd⟩ := hescape
    exact .escape hd ih
  | case6 => exact .nil

/-- The inside of a string is never cut off early. -/
theorem spanString_inside {inside : List Char} (h : Inside inside) (rest : List Char) :
    spanString (inside ++ rest) = (inside ++ (spanString rest).1, (spanString rest).2) := by
  induction h with
  | nil => rfl
  | plain hplain _ ih => rw [List.cons_append, spanString_plain hplain, ih]; rfl
  | escape hd _ ih => rw [List.cons_append, List.cons_append, spanString_escape hd, ih]; rfl

theorem string_of_quote {cs rest : List Char} (h : (spanString cs).2 = '"' :: rest) :
    string cs = ⟨'"' :: ((spanString cs).1 ++ ['"']),
      some (.string (String.ofList (Escape.decode (spanString cs).1))), none, rest⟩ := by
  simp only [string, h]
  rfl

theorem string_of_no_quote {cs : List Char} (h : ∀ rest, (spanString cs).2 ≠ '"' :: rest) :
    string cs = ⟨'"' :: (spanString cs).1,
      some (.string (String.ofList (Escape.decode (spanString cs).1))), some .unterminatedString,
      (spanString cs).2⟩ := by
  unfold string
  split
  · next rest hrest => exact absurd hrest (h rest)
  · rfl

theorem kind_string (cs : List Char) :
    (string cs).kind = some (.string (String.ofList (Escape.decode (spanString cs).1))) := by
  unfold string
  split <;> rfl

theorem length_spanString_lt (cs : List Char) :
    (spanString cs).1.length < (string cs).text.length := by
  unfold string
  split
  · simp only [List.length_cons, List.length_append]
    omega
  · simp only [List.length_cons]
    omega

/-! ### No rule matches more -/

theorem length_le_takeWhile {p : Char → Bool} {text rest : List Char}
    (h : ∀ c ∈ text, p c = true) : text.length ≤ ((text ++ rest).takeWhile p).length := by
  rw [List.takeWhile_append_of_pos h]
  simp

/-- Reserved words are written like names. -/
theorem ident_of_word {w : Keyword} {text : List Char} (h : (Rule.word w).Matches text) :
    Rule.ident.Matches text := by
  obtain rfl : text = w.spelling.toList := h
  cases w <;> exact ⟨_, _, rfl, by decide, List.all_eq_true.1 (by decide)⟩

theorem length_spelling_mark (m : Mark) : m.spelling.toList.length ≤ 2 := by
  cases m <;> decide

theorem length_spelling_mark_pos (m : Mark) : 1 ≤ m.spelling.toList.length := by
  cases m <;> decide

theorem isSome_mark? (m : Mark) (rest : List Char) :
    (mark? (m.spelling.toList ++ rest)).isSome = true := by
  -- Only `=`, `&` and `|` make a mark of the one before them.
  rcases rest with _ | ⟨d, ds⟩
  · cases m <;> rfl
  by_cases heq : d = '='
  · subst heq
    cases m <;> rfl
  by_cases hamp : d = '&'
  · subst hamp
    cases m <;> rfl
  by_cases hpipe : d = '|'
  · subst hpipe
    cases m <;> rfl
  cases m <;> first | rfl | simp [Mark.spelling, mark?, heq, hamp, hpipe]

theorem mark?_of_length_two {m : Mark} (h : m.spelling.toList.length = 2) (rest : List Char) :
    mark? (m.spelling.toList ++ rest) = some (m, rest) := by
  cases m <;> first | rfl | cases h

/-- Where a mark can be read, a mark of at least its length is found. -/
theorem exists_mark? (m : Mark) (rest : List Char) : ∃ m' rest',
    mark? (m.spelling.toList ++ rest) = some (m', rest') ∧
      m.spelling.toList.length ≤ m'.spelling.toList.length := by
  by_cases hlength : m.spelling.toList.length = 2
  · exact ⟨m, rest, mark?_of_length_two hlength rest, Nat.le_refl _⟩
  · obtain ⟨⟨m', rest'⟩, hmark⟩ := Option.isSome_iff_exists.1 (isSome_mark? m rest)
    have := length_spelling_mark m
    have := length_spelling_mark_pos m'
    exact ⟨m', rest', hmark, by omega⟩

/-- A prefix that a rule matches is no longer than the piece that is cut off, which then is not an
    invalid character. -/
theorem length_le_next {rule : Rule} {text rest : List Char} {c : Char} {cs : List Char}
    (hmatches : rule.Matches text) (h : text ++ rest = c :: cs) :
    text.length ≤ (next c cs).text.length ∧ (next c cs).kind ≠ some .invalid := by
  have hident : Rule.ident.Matches text →
      text.length ≤ (next c cs).text.length ∧ (next c cs).kind ≠ some .invalid := by
    rintro ⟨d, ds, rfl, hd, hds⟩
    obtain ⟨rfl, rfl⟩ := List.cons.inj h
    rw [next_of_isWordStart hd]
    refine ⟨Nat.succ_le_succ (length_le_takeWhile hds), ?_⟩
    unfold wordKind
    split <;> nofun
  cases rule with
  | layout =>
    obtain ⟨hne, hall⟩ := hmatches
    obtain ⟨d, ds, rfl⟩ := List.exists_cons_of_ne_nil hne
    obtain ⟨rfl, rfl⟩ := List.cons.inj h
    obtain ⟨hd, hds⟩ := List.forall_mem_cons.1 hall
    rw [next_of_isLayout hd]
    exact ⟨Nat.succ_le_succ (length_le_takeWhile hds), nofun⟩
  | comment =>
    obtain ⟨body, rfl, hbody⟩ := hmatches
    rw [List.cons_append, List.cons_append] at h
    obtain ⟨rfl, rfl⟩ := List.cons.inj h
    rw [next_comment]
    have hlength : body.length ≤ ((body ++ rest).takeWhile (· != '\n')).length :=
      length_le_takeWhile fun d hd => by simpa using hbody d hd
    exact ⟨Nat.succ_le_succ (Nat.succ_le_succ hlength), nofun⟩
  | word w => exact hident (ident_of_word hmatches)
  | mark m =>
    obtain rfl : text = m.spelling.toList := hmatches
    by_cases hcomment : c = '/' ∧ cs.head? = some '/'
    · obtain ⟨rfl, hhead⟩ := hcomment
      obtain ⟨ds, rfl⟩ := List.head?_eq_some_iff.1 hhead
      rw [next_comment]
      exact ⟨Nat.le_trans (length_spelling_mark m) (by simp), nofun⟩
    · obtain ⟨m', rest', hmark, hle⟩ := exists_mark? m rest
      rw [h] at hmark
      rw [next_of_mark? hmark hcomment]
      exact ⟨hle, nofun⟩
  | int =>
    obtain ⟨hne, hall⟩ := hmatches
    obtain ⟨d, ds, rfl⟩ := List.exists_cons_of_ne_nil hne
    obtain ⟨rfl, rfl⟩ := List.cons.inj h
    obtain ⟨hd, hds⟩ := List.forall_mem_cons.1 hall
    rw [next_of_isDigit hd]
    exact ⟨Nat.succ_le_succ (length_le_takeWhile hds), nofun⟩
  | string =>
    obtain ⟨inside, rfl, hinside⟩ := hmatches
    rw [List.cons_append] at h
    obtain ⟨rfl, rfl⟩ := List.cons.inj h
    rw [next_quote, kind_string]
    refine ⟨?_, nofun⟩
    have hspan := spanString_inside hinside ('"' :: rest)
    rw [spanString_quote, List.append_nil] at hspan
    have hinsideLength : (spanString (inside ++ '"' :: rest)).1.length = inside.length := by
      rw [hspan]
    rw [List.append_assoc, List.singleton_append, string_of_quote (congrArg Prod.snd hspan)]
    simp only [List.length_cons, List.length_append, List.length_nil, hinsideLength]
    omega
  | unterminated =>
    obtain ⟨inside, rfl, hinside⟩ := hmatches
    rw [List.cons_append] at h
    obtain ⟨rfl, rfl⟩ := List.cons.inj h
    rw [next_quote, kind_string]
    refine ⟨?_, nofun⟩
    have hlt := length_spanString_lt (inside ++ rest)
    rw [spanString_inside hinside, List.length_append] at hlt
    rw [List.length_cons]
    omega
  | ident => exact hident hmatches

end SnippetLang.Lexer
