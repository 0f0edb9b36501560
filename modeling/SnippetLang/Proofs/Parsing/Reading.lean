import SnippetLang.Tree.Parser

/-!
# Readable sequences of tokens

The lexer answers a sequence that ends with the end-of-file token, and when it found no issue then
no token of the sequence is invalid and no name is without characters.  Whatever the parser does,
it moves a reader forward through such a sequence and only adds to its issues.
-/

namespace SnippetLang

/-! ### What the lexer answers -/

/-- The last one of the tokens is the end of the file. -/
def Closed (tokens : List Token) : Prop := tokens.getLast?.map (·.kind) = some .endOfFile

theorem Closed.suffix {tokens rest : List Token} (h : Closed tokens) (hs : rest <:+ tokens)
    (hne : rest ≠ []) : Closed rest := by
  obtain ⟨passed, rfl⟩ := hs
  obtain ⟨last, hlast⟩ := Option.ne_none_iff_exists'.1 (mt List.getLast?_eq_none_iff.1 hne)
  unfold Closed at h ⊢
  rwa [List.getLast?_append, hlast, Option.some_or, ← hlast] at h

/-- A token that the parser can make something of: neither an invalid one nor an empty name. -/
def Token.Legible (t : Token) : Prop := t.kind ≠ .invalid ∧ t.kind ≠ .ident ""

/-- A sequence of legible tokens of which the last one is the end of the file. -/
structure Readable (tokens : List Token) : Prop where
  legible : ∀ t ∈ tokens, t.Legible
  closed : tokens.getLast?.map (·.kind) = some .endOfFile

namespace Readable

theorem ne_nil {tokens : List Token} (h : Readable tokens) : tokens ≠ [] := by
  rintro rfl
  have := h.closed
  simp at this

theorem cons {t : Token} {tokens : List Token} (ht : t.Legible) (h : Readable tokens) :
    Readable (t :: tokens) := by
  constructor
  · intro u hu
    rcases List.mem_cons.1 hu with rfl | hu
    · exact ht
    · exact h.legible u hu
  · rw [List.getLast?_cons_of_ne_nil h.ne_nil]
    exact h.closed

/-- What is left of a readable sequence is readable. -/
theorem suffix {tokens rest : List Token} (h : Readable tokens) (hs : rest <:+ tokens)
    (hne : rest ≠ []) : Readable rest := by
  constructor
  · intro t ht
    exact h.legible t (hs.subset ht)
  · exact Closed.suffix h.closed hs hne

end Readable

namespace Lexer

/-- A piece with nothing wrong about it leaves a legible token, if it leaves one at all. -/
theorem legible_of_next {c : Char} {cs : List Char} {kind : TokenKind}
    (hcause : (next c cs).cause = none) (hkind : (next c cs).kind = some kind) (span : Span) :
    Token.Legible ⟨kind, span⟩ := by
  unfold next at hcause hkind
  split at hkind
  · cases hkind
  split at hkind
  · cases hkind
  split at hkind
  · obtain rfl := Option.some.inj hkind
    exact ⟨nofun, nofun⟩
  split at hkind
  · obtain rfl := Option.some.inj hkind
    simp only [Token.Legible, wordKind]
    split
    · exact ⟨nofun, nofun⟩
    · refine ⟨nofun, ?_⟩
      simp
  split at hkind
  · unfold string at hkind
    split at hkind <;> obtain rfl := Option.some.inj hkind <;> exact ⟨nofun, nofun⟩
  split at hkind
  · obtain rfl := Option.some.inj hkind
    exact ⟨nofun, nofun⟩
  · simp_all

/-- A scan that finds no issue answers a readable sequence. -/
theorem readable_of_scan (offset : Nat) (cs : List Char) (h : (scan offset cs).2 = []) :
    Readable (scan offset cs).1 := by
  fun_induction scan offset cs with
  | case1 offset => exact ⟨by simp [Token.Legible], rfl⟩
  | case2 offset c cs piece span tokens issues hscan ih =>
    rw [hscan] at ih
    cases hcause : piece.cause with
    | some cause => simp [hcause] at h
    | none =>
      simp only [hcause] at h
      cases hkind : piece.kind with
      | none => exact ih h
      | some kind => exact (ih h).cons (legible_of_next hcause hkind span)

end Lexer

/-! ### Kinds by their classes -/

namespace TokenKind

variable {k : TokenKind}

theorem eq_mark_of_toClass {m : Mark} (h : k.toClass = .mark m) : k = .mark m := by
  cases k <;> cases h; rfl

theorem eq_word_of_toClass {w : Keyword} (h : k.toClass = .word w) : k = .word w := by
  cases k <;> cases h; rfl

theorem exists_ident_of_toClass (h : k.toClass = .ident) : ∃ name, k = .ident name := by
  cases k <;> cases h
  exact ⟨_, rfl⟩

end TokenKind

/-! ### How the parser moves a reader -/

/-- The token that a cursor is on and those after it. -/
def Cursor.rest (c : Cursor) : List Token := c.current :: c.ahead

namespace Reader

/-- One reader is later than another one of the same sequence: it is as far or further on, and has
    found the same issues first, and others only at tokens that it passed or is at. -/
structure Reaches (r s : Reader) : Prop where
  rest : s.cursor.rest <:+ r.cursor.rest
  total : s.cursor.position + s.cursor.ahead.length = r.cursor.position + r.cursor.ahead.length
  issues : r.issues <+: s.issues
  found : ∀ i ∈ s.issues, i ∈ r.issues ∨ ∃ t ∈ r.cursor.rest, i.span = t.span

namespace Reaches

theorem refl (r : Reader) : r.Reaches r :=
  ⟨List.suffix_refl _, rfl, List.prefix_refl _, fun _ hi => .inl hi⟩

theorem trans {r s t : Reader} (h : r.Reaches s) (h' : s.Reaches t) : r.Reaches t := by
  refine ⟨h'.rest.trans h.rest, h'.total.trans h.total, h.issues.trans h'.issues, ?_⟩
  intro i hi
  rcases h'.found i hi with hi | ⟨u, hu, hspan⟩
  · exact h.found i hi
  · exact .inr ⟨u, h.rest.subset hu, hspan⟩

/-- The reader of an answer, by the parts of the answer. -/
theorem part {α : Type} {a : α} {r s : Reader} {answer : α × Reader} (h : r.Reaches answer.2)
    (ha : answer = (a, s)) : r.Reaches s := by
  rw [ha] at h
  exact h

theorem length_le {r s : Reader} (h : r.Reaches s) :
    s.cursor.ahead.length ≤ r.cursor.ahead.length := by
  have := h.rest.length_le
  simpa [Cursor.rest] using this

/-- What comes later found no issue only if what comes before it did not either. -/
theorem clean {r s : Reader} (h : r.Reaches s) (hs : s.issues = []) : r.issues = [] :=
  List.prefix_nil.1 (hs ▸ h.issues)

theorem closed {r s : Reader} (h : r.Reaches s) (hr : Closed r.cursor.rest) :
    Closed s.cursor.rest :=
  hr.suffix h.rest (by simp [Cursor.rest])

theorem readable {r s : Reader} (h : r.Reaches s) (hr : Readable r.cursor.rest) :
    Readable s.cursor.rest :=
  hr.suffix h.rest (by simp [Cursor.rest])

end Reaches

theorem reaches_advance (r : Reader) : r.Reaches r.advance := by
  obtain ⟨⟨passed, current, ahead⟩, issues⟩ := r
  cases ahead with
  | nil => exact .refl _
  | cons t ts =>
    refine ⟨List.suffix_cons _ _, ?_, List.prefix_refl _, fun _ hi => .inl hi⟩
    simp only [advance, Cursor.advance, Cursor.position, List.length_cons]
    omega

theorem reaches_unexpected (r : Reader) (expected : TokenClass) :
    r.Reaches (r.unexpected expected) := by
  refine ⟨List.suffix_refl _, rfl, List.prefix_append _ _, ?_⟩
  intro i hi
  rcases List.mem_append.1 hi with hi | hi
  · exact .inl hi
  · rw [List.mem_singleton.1 hi]
    exact .inr ⟨r.cursor.current, List.mem_cons_self .., rfl⟩

theorem reaches_expect (r : Reader) (expected : TokenClass) :
    r.Reaches (r.expect expected).2 := by
  unfold expect
  split
  · exact r.reaches_advance
  · exact r.reaches_unexpected expected

theorem reaches_ident (r : Reader) : r.Reaches r.ident.2 := by
  unfold ident
  split
  · exact r.reaches_advance
  · exact r.reaches_unexpected .ident

/-- In a closed sequence only the end of the file is the last token. -/
theorem ahead_ne_nil_of_closed {r : Reader} (hr : Closed r.cursor.rest)
    (h : r.kind ≠ .endOfFile) : r.cursor.ahead ≠ [] := by
  intro hnil
  rw [Cursor.rest, hnil] at hr
  exact h (Option.some.inj hr)

theorem ahead_ne_nil {r : Reader} (hr : Readable r.cursor.rest) (h : r.kind ≠ .endOfFile) :
    r.cursor.ahead ≠ [] :=
  ahead_ne_nil_of_closed hr.closed h

theorem length_advance_of_ne_nil {r : Reader} (h : r.cursor.ahead ≠ []) :
    r.advance.cursor.ahead.length + 1 = r.cursor.ahead.length := by
  obtain ⟨⟨passed, current, ahead⟩, issues⟩ := r
  cases ahead with
  | nil => exact absurd rfl h
  | cons t ts => rfl

theorem length_advance {r : Reader} (hr : Readable r.cursor.rest) (h : r.kind ≠ .endOfFile) :
    r.advance.cursor.ahead.length + 1 = r.cursor.ahead.length :=
  length_advance_of_ne_nil (ahead_ne_nil hr h)

/-! ### The tokens that are passed -/

section Passing

variable {r : Reader}

theorem rest_advance (hr : Closed r.cursor.rest) (h : r.kind ≠ .endOfFile) :
    r.cursor.rest = r.cursor.current :: r.advance.cursor.rest := by
  have hne := ahead_ne_nil_of_closed hr h
  obtain ⟨⟨passed, current, ahead⟩, issues⟩ := r
  cases ahead with
  | nil => exact absurd rfl hne
  | cons t ts => rfl

theorem rest_of_kind {k : TokenKind} (hr : Closed r.cursor.rest) (hk : r.kind = k)
    (hne : k ≠ .endOfFile) : r.cursor.rest = ⟨k, r.span⟩ :: r.advance.cursor.rest := by
  subst hk
  exact rest_advance hr hne

theorem rest_of_mark {m : Mark} (hr : Closed r.cursor.rest) (hk : r.kind = .mark m) :
    r.cursor.rest = ⟨.mark m, r.span⟩ :: r.advance.cursor.rest := rest_of_kind hr hk nofun

theorem rest_of_word {w : Keyword} (hr : Closed r.cursor.rest) (hk : r.kind = .word w) :
    r.cursor.rest = ⟨.word w, r.span⟩ :: r.advance.cursor.rest := rest_of_kind hr hk nofun

theorem toClass_of_check {expected : TokenClass} (h : r.check expected = true) :
    r.kind.toClass = expected := by
  simpa [check, Cursor.check, kind] using h

theorem kind_of_check_mark {m : Mark} (h : r.check (.mark m) = true) : r.kind = .mark m :=
  TokenKind.eq_mark_of_toClass (toClass_of_check h)

theorem kind_of_check_word {w : Keyword} (h : r.check (.word w) = true) : r.kind = .word w :=
  TokenKind.eq_word_of_toClass (toClass_of_check h)

theorem kind_of_check_ident (h : r.check .ident = true) : ∃ name, r.kind = .ident name :=
  TokenKind.exists_ident_of_toClass (toClass_of_check h)

theorem ident_of_kind {name : String} (h : r.kind = .ident name) :
    r.ident = (⟨name, r.span⟩, r.advance) := by
  unfold ident
  rw [h]

/-- A token that was expected and not reported missing was there. -/
theorem check_of_expect {expected : TokenClass} (h : (r.expect expected).2.issues = []) :
    r.check expected = true := by
  cases hcheck : r.check expected with
  | true => rfl
  | false => simp [expect, hcheck, unexpected] at h

theorem rest_of_expect_mark {m : Mark} (hr : Closed r.cursor.rest)
    (h : (r.expect (.mark m)).2.issues = []) :
    r.cursor.rest = ⟨.mark m, r.span⟩ :: (r.expect (.mark m)).2.cursor.rest := by
  have hcheck := check_of_expect h
  rw [expect, if_pos hcheck]
  exact rest_of_mark hr (kind_of_check_mark hcheck)

theorem rest_of_expect_word {w : Keyword} (hr : Closed r.cursor.rest)
    (h : (r.expect (.word w)).2.issues = []) :
    r.cursor.rest = ⟨.word w, r.span⟩ :: (r.expect (.word w)).2.cursor.rest := by
  have hcheck := check_of_expect h
  rw [expect, if_pos hcheck]
  exact rest_of_word hr (kind_of_check_word hcheck)

theorem peek_one_of_ahead_ne_nil (h : r.cursor.ahead ≠ []) :
    r.cursor.peek 1 = r.advance.cursor.current := by
  obtain ⟨⟨passed, current, ahead⟩, issues⟩ := r
  cases ahead with
  | nil => exact absurd rfl h
  | cons t ts => rfl

end Passing

/-- A name that was read without an issue has characters. -/
theorem ident_ne_empty {r : Reader} (hr : Readable r.cursor.rest) (h : r.ident.2.issues = []) :
    r.ident.1.name ≠ "" := by
  have hlegible := hr.legible r.cursor.current (by simp [Cursor.rest])
  unfold ident at h ⊢
  split
  · next name hkind =>
    rintro rfl
    exact hlegible.2 hkind
  · next hkind =>
    split at h
    · next name hname => exact absurd hname (hkind name)
    · simp [unexpected] at h

end Reader

end SnippetLang
