/-!
# Spans of source text

A span is a range of byte offsets into the UTF-8 form of a source text, its end excluded.  Tokens
carry spans, every extent of the surface tree is a merge of them, and every diagnostic points at
one.  Offsets count bytes while the library reads text as a list of characters, so the size of a
character is `Char.utf8Size` throughout and `utf8Length` adds it up.

The definitions are total on every pair of offsets: a span that runs past its source, or cuts a
character in two, has the empty text.
-/

namespace SnippetLang

/-- A range of byte offsets, from `start` up to but not including `stop`. -/
structure Span where
  start : Nat
  stop : Nat
deriving DecidableEq

/-- The number of bytes that a list of characters takes in UTF-8. -/
def utf8Length : List Char → Nat
  | [] => 0
  | c :: cs => c.utf8Size + utf8Length cs

@[simp] theorem utf8Length_append (xs ys : List Char) :
    utf8Length (xs ++ ys) = utf8Length xs + utf8Length ys := by
  induction xs with
  | nil => simp [utf8Length]
  | cons c cs ih => simp [utf8Length, ih, Nat.add_assoc]

/-- The characters of a text take as many bytes as the text does. -/
theorem utf8Length_toList (s : String) : utf8Length s.toList = s.utf8ByteSize := by
  suffices h : ∀ cs : List Char, utf8Length cs = (String.ofList cs).utf8ByteSize by
    rw [h, String.ofList_toList]
  intro cs
  induction cs with
  | nil => rfl
  | cons c cs ih =>
    have hcons : String.ofList (c :: cs) = String.singleton c ++ String.ofList cs := by
      rw [String.singleton_eq_ofList, ← String.ofList_append, List.singleton_append]
    rw [utf8Length, ih, hcons, String.utf8ByteSize_append, String.utf8ByteSize_singleton]

/-- Cuts `n` bytes off the front, if a character ends exactly there. -/
def splitBytes : List Char → Nat → Option (List Char × List Char)
  | cs, 0 => some ([], cs)
  | [], _ + 1 => none
  | c :: cs, n + 1 =>
    if c.utf8Size ≤ n + 1 then
      (splitBytes cs (n + 1 - c.utf8Size)).map fun (front, back) => (c :: front, back)
    else
      none

namespace Span

/-- The empty span at one offset. -/
def point (offset : Nat) : Span := ⟨offset, offset⟩

/-- The number of bytes covered. -/
def length (s : Span) : Nat := s.stop - s.start

/-- Whether the two ends coincide. -/
def isEmpty (s : Span) : Bool := s.start == s.stop

/-- The least span that covers both. -/
def merge (s t : Span) : Span := ⟨min s.start t.start, max s.stop t.stop⟩

/-- The covered part of a source, or nothing when the ends are not character boundaries of it in
    the right order. -/
def text (s : Span) (source : String) : String :=
  if s.start ≤ s.stop then
    match splitBytes source.toList s.start with
    | some (_, back) =>
      match splitBytes back s.length with
      | some (covered, _) => String.ofList covered
      | none => ""
    | none => ""
  else
    ""

/-- Both ends in decimal, two dots between them. -/
def describe (s : Span) : String := s!"{s.start}..{s.stop}"

end Span

end SnippetLang
