/-!
# Escapes in string literals

A backslash and the character after it stand for one character, if the pair is one of the four
that are known.  An unknown pair stands for itself, and so does a backslash at the very end.
`quote` is the writing side: it escapes exactly the four characters that the pairs denote.
-/

namespace SnippetLang.Escape

/-- The character that a backslash and this character stand for. -/
def resolve? (c : Char) : Option Char :=
  if c = 'n' then some '\n'
  else if c = 't' then some '\t'
  else if c = '\\' then some '\\'
  else if c = '"' then some '"'
  else none

/-- The text that the characters between the quotes of a literal denote. -/
def decode : List Char → List Char
  | [] => []
  | [c] => [c]
  | c :: d :: rest =>
    if c = '\\' then
      match resolve? d with
      | some e => e :: decode rest
      | none => '\\' :: d :: decode rest
    else
      c :: decode (d :: rest)

/-- One character as it is written between the quotes of a literal. -/
def encodeChar (c : Char) : List Char :=
  if c = '"' then ['\\', '"']
  else if c = '\\' then ['\\', '\\']
  else if c = '\n' then ['\\', 'n']
  else if c = '\t' then ['\\', 't']
  else [c]

/-- A literal that denotes the text, quotes included. -/
def quote (text : List Char) : List Char := '"' :: text.flatMap encodeChar ++ ['"']

/-- What is written for a text denotes the text. -/
theorem decode_encode (text : List Char) : decode (text.flatMap encodeChar) = text := by
  induction text with
  | nil => rfl
  | cons c cs ih =>
    simp only [List.flatMap_cons, encodeChar]
    split
    · simp_all [decode, resolve?]
    split
    · simp_all [decode, resolve?]
    split
    · simp_all [decode, resolve?]
    split
    · simp_all [decode, resolve?]
    · cases h : cs.flatMap encodeChar <;> simp_all [decode]

end SnippetLang.Escape
