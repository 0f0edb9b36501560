import SnippetLang.Issue
import SnippetLang.Source.Lines

/-!
# Diagnostics

The printable record of an issue.  A diagnostic has a code and a message, and may point at one span
and carry one note; `render` lays these out over up to three lines.
-/

namespace SnippetLang

/-- A span together with what it shows. -/
structure Label where
  span : Span
  message : String
deriving DecidableEq

/-- A message to the author of a snippet. -/
structure Diagnostic where
  code : String
  message : String
  label : Option Label
  note : Option String
deriving DecidableEq

namespace Diagnostic

/-- The diagnostic with nothing but a code and a message. -/
def plain (code message : String) : Diagnostic := ⟨code, message, none, none⟩

/-- Points at a span, in place of any span pointed at before. -/
def withLabel (d : Diagnostic) (span : Span) (message : String) : Diagnostic :=
  { d with label := some ⟨span, message⟩ }

/-- Adds a note, in place of any note before. -/
def withNote (d : Diagnostic) (note : String) : Diagnostic := { d with note := some note }

/-- The diagnostic as text, its span as a place in the source at `path`. -/
def render (d : Diagnostic) (path source : String) : String :=
  let place := match d.label with
    | some label => s!"\n  --> {label.span.location path source}: {label.message}"
    | none => ""
  let remark := match d.note with
    | some note => s!"\n  = note: {note}"
    | none => ""
  s!"error[{d.code}]: {d.message}" ++ place ++ remark

end Diagnostic

/-- The diagnostic of an issue, which always points at the issue's span. -/
def Issue.diagnostic (issue : Issue) : Diagnostic :=
  { code := issue.cause.code
    message := issue.cause.message
    label := some ⟨issue.span, issue.cause.label⟩
    note := issue.cause.note? }

end SnippetLang
