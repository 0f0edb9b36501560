import SnippetLang.Token

/-!
# Issues

Everything that can be wrong with a snippet before it runs.  A `Cause` says what is wrong in terms
of the language; its code and its wording are functions of it, kept in one place.  An `Issue` is a
cause at a span.  There are no warnings: any issue keeps its snippet from being evaluated.
-/

namespace SnippetLang

/-- What is wrong. -/
inductive Cause where
  -- found by the lexer
  | unterminatedString
  | badCharacter (text : String)
  | numberOutOfRange (text : String)
  -- found by the parser
  | unexpectedToken (found expected : TokenClass)
  -- found by the elaborator
  | cannotConvert (source target : Ty)
  | undefinedUnary (op : String) (operand : Ty)
  | undefinedBinary (op : String) (left right : Ty)
  | undefinedVariable (name : String)
  | wrongArgumentCount (function : String) (expected actual : Nat)
  | wrongArgumentType (parameter : String) (expected actual : Ty)
  | alreadyDeclared (name : String)
  | readOnlyTarget (name : String)
  | undefinedFunction (name : String)
  | valueExpected
deriving DecidableEq

namespace Cause

/-- The code that documentation refers to. -/
def code : Cause → String
  | unterminatedString => "E0001"
  | badCharacter _ => "E0002"
  | numberOutOfRange _ => "E0003"
  | unexpectedToken _ _ => "E1001"
  | cannotConvert _ _ => "E2001"
  | undefinedUnary _ _ => "E2002"
  | undefinedBinary _ _ _ => "E2002"
  | undefinedVariable _ => "E2003"
  | wrongArgumentCount _ _ _ => "E2004"
  | wrongArgumentType _ _ _ => "E2005"
  | alreadyDeclared _ => "E2006"
  | readOnlyTarget _ => "E2007"
  | undefinedFunction _ => "E2008"
  | valueExpected => "E2009"

/-- What is wrong, in a sentence. -/
def message : Cause → String
  | unterminatedString => "unterminated string literal"
  | badCharacter text => s!"unexpected character `{text}`"
  | numberOutOfRange text => s!"the number {text} does not fit in an `int`"
  | unexpectedToken found expected => s!"expected {expected.describe}, found {found.describe}"
  | cannotConvert source target => s!"cannot convert `{source.name}` to `{target.name}`"
  | undefinedUnary op operand => s!"unary operator `{op}` is not defined for `{operand.name}`"
  | undefinedBinary op left right =>
    s!"binary operator `{op}` is not defined for `{left.name}` and `{right.name}`"
  | undefinedVariable name => s!"cannot find variable `{name}`"
  | wrongArgumentCount function expected actual =>
    s!"function `{function}` takes {expected} argument(s) but {actual} were given"
  | wrongArgumentType parameter expected actual =>
    s!"parameter `{parameter}` expects `{expected.name}` but was given `{actual.name}`"
  | alreadyDeclared name => s!"variable `{name}` is already declared"
  | readOnlyTarget name => s!"cannot assign to read-only variable `{name}`"
  | undefinedFunction name => s!"cannot find function `{name}`"
  | valueExpected => "expression must have a value"

/-- What the span shows. -/
def label : Cause → String
  | unterminatedString => "string starts here"
  | badCharacter _ => "not valid here"
  | numberOutOfRange _ => "out of range"
  | unexpectedToken _ expected => s!"expected {expected.describe}"
  | cannotConvert source _ => s!"this is `{source.name}`"
  | undefinedUnary _ _ => "no such operator"
  | undefinedBinary _ _ _ => "no such operator"
  | undefinedVariable _ => "not found in this scope"
  | wrongArgumentCount _ expected _ => s!"expected {expected}"
  | wrongArgumentType _ _ actual => s!"this is `{actual.name}`"
  | alreadyDeclared _ => "declared again here"
  | readOnlyTarget _ => "declared with `let`"
  | undefinedFunction _ => "not a built-in function"
  | valueExpected => "this expression is `void`"

/-- A remark that helps, where there is one. -/
def note? : Cause → Option String
  | numberOutOfRange _ => some "an `int` holds -2147483648 to 2147483647"
  | _ => none

end Cause

/-- Something wrong at a place. -/
structure Issue where
  cause : Cause
  span : Span
deriving DecidableEq

end SnippetLang
