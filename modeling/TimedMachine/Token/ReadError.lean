import TimedMachine.Json.Quoted
import TimedMachine.Text.Span

/-!
# Faults of source texts

The ways in which a text fails to be a document, each with the place that it is reported at.
-/

namespace TimedMachine

/-- What could have stood in the place of an unexpected character. -/
inductive Expected where
  | value
  | key
  | colon
  | memberEnd
  | itemEnd
  | commentMark
deriving DecidableEq, Repr

/-- The wording of an expectation. -/
def Expected.text : Expected → String
  | .value => "a value"
  | .key => "a string key"
  | .colon => "':'"
  | .memberEnd => "',' or '\x7d'"
  | .itemEnd => "',' or ']'"
  | .commentMark => "'/' or '*'"

/-- Why a text is not a document. -/
inductive ReadError where
  | unexpectedEof (span : Span)
  | unexpectedChar (span : Span) (found : Char) (expected : Expected)
  | invalidLiteral (span : Span)
  /-- A string literal with `body` between its quotes has a fault. -/
  | invalidString (span : Span) (body : List Char) (fault : Json.Quoted.Fault)
  | invalidNumber (span : Span) (literal : String)
  | duplicateKey (span : Span) (key : String)
  | trailingCharacters (span : Span)
  | depthLimitExceeded (span : Span) (limit : Nat)
deriving DecidableEq, Repr

namespace ReadError

/-- The place that a fault is reported at. -/
def span : ReadError → Span
  | unexpectedEof s | unexpectedChar s _ _ | invalidLiteral s | invalidString s _ _
  | invalidNumber s _ | duplicateKey s _ | trailingCharacters s | depthLimitExceeded s _ => s

/-- A fault in words, without its place. -/
def reason : ReadError → String
  | unexpectedEof _ => "unexpected end of input"
  | unexpectedChar _ found expected =>
    "unexpected character '" ++ String.singleton found ++ "', expected " ++ expected.text
  | invalidLiteral _ => "invalid literal"
  | invalidString _ body fault => "invalid string: " ++ fault.text body
  | invalidNumber _ literal => "invalid number '" ++ literal ++ "'"
  | duplicateKey _ key => "duplicate key '" ++ key ++ "'"
  | trailingCharacters _ => "trailing characters after document"
  | depthLimitExceeded _ limit => "nesting depth exceeds " ++ toString limit

/-- A fault in words. -/
def message (e : ReadError) : String := e.reason ++ "; " ++ e.span.text

end ReadError

end TimedMachine
