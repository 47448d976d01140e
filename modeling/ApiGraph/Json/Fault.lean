import ApiGraph.Text.Lines

/-! What can be wrong with JSON text. A fault remembers how many bytes follow the offending one, so
that its place can be told once the whole text is at hand. -/
namespace ApiGraph.Json
open Text

inductive Cause where
  | endInValue
  | endInString
  | endInList
  | endInObject
  | expectedValue
  | expectedIdent
  | keyNotString
  | expectedColon
  | expectedListSeparator
  | expectedObjectSeparator
  | trailingComma
  | trailingCharacters
  | invalidNumber
  | numberOutOfRange
  | invalidEscape
  | unexpectedEndOfHexEscape
  | loneSurrogate
  | controlCharacter
  | recursionLimit
  deriving DecidableEq, Repr

def Cause.message : Cause → String
  | .endInValue => "EOF while parsing a value"
  | .endInString => "EOF while parsing a string"
  | .endInList => "EOF while parsing a list"
  | .endInObject => "EOF while parsing an object"
  | .expectedValue => "expected value"
  | .expectedIdent => "expected ident"
  | .keyNotString => "key must be a string"
  | .expectedColon => "expected `:`"
  | .expectedListSeparator => "expected `,` or `]`"
  | .expectedObjectSeparator => "expected `,` or `\x7d`"
  | .trailingComma => "trailing comma"
  | .trailingCharacters => "trailing characters"
  | .invalidNumber => "invalid number"
  | .numberOutOfRange => "number out of range"
  | .invalidEscape => "invalid escape"
  | .unexpectedEndOfHexEscape => "unexpected end of hex escape"
  | .loneSurrogate => "lone leading surrogate in hex escape"
  | .controlCharacter => "control character (\\u0000-\\u001F) found while parsing a string"
  | .recursionLimit => "recursion limit exceeded"

structure Fault where
  cause : Cause
  bytesAfter : Nat
  deriving DecidableEq, Repr

def Fault.at (cause : Cause) (rest : List Char) : Fault := ⟨cause, byteCount rest - 1⟩

def Fault.before (cause : Cause) (rest : List Char) : Fault := ⟨cause, byteCount rest⟩

def Fault.place (f : Fault) (text : String) : Place :=
  placeOf text.toList (byteCount text.toList - f.bytesAfter)

def Fault.describe (f : Fault) (text : String) : String :=
  let place := f.place text
  f.cause.message ++ " at line " ++ toString place.line ++ " column " ++ toString place.column

end ApiGraph.Json
