import Parlance.Source
/-!
The words of the language: what kinds there are and what they are called.
-/
namespace Parlance

namespace Token

inductive Kind where
  | unknown
  | eof
  | whitespace
  | lineComment
  | symbol
  | integer
  | float
  | string
  | character
  /-- `#name`, `#at:put:` or `#+`. -/
  | symbolLiteral
  | operator
  | colon
  | semicolon
  | comma
  | period
  | slash
  | arrow
  | fatArrow
  | underscore
  | openAngle
  | closeAngle
  | openCurly
  | closeCurly
  | openParen
  | closeParen
  | kwAs
  | kwIn
  | kwIs
  | kwOut
  | kwInout
  | kwClass
  | kwPrivate
  | kwPublic
  | kwNamespace
  | kwSelf
  | kwImport
  | kwExport
  | kwPartial
  | kwNative
  | kwLet
  | kwPanic
  deriving DecidableEq, Repr, Inhabited

namespace Kind

def name : Kind → String
  | unknown => "Unknown"
  | eof => "EOF"
  | whitespace => "Whitespace"
  | lineComment => "LineComment"
  | symbol => "SimpleSymbol"
  | integer => "SimpleInteger"
  | float => "SimpleFloat"
  | string => "SimpleString"
  | character => "SimpleCharacter"
  | symbolLiteral => "SymbolLiteral"
  | operator => "Operator"
  | colon => "Colon"
  | semicolon => "Semicolon"
  | comma => "Comma"
  | period => "Period"
  | slash => "Slash"
  | arrow => "Arrow"
  | fatArrow => "FatArrow"
  | underscore => "Underscore"
  | openAngle => "OpenAngle"
  | closeAngle => "CloseAngle"
  | openCurly => "OpenCurly"
  | closeCurly => "CloseCurly"
  | openParen => "OpenParen"
  | closeParen => "CloseParen"
  | kwAs => "as"
  | kwIn => "in"
  | kwIs => "is"
  | kwOut => "out"
  | kwInout => "inout"
  | kwClass => "class"
  | kwPrivate => "private"
  | kwPublic => "public"
  | kwNamespace => "namespace"
  | kwSelf => "self"
  | kwImport => "import"
  | kwExport => "export"
  | kwPartial => "partial"
  | kwNative => "native"
  | kwLet => "let"
  | kwPanic => "panic"

def keywords : List Kind :=
  [kwAs, kwIn, kwIs, kwOut, kwInout, kwClass, kwPrivate, kwPublic, kwNamespace, kwSelf, kwImport,
    kwExport, kwPartial, kwNative, kwLet, kwPanic]

def all : List Kind :=
  [unknown, eof, whitespace, lineComment, symbol, integer, float, string, character, symbolLiteral,
    operator, colon, semicolon, comma, period, slash, arrow, fatArrow, underscore, openAngle,
    closeAngle, openCurly, closeCurly, openParen, closeParen] ++ keywords

def isKeyword (k : Kind) : Bool := keywords.contains k

def isTrivia : Kind → Bool
  | whitespace | lineComment => true
  | _ => false

def isLiteral : Kind → Bool
  | integer | float | string | character | symbolLiteral => true
  | _ => false

def isBinaryOperator : Kind → Bool
  | operator | slash | openAngle | closeAngle => true
  | _ => false

end Kind

end Token

structure Token where
  kind : Token.Kind
  text : Bytes
  span : Span
  deriving DecidableEq, Repr, Inhabited

namespace Token

def name (t : Token) : String := Utf8.toString t.text

def render (t : Token) : String := t.kind.name ++ "(" ++ t.name ++ ")"

end Token

end Parlance
