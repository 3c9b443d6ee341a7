import Parlance.Source
/-!
Remarks on a program: how grave they are, what they are called, where they point and how they could
be fixed.
-/
namespace Parlance

inductive Severity where
  | info
  | warning
  | error
  deriving DecidableEq, Repr, Inhabited

namespace Severity

def name : Severity → String
  | info => "info"
  | warning => "warning"
  | error => "error"

def all : List Severity := [info, warning, error]

def ofName? (s : String) : Option Severity := all.find? (·.name == s)

def rank : Severity → Nat
  | info => 0
  | warning => 1
  | error => 2

end Severity

/-- What a remark is about. Numbers without a meaning of their own are allowed. -/
structure Code where
  number : Nat
  deriving DecidableEq, Repr, Inhabited

namespace Code

def syntaxError : Code := ⟨1⟩
def undefinedTypeReference : Code := ⟨2⟩
def undefinedReference : Code := ⟨3⟩
def undefinedBehaviour : Code := ⟨4⟩
def undefinedImport : Code := ⟨5⟩
def unexportedImport : Code := ⟨6⟩
def unassignableType : Code := ⟨7⟩
def duplicatedDeclaration : Code := ⟨8⟩
def invalidInherit : Code := ⟨9⟩
def invalidLiteralType : Code := ⟨10⟩
def outOfBounds : Code := ⟨11⟩
def tooPreciseFloat : Code := ⟨12⟩
def wrongNumberOfTypeArguments : Code := ⟨13⟩
def invalidVarianceUsage : Code := ⟨14⟩
def invalidPrivateAccess : Code := ⟨15⟩
def incompleteInitializer : Code := ⟨16⟩
def undefinedInitializedVariable : Code := ⟨17⟩

def title (c : Code) : String :=
  match c.number with
  | 1 => "Syntax error"
  | 2 => "Undefined type reference"
  | 3 => "Undefined reference"
  | 4 => "Undefined behaviour"
  | 5 => "Undefined import"
  | 6 => "Unexported import"
  | 7 => "Unassignable type"
  | 8 => "Duplicated declaration"
  | 9 => "Invalid inherit"
  | 10 => "Invalid literal type"
  | 11 => "Number literal out of bounds"
  | 12 => "Float literal too precise"
  | 13 => "Wrong number of type arguments"
  | 14 => "Invalid type parameter variance usage"
  | 15 => "Invalid access to private method"
  | 16 => "Incomplete initializer"
  | 17 => "Undefined initialized variable"
  | _ => "Unknown error"

def severity (c : Code) : Severity := if c = tooPreciseFloat then .warning else .error

def zeroes (n : Nat) : String := Text.copies '0' (3 - (toString n).length)

def id (c : Code) : String := "L" ++ zeroes c.number ++ toString c.number

def render (c : Code) : String := "[" ++ c.id ++ "]: " ++ c.title

end Code

structure Note where
  span : Span
  message : String
  deriving DecidableEq, Repr, Inhabited

structure Edit where
  span : Span
  text : String
  deriving DecidableEq, Repr, Inhabited

structure Fix where
  title : String
  edits : List Edit
  deriving DecidableEq, Repr, Inhabited

structure Diagnostic where
  severity : Severity
  code : Code
  message : String
  span : Span
  notes : List Note
  fixes : List Fix
  deriving DecidableEq, Repr, Inhabited

namespace Diagnostic

def of (code : Code) (span : Span) (message : String) : Diagnostic :=
  ⟨code.severity, code, message, span, [], []⟩

def isError (d : Diagnostic) : Bool := d.severity == .error

def uri (d : Diagnostic) : Uri := d.span.uri

def withFix (d : Diagnostic) (title : String) (edits : List Edit) : Diagnostic :=
  { d with fixes := d.fixes ++ [⟨title, edits⟩] }

def render (d : Diagnostic) : String :=
  d.span.startText ++ ": " ++ d.severity.name ++ " " ++ d.code.id ++ ": " ++ d.message

def order (a b : Diagnostic) : Ordering :=
  (compare a.span.uri b.span.uri).then <|
  (compare a.span.start.offset b.span.start.offset).then <|
  (compare a.span.stop.offset b.span.stop.offset).then <|
  (compare b.severity.rank a.severity.rank).then <|
  (compare a.code.number b.code.number).then <|
  compare a.message b.message

def sort (ds : List Diagnostic) : List Diagnostic :=
  ds.mergeSort fun a b => (order a b).isLE

def hasErrors (ds : List Diagnostic) : Bool := ds.any isError

def limit (max : Int) : Nat := if max ≤ 0 || max > 65535 then 65535 else max.toNat

def cap (max : Int) (ds : List Diagnostic) : List Diagnostic := ds.take (limit max)

end Diagnostic

end Parlance
