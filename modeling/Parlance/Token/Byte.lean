import Parlance.Text.Utf8
/-!
The classes of ASCII bytes that words are made of.
-/
namespace Parlance.Byte

def isSpace (b : UInt8) : Bool := b == 32 || b == 9 || b == 13 || b == 10

def isDigit (b : UInt8) : Bool := 48 ≤ b && b ≤ 57

def isLetter (b : UInt8) : Bool := (97 ≤ b && b ≤ 122) || (65 ≤ b && b ≤ 90)

def underscore : UInt8 := 95

def apostrophe : UInt8 := 39

def quote : UInt8 := 34

def backslash : UInt8 := 92

def hash : UInt8 := 35

def point : UInt8 := 46

def solidus : UInt8 := 47

def greater : UInt8 := 62

def operators : Bytes := Bytes.ofString "+-*/\\=<>!%&|?~^@"

def isOperator (b : UInt8) : Bool := operators.contains b

/-- The value of a digit in base 36, letters in either case; 36 for what is no digit of any base. -/
def digitValue (b : UInt8) : Nat :=
  if isDigit b then b.toNat - 48
  else if 97 ≤ b && b ≤ 122 then b.toNat - 87
  else if 65 ≤ b && b ≤ 90 then b.toNat - 55
  else 36

end Parlance.Byte
