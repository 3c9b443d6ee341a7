import Parlance.Text.Utf8
/-!
Hexadecimal notation of numbers and byte strings.
-/
namespace Parlance.Hex

def lowerDigit (n : Nat) : Char := if n < 10 then Char.ofNat (48 + n) else Char.ofNat (87 + n)

def upperDigit (n : Nat) : Char := if n < 10 then Char.ofNat (48 + n) else Char.ofNat (55 + n)

def fixed (digit : Nat → Char) (width n : Nat) : List Char :=
  match width with
  | 0 => []
  | w + 1 => fixed digit w (n / 16) ++ [digit (n % 16)]

def shortest (digit : Nat → Char) (n : Nat) : List Char :=
  if n < 16 then [digit n] else shortest digit (n / 16) ++ [digit (n % 16)]
termination_by n
decreasing_by omega

def lower (width n : Nat) : String := String.ofList (fixed lowerDigit width n)

def upper (width n : Nat) : String := String.ofList (fixed upperDigit width n)

def value? (c : Char) : Option Nat :=
  if '0' ≤ c && c ≤ '9' then some (c.toNat - 48)
  else if 'a' ≤ c && c ≤ 'f' then some (c.toNat - 87)
  else if 'A' ≤ c && c ≤ 'F' then some (c.toNat - 55)
  else none

def ofBytes (s : Bytes) : String := String.ofList (s.flatMap fun b => fixed lowerDigit 2 b.toNat)

private def readPairs : List Char → Option Bytes
  | [] => some []
  | [_] => none
  | a :: b :: rest => do
    let x ← value? a
    let y ← value? b
    let bs ← readPairs rest
    some ((x * 16 + y).toUInt8 :: bs)

def toBytes? (s : String) : Option Bytes := readPairs s.toList

end Parlance.Hex
