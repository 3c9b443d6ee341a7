import Parlance.Text.Quoted
import Parlance.Token.Scan
/-!
Number literals: a base, digits before the point and digits after it. Underscores between digits
mean nothing and letters count the same in either case.
-/
namespace Parlance

structure Numeral where
  base : Nat
  integer : Bytes
  fraction : Bytes
  deriving DecidableEq, Repr, Inhabited

namespace Numeral

inductive Error where
  | base (text : Bytes)
  | missingDigits
  | digit (b : UInt8) (base : Nat)
  deriving DecidableEq, Repr

def Error.message : Error → String
  | base text =>
    "invalid number literal: base " ++ Quoted.write text ++ " must be between 2 and 36"
  | missingDigits => "invalid number literal: missing digits"
  | digit b limit =>
    "invalid number literal: digit " ++ Quoted.writeChar b.toNat ++ s!" is out of base {limit}"

def splitBase (text : Bytes) : Except Error (Nat × Bytes) :=
  match cutAt Byte.hash text with
  | (digits, none) => .ok (10, digits)
  | (base, some digits) =>
    match Scan.readBase? base with
    | some b => .ok (b, digits)
    | none => .error (.base base)

def parse (text : Bytes) : Except Error Numeral := do
  let (base, digits) ← splitBase (text.filter (· != Byte.underscore))
  let (integer, fraction) := cutAt Byte.point digits
  let fraction := fraction.getD []
  if integer.isEmpty then throw .missingDigits
  match (integer ++ fraction).find? fun b => !(Byte.digitValue b < base) with
  | some b => throw (.digit b base)
  | none => return ⟨base, integer, fraction⟩

def positional (base : Nat) (digits : Bytes) : Nat :=
  digits.foldl (fun n b => n * base + Byte.digitValue b) 0

def toInt (n : Numeral) : Int := positional n.base n.integer

def toRat (n : Numeral) : Rat :=
  mkRat (positional n.base (n.integer ++ n.fraction)) (Nat.pow n.base n.fraction.length)

end Numeral

end Parlance
