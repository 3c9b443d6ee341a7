import Parlance.Number.Binary
import Parlance.Text.Pieces
/-!
Decimal texts of rational numbers.
-/
namespace Parlance.Rational

def render (r : Rat) : String := if r.den = 1 then toString r.num else s!"{r.num}/{r.den}"

def padZeros (width : Nat) (ds : List Char) : List Char :=
  List.replicate (width - ds.length) '0' ++ ds

def withPoint (places units : Nat) : String :=
  let ds := padZeros (places + 1) (toString units).toList
  if places = 0 then String.ofList ds
  else String.ofList (ds.take (ds.length - places) ++ '.' :: ds.drop (ds.length - places))

def fixed (places : Nat) (r : Rat) : String :=
  let num := 2 * (r.num.natAbs * Nat.pow 10 places) + r.den
  let units := num / (2 * r.den)
  (if r.num < 0 then "-" else "") ++ withPoint places units

def fixedEven (places : Nat) (r : Rat) : String :=
  (if r.num < 0 then "-" else "") ++
    withPoint places (Binary.roundDiv (r.num.natAbs * Nat.pow 10 places) r.den)

def factorOut (p : Nat) : Nat → Nat → Nat × Nat
  | 0, n => (0, n)
  | fuel + 1, n =>
    if n % p = 0 && n != 0 then let (k, m) := factorOut p fuel (n / p); (k + 1, m) else (0, n)

def maxDecimals : Nat := 40

def decimal (r : Rat) : String :=
  if r.den = 1 then toString r.num
  else
    let (twos, m) := factorOut 2 r.den.log2.succ r.den
    let (fives, m) := factorOut 5 r.den.log2.succ m
    fixed (if m = 1 then max twos fives else maxDecimals) r

end Parlance.Rational
