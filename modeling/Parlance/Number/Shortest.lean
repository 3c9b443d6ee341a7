import Parlance.Number.Binary
import Parlance.Text.Pieces
/-!
The fewest decimal digits that read back as a given binary number, and the two ways to lay them out.
-/
namespace Parlance

structure Decimal where
  digits : Nat
  exponent : Int
  deriving DecidableEq, Repr, Inhabited

namespace Decimal

def dropZeros : Nat → Nat → Int → Decimal
  | 0, n, e => ⟨n, e⟩
  | fuel + 1, n, e => if n % 10 = 0 && n != 0 then dropZeros fuel (n / 10) (e + 1) else ⟨n, e⟩

def normalize (d : Decimal) : Decimal := dropZeros (d.digits.log2 + 1) d.digits d.exponent

def text (d : Decimal) : List Char := if d.digits = 0 then [] else (toString d.digits).toList

def point (d : Decimal) : Int := d.text.length + d.exponent

def inTens (num den : Nat) (k : Int) : Nat × Nat :=
  if 0 ≤ k then (num, den * Nat.pow 10 k.toNat) else (num * Nat.pow 10 (-k).toNat, den)

/-- Interval of reals that round to one binary number: `low`, `mid` and `high` share `den`. -/
structure Target where
  low : Nat
  mid : Nat
  high : Nat
  den : Nat
  closed : Bool

namespace Target

/-- The reals that round to `mantissa * 2 ^ exponent`. Just above a power of two the neighbour below
is nearer. -/
def ofFinite (w : Binary.Width) (mantissa : Nat) (exponent : Int) : Target :=
  let low := if mantissa = Nat.pow 2 (w.precision - 1) && exponent > w.leastExponent then 1 else 2
  let (one, den) := Binary.scale 1 1 (exponent - 2)
  ⟨(4 * mantissa - low) * one, 4 * mantissa * one, (4 * mantissa + 2) * one, den, mantissa % 2 = 0⟩

def reaches (t : Target) (n : Nat) (k : Int) : Bool :=
  let (low, d) := inTens t.low t.den k
  let (high, _) := inTens t.high t.den k
  let v := n * d
  if t.closed then low ≤ v && v ≤ high else low < v && v < high

def nearest? (t : Target) (k : Int) : Option Nat :=
  let (mid, d) := inTens t.mid t.den k
  let down := mid / d
  if mid % d = 0 then some down
  else match t.reaches down k, t.reaches (down + 1) k with
    | true, true => some (Binary.roundDiv mid d)
    | true, false => some down
    | false, true => some (down + 1)
    | false, false => none

def search (t : Target) : Nat → Int → Decimal
  | 0, _ => ⟨0, 0⟩
  | fuel + 1, k =>
    match t.nearest? k with
    | some n => normalize ⟨n, k⟩
    | none => t.search fuel (k - 1)

def lead (t : Target) : Int :=
  let k : Int := (Binary.logTwo t.high t.den) * 30103 / 100000
  let (n, d) := inTens t.high t.den (k + 1)
  if d ≤ n then k + 1
  else
    let (n, d) := inTens t.high t.den k
    if d ≤ n then k else k - 1

/-- Seventeen digits always suffice, and the search starts at most two places to the left. -/
def shortest (t : Target) : Decimal := t.search 20 t.lead

end Target

def shortest (w : Binary.Width) (mantissa : Nat) (exponent : Int) : Decimal :=
  if mantissa = 0 then ⟨0, 0⟩ else (Target.ofFinite w mantissa exponent).shortest

def positional (d : Decimal) : String :=
  let ds := d.text
  let p := d.point
  if p ≤ 0 then
    if ds = [] then "0" else String.ofList ('0' :: '.' :: List.replicate (-p).toNat '0' ++ ds)
  else if ds.length ≤ p.toNat then String.ofList (ds ++ List.replicate (p.toNat - ds.length) '0')
  else String.ofList (ds.take p.toNat ++ '.' :: ds.drop p.toNat)

def scientific (d : Decimal) : String :=
  let (first, rest) := match d.text with
    | [] => ('0', [])
    | c :: cs => (c, cs)
  let e := if d.digits = 0 then 0 else d.point - 1
  let size := toString e.natAbs
  String.ofList (first :: (if rest = [] then [] else '.' :: rest)) ++ "e" ++
    (if e < 0 then "-" else "+") ++ (if size.length < 2 then "0" ++ size else size)

def compact (d : Decimal) : String :=
  let e := d.point - 1
  if d.digits != 0 && (e < -4 || 6 ≤ e) then d.scientific else d.positional

end Decimal

namespace Binary

def render (w : Width) (bits : Nat) : String :=
  match decode w bits with
  | .nan => "NaN"
  | .infinite negative => if negative then "-Inf" else "+Inf"
  | .finite negative m e => (if negative then "-" else "") ++ (Decimal.shortest w m e).compact

end Binary

end Parlance
