/-!
Binary floating point in two widths. A number is held as its bits; `decode` says which real it is and
`round` gives the bits of the nearest one, a half going to the even neighbour.
-/
namespace Parlance.Binary

inductive Width where
  | single
  | double
  deriving DecidableEq, Repr, Inhabited

namespace Width

def precision : Width → Nat
  | single => 24
  | double => 53

def exponentBits : Width → Nat
  | single => 8
  | double => 11

def leastExponent : Width → Int
  | single => -149
  | double => -1074

end Width

/-- What bits stand for; a finite number is `mantissa * 2 ^ exponent` with a sign. -/
inductive Value where
  | nan
  | infinite (negative : Bool)
  | finite (negative : Bool) (mantissa : Nat) (exponent : Int)
  deriving DecidableEq, Repr, Inhabited

variable (w : Width)

def infinityBits : Nat := (Nat.pow 2 w.exponentBits - 1) * Nat.pow 2 (w.precision - 1)

def signBit : Nat := Nat.pow 2 (w.exponentBits + w.precision - 1)

def nanBits : Nat := infinityBits w + Nat.pow 2 (w.precision - 2)

def decode (bits : Nat) : Value :=
  let negative := decide (signBit w ≤ bits)
  let magnitude := bits % signBit w
  let unit := Nat.pow 2 (w.precision - 1)
  if magnitude = infinityBits w then .infinite negative
  else if infinityBits w < magnitude then .nan
  else
    let field := magnitude / unit
    if field = 0 then .finite negative magnitude w.leastExponent
    else .finite negative (unit + magnitude % unit) (w.leastExponent + (field - 1 : Nat))

def roundDiv (num den : Nat) : Nat :=
  let q := num / den
  let r := num % den
  if 2 * r < den then q
  else if den < 2 * r then q + 1
  else q + q % 2

def scale (num den : Nat) (k : Int) : Nat × Nat :=
  if 0 ≤ k then (num * Nat.pow 2 k.toNat, den) else (num, den * Nat.pow 2 (-k).toNat)

def logTwo (num den : Nat) : Int :=
  let k : Int := (num.log2 : Int) - den.log2
  let (n, d) := scale num den (-k)
  if d ≤ n then k else k - 1

def roundMagnitude (num den : Nat) : Nat :=
  if num = 0 then 0
  else
    let e := max w.leastExponent (logTwo num den - (w.precision - 1 : Nat))
    let (n, d) := scale num den (-e)
    let bits := (e - w.leastExponent).toNat * Nat.pow 2 (w.precision - 1) + roundDiv n d
    min bits (infinityBits w)

def withSign (negative : Bool) (magnitude : Nat) : Nat :=
  if negative then signBit w + magnitude else magnitude

def round (r : Rat) : Nat :=
  withSign w (decide (r.num < 0)) (roundMagnitude w r.num.natAbs r.den)

def Value.toRat? : Value → Option Rat
  | finite negative m e =>
    let (n, d) := scale m 1 e
    some (mkRat (if negative then -(n : Int) else n) d)
  | _ => none

def toRat? (w : Width) (bits : Nat) : Option Rat := (decode w bits).toRat?

def negate (bits : Nat) : Nat := withSign w (decide (bits < signBit w)) (bits % signBit w)

/-- The sum, rounded. A sum of zeros is negative only if both are, a sum that cancels is positive. -/
def add (a b : Nat) : Nat :=
  match decode w a, decode w b with
  | .nan, _ | _, .nan => nanBits w
  | .infinite s, .infinite t => if s = t then a else nanBits w
  | .infinite _, _ => a
  | _, .infinite _ => b
  | .finite s m e, .finite t n f =>
    match (Value.finite s m e).toRat?, (Value.finite t n f).toRat? with
    | some x, some y => if x + y = 0 then withSign w (s && t && m = 0) 0 else round w (x + y)
    | _, _ => nanBits w

def sub (a b : Nat) : Nat := add w a (negate w b)

def beq (a b : Nat) : Bool :=
  match decode w a, decode w b with
  | .nan, _ | _, .nan => false
  | _, _ => a = b || (a % signBit w = 0 && b % signBit w = 0)

/-- A single as the double of the same value. What is no number keeps its payload and becomes
quiet. -/
def widen (bits : Nat) : Nat :=
  match decode .single bits with
  | .nan =>
    withSign .double (decide (signBit .single ≤ bits))
      (infinityBits .double + (bits % Nat.pow 2 23 ||| Nat.pow 2 22) * Nat.pow 2 29)
  | .infinite s => withSign .double s (infinityBits .double)
  | .finite s m e =>
    let (n, d) := scale m 1 e
    withSign .double s (roundMagnitude .double n d)

def narrow (bits : Nat) : Nat :=
  match decode .double bits with
  | .nan =>
    withSign .single (decide (signBit .double ≤ bits))
      (infinityBits .single + (bits % Nat.pow 2 52 / Nat.pow 2 29 ||| Nat.pow 2 22))
  | .infinite s => withSign .single s (infinityBits .single)
  | .finite s m e =>
    let (n, d) := scale m 1 e
    withSign .single s (roundMagnitude .single n d)

end Parlance.Binary
