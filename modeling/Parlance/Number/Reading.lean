import Parlance.Number.Binary
import Parlance.Text.Quoted
/-!
Numbers read from text: naturals of a bounded width, integers, rationals and binary numbers.
-/
namespace Parlance.Reading

inductive Cause where
  | syntactic
  | range
  deriving DecidableEq, Repr

def Cause.message : Cause → String
  | syntactic => "invalid syntax"
  | range => "value out of range"

structure Failure where
  reader : String
  text : String
  cause : Cause
  deriving DecidableEq, Repr

def Failure.message (f : Failure) : String :=
  "strconv." ++ f.reader ++ ": parsing " ++ Quoted.writeString f.text ++ ": " ++ f.cause.message

def digit? (base : Nat) (c : Char) : Option Nat :=
  let v :=
    if '0' ≤ c && c ≤ '9' then c.toNat - 48
    else if 'a' ≤ c && c ≤ 'z' then c.toNat - 87
    else if 'A' ≤ c && c ≤ 'Z' then c.toNat - 55
    else 36
  if v < base then some v else none

def readDigits (base limit : Nat) : Nat → List Char → Except Cause Nat
  | n, [] => .ok n
  | n, c :: cs =>
    match digit? base c with
    | none => .error .syntactic
    | some d => if n * base + d < limit then readDigits base limit (n * base + d) cs else .error .range

def natural (base bits : Nat) (s : String) : Except Failure Nat :=
  match (if s = "" then .error .syntactic else readDigits base (Nat.pow 2 bits) 0 s.toList) with
  | .ok n => .ok n
  | .error cause => .error ⟨"ParseUint", s, cause⟩

def name? (s : String) : Option UInt64 :=
  (natural 16 64 ((Text.dropPrefix? "#" s).getD s)).toOption.map Nat.toUInt64

def sign : List Char → Bool × List Char
  | '+' :: cs => (false, cs)
  | '-' :: cs => (true, cs)
  | cs => (false, cs)

def signed (negative : Bool) (n : Nat) : Int := if negative then -(n : Int) else n

/-- Whether underscores stand only between digits or behind the mark of a base. `seen` tells what came
before: nothing, a digit or an underscore. -/
def underscoresSeparate (hex : Bool) (seen : Char) : List Char → Bool
  | [] => seen != '_'
  | c :: cs =>
    if c.isDigit || (hex && (digit? 16 c).isSome) then underscoresSeparate hex '0' cs
    else if c = '_' then seen = '0' && underscoresSeparate hex '_' cs
    else seen != '_' && underscoresSeparate hex '!' cs

def based : List Char → Nat × List Char
  | '0' :: m :: c :: cs =>
    match m.toLower with
    | 'b' => (2, c :: cs)
    | 'o' => (8, c :: cs)
    | 'x' => (16, c :: cs)
    | _ => (8, m :: c :: cs)
  | '0' :: cs => (8, cs)
  | cs => (10, cs)

def wholeNumber (s : String) : Except Failure Int :=
  let fail (cause : Cause) : Except Failure Int := .error ⟨"ParseInt", s, cause⟩
  let (negative, cs) := sign s.toList
  let (base, digits) := based cs
  let marked := cs.length = digits.length + 2
  if cs = [] then fail .syntactic
  else match readDigits base (Nat.pow 2 64) 0 (digits.filter (· != '_')) with
    | .error cause => fail cause
    | .ok n =>
      if digits.contains '_' && !underscoresSeparate (base = 16) (if marked then '0' else '^')
          (if marked then digits else cs) then
        fail .syntactic
      else if (if negative then n ≤ Nat.pow 2 63 else n < Nat.pow 2 63) then .ok (signed negative n)
      else fail .range

def integer? (s : String) : Option Int :=
  let (negative, cs) := sign s.toList
  if cs = [] then none
  else (cs.foldlM (fun n c => (digit? 10 c).map (n * 10 + ·)) 0).map (signed negative)

/-! ### Mantissas with a base prefix -/

structure Mantissa where
  base : Nat
  value : Nat := 0
  count : Nat := 0
  point : Option Nat := none
  last : Char := '.'
  stray : Bool := false

namespace Mantissa

def take (allowPoint : Bool) (m : Mantissa) : List Char → Mantissa × List Char
  | [] => (m, [])
  | c :: cs =>
    if c = '.' && allowPoint && m.point.isNone then
      take allowPoint { m with point := some m.count, last := '.', stray := m.stray || m.last = '_' } cs
    else if c = '_' then
      take allowPoint { m with last := '_', stray := m.stray || m.last != '0' } cs
    else match digit? m.base c with
      | some d => take allowPoint { m with value := m.value * m.base + d, count := m.count + 1, last := '0' } cs
      | none => (m, c :: cs)

def fractionDigits (m : Mantissa) : Nat :=
  match m.point with
  | some before => m.count - before
  | none => 0

end Mantissa

/-- The mantissa to start with and where its digits begin; a prefix counts as a digit for the
underscore after it. The last part says whether a bare leading zero set the base. -/
def mantissaStart (allowPoint : Bool) : List Char → Mantissa × List Char × Bool
  | '0' :: x :: rest =>
    if x = 'b' || x = 'B' then ({ base := 2, last := '0' }, rest, false)
    else if x = 'o' || x = 'O' then ({ base := 8, last := '0' }, rest, false)
    else if x = 'x' || x = 'X' then ({ base := 16, last := '0' }, rest, false)
    else if allowPoint then ({ base := 10, count := 1, last := '0' }, x :: rest, false)
    else ({ base := 8, last := '0' }, x :: rest, true)
  | cs => ({ base := 10 }, cs, false)

/-- A natural number with an optional prefix `0b`, `0o` or `0x`, and a point where one is allowed.
Where none is, a leading zero means base 8. -/
def mantissa? (allowPoint : Bool) (cs : List Char) : Option (Mantissa × List Char) :=
  let (start, cs, octal) := mantissaStart allowPoint cs
  let (m, rest) := start.take allowPoint cs
  if m.stray || m.last = '_' then none
  else if m.count = 0 then
    if octal then some ({ m with base := 10, count := 1 }, rest) else none
  else some (m, rest)

inductive Exponent where
  | ten (e : Int)
  | two (e : Int)

def exponentDigits? (cs : List Char) : Option Nat :=
  let (m, rest) := ({ base := 10 } : Mantissa).take false cs
  if rest != [] || m.count = 0 || m.stray || m.last = '_' || Nat.pow 2 63 ≤ m.value then none else some m.value

def exponent? : List Char → Option Exponent
  | [] => some (.ten 0)
  | c :: cs =>
    let (negative, ds) := sign cs
    if c = 'e' || c = 'E' then (exponentDigits? ds).map fun n => .ten (signed negative n)
    else if c = 'p' || c = 'P' then (exponentDigits? ds).map fun n => .two (signed negative n)
    else none

def powerOf (b : Nat) (e : Int) : Rat :=
  if 0 ≤ e then ((Nat.pow b e.toNat : Nat) : Rat) else mkRat 1 (Nat.pow b (-e).toNat)

/-- `n`, `n/d` or a number with a point and an exponent. Exponents that would need millions of
digits are refused. -/
def rational? (s : String) : Option Rat :=
  match cutAt '/' s.toList with
  | (num, some den) => do
    let (negative, ds) := sign num
    let (n, rest) ← mantissa? false ds
    let (d, rest') ← mantissa? false den
    if rest != [] || rest' != [] || d.value = 0 then none
    else some (mkRat (signed negative n.value) d.value)
  | (cs, none) => do
    let (negative, ds) := sign cs
    let (m, rest) ← mantissa? true ds
    let e ← exponent? rest
    if m.value = 0 then some 0
    else
      let f : Int := m.fractionDigits
      let (fives, twos) := match m.base with
        | 10 => (-f, -f)
        | 2 => (0, -f)
        | 8 => (0, -3 * f)
        | _ => (0, -4 * f)
      let (fives, twos) := match e with
        | .ten k => (fives + k, twos + k)
        | .two k => (fives, twos + k)
      if 1000000 < fives.natAbs || 10000000 < twos.natAbs then none
      else some (mkRat (signed negative m.value) 1 * powerOf 5 fives * powerOf 2 twos)

/-! ### Binary numbers -/

def lowerChar (c : Char) : Char := if 'A' ≤ c && c ≤ 'Z' then Char.ofNat (c.toNat + 32) else c

/-- The names of what is not finite, in any case; only infinity may have a sign. -/
def special? (w : Binary.Width) (s : String) : Option Nat :=
  let cs := s.toList.map lowerChar
  let (negative, body) := sign cs
  if body = "inf".toList || body = "infinity".toList then
    some (Binary.withSign w negative (Binary.infinityBits w))
  else if cs = "nan".toList then some (Binary.nanBits w + (if w = .double then 1 else 0))
  else none

def isHex : List Char → Bool
  | '0' :: x :: _ :: _ => x = 'x' || x = 'X'
  | _ => false

/-- The exponent that ends a number, of two for hexadecimal ones, which cannot do without. -/
def binaryExponent? (hex : Bool) : List Char → Option Int
  | [] => if hex then none else some 0
  | c :: cs =>
    if lowerChar c = (if hex then 'p' else 'e') then
      let (negative, ds) := sign cs
      (exponentDigits? ds).map (signed negative)
    else none

/-- A decimal number, or a hexadecimal one with a binary exponent, as an exact value. Underscores
stand only between digits or after the prefix. -/
def binaryValue? (s : String) : Option (Bool × Nat × Nat × Int × Nat) := do
  let (negative, cs) := sign s.toList
  let hex := isHex cs
  let start : Mantissa := if hex then { base := 16, last := '0' } else { base := 10 }
  let (m, rest) := start.take true (if hex then cs.drop 2 else cs)
  if m.count = 0 || m.stray || m.last = '_' then none
  some (negative, m.base, m.value, ← binaryExponent? hex rest, m.fractionDigits)

/-- Exponents beyond this make every mantissa of reasonable length infinite or zero. -/
def exponentLimit : Int := 100000

def binary (w : Binary.Width) (s : String) : Except Failure Nat :=
  match special? w s with
  | some bits => .ok bits
  | none =>
    match binaryValue? s with
    | none => .error ⟨"ParseFloat", s, .syntactic⟩
    | some (negative, base, value, exponent, places) =>
      let e := min exponentLimit (max (-exponentLimit) exponent)
      let r := if base = 10 then mkRat value 1 * powerOf 10 (e - places)
        else mkRat value 1 * powerOf 2 (e - 4 * places)
      let bits := Binary.roundMagnitude w r.num.natAbs r.den
      if bits = Binary.infinityBits w then .error ⟨"ParseFloat", s, .range⟩
      else .ok (Binary.withSign w negative bits)

end Parlance.Reading
