import Parlance.Number.Binary
/-!
The numeric classes of the library and the values that belong to each.
-/
namespace Parlance

structure NumberClass where
  name : String
  isFloat : Bool
  isSigned : Bool
  /-- The width; without one the class is abstract or has no limits. -/
  bits : Option Nat
  isAbstract : Bool
  deriving DecidableEq, Repr, Inhabited

namespace NumberClass

private def general (name : String) (isFloat isSigned : Bool) : NumberClass :=
  ⟨"Loa/" ++ name, isFloat, isSigned, none, true⟩

private def unbounded (name : String) (isFloat isSigned : Bool) : NumberClass :=
  ⟨"Loa/" ++ name, isFloat, isSigned, none, false⟩

private def fixed (name : String) (isFloat isSigned : Bool) (bits : Nat) : NumberClass :=
  ⟨"Loa/" ++ name, isFloat, isSigned, some bits, false⟩

def number : NumberClass := general "Number" false true
def int32 : NumberClass := fixed "Int32" false true 32
def int64 : NumberClass := fixed "Int64" false true 64
def int128 : NumberClass := fixed "Int128" false true 128
def bigInteger : NumberClass := unbounded "BigInteger" false true
def uint32 : NumberClass := fixed "UInt32" false false 32
def uint64 : NumberClass := fixed "UInt64" false false 64
def uint128 : NumberClass := fixed "UInt128" false false 128
def bigNatural : NumberClass := unbounded "BigNatural" false false
def float32 : NumberClass := fixed "Float32" true true 32
def float64 : NumberClass := fixed "Float64" true true 64
def bigFloat : NumberClass := unbounded "BigFloat" true true

def all : List NumberClass :=
  [number, general "Integer" false true, general "Natural" false false, general "Float" true true,
    fixed "UInt8" false false 8, fixed "UInt16" false false 16, uint32, uint64, uint128, bigNatural,
    fixed "Int8" false true 8, fixed "Int16" false true 16, int32, int64, int128, bigInteger,
    float32, float64, bigFloat]

def ofName? (qualifiedName : String) : Option NumberClass := all.find? (·.name == qualifiedName)

def acceptsFloats (c : NumberClass) : Bool := c.isFloat || c.name == number.name

def isBounded (c : NumberClass) : Bool := !c.isFloat && c.bits.isSome

def least? (c : NumberClass) : Option Int :=
  if c.isFloat then none
  else if !c.isSigned then some 0
  else c.bits.map fun b => -(Nat.pow 2 (b - 1) : Int)

def greatest? (c : NumberClass) : Option Int :=
  if c.isFloat then none
  else c.bits.map fun b => (Nat.pow 2 (if c.isSigned then b - 1 else b) : Int) - 1

def fits (c : NumberClass) (v : Int) : Bool :=
  ((c.least?.map (· ≤ v : Int → Bool)).getD true) && ((c.greatest?.map (v ≤ · : Int → Bool)).getD true)

/-- The first class that fits a literal without a type: the widths from 32 bits on, then the class
without limits. -/
def narrowestInteger (v : Int) (isSigned : Bool) : NumberClass :=
  if isSigned then ([int32, int64, int128].find? (·.fits v)).getD bigInteger
  else ([uint32, uint64, uint128].find? (·.fits v)).getD bigNatural

def narrowestFloat (v : Rat) : NumberClass :=
  if Binary.toRat? .single (Binary.round .single v) == some v then float32
  else if Binary.toRat? .double (Binary.round .double v) == some v then float64
  else bigFloat

end NumberClass

end Parlance
