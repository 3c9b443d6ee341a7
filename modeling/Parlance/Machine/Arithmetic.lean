import Parlance.Machine.Object
/-!
Sums and differences of numbers of any two kinds. Both are brought to a kind that loses nothing, and
a result that does not fit moves on to a wider one.
-/
namespace Parlance

namespace IntWidth

def bits? (w : IntWidth) : Option Nat := w.bytes?.map (8 * ·)

/-- The kind with this many bits; one of more than 128 bits has no limit. -/
def ofBits (isSigned : Bool) (bits : Nat) : IntWidth :=
  match isSigned, bits with
  | false, 8 => u8
  | false, 16 => u16
  | false, 32 => u32
  | false, 64 => u64
  | false, 128 => u128
  | false, _ => uBig
  | true, 8 => i8
  | true, 16 => i16
  | true, 32 => i32
  | true, 64 => i64
  | true, 128 => i128
  | true, _ => iBig

def fits (w : IntWidth) (v : Int) : Bool :=
  match w.bits?, w.isSigned with
  | none, isSigned => isSigned || 0 ≤ v
  | some n, true => -(Nat.pow 2 (n - 1) : Int) ≤ v && v < Nat.pow 2 (n - 1)
  | some n, false => 0 ≤ v && v < Nat.pow 2 n

def next : IntWidth → IntWidth
  | u8 => u16 | u16 => u32 | u32 => u64 | u64 => u128 | u128 | uBig => uBig
  | i8 => i16 | i16 => i32 | i32 => i64 | i64 => i128 | i128 | iBig => iBig

/-- The kind to try when a value does not fit. A negative one needs a sign, and twice the bits, so
that its magnitude still fits. -/
def wider (w : IntWidth) (v : Int) : IntWidth :=
  if !w.isSigned && v < 0 then ofBits true (2 * (w.bits?).getD 0) else w.next

/-- The first kind from here on that a value fits; there are six of each sign. -/
def widenFor (v : Int) : Nat → IntWidth → IntWidth
  | 0, w => w
  | fuel + 1, w => if w.fits v then w else widenFor v fuel (w.wider v)

def widen (w : IntWidth) (v : Int) : IntWidth := widenFor v 12 w

def rank (w : IntWidth) : Nat := all.idxOf w

/-- The narrowest kind for the values of two: of different signs it is one with a sign that has twice
the bits of the one without. -/
def join (a b : IntWidth) : IntWidth :=
  if a.isSigned == b.isSigned then (if a.rank < b.rank then b else a)
  else
    let (s, u) := if a.isSigned then (a, b) else (b, a)
    match s.bits?, u.bits? with
    | some m, some n => if n ≥ 128 then iBig else ofBits true (max m (2 * n))
    | _, _ => iBig

end IntWidth

namespace Machine

inductive Domain where
  | int (w : IntWidth)
  | f32
  | f64
  | fBig
  deriving DecidableEq, Repr

namespace Domain

def of? : Payload → Option Domain
  | .int w _ => some (.int w)
  | .f32 _ => some .f32
  | .f64 _ => some .f64
  | .fBig _ => some .fBig
  | _ => none

/-- A binary kind takes an integer in only while its digits cover the integer. -/
def withInteger (f : Domain) (w : IntWidth) : Domain :=
  match f, w.bits? with
  | f32, some n => if n ≤ 16 then f32 else if n ≤ 32 then f64 else fBig
  | f64, some n => if n ≤ 32 then f64 else fBig
  | _, _ => fBig

def join : Domain → Domain → Domain
  | int a, int b => int (a.join b)
  | int a, f => f.withInteger a
  | f, int b => f.withInteger b
  | f32, f32 => f32
  | f32, f64 | f64, f32 | f64, f64 => f64
  | _, _ => fBig

end Domain

def toDouble : Payload → Nat
  | .int _ v => Binary.round .double v
  | .f32 bits => Binary.widen bits.toNat
  | .f64 bits => bits.toNat
  | .fBig r => Binary.round .double r
  | _ => 0

def toRat? : Payload → Option Rat
  | .int _ v => some v
  | .f32 bits => Binary.toRat? .single bits.toNat
  | .f64 bits => Binary.toRat? .double bits.toNat
  | .fBig r => some r
  | _ => none

def integerOf : Payload → Int
  | .int _ v => v
  | _ => 0

inductive Operation where
  | plus
  | minus
  deriving DecidableEq, Repr

namespace Operation

def onInt : Operation → Int → Int → Int
  | plus, a, b => a + b
  | minus, a, b => a - b

def onRat : Operation → Rat → Rat → Rat
  | plus, a, b => a + b
  | minus, a, b => a - b

def onBinary (w : Binary.Width) : Operation → Nat → Nat → Nat
  | plus, a, b => Binary.add w a b
  | minus, a, b => Binary.sub w a b

end Operation

inductive ArithmeticFault where
  | notANumber
  | inexact (p : Payload)
  deriving Repr

def operate (op : Operation) (a b : Payload) : Except ArithmeticFault Payload := do
  match Domain.of? a, Domain.of? b with
  | some k, some l =>
    match k.join l with
    | .f32 =>
      return .f32 (op.onBinary .single (Binary.narrow (toDouble a)) (Binary.narrow (toDouble b))).toUInt32
    | .f64 => return .f64 (op.onBinary .double (toDouble a) (toDouble b)).toUInt64
    | .fBig =>
      match toRat? a, toRat? b with
      | none, _ => throw (.inexact a)
      | _, none => throw (.inexact b)
      | some x, some y => return .fBig (op.onRat x y)
    | .int w =>
      let v := op.onInt (integerOf a) (integerOf b)
      return .int (w.widen v) v
  | _, _ => throw .notANumber

end Machine

end Parlance
