import Parlance.Instruction
import Parlance.Number.Rational
import Parlance.Number.Shortest
import Parlance.Text.Quoted
/-!
The values of the machine. They never change: setting a variable gives a new value. A lazy value is
known by the cell it is kept in.
-/
namespace Parlance.Machine

structure ClassRef where
  id : UInt64
  name : Bytes
  deriving DecidableEq, Repr, Inhabited

inductive Payload where
  | plain
  | string (value : Bytes)
  | character (code : UInt32)
  | symbol (value : Bytes)
  | int (w : IntWidth) (value : Int)
  | f32 (bits : UInt32)
  | f64 (bits : UInt64)
  | fBig (value : Rat)
  | lazy (cell : Nat)
  deriving DecidableEq, Repr, Inhabited

inductive Kind where
  | plain
  | marked (m : Mark)
  | lazy
  deriving DecidableEq, Repr

def Kind.name : Kind → String
  | plain => "Instance"
  | marked m => m.name
  | lazy => "Lazy"

def Payload.kind : Payload → Kind
  | plain => .plain
  | string _ => .marked .string
  | character _ => .marked .character
  | symbol _ => .marked .symbol
  | int w _ => .marked (.int w)
  | f32 _ => .marked .f32
  | f64 _ => .marked .f64
  | fBig _ => .marked .fBig
  | lazy _ => .lazy

/-- A value. No two that were made apart have the same serial number. -/
inductive Object where
  | mk (serial : Nat) (cls : Option ClassRef) (payload : Payload) (slots : List (UInt64 × Object))
  deriving Inhabited

namespace Object

def serial : Object → Nat
  | mk s _ _ _ => s

def cls : Object → Option ClassRef
  | mk _ c _ _ => c

def payload : Object → Payload
  | mk _ _ p _ => p

def slots : Object → List (UInt64 × Object)
  | mk _ _ _ vs => vs

def kind (o : Object) : Kind := o.payload.kind

variable (o : Object)

def held? (id : UInt64) : Option Object := o.slots.lookup id

def set (serial : Nat) (id : UInt64) (v : Object) : Object :=
  .mk serial o.cls o.payload ((id, v) :: o.slots.filter (·.1 != id))

def isInteger : Bool :=
  match o.payload with
  | .int .. => true
  | _ => false

def isFloat : Bool :=
  match o.payload with
  | .f32 _ | .f64 _ | .fBig _ => true
  | _ => false

def isNumber : Bool := o.isInteger || o.isFloat

def integer? : Option Int :=
  match o.payload with
  | .int _ v => some v
  | _ => none

def double? : Option Nat :=
  match o.payload with
  | .f32 bits => some (Binary.widen bits.toNat)
  | .f64 bits => some bits.toNat
  | _ => none

def rational? : Option Rat :=
  match o.payload with
  | .fBig r => some r
  | _ => none

def render (o : Object) : String :=
  match o.payload with
  | .plain => "a " ++ Utf8.toString ((o.cls.map (·.name)).getD [])
  | .string s => Utf8.toString s
  | .character c => (Quoted.charOf c.toNat).toString
  | .symbol s => "#" ++ Utf8.toString s
  | .int _ v => toString v
  | .f32 bits => Binary.render .single bits.toNat
  | .f64 bits => Binary.render .double bits.toNat
  | .fBig r => Rational.decimal r
  | .lazy _ => "$lazy"

end Object

def Payload.same : Payload → Payload → Bool
  | f32 a, f32 b => Binary.beq .single a.toNat b.toNat
  | f64 a, f64 b => Binary.beq .double a.toNat b.toNat
  | a, b => a == b

namespace Object

mutual

/-- The same object, or one of the same class that holds the same. Binary numbers are compared as
numbers, lazy values by their cells, and plain objects by their variables. -/
def same : Object → Object → Bool
  | mk s c p vs, mk t d q ws =>
    s == t || (c == d && p.same q &&
      (p != .plain || (vs.length == ws.length && sameVariables vs ws)))

def sameVariables : List (UInt64 × Object) → List (UInt64 × Object) → Bool
  | [], _ => true
  | (id, v) :: vs, ws =>
    (match ws.lookup id with
      | some w => same v w
      | none => false) && sameVariables vs ws

end

end Object

end Parlance.Machine
