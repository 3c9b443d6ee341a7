import Parlance.Number.Binary
import Parlance.Selector
/-!
The instructions of the machine. Classes, variables and globals are known by numbers, methods by the
hashes of their selectors.
-/
namespace Parlance

inductive IntWidth where
  | u8 | u16 | u32 | u64 | u128 | uBig
  | i8 | i16 | i32 | i64 | i128 | iBig
  deriving DecidableEq, Repr, Inhabited

namespace IntWidth

def all : List IntWidth := [u8, u16, u32, u64, u128, uBig, i8, i16, i32, i64, i128, iBig]

def name : IntWidth → String
  | u8 => "U8" | u16 => "U16" | u32 => "U32" | u64 => "U64" | u128 => "U128" | uBig => "UBig"
  | i8 => "I8" | i16 => "I16" | i32 => "I32" | i64 => "I64" | i128 => "I128" | iBig => "IBig"

def bytes? : IntWidth → Option Nat
  | u8 | i8 => some 1
  | u16 | i16 => some 2
  | u32 | i32 => some 4
  | u64 | i64 => some 8
  | u128 | i128 => some 16
  | uBig | iBig => none

def isSigned : IntWidth → Bool
  | i8 | i16 | i32 | i64 | i128 | iBig => true
  | _ => false

end IntWidth

inductive Mark where
  | true | false | string | character | symbol
  | int (w : IntWidth)
  | f32 | f64 | fBig
  deriving DecidableEq, Repr, Inhabited

namespace Mark

def all : List Mark :=
  [true, false, string, character, symbol] ++ IntWidth.all.map int ++ [f32, f64, fBig]

def name : Mark → String
  | true => "True" | false => "False"
  | string => "String" | character => "Character" | symbol => "Symbol"
  | int w => w.name
  | f32 => "F32" | f64 => "F64" | fBig => "FBig"

end Mark

inductive Native where
  | plus
  | minus
  | equal
  deriving DecidableEq, Repr, Inhabited

namespace Native

def all : List Native := [plus, minus, equal]

def name : Native → String
  | plus => "Number_plus"
  | minus => "Number_minus"
  | equal => "Object_eq"

def method : Native → String
  | plus => "Loa/Number#+"
  | minus => "Loa/Number#-"
  | equal => "Loa/Object#=="

def ofName? (s : String) : Option Native := all.find? (·.name == s)

def ofMethod? (qualifiedName : String) : Option Native := all.find? (·.method == qualifiedName)

end Native

inductive Op where
  | noop | halt | panic
  | declareClass | declareVariable | beginMethod | endMethod | inheritMethod
  | loadObject | loadLocal | dropLocal | storeGlobal | loadGlobal
  | callMethod | callNative | loadLazy | returnLazy | return_
  | markClass (m : Mark)
  | constString | constCharacter | constSymbol
  | constInt (w : IntWidth)
  | constF32 | constF64 | constFBig
  deriving DecidableEq, Repr, Inhabited

namespace Op

def all : List Op :=
  [noop, halt, panic, declareClass, declareVariable, beginMethod, endMethod, inheritMethod, loadObject,
    loadLocal, dropLocal, storeGlobal, loadGlobal, callMethod, callNative, loadLazy, returnLazy,
    return_] ++ Mark.all.map markClass ++ [constString, constCharacter, constSymbol] ++
    IntWidth.all.map constInt ++ [constF32, constF64, constFBig]

def name : Op → String
  | noop => "Noop" | halt => "Halt" | panic => "Panic"
  | declareClass => "DeclareClass" | declareVariable => "DeclareVariable"
  | beginMethod => "BeginMethod" | endMethod => "EndMethod" | inheritMethod => "InheritMethod"
  | loadObject => "LoadObject" | loadLocal => "LoadLocal" | dropLocal => "DropLocal"
  | storeGlobal => "StoreGlobal" | loadGlobal => "LoadGlobal"
  | callMethod => "CallMethod" | callNative => "CallNative"
  | loadLazy => "LoadLazy" | returnLazy => "ReturnLazy" | return_ => "Return"
  | markClass m => "MarkClass" ++ m.name
  | constString => "LoadConstString" | constCharacter => "LoadConstCharacter"
  | constSymbol => "LoadConstSymbol"
  | constInt w => "LoadConst" ++ w.name
  | constF32 => "LoadConstF32" | constF64 => "LoadConstF64" | constFBig => "LoadConstFBig"

def number (op : Op) : Nat := all.idxOf op

def ofNumber? (n : Nat) : Option Op := all[n]?

def ofName? (s : String) : Option Op := all.find? (·.name == s)

def operands : Op → Nat
  | noop | halt | panic | endMethod => 0
  | callMethod => 4
  | inheritMethod => 3
  | declareClass | declareVariable | beginMethod | loadLazy => 2
  | _ => 1

end Op

inductive Instruction where
  | noop
  | halt
  /-- Ends the program with the value on top as the message. -/
  | panic
  /-- Makes a class, or takes up the one that is there; what follows is declared in it. -/
  | declareClass (id : UInt64) (name : Bytes)
  /-- A variable, with a method that reads it and one that sets it. -/
  | declareVariable (id : UInt64) (name : Bytes)
  | beginMethod (hash : UInt64) (name : Bytes)
  | endMethod
  | inheritMethod (source target hash : UInt64)
  | loadObject (id : UInt64)
  | loadLocal (index : UInt16)
  | dropLocal (index : UInt16)
  | storeGlobal (id : UInt64)
  | loadGlobal (id : UInt64)
  /-- Sends a message to the value on top; the rest says where the program does so. -/
  | callMethod (hash : UInt64) (uri : Bytes) (line character : UInt32)
  | callNative (n : Native)
  /-- Takes `arity` values and leaves one that `body` works out when it is needed. -/
  | loadLazy (arity : UInt16) (body : List Instruction)
  | returnLazy (arity : UInt16)
  | return_ (arity : UInt16)
  | markClass (m : Mark) (id : UInt64)
  | constString (value : Bytes)
  | constSymbol (value : Bytes)
  | constCharacter (code : UInt32)
  | constInt (w : IntWidth) (value : Int)
  | constF32 (bits : UInt32)
  | constF64 (bits : UInt64)
  | constFBig (value : Rat)
  deriving Repr, Inhabited

namespace Instruction

def op : Instruction → Op
  | noop => .noop
  | halt => .halt
  | panic => .panic
  | declareClass .. => .declareClass
  | declareVariable .. => .declareVariable
  | beginMethod .. => .beginMethod
  | endMethod => .endMethod
  | inheritMethod .. => .inheritMethod
  | loadObject _ => .loadObject
  | loadLocal _ => .loadLocal
  | dropLocal _ => .dropLocal
  | storeGlobal _ => .storeGlobal
  | loadGlobal _ => .loadGlobal
  | callMethod .. => .callMethod
  | callNative _ => .callNative
  | loadLazy .. => .loadLazy
  | returnLazy _ => .returnLazy
  | return_ _ => .return_
  | markClass m _ => .markClass m
  | constString _ => .constString
  | constSymbol _ => .constSymbol
  | constCharacter _ => .constCharacter
  | constInt w _ => .constInt w
  | constF32 _ => .constF32
  | constF64 _ => .constF64
  | constFBig _ => .constFBig

def classObjectId (id : UInt64) : UInt64 := id ||| 0x8000000000000000

mutual

/-- Equality of operands; binary numbers are compared as numbers, so what is no number differs even
from itself. -/
def same : Instruction → Instruction → Bool
  | noop, noop | halt, halt | panic, panic | endMethod, endMethod => true
  | declareClass i n, declareClass j m => i == j && n == m
  | declareVariable i n, declareVariable j m => i == j && n == m
  | beginMethod h n, beginMethod k m => h == k && n == m
  | inheritMethod a b h, inheritMethod c d k => a == c && b == d && h == k
  | loadObject i, loadObject j | storeGlobal i, storeGlobal j | loadGlobal i, loadGlobal j => i == j
  | loadLocal i, loadLocal j | dropLocal i, dropLocal j | return_ i, return_ j
  | returnLazy i, returnLazy j => i == j
  | callMethod h u l c, callMethod k v m d => h == k && u == v && l == m && c == d
  | callNative n, callNative m => n == m
  | loadLazy n a, loadLazy m b => n == m && sameAll a b
  | markClass m i, markClass n j => m == n && i == j
  | constString a, constString b | constSymbol a, constSymbol b => a == b
  | constCharacter a, constCharacter b => a == b
  | constInt w a, constInt v b => w == v && a == b
  | constF32 a, constF32 b => Binary.beq .single a.toNat b.toNat
  | constF64 a, constF64 b => Binary.beq .double a.toNat b.toNat
  | constFBig a, constFBig b => a == b
  | _, _ => false

def sameAll : List Instruction → List Instruction → Bool
  | [], [] => true
  | a :: as, b :: bs => same a b && sameAll as bs
  | _, _ => false

end

end Instruction

end Parlance
