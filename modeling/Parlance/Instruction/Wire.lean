import Parlance.Instruction
/-!
Instructions as bytes. An instruction starts with a tag, numbers have their highest byte first, and
strings and large numbers are led by their length.
-/
namespace Parlance.Wire

def tagBase : Nat := 0xa0
def rationalTag : UInt8 := 0xea

def maxDepth : Nat := 256

/-! ### Numbers as bytes -/

def bigEndian : Nat → Nat → Bytes
  | 0, _ => []
  | width + 1, n => bigEndian width (n / 256) ++ [(n % 256).toUInt8]

def ofBigEndian (bs : Bytes) : Nat := bs.foldl (fun n b => n * 256 + b.toNat) 0

def byteLength (n : Nat) : Nat := if n = 0 then 0 else n.log2 / 8 + 1

/-! ### Writing -/

inductive Unfit where
  | length (n : Nat)
  | integer (value : Int) (bytes : Nat)
  | negative (value : Int)
  | body (n : Nat)
  deriving DecidableEq, Repr

def Unfit.message (u : Unfit) : String :=
  "operand out of range: " ++
    match u with
    | length n => s!"length {n}"
    | integer v n => s!"{v} does not fit in {n} bytes"
    | negative v => s!"negative natural {v}"
    | body n => s!"lazy body of {n} instructions"

abbrev Written := Except Unfit Bytes

def writeString (s : Bytes) : Written :=
  if s.length < 65536 then .ok (bigEndian 2 s.length ++ s) else .error (.length s.length)

def writeMagnitude (n : Nat) : Written := writeString (bigEndian (byteLength n) n)

def writeSign (negative : Bool) : Bytes := [if negative then 1 else 0]

def limits (bytes : Nat) (isSigned : Bool) : Int × Int :=
  if isSigned then (-(Nat.pow 2 (8 * bytes - 1) : Int), Nat.pow 2 (8 * bytes - 1)) else (0, Nat.pow 2 (8 * bytes))

/-- Negative numbers are written as what is missing to the power of two behind the range. -/
def writeFixed (bytes : Nat) (isSigned : Bool) (v : Int) : Written :=
  let (low, high) := limits bytes isSigned
  if v < low || high ≤ v then .error (.integer v bytes)
  else .ok (bigEndian bytes (v % Nat.pow 2 (8 * bytes)).toNat)

def writeInteger (w : IntWidth) (v : Int) : Written :=
  match w, w.bytes? with
  | _, some n => writeFixed n w.isSigned v
  | .iBig, none => return writeSign (v < 0) ++ (← writeMagnitude v.natAbs)
  | _, none => if v < 0 then .error (.negative v) else writeMagnitude v.natAbs

def u64 (n : UInt64) : Bytes := bigEndian 8 n.toNat
def u32 (n : UInt32) : Bytes := bigEndian 4 n.toNat
def u16 (n : UInt16) : Bytes := bigEndian 2 n.toNat

def tag (op : Op) : UInt8 := (tagBase + op.number).toUInt8

mutual

def write : Instruction → Written
  | i@(.declareClass id name) | i@(.declareVariable id name) | i@(.beginMethod id name) =>
    return tag i.op :: u64 id ++ (← writeString name)
  | i@(.inheritMethod source target hash) =>
    return tag i.op :: u64 source ++ u64 target ++ u64 hash
  | i@(.loadObject id) | i@(.storeGlobal id) | i@(.loadGlobal id) | i@(.markClass _ id) =>
    return tag i.op :: u64 id
  | i@(.loadLocal n) | i@(.dropLocal n) | i@(.return_ n) | i@(.returnLazy n) =>
    return tag i.op :: u16 n
  | i@(.callMethod hash uri line character) =>
    return tag i.op :: u64 hash ++ (← writeString uri) ++ u32 line ++ u32 character
  | i@(.callNative n) => return [tag i.op, (Native.all.idxOf n).toUInt8]
  | i@(.loadLazy arity body) =>
    if body.length < Nat.pow 2 32 then
      return tag i.op :: u16 arity ++ bigEndian 4 body.length ++ (← writeAll body)
    else .error (.body body.length)
  | i@(.constString s) | i@(.constSymbol s) => return tag i.op :: (← writeString s)
  | i@(.constCharacter c) => return tag i.op :: u32 c
  | i@(.constInt w v) => return tag i.op :: (← writeInteger w v)
  | i@(.constF32 bits) => return tag i.op :: u32 bits
  | i@(.constF64 bits) => return tag i.op :: u64 bits
  | i@(.constFBig r) =>
    return tag i.op :: rationalTag :: writeSign (r.num < 0) ++ (← writeMagnitude r.num.natAbs) ++
      (← writeMagnitude r.den)
  | i => return [tag i.op]

def writeAll : List Instruction → Written
  | [] => return []
  | i :: is => return (← write i) ++ (← writeAll is)

end

/-! ### Reading -/

inductive Flaw where
  | truncated
  | unknownTag (tag : UInt8)
  | unknownNative (n : UInt8)
  | invalidSign (b : UInt8)
  | invalidRationalTag (b : UInt8)
  | zeroDenominator
  | tooDeep
  | character
  deriving DecidableEq, Repr

def Flaw.message : Flaw → String
  | truncated => "truncated bytecode"
  | unknownTag b => "unknown opcode: 0x" ++ String.ofList (Hex.shortest Hex.lowerDigit b.toNat)
  | unknownNative b => s!"unknown opcode: native {b.toNat}"
  | invalidSign b => "invalid sign byte 0x" ++ String.ofList (Hex.shortest Hex.lowerDigit b.toNat)
  | invalidRationalTag b =>
    "invalid big float tag 0x" ++ String.ofList (Hex.shortest Hex.lowerDigit b.toNat)
  | zeroDenominator => "big float with zero denominator"
  | tooDeep => "lazy bodies nested too deeply"
  | character => "out of range"

/-- A flaw and the operations it lies within, from the outside in. -/
structure Fault where
  within : List Op
  flaw : Flaw
  deriving DecidableEq, Repr

def Fault.message (f : Fault) : String :=
  String.join (f.within.map fun op => op.name ++ ": ") ++ f.flaw.message

abbrev Step := StateT Bytes (Except Fault)

def fail {α : Type} (flaw : Flaw) : Step α := fun _ => .error ⟨[], flaw⟩

def take (n : Nat) : Step Bytes := fun s =>
  if s.length < n then .error ⟨[], .truncated⟩ else .ok (s.take n, s.drop n)

def byte : Step UInt8 := fun s =>
  match s with
  | [] => .error ⟨[], .truncated⟩
  | b :: bs => .ok (b, bs)

def number (width : Nat) : Step Nat := return ofBigEndian (← take width)

def readU16 : Step UInt16 := return (← number 2).toUInt16
def readU32 : Step UInt32 := return (← number 4).toUInt32
def readU64 : Step UInt64 := return (← number 8).toUInt64

def readString : Step Bytes := do take (← number 2)

def readMagnitude : Step Nat := return ofBigEndian (← readString)

def readSign : Step Bool := do
  match ← byte with
  | 0 => return false
  | 1 => return true
  | b => fail (.invalidSign b)

def signed (negative : Bool) (n : Nat) : Int := if negative then -(n : Int) else n

def readFixed (bytes : Nat) (isSigned : Bool) : Step Int := do
  let n ← number bytes
  let (_, high) := limits bytes isSigned
  return if (n : Int) < high then (n : Int) else (n : Int) - Nat.pow 2 (8 * bytes)

def readInteger (w : IntWidth) : Step Int := do
  match w, w.bytes? with
  | _, some n => readFixed n w.isSigned
  | .iBig, none => return signed (← readSign) (← readMagnitude)
  | _, none => return (← readMagnitude : Nat)

def readRational : Step Rat := do
  let t ← byte
  if t != rationalTag then fail (.invalidRationalTag t)
  let negative ← readSign
  let num ← readMagnitude
  let den ← readMagnitude
  if den = 0 then fail .zeroDenominator
  return mkRat (signed negative num) den

def readNative : Step Native := do
  let b ← byte
  match Native.all[b.toNat]? with
  | some n => return n
  | none => fail (.unknownNative b)

def readCharacter : Step UInt32 := do
  let c ← readU32
  if c < 0x80000000 then return c else fail .character

/-- A single that is no number loses the mark that it signals. -/
def quiet (bits : UInt32) : UInt32 :=
  match Binary.decode .single bits.toNat with
  | .nan => bits ||| 0x400000
  | _ => bits

def operands (lazy : Step Instruction) : Op → Step Instruction
  | .noop => return .noop
  | .halt => return .halt
  | .panic => return .panic
  | .declareClass => return .declareClass (← readU64) (← readString)
  | .declareVariable => return .declareVariable (← readU64) (← readString)
  | .beginMethod => return .beginMethod (← readU64) (← readString)
  | .endMethod => return .endMethod
  | .inheritMethod => return .inheritMethod (← readU64) (← readU64) (← readU64)
  | .loadObject => return .loadObject (← readU64)
  | .loadLocal => return .loadLocal (← readU16)
  | .dropLocal => return .dropLocal (← readU16)
  | .storeGlobal => return .storeGlobal (← readU64)
  | .loadGlobal => return .loadGlobal (← readU64)
  | .callMethod => return .callMethod (← readU64) (← readString) (← readU32) (← readU32)
  | .callNative => return .callNative (← readNative)
  | .loadLazy => lazy
  | .returnLazy => return .returnLazy (← readU16)
  | .return_ => return .return_ (← readU16)
  | .markClass m => return .markClass m (← readU64)
  | .constString => return .constString (← readString)
  | .constCharacter => return .constCharacter (← readCharacter)
  | .constSymbol => return .constSymbol (← readString)
  | .constInt w => return .constInt w (← readInteger w)
  | .constF32 => return .constF32 (quiet (← readU32))
  | .constF64 => return .constF64 (← readU64)
  | .constFBig => return .constFBig (← readRational)

def inside (op : Op) (s : Step Instruction) : Step Instruction := fun bs =>
  match s bs with
  | .ok r => .ok r
  | .error f => .error { f with within := op :: f.within }

def times (s : Step Instruction) : Nat → Step (List Instruction)
  | 0 => return []
  | n + 1 => return (← s) :: (← times s n)

def opOfTag? (t : UInt8) : Option Op :=
  if t.toNat < tagBase then none else Op.ofNumber? (t.toNat - tagBase)

def readUpTo : Nat → Step Instruction
  | 0 => readWith (fail .tooDeep)
  | depth + 1 => readWith do
    let arity ← readU16
    return .loadLazy arity (← times (readUpTo depth) (← number 4))
where
  readWith (lazy : Step Instruction) : Step Instruction := do
    let t ← byte
    match opOfTag? t with
    | some op => inside op (operands lazy op)
    | none => fail (.unknownTag t)

structure Failure where
  index : Nat
  fault : Fault
  deriving DecidableEq, Repr

def Failure.message (f : Failure) : String := s!"instruction {f.index}: " ++ f.fault.message

def readFrom (index : Nat) : Nat → Bytes → Except Failure (List Instruction)
  | _, [] => .ok []
  | 0, _ => .ok []
  | fuel + 1, bs =>
    match readUpTo maxDepth bs with
    | .error f => .error ⟨index, f⟩
    | .ok (i, rest) => return i :: (← readFrom (index + 1) fuel rest)

def readAll (bs : Bytes) : Except Failure (List Instruction) := readFrom 0 bs.length bs

end Parlance.Wire
