import Parlance.Instruction
import Parlance.Number.Reading
/-!
Assembly read back. A line alone with a label opens the section of that name; a section may be
referred to before it stands.
-/
namespace Parlance.Assembly

inductive OperandFault where
  | id (word : Bytes)
  | number (f : Reading.Failure)
  | quote
  deriving Repr

def OperandFault.message : OperandFault → String
  | id w => s!"id {Quoted.write w} must start with #"
  | number f => f.message
  | quote => "invalid syntax"

inductive Mistake where
  | unterminated (rest : Bytes)
  | duplicate (label : Bytes)
  | instruction (word : Bytes)
  | operands (op : Op) (given : Nat)
  | operand (op : Op) (fault : OperandFault)
  | native (word : Bytes)
  | undefined (word : Bytes)
  | circular
  | character (text : Bytes)
  | integer (word : Bytes)
  | rational (word : Bytes)
  deriving Repr

def Mistake.message : Mistake → String
  | unterminated s => s!"unterminated quote in {Quoted.write s}"
  | duplicate l => s!"duplicate label @{Utf8.toString l}"
  | instruction w => s!"unknown instruction {Quoted.write w}"
  | operands op n => s!"{op.name} takes {op.operands} operands, got {n}"
  | operand op f => s!"{op.name}: {f.message}"
  | native w => s!"unknown native {Quoted.write w}"
  | undefined w => s!"undefined label {Utf8.toString w}"
  | circular => "lazy body refers to itself"
  | character s => s!"expected one character, got {Quoted.write s}"
  | integer w => s!"invalid integer {Quoted.write w}"
  | rational w => s!"invalid rational {Quoted.write w}"

structure Error where
  line : Nat
  mistake : Mistake
  deriving Repr

def Error.message (e : Error) : String := s!"assembly:{e.line}: {e.mistake.message}"

/-! ### Lines and sections -/

def isGap (b : UInt8) : Bool := b == 32 || b == 9 || b == 13

def isComment (b : UInt8) : Bool := b == 59

def wordsFrom : Nat → Bytes → Except Mistake (List Bytes)
  | 0, _ => .ok []
  | fuel + 1, s =>
    match s.dropWhile isGap with
    | [] => .ok []
    | b :: bs =>
      if isComment b then .ok []
      else if b == 34 || b == 39 then
        match Quoted.read? (b :: bs) with
        | none => .error (.unterminated (b :: bs))
        | some (_, rest) =>
          return (b :: bs).take (bs.length + 1 - rest.length) :: (← wordsFrom fuel rest)
      else
        let isInner b := !isGap b && !isComment b
        return (b :: bs).takeWhile isInner :: (← wordsFrom fuel ((b :: bs).dropWhile isInner))

def words (line : Bytes) : Except Mistake (List Bytes) := wordsFrom (line.length + 1) line

structure Line where
  number : Nat
  head : Bytes
  operands : List Bytes

structure Section where
  label : Bytes
  lines : List Line

def label? : Bytes → Option Bytes
  | 64 :: rest => if rest.getLast? == some 58 then some rest.dropLast else none
  | _ => none

/-- The lines before the first label, and the sections behind, from line number `n` on. The label of
the section that a line is in is `known` already. -/
def sections (n : Nat) (known : List Bytes) : List Bytes → Except Error (List Line × List Section)
  | [] => .ok ([], [])
  | line :: lines =>
    match words line with
    | .error m => .error ⟨n, m⟩
    | .ok [] => sections (n + 1) known lines
    | .ok (w :: ws) =>
      match label? w, ws with
      | some l, [] =>
        if known.contains l then .error ⟨n, .duplicate l⟩
        else do
          let (own, others) ← sections (n + 1) (l :: known) lines
          return ([], ⟨l, own⟩ :: others)
      | _, _ => do
        let (own, others) ← sections (n + 1) known lines
        return (⟨n, w, ws⟩ :: own, others)

/-! ### Operands -/

def natural {α : Type} (base bits : Nat) (convert : Nat → α) (w : Bytes) : Except OperandFault α :=
  match Reading.natural base bits (Utf8.toString w) with
  | .ok n => .ok (convert n)
  | .error f => .error (.number f)

def id (w : Bytes) : Except OperandFault UInt64 :=
  match w with
  | 35 :: digits => natural 16 64 Nat.toUInt64 digits
  | _ => .error (.id w)

def hash (w : Bytes) : Except OperandFault UInt64 := natural 16 64 Nat.toUInt64 w
def index (w : Bytes) : Except OperandFault UInt16 := natural 10 16 Nat.toUInt16 w
def position (w : Bytes) : Except OperandFault UInt32 := natural 10 32 Nat.toUInt32 w

def text (w : Bytes) : Except OperandFault Bytes :=
  match Quoted.value? w with
  | some s => .ok s
  | none => .error .quote

def binary (width : Binary.Width) (w : Bytes) : Except OperandFault Nat :=
  match Reading.binary width (Utf8.toString w) with
  | .ok bits => .ok bits
  | .error f => .error (.number f)

def instruction (body : Bytes → Except Error (List Instruction)) (line : Nat) (op : Op)
    (ws : List Bytes) : Except Error Instruction :=
  let fail {α : Type} (m : Mistake) : Except Error α := .error ⟨line, m⟩
  let read {α : Type} (r : Except OperandFault α) : Except Error α :=
    match r with
    | .ok a => .ok a
    | .error f => fail (.operand op f)
  match op, ws with
  | .noop, [] => return .noop
  | .halt, [] => return .halt
  | .panic, [] => return .panic
  | .endMethod, [] => return .endMethod
  | .declareClass, [i, n] => return .declareClass (← read (id i)) (← read (text n))
  | .declareVariable, [i, n] => return .declareVariable (← read (id i)) (← read (text n))
  | .beginMethod, [h, n] => return .beginMethod (← read (hash h)) (← read (text n))
  | .inheritMethod, [i, j, h] =>
    return .inheritMethod (← read (id i)) (← read (id j)) (← read (hash h))
  | .loadObject, [i] => return .loadObject (← read (id i))
  | .storeGlobal, [i] => return .storeGlobal (← read (id i))
  | .loadGlobal, [i] => return .loadGlobal (← read (id i))
  | .markClass m, [i] => return .markClass m (← read (id i))
  | .loadLocal, [n] => return .loadLocal (← read (index n))
  | .dropLocal, [n] => return .dropLocal (← read (index n))
  | .return_, [n] => return .return_ (← read (index n))
  | .returnLazy, [n] => return .returnLazy (← read (index n))
  | .callMethod, [h, u, l, c] =>
    return .callMethod (← read (hash h)) (← read (text u)) (← read (position l))
      (← read (position c))
  | .callNative, [w] =>
    match Native.ofName? (Utf8.toString w) with
    | some n => return .callNative n
    | none => fail (.native w)
  | .loadLazy, [n, w] => return .loadLazy (← read (index n)) (← body w)
  | .constString, [w] => return .constString (← read (text w))
  | .constSymbol, [w] => return .constSymbol (← read (text w))
  | .constCharacter, [w] => do
    let s ← read (text w)
    match Utf8.chars s with
    | [c] => return .constCharacter c.val
    | _ => fail (.character s)
  | .constInt k, [w] =>
    match Reading.integer? (Utf8.toString w) with
    | some v => return .constInt k v
    | none => fail (.integer w)
  | .constF32, [w] => return .constF32 (← read (binary .single w)).toUInt32
  | .constF64, [w] => return .constF64 (← read (binary .double w)).toUInt64
  | .constFBig, [w] =>
    match Reading.rational? (Utf8.toString w) with
    | some r => return .constFBig r
    | none => fail (.rational w)
  | _, _ => fail (.operands op ws.length)

/-- The instructions of some lines. The sections `within` are those that led here; one more for each
step inwards, so there are no more steps than sections. -/
def assemble (known : List Section) : Nat → List Section → List Line → Except Error (List Instruction)
  | 0, _, _ => .ok []
  | fuel + 1, within, lines =>
    lines.mapM fun l =>
      let body (w : Bytes) : Except Error (List Instruction) :=
        let named : Option Section := match w with
          | 64 :: label => known.find? (·.label == label)
          | _ => none
        match named with
        | none => .error ⟨l.number, .undefined w⟩
        | some s =>
          if within.any (·.label == s.label) then
            .error ⟨(s.lines.head?.map Line.number).getD 0, .circular⟩
          else assemble known fuel (s :: within) s.lines
      match Op.ofName? (Utf8.toString l.head) with
      | none => .error ⟨l.number, .instruction l.head⟩
      | some op => instruction body l.number op l.operands

def parse (s : Bytes) : Except Error (List Instruction) := do
  let (main, others) ← sections 1 [] (pieces 10 s)
  assemble others (others.length + 1) [] main

end Parlance.Assembly
