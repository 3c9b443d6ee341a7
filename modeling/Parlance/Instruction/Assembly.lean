import Parlance.Instruction
import Parlance.Number.Rational
import Parlance.Number.Shortest
import Parlance.Text.Quoted
/-!
Instructions as text. In assembly the bodies of lazy values stand in sections of their own behind the
program, and are referred to by labels.
-/
namespace Parlance.Instruction

def idText (id : UInt64) : String := "#" ++ String.ofList (Hex.shortest Hex.upperDigit id.toNat)

def hashText (hash : UInt64) : String := Hex.upper 16 hash.toNat

def operandTexts : Instruction → List String
  | declareClass id name | declareVariable id name => [idText id, Quoted.write name]
  | beginMethod hash name => [hashText hash, Quoted.write name]
  | inheritMethod source target hash => [idText source, idText target, hashText hash]
  | loadObject id | storeGlobal id | loadGlobal id | markClass _ id => [idText id]
  | loadLocal n | dropLocal n | return_ n | returnLazy n => [toString n.toNat]
  | callMethod hash uri line character =>
    [hashText hash, Quoted.write uri, toString line.toNat, toString character.toNat]
  | callNative n => [n.name]
  | constString s | constSymbol s => [Quoted.write s]
  | constCharacter c => [Quoted.writeChar c.toNat]
  | constInt _ v => [toString v]
  | constF32 bits => [Binary.render .single bits.toNat]
  | constF64 bits => [Binary.render .double bits.toNat]
  | constFBig r => [Rational.render r]
  | noop | halt | panic | endMethod | loadLazy .. => []

def words (name : String) (operands : List String) : String := " ".intercalate (name :: operands)

mutual

def line : Instruction → String
  | loadLazy arity body =>
    s!"LoadLazy {arity.toNat} \x7b" ++ ";".intercalate (bodyWords body) ++ " \x7d"
  | constSymbol s => "LoadConstSymbol #" ++ Utf8.toString s
  | i => words i.op.name i.operandTexts

def bodyWords : List Instruction → List String
  | [] => []
  | i :: is => (" " ++ line i) :: bodyWords is

end

def lines (is : List Instruction) : String := String.join (is.map fun i => i.line ++ "\n")

/-- The lines of a section whose first label is number `next`, and the bodies it refers to. What
stands between the ends of a method is indented. -/
def sectionLines (next : Nat) (indent : String) : List Instruction → List String × List (List Instruction)
  | [] => ([], [])
  | i :: is =>
    let indent := if i.op == .endMethod then "" else indent
    let (text, bodies) :=
      match i with
      | loadLazy arity body => (words i.op.name [toString arity.toNat, s!"@lazy{next}"], [body])
      | _ => (words i.op.name i.operandTexts, [])
    let (texts, more) :=
      sectionLines (next + bodies.length) (if i.op == .beginMethod then "  " else indent) is
    ((indent ++ text) :: texts, bodies ++ more)

mutual

def lazies : Instruction → Nat
  | loadLazy _ body => laziesOf body + 1
  | _ => 0

def laziesOf : List Instruction → Nat
  | [] => 0
  | i :: is => lazies i + laziesOf is

end

/-- The sections for bodies that wait for one, the first of which has label `n`; further ones follow
behind those that wait already. -/
def pendingSections : Nat → Nat → List (List Instruction) → List String
  | 0, _, _ => []
  | _, _, [] => []
  | fuel + 1, n, body :: waiting =>
    let (texts, bodies) := sectionLines (n + 1 + waiting.length) "" body
    ("" :: s!"@lazy{n}:" :: texts) ++ pendingSections fuel (n + 1) (waiting ++ bodies)

def format (is : List Instruction) : String :=
  let (texts, bodies) := sectionLines 1 "" is
  String.join ((texts ++ pendingSections (laziesOf is) 1 bodies).map (· ++ "\n"))

end Parlance.Instruction
