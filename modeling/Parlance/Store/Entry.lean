import Parlance.Build
import Parlance.Instruction.Wire
import Parlance.Project
/-!
Built programs as bytes. An entry is made of parts, each byte of a part behind a one and the part's end
a zero, and starts with a byte that no text holds.
-/
namespace Parlance

/-- How programs are written into files, and what is found in a file for a key: nothing if it is not
the file of that key, and no result if it is corrupt. -/
structure Format where
  write : Digest → Built → Except Wire.Unfit Bytes
  find? : Digest → Bytes → Option (Option Built)

namespace Entry

variable (s : Bytes)

def part : Bytes := s.flatMap (fun b => [1, b]) ++ [0]

def parts (ss : List Bytes) : Bytes := ss.flatMap part

/-- The parts a text is made of, after `before` and the bytes `own` of one more, both backwards. -/
def read (before : List Bytes) (own : Bytes) : Bytes → Option (List Bytes)
  | 0 :: s => read (own.reverse :: before) [] s
  | 1 :: b :: s => read before (b :: own) s
  | [] => if own.isEmpty then some before.reverse else none
  | _ => none

def read? : Bytes → Option (List Bytes) := read [] []

def text (s : String) : Bytes := Bytes.ofString s

def text? : Option String := some (Utf8.toString s)

def nat (n : Nat) : Bytes := text n.repr

def nat? : Option Nat := (Utf8.toString s).toNat?

def int (n : Int) : Bytes := text n.repr

def int? : Option Int := (Utf8.toString s).toInt?

def all? {α : Type} (item : Bytes → Option α) (s : Bytes) : Option (List α) := do (← read? s).mapM item

def location (l : Location) : Bytes := parts [int l.offset, nat l.line, int l.character]

def location? : Option Location := do
  let [a, b, c] ← read? s | none
  return ⟨← int? a, ← nat? b, ← int? c⟩

def span (s : Span) : Bytes := parts [text s.uri, location s.start, location s.stop]

def span? : Option Span := do
  let [a, b, c] ← read? s | none
  return ⟨← text? a, ← location? b, ← location? c⟩

def note (n : Note) : Bytes := parts [span n.span, text n.message]

def note? : Option Note := do
  let [a, b] ← read? s | none
  return ⟨← span? a, ← text? b⟩

def edit (e : Edit) : Bytes := parts [span e.span, text e.text]

def edit? : Option Edit := do
  let [a, b] ← read? s | none
  return ⟨← span? a, ← text? b⟩

def fix (f : Fix) : Bytes := parts [text f.title, parts (f.edits.map edit)]

def fix? : Option Fix := do
  let [a, b] ← read? s | none
  return ⟨← text? a, ← all? edit? b⟩

def severity? : Option Severity := do Severity.ofName? (← text? s)

def diagnostic (d : Diagnostic) : Bytes :=
  parts [text d.severity.name, nat d.code.number, text d.message, span d.span,
    parts (d.notes.map note), parts (d.fixes.map fix)]

def diagnostic? : Option Diagnostic := do
  let [a, b, c, d, e, f] ← read? s | none
  return ⟨← severity? a, ⟨← nat? b⟩, ← text? c, ← span? d, ← all? note? e, ← all? fix? f⟩

def mark : UInt8 := 0xff

def write (key : Digest) (b : Built) : Except Wire.Unfit Bytes := do
  let program ← Wire.writeAll b.code
  return mark :: parts [nat Project.schema, key.bytes, program, parts (b.warnings.map diagnostic)]

def find? (key : Digest) (s : Bytes) : Option (Option Built) := do
  let first :: body := s | none
  if first != mark then none
  let [schema, own, program, warnings] ← read? body | none
  let warnings ← all? diagnostic? warnings
  if (← nat? schema) != Project.schema || own != key.bytes then return none
  return some ⟨← (Wire.readAll program).toOption, warnings⟩

def format : Format := ⟨write, find?⟩

end Entry

end Parlance
