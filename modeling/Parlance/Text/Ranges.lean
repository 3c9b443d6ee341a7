import Parlance.Text.Hex
import Parlance.Text.Pieces
/-!
Sets of characters given by ranges of code points, and tables of code points.
-/
namespace Parlance

def codePoint (digits : List Char) : Nat := digits.foldl (fun n c => 16 * n + (Hex.value? c).getD 0) 0

def twos {α : Type} : List α → List (α × α)
  | a :: b :: xs => (a, b) :: twos xs
  | _ => []

def readTable (lines : List String) : List (List Nat) :=
  (lines.flatMap (pieces ' ' ·.toList)).map fun row => (pieces '-' row).map codePoint

/-- What code points stand for that follow one another; the first of them stands in front of a row. -/
def runsOfText (lines : List String) : List (Nat × Nat) :=
  (readTable lines).flatMap fun row => row.tail.zipIdx.map fun (b, i) => (row.headD 0 + i, b)

def pairRunsOfText (lines : List String) : List (Nat × Nat × Nat) :=
  (readTable lines).flatMap fun row => (twos row.tail).zipIdx.map fun (b, i) => (row.headD 0 + i, b)

/-- Code points, each with characters behind it. -/
def characterRows (lines : List String) : List (Nat × List Nat) :=
  (twos (lines.flatMap (pieces ' ' ·.toList))).map fun (digits, text) => (codePoint digits, text.map Char.toNat)

def characterRunsOfText (lines : List String) : List (Nat × Nat) :=
  (characterRows lines).flatMap fun (first, cs) => cs.zipIdx.map fun (c, i) => (first + i, c)

/-- Characters that a mark goes to, each with the one they make. -/
def markedOfText (lines : List String) : List (Nat × Nat × Nat) :=
  (characterRows lines).flatMap fun (mark, cs) => (twos cs).map fun (base, whole) => (whole, base, mark)

/-- Ranges that go up. A row says how far its range starts behind the last one, and how many code points
follow there. -/
def ascending (last : Nat) : List (Nat × Nat) → List (Nat × Nat)
  | [] => []
  | (gap, more) :: rows => (last + gap, last + gap + more) :: ascending (last + gap + more) rows

def labelledOfText (lines : List String) : List (Nat × Nat × Nat) :=
  let rows := readTable lines
  let ranges := rows.map fun
    | [gap, more, _] => (gap, more)
    | row => (row.headD 0, 0)
  ((ascending 0 ranges).zip rows).map fun ((lo, hi), row) => (lo, hi, row.getLastD 0)

abbrev Ranges := List (Nat × Nat)

namespace Ranges

def ofText (lines : List String) : Ranges :=
  ascending 0 ((readTable lines).map fun row => (row.headD 0, row.tail.headD 0))

def contains (r : Ranges) (c : Char) : Bool := r.any fun (lo, hi) => lo ≤ c.toNat && c.toNat ≤ hi

end Ranges

end Parlance
