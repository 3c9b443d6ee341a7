import Parlance.Text.Moment
/-!
How long the phases of a build took.
-/
namespace Parlance

structure Phase where
  name : String
  micros : Int
  note : String
  deriving DecidableEq, Repr, Inhabited

namespace Phase

def total (ps : List Phase) : Int := ps.foldl (· + ·.micros) 0

def find? (name : String) (ps : List Phase) : Option Phase := List.find? (·.name == name) ps

private def nearest (r : Rat) : Rat := (Binary.toRat? .double (Binary.round .double r)).getD 0

def share (sum micros : Int) : String :=
  if sum ≤ 0 then "0.0"
  else
    let part := nearest (100 * nearest (1000 * micros))
    let quotient := part / nearest (1000 * sum)
    let text := Rational.fixedEven 1 (nearest quotient)
    text

private def row (name : String) (micros : Int) : String :=
  s!"  {Text.padRight name 12} {Text.padLeft (Moment.milliseconds 2 micros) 8} ms"

def summary (ps : List Phase) : String :=
  if ps.isEmpty then ""
  else
    let sum := total ps
    let rows := ps.map fun p =>
      row p.name p.micros ++ " " ++ Text.padLeft (share sum p.micros) 5 ++ "%" ++
        if p.note.isEmpty then "" else "  // " ++ p.note
    String.join (("timings:" :: rows ++ [row "total" sum]).map (· ++ "\n"))

def outline (ps : List Phase) : String :=
  if ps.isEmpty then ""
  else
    let rows := ps.map fun p =>
      s!"  {p.name} _ ms _%" ++ if p.note.isEmpty then "" else "  // " ++ p.note
    String.join (("timings:" :: rows ++ ["  total _ ms"]).map (· ++ "\n"))

end Phase

end Parlance
