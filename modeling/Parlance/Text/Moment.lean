import Parlance.Number.Rational
/-!
Durations and moments as text.
-/
namespace Parlance.Moment

def trimmed (places units : Nat) : String :=
  let cs := (Rational.withPoint places units).toList
  if places = 0 then String.ofList cs
  else
    String.ofList <|
      match cs.reverse.dropWhile (· = '0') with
      | '.' :: rest => rest.reverse
      | rest => rest.reverse

def duration (micros : Int) : String :=
  let n := micros.natAbs
  let sign := if micros < 0 then "-" else ""
  let text :=
    if n = 0 then "0s"
    else if n < 1000 then s!"{n}µs"
    else if n < 1000000 then trimmed 3 n ++ "ms"
    else
      let minutes := n / 60000000
      let seconds := trimmed 6 (n % 60000000) ++ "s"
      if minutes = 0 then seconds
      else if minutes < 60 then s!"{minutes}m" ++ seconds
      else s!"{minutes / 60}h{minutes % 60}m" ++ seconds
  sign ++ text

def milliseconds (places : Nat) (micros : Int) : String :=
  match Binary.toRat? .double (Binary.round .double (mkRat micros 1000)) with
  | some r => Rational.fixedEven places r
  | none => ""

def civil (days : Int) : Int × Nat × Nat :=
  let z := days + 719468
  let era := z / 146097
  let doe := (z % 146097).toNat
  let yoe := (doe - doe / 1460 + doe / 36524 - doe / 146096) / 365
  let doy := doe - (365 * yoe + yoe / 4 - yoe / 100)
  let mp := (5 * doy + 2) / 153
  let day := doy - (153 * mp + 2) / 5 + 1
  let month := if mp < 10 then mp + 3 else mp - 9
  (era * 400 + yoe + (if month ≤ 2 then 1 else 0), month, day)

def padded (width n : Nat) : String :=
  let s := toString n
  Text.copies '0' (width - s.length) ++ s

def timestamp (millis : Int) : String :=
  let (year, month, day) := civil (millis / 86400000)
  let ms := (millis % 86400000).toNat
  let seconds := ms / 1000
  let fraction := if ms % 1000 = 0 then "" else
    "." ++ String.ofList (((padded 3 (ms % 1000)).toList.reverse.dropWhile (· = '0')).reverse)
  s!"{padded 4 year.toNat}-{padded 2 month}-{padded 2 day}T{padded 2 (seconds / 3600)}:" ++
    s!"{padded 2 (seconds / 60 % 60)}:{padded 2 (seconds % 60)}{fraction}Z"

end Parlance.Moment
