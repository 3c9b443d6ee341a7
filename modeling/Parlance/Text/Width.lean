import Parlance.Text.Width.Table
/-!
The width of text on a terminal. Characters that a reader sees as one form a cluster, and a cluster
is as wide as its first visible character.
-/
namespace Parlance.Text

def charWidth (c : Char) : Nat :=
  let n := c.toNat
  if n < 0x20 || (0x7f ≤ n && n ≤ 0x9f) || n = 0xad then 0
  else if n < 0x300 then 1
  else if (0x27e6 ≤ n && n ≤ 0x27ed) || n = 0x2985 || n = 0x2986 then 1
  else if invisibleRanges.contains c || combiningRanges.contains c then 0
  else if wideRanges.contains c then 2
  else 1

inductive Joining where
  | carriageReturn
  | lineFeed
  | control
  | extend
  | joiner
  | spacing
  | prepend
  | regional
  | lead
  | vowel
  | tail
  | leadVowel
  | leadVowelTail
  | pictograph
  | other
  deriving DecidableEq, Repr

def joining (c : Char) : Joining :=
  let n := c.toNat
  let within (lo hi : Nat) : Bool := lo ≤ n && n ≤ hi
  if n = 13 then .carriageReturn
  else if n = 10 then .lineFeed
  else if 0x20 ≤ n && n < 0x7f then .other
  else if n = 0x200d then .joiner
  else if controlRanges.contains c then .control
  else if extendRanges.contains c then .extend
  else if spacingRanges.contains c then .spacing
  else if prependRanges.contains c then .prepend
  else if within 0x1f1e6 0x1f1ff then .regional
  else if within 0x1100 0x115f || within 0xa960 0xa97c then .lead
  else if within 0x1160 0x11a7 || within 0xd7b0 0xd7c6 then .vowel
  else if within 0x11a8 0x11ff || within 0xd7cb 0xd7fb then .tail
  else if within 0xac00 0xd7a3 then if (n - 0xac00) % 28 = 0 then .leadVowel else .leadVowelTail
  else if pictographRanges.contains c then .pictograph
  else .other

structure Border where
  last : Joining
  /-- A pictograph and marks after it stand at the end. -/
  pictured : Bool := false
  /-- A joiner after a pictograph stands at the end. -/
  tied : Bool := false
  /-- An odd number of regional indicators stands at the end. -/
  oddRegional : Bool := false

def Border.first (j : Joining) : Border :=
  { last := j, pictured := j = .pictograph, oddRegional := j = .regional }

def Border.continues (b : Border) (next : Joining) : Bool :=
  match b.last, next with
  | .carriageReturn, .lineFeed => true
  | .carriageReturn, _ | .lineFeed, _ | .control, _ => false
  | _, .carriageReturn | _, .lineFeed | _, .control => false
  | .lead, .lead | .lead, .vowel | .lead, .leadVowel | .lead, .leadVowelTail => true
  | .leadVowel, .vowel | .leadVowel, .tail | .vowel, .vowel | .vowel, .tail => true
  | .leadVowelTail, .tail | .tail, .tail => true
  | _, .extend | _, .joiner | _, .spacing => true
  | .prepend, _ => true
  | .joiner, .pictograph => b.tied
  | .regional, .regional => b.oddRegional
  | _, _ => false

def Border.push (b : Border) (next : Joining) : Border :=
  { last := next
    pictured := next = .pictograph || (b.pictured && next = .extend)
    tied := next = .joiner && b.pictured
    oddRegional := next = .regional && !b.oddRegional }

private def clustersFrom (b : Border) (cluster : List Char) : List Char → List (List Char)
  | [] => [cluster.reverse]
  | c :: cs =>
    let j := joining c
    if b.continues j then clustersFrom (b.push j) (c :: cluster) cs
    else cluster.reverse :: clustersFrom (.first j) [c] cs

def clusters : List Char → List (List Char)
  | [] => []
  | c :: cs => clustersFrom (.first (joining c)) [c] cs

def clusterWidth (cluster : List Char) : Nat :=
  ((cluster.map charWidth).find? (0 < ·)).getD 0

def width (s : String) : Nat := (clusters s.toList).foldl (· + clusterWidth ·) 0

private def clustersWithin : Nat → List (List Char) → List Char
  | _, [] => []
  | room, k :: ks => if clusterWidth k ≤ room then k ++ clustersWithin (room - clusterWidth k) ks else []

def truncate (s : String) (room : Nat) (mark : String) : String :=
  if width s ≤ room then s
  else String.ofList (clustersWithin (room - width mark) (clusters s.toList)) ++ mark

def fill (s : String) (room : Nat) : String := s ++ copies ' ' (room - width s)

end Parlance.Text
