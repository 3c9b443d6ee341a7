import Parlance.Text.Normal.Table
/-!
The composed normal form of text: characters are taken apart, marks are put in the order of their classes, and
what composes is put together again, within runs of no more than thirty marks.
-/
namespace Parlance.Text

namespace Normal

def markClass (n : Nat) : Nat :=
  if n < 0x300 then 0
  else match markClasses.find? fun (lo, hi, _) => lo ≤ n && n ≤ hi with
    | some (_, _, k) => k
    | none => 0

def hangulBase : Nat := 0xac00
def leadBase : Nat := 0x1100
def vowelBase : Nat := 0x1161
def tailBase : Nat := 0x11a7

def hangulParts (n : Nat) : List Nat :=
  let s := n - hangulBase
  let tail := s % 28
  [leadBase + s / 588, vowelBase + s % 588 / 28] ++ if tail = 0 then [] else [tailBase + tail]

private def isHangul (n : Nat) : Bool := hangulBase ≤ n && n < hangulBase + 11172

private def isVowel (n : Nat) : Bool := vowelBase ≤ n && n < vowelBase + 21

private def isTail (n : Nat) : Bool := tailBase < n && n < tailBase + 28

private def isSyllablePart (n : Nat) : Bool := leadBase ≤ n && n < leadBase + 0x100

/-- The code points a character is made of; a part may have parts again, four times at most. -/
def decompose : Nat → Nat → List Nat
  | 0, n => [n]
  | fuel + 1, n =>
    if n < 0xc0 then [n]
    else if isHangul n then hangulParts n
    else match (pairs ++ oneWayPairs).find? (·.1 = n) with
      | some (_, a, b) => decompose fuel a ++ decompose fuel b
      | none =>
        match (singletons ++ ideographs).lookup n with
        | some a => decompose fuel a
        | none => [n]

def composesBackward (n : Nat) : Bool := isVowel n || isTail n || pairs.any (·.2.2 = n)

def attaches (n : Nat) : Bool := 0x300 ≤ n && (markClass n != 0 || composesBackward n)

def leading (n : Nat) : Nat :=
  if n < 0x300 then 0
  else if attachedForms.any fun (lo, hi) => lo ≤ n && n ≤ hi then 1
  else ((decompose 5 n).takeWhile attaches).length

def trailing (n : Nat) : Nat :=
  match markedEnds.find? fun (lo, hi, _) => lo ≤ n && n ≤ hi with
  | some (_, _, k) => k
  | none =>
    let k := leading n
    if k = 0 then ((decompose 5 n).reverse.takeWhile attaches).length else k

def maxMarks : Nat := 30

/-- Closes a run that is full: it has no shape of its own, and no mark moves past it. -/
def joiner : Nat := 0x34f

/-- The runs of a text. `run` is the one being read, backwards, and `marks` counts what belongs to its
first character. -/
private def runsFrom (run : List Nat) (marks : Nat) : List Nat → List (List Nat)
  | [] => [run.reverse]
  | n :: ns =>
    let k := leading n
    if k = 0 then run.reverse :: runsFrom [n] (trailing n) ns
    else if maxMarks < marks + k then (joiner :: run).reverse :: runsFrom [n] k ns
    else runsFrom (n :: run) (marks + k) ns

def runs : List Nat → List (List Nat)
  | [] => []
  | n :: ns => runsFrom [n] (trailing n) ns

/-- Puts a mark before the marks of a higher class at the end of what is already ordered. The list
is kept backwards. -/
private def insertMark (n k : Nat) : List Nat → List Nat
  | [] => [n]
  | m :: rest => if k < markClass m then m :: insertMark n k rest else n :: m :: rest

def order (ns : List Nat) : List Nat :=
  (ns.foldl (fun out n => let k := markClass n; if k = 0 then n :: out else insertMark n k out) []).reverse

def composeSyllable (a b : Nat) : Option Nat :=
  if leadBase ≤ a && a < leadBase + 19 && isVowel b then
    some (hangulBase + ((a - leadBase) * 21 + (b - vowelBase)) * 28)
  else if isHangul a && (a - hangulBase) % 28 = 0 && isTail b then some (a + (b - tailBase))
  else none

/-- The character that two compose to. A pair is found by its place within a plane, whichever planes
the two are of. -/
def composePair (a b : Nat) : Option Nat :=
  (pairs.find? fun (_, x, y) => x % 0x10000 = a % 0x10000 && y % 0x10000 = b % 0x10000).map (·.1)

/-- A run on the way to being composed: the character that takes what composes, and what stands before
and after it, both backwards. -/
structure Composing where
  before : List Nat
  base : Nat
  after : List Nat

namespace Composing

def toList (c : Composing) : List Nat := c.before.reverse ++ c.base :: c.after.reverse

/-- A character of class zero that comes last is the new base. -/
def rebase (c : Composing) : Composing :=
  match c.after with
  | [] => c
  | last :: rest => if markClass last = 0 then ⟨rest ++ c.base :: c.before, last, []⟩ else c

def push (c : Composing) (n : Nat) : Composing := { c with after := n :: c.after }

def blocks (c : Composing) (n : Nat) : Bool :=
  match c.after with
  | [] => false
  | last :: _ => markClass n ≤ markClass last

def join (pair : Nat → Nat → Option Nat) (c : Composing) (n : Nat) : Composing :=
  let c := c.rebase
  match if c.blocks n then none else pair c.base n with
  | some m => { c with base := m }
  | none => c.push n

/-- Takes the rest of a run. From the first part of a syllable on, only syllables compose. -/
def extend (c : Composing) : List Nat → Composing
  | [] => c
  | n :: ns =>
    if isSyllablePart n then (n :: ns).foldl (join composeSyllable) c
    else if composesBackward n then (c.join composePair n).extend ns
    else (c.push n).extend ns

end Composing

def compose : List Nat → List Nat
  | [] => []
  | n :: ns => ((⟨[], n, []⟩ : Composing).extend ns).toList

end Normal

def normalize (s : String) : String :=
  if s.toList.all (·.toNat < 0x300) then s
  else
    let composed := (Normal.runs (s.toList.map Char.toNat)).flatMap fun run =>
      Normal.compose (Normal.order (run.flatMap (Normal.decompose 5)))
    String.ofList (composed.map Char.ofNat)

end Parlance.Text
