import Parlance.Diagnostic.Problem
import Parlance.Grammar.Arena
import Parlance.Text.Normal
/-!
Reading words one after another. A reader never fails: where something is missing it leaves a remark
and goes on, so that every text has a tree.
-/
namespace Parlance

namespace Source

def words (s : Source) : List Token :=
  s.tokens.filter fun t => !t.kind.isTrivia && t.kind != .eof

end Source

namespace Grammar

structure State where
  rest : List Token
  mark : Token
  last : Option Location
  room : Option Nat
  remarks : List Diagnostic
  /-- Whether a loop or a nesting came to its bound before its end. -/
  cut : Bool
  arena : Arena
  /-- Brings a text into its normal form. -/
  normal : String → String

/-- The first number is that of the root. -/
def State.start (s : Source) (room : Option Nat) : State :=
  { rest := s.words
    mark := ⟨.eof, [], ⟨s.uri, s.endLocation, s.endLocation⟩⟩
    last := none
    room
    remarks := []
    cut := false
    arena := #[none]
    normal := Text.normalize }

abbrev Reader := StateM State

def ahead (n : Nat) : Reader Token := fun s => ((s.rest[n]?).getD s.mark, s)

def kindAhead (n : Nat) : Reader Token.Kind := return (← ahead n).kind

def peek : Reader Token := ahead 0

def advance : Reader Token := fun s =>
  match s.rest with
  | [] => (s.mark, s)
  | t :: rest => (t, { s with rest, last := some t.span.stop })

def isAt (k : Token.Kind) : Reader Bool := return (← kindAhead 0) == k

def isAtAny (ks : List Token.Kind) : Reader Bool := return ks.contains (← kindAhead 0)

/-- Words that are reserved only in some places are symbols to the scanner. -/
def isAtSymbol (text : String) : Reader Bool := do
  let t ← peek
  return t.kind == .symbol && t.text == Bytes.ofString text

def isAtKeyword : Reader Bool := do
  return (← kindAhead 0) == .symbol && (← kindAhead 1) == .colon

def isAtBinary : Reader Bool := return (← kindAhead 0).isBinaryOperator

def position : Reader Location := return (← peek).span.start

def left : Reader Nat := fun s => (s.rest.length, s)

/-- Where a remark on the next word points: after the last word read when there is none. -/
def here : Reader Span := fun s =>
  match s.rest, s.last with
  | [], some l => (⟨s.mark.span.uri, l, l⟩, s)
  | [], none => (s.mark.span, s)
  | t :: _, _ => (t.span, s)

def remark (span : Span) (m : Malformed) : Reader Unit := fun s =>
  match s.room with
  | some 0 => ((), s)
  | room => ((), { s with
      room := room.map (· - 1)
      remarks := (Problem.malformed m).report span :: s.remarks })

def miss (what : Expected) : Reader Unit := do remark (← here) (.missing what)

def eat (k : Token.Kind) : Reader Bool := do
  if ← isAt k then
    discard advance
    return true
  return false

def expect (k : Token.Kind) (what : Expected) : Reader Bool := do
  if ← eat k then return true
  miss what
  return false

def expectPeriod : Reader Unit := discard (expect .period .period)

def required (what : Expected) (r : Reader (Option Twig)) : Reader (Option Twig) := do
  let t ← r
  if t.isNone then miss what
  return t

/-- A node that has its number but not its children yet. -/
structure Bud where
  id : Nat
  parent : Option Nat
  start : Location

def openAt (up : Nat) (start : Location) : Reader Bud := fun s =>
  (⟨s.arena.size, some up, start⟩, { s with arena := s.arena.push none })

/-- A node below `up` from the next word on. -/
def openNode (up : Nat) : Reader Bud := do openAt up (← position)

def add (b : Bud) (shape : Shape) (span : Span) (children : List Twig) : Reader Twig := fun s =>
  (.node b.id shape span children,
    { s with arena := s.arena.add b.id ⟨b.parent, shape, span, children.map (·.id)⟩ })

/-- The node reaches to the end of the last word read, and is empty if that lies before it. -/
def close (b : Bud) (shape : Shape) (children : List Twig) : Reader Twig := do
  let s ← get
  let last := s.last.getD .origin
  let stop := if last.offset < b.start.offset then b.start else last
  add b shape ⟨s.mark.span.uri, b.start, stop⟩ children

def reparent (up : Nat) (ts : List Twig) : Reader Unit :=
  modify fun s => { s with arena := s.arena.reparentAll up ts }

def remove (t : Twig) : Reader Unit := modify fun s => { s with arena := s.arena.remove t.id }

def drop (t : Twig) : Reader Unit := modify fun s => { s with arena := s.arena.discard t }

def cutOff {α : Type} (a : α) : Reader α := fun s => (a, { s with cut := true })

def iterate {α : Type} (step : α → Reader (ForInStep α)) : Nat → α → Reader α
  | 0, a => cutOff a
  | fuel + 1, a => do
    match ← step a with
    | .done a => return a
    | .yield a => iterate step fuel a

/-- Runs `step` until it is done. Every step that wants another one takes a word, so there are not
more steps than words left and one. -/
def loop {α : Type} (a : α) (step : α → Reader (ForInStep α)) : Reader α := do
  iterate step ((← left) + 1) a

def many (more : Reader Bool) (r : Reader Twig) : Reader (List Twig) :=
  loop [] fun ts => do
    if ← more then return .yield (ts ++ [← r])
    return .done ts

/-- A node of one word. -/
def leaf (shape : Token → Shape) (up : Nat) : Reader Twig := do
  let b ← openNode up
  let word ← advance
  close b (shape word) []

def symbol (up : Nat) : Reader (Option Twig) := do
  if !(← isAt .symbol) then return none
  return some (← leaf .symbol up)

def expectSymbol (what : Expected) (up : Nat) : Reader (Option Twig) := required what (symbol up)

end Grammar

end Parlance
