import Parlance.Number.Rational
import Parlance.Number.Reading
import Parlance.Number.Shortest
import Parlance.Typing
/-!
Checks on number literals: within the bounds of their class, and not more precise than it can hold.
-/
namespace Parlance.Check

structure Literal where
  node : Node
  word : Token
  value : Rat
  isFloat : Bool
  type : Ty
  numeric : Option NumberClass

/-- The number literals that some type is asked of; the others get a class that fits. -/
def literals (p : Program) : Typing (List Literal) :=
  (p.matching Shape.isNumber).filterMapM fun n => do
    let t ← p.expressionType n
    let numeric :=
      match t with
      | .object _ id _ => ((p.node? id).bind p.qualifiedName?).bind NumberClass.ofName?
      | _ => none
    match t, n.shape with
    | .integerLiteral, _ | .floatLiteral, _ | .unknown, _ => return none
    | _, .integer word value => return some ⟨n, word, value, false, t, numeric⟩
    | _, .float word value => return some ⟨n, word, value, true, t, numeric⟩
    | _, _ => return none

def width? (c : NumberClass) : Option Binary.Width :=
  if !c.isFloat then none
  else if c.bits == some 32 then some .single
  else if c.bits == some 64 then some .double
  else none

def greatestText (w : Binary.Width) : String := Binary.render w (Binary.infinityBits w - 1)

def overflow? (w : Binary.Width) (v : Rat) : Option String :=
  let bits := Binary.round w v
  if bits == Binary.infinityBits w then some ("be greater than " ++ greatestText w)
  else if bits == Binary.negate w (Binary.infinityBits w) then
    some ("be less than -" ++ greatestText w)
  else none

def excess? (c : NumberClass) (v : Int) : Option String :=
  match c.least?.filter (v < ·), c.greatest?.filter (· < v) with
  | some l, _ => some s!"be less than {l}"
  | none, some g => some s!"be greater than {g}"
  | none, none => none

def boundsProblem? (l : Literal) : Option Problem :=
  match l.numeric.filter fun c => !l.isFloat || c.acceptsFloats with
  | none => some (.invalidLiteral l.type.render)
  | some c =>
    let reason := if c.isFloat then (width? c).bind (overflow? · l.value) else excess? c l.value.num
    reason.map (.outOfBounds l.type.render)

def bounds (p : Program) : Typing (List Diagnostic) := do
  return (← literals p).filterMap fun l => (boundsProblem? l).map (·.report l.node.span)

/-- The remark on a literal that a width cannot hold as written. Where the nearest value can be
written without an exponent it is offered instead. -/
def imprecision? (l : Literal) : Option Diagnostic := do
  let w ← l.numeric.bind width?
  let bits := Binary.round w l.value
  guard ((Binary.toRat? w bits).isSome)
  let shortest := Binary.render w bits
  guard (Reading.rational? shortest != some l.value)
  let d := (Problem.tooPrecise l.word.name l.type.render).report l.node.span
  if shortest.toList.contains 'e' then return d
  return d.withFix ("Use `" ++ shortest ++ "`") [⟨l.node.span, shortest⟩]

def precision (p : Program) : Typing (List Diagnostic) := do
  return (← literals p).filterMap imprecision?

end Parlance.Check
