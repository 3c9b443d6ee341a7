import Parlance.Typing
/-!
Whether a value of one type may stand where another is asked for, and if not, why not.
-/
namespace Parlance

inductive Refusal where
  | node (assignee assigned : Ty) (invariant : Bool) (because : List Refusal)
  deriving Repr, Inhabited

namespace Refusal

def sentence (assignee assigned : Ty) (invariant : Bool) : String :=
  "`" ++ assigned.render ++ "` " ++ (if invariant then "isn't the same as" else "cannot act as") ++
    " `" ++ assignee.render ++ "`"

mutual

def lines (depth : Nat) : Refusal → List String
  | node assignee assigned invariant because =>
    let lead := if depth = 0 then "" else Text.copies ' ' (2 * depth) ++ "because "
    (lead ++ sentence assignee assigned invariant) :: linesAll (depth + 1) because

def linesAll (depth : Nat) : List Refusal → List String
  | [] => []
  | r :: rs => lines depth r ++ linesAll depth rs

end

def render (r : Refusal) : String := "\n".intercalate (r.lines 0) ++ "."

end Refusal

namespace Program

/-- Literals without a class are of the library's class for them. -/
def literalClass (p : Program) : Ty → Typing Ty
  | .integerLiteral => p.standardType "Integer"
  | .floatLiteral => p.standardType "Float"
  | .symbol _ => p.standardType "Symbol"
  | t => return t

/-- A question that leads to others without end gets no answer. -/
abbrev Attempt := OptionT Typing

abbrev Inquiry := Ty → Ty → Bool → Attempt (Option Refusal)

section

variable (p : Program) (ask : Inquiry)

/-- The first result that is no refusal wins; otherwise all refusals are kept. -/
def firstAccepted (check : Ty → Attempt (Option Refusal)) : List Ty → Attempt (Option (List Refusal))
  | [] => return some []
  | t :: ts => do
    match ← check t with
    | none => return none
    | some r => return (← firstAccepted check ts).map (r :: ·)

/-- Arguments are compared as the type parameter they stand for says. -/
def argumentRefusal (v : Variance) (a b : Ty) : Attempt (Option Refusal) :=
  match v with
  | .output => ask a b false
  | .input => ask b a false
  | _ => ask a b true

/-- A class acts as another if it is the same with fitting arguments, or if one of the types it says
it is acts so. -/
def objectRefusal (assignee assigned : Ty) (i j : Nat) (as bs : List Ty) (invariant : Bool) :
    Attempt (Option Refusal) := do
  match p.node? i, p.node? j with
  | some c, some _ =>
    if i != j then
      if invariant then return some (.node assignee assigned invariant [])
      let supers ← p.superTypes j bs
      return (← firstAccepted (ask assignee · false) supers).map (.node assignee assigned invariant)
    let issues ← ((p.typeParameters c).zipIdx).filterMapM fun (t, k) =>
      argumentRefusal ask t.shape.variance (Ty.argument as k) (Ty.argument bs k)
    return if issues.isEmpty then none else some (.node assignee assigned invariant issues)
  | _, _ => return none

/-- A method may take the place of another with the same selector if it accepts at least the same
arguments and gives back what acts as the other's result. -/
def behaviourRefusal (assignee assigned : Behaviour) (invariant : Bool) : Attempt (Option Refusal) := do
  if assignee.selector != assigned.selector then
    return some (.node assignee.type assigned.type invariant [])
  let issues ← assignee.arguments.zipIdx.filterMapM fun (a, k) => ask (Ty.argument assigned.arguments k) a false
  let issues := issues ++ (← ask assignee.result assigned.result false).toList
  return if issues.isEmpty then none else some (.node assignee.type assigned.type invariant issues)

def classedRefusal (assignee assigned : Ty) (invariant : Bool) : Attempt (Option Refusal) :=
  match assignee, assigned with
  | _, .unknown => return none
  | .object n i as, .object m j bs => objectRefusal p ask (.object n i as) (.object m j bs) i j as bs invariant
  | .classObject n i as, .classObject m j bs =>
    return if i == j then none else some (.node (.classObject n i as) (.classObject m j bs) invariant [])
  | .behaviour method receiver form parts args result, .behaviour method' receiver' form' parts' args' result' =>
    behaviourRefusal ask ⟨method, receiver, form, parts, args, result⟩
      ⟨method', receiver', form', parts', args', result'⟩ invariant
  | .object .., _ | .classObject .., _ | .behaviour .., _ => return some (.node assignee assigned invariant [])
  | _, _ => return none

/-- Whatever is unknown fits, and so does a type parameter; only `Self` is `Self`. -/
def refusalStep (assignee assigned : Ty) (invariant : Bool) : Attempt (Option Refusal) := do
  if assignee.isUnknown || assigned.isUnknown then return none
  match assignee, assigned with
  | .self _, .self _ => return none
  | _, .self of => return (← ask assignee of invariant).map fun r => .node assignee assigned invariant [r]
  | .self _, _ => return some (.node assignee assigned invariant [])
  | .parameter .., _ | _, .parameter .. => return none
  | _, _ =>
    let assignee ← p.literalClass assignee
    let assigned ← p.literalClass assigned
    classedRefusal p ask assignee assigned invariant

end

def refusalIn (p : Program) : Nat → Inquiry
  | 0, _, _, _ => failure
  | fuel + 1, assignee, assigned, invariant => refusalStep p (refusalIn p fuel) assignee assigned invariant

/-- More than the questions that can be open at once: the room for them is used up before. -/
def endurance : Nat := Nat.pow 2 62

/-- Why `assigned` does not do for `assignee`; nothing if it does. -/
def refusal (p : Program) (assignee assigned : Ty) (invariant : Bool) : Typing (Option Refusal) := do
  return (← (refusalIn p endurance assignee assigned invariant).run).join

end Program

end Parlance
