import Parlance.Assignability
import Parlance.Usage
/-!
Checks on types: messages are answered, values fit where they go, classes act as what they say they
are, and type parameters are used as declared.
-/
namespace Parlance.Check

def isOpaqueReceiver : Ty → Bool
  | .unknown | .self .unknown => true
  | _ => false

variable (p : Program)

def undefinedBehaviours : Typing (List Diagnostic) :=
  p.messages.filterMapM fun m => do
    match p.receiver? m with
    | none => return none
    | some r =>
      let t ← p.expressionType r
      if isOpaqueReceiver t then return none
      match p.selector? m with
      | none => return none
      | some selector =>
        if (← p.behaviourNamed t selector).isSome then return none
        return some ((Problem.undefinedBehaviour t.render selector).report m.span)

def misfit (assignee : Ty) (value : Node) : Typing (Option Diagnostic) := do
  let t ← p.expressionType value
  return (← p.refusal assignee t false).map fun r =>
    (Problem.unassignable r.render).report value.span

def resultMisfits : Typing (List Diagnostic) :=
  (p.matching Shape.isMethod).filterMapM fun m => do
    match p.returnType? m, p.body? m with
    | some r, some e => misfit p (← p.returnType r) e
    | _, _ => return none

def argumentMisfits : Typing (List Diagnostic) := do
  let found ← p.messages.mapM fun m => do
    match ← p.messageBehaviour m with
    | none => return []
    | some b => (b.arguments.zip (p.arguments m)).filterMapM fun (t, e) => misfit p t e
  return found.flatten

def bindingMisfits : Typing (List Diagnostic) :=
  (p.matching (· == .letBinding)).filterMapM fun b => do
    match p.type? b with
    | none => return none
    | some t =>
      let declared ← p.typeExpressionType t
      match p.value? b with
      | none => return none
      | some e => misfit p declared e

/-- Where a class declares a variable twice the last one counts. -/
def variableMisfits : Typing (List Diagnostic) := do
  let found ← (p.matching Shape.isInitializer).mapM fun n => do
    let declared := (((p.closestClass? n).map p.memberVariables).getD []).reverse
    (p.assignments n).filterMapM fun a => do
      match declared.find? (p.isNamed a.name) with
      | none => return none
      | some v => misfit p (← p.declarationType v) a.value
  return found.flatten

def assignments : Typing (List Diagnostic) := do
  return (← resultMisfits p) ++ (← argumentMisfits p) ++ (← bindingMisfits p) ++
    (← variableMisfits p)

/-- In which ways a class fails to act as another; `Self` counts as `Self` in both. -/
def inheritFaults (sub super : Ty) : Typing (List InheritFault) := do
  let own ← p.behaviours (.self sub)
  (← p.behaviours (.self super)).filterMapM fun b => do
    let want := { b with receiver := super }
    match own.find? (·.selector == want.selector) with
    | none => return some (.absent want.render)
    | some got =>
      if got.method == want.method then return none
      return (← p.refusal want.type { got with receiver := sub }.type false).map fun r =>
        .unlike want.selector r.render

def inherits : Typing (List Diagnostic) := do
  let found ← (p.matching Shape.isClass).mapM fun c => do
    match ← p.declarationType c with
    | .object name id args =>
      (p.superExpressions c).filterMapM fun t => do
        match ← p.typeExpressionType t with
        | .object name' id' args' =>
          if id' == id then return none
          let sub := Ty.object name id args
          let super := Ty.object name' id' args'
          let faults ← inheritFaults p sub super
          if faults.isEmpty then return none
          return some ((Problem.invalidInherit sub.render super.render faults).report t.span)
        | _ => return none
    | _ => return []
  return found.flatten

/-- Whether a type expression says what a method accepts or what it gives back. -/
inductive Position where
  | input
  | output
  | neither
  deriving DecidableEq, Repr

def position (n : Node) : Position :=
  ((p.upwards n).tail.findSome? step).getD .neither
where
  step (a : Node) : Option Position :=
    match a.shape with
    | .returnType => some .output
    | .parameter => some (if (p.closest? (· == .signature) a).isSome then .input else .neither)
    | .signature | .method .. | .initializer _ | .classBody | .moduleRoot => some .neither
    | _ => none

def variance (p : Program) : Typing (List Diagnostic) := do
  let found ← (p.matching (·.isTypeParameter)).mapM fun t => do
    let misuse : Option (Position × String) :=
      match t.shape.variance with
      | .input => some (.output, "output")
      | .output => some (.input, "input")
      | _ => none
    match misuse, p.nameOf? t with
    | some (wrong, text), some name =>
      let refs ← p.referencesTo t .type
      return (refs.filter fun r => position p r == wrong).map fun r =>
        (Problem.varianceMisuse name t.shape.variance.word text).report r.span
    | _, _ => return []
  return found.flatten

def typeArgumentCounts : List Diagnostic :=
  (p.matching (· == .typeReference)).filterMap fun t => do
    let d ← p.declaration? t .type
    guard (NameKind.type.declares d.shape)
    let parameters := (p.typeParameters d).length
    let arguments := (p.typeArguments t).length
    guard (parameters != arguments)
    return (Problem.typeArgumentCount ((p.nameOf? t).getD "") parameters arguments).report t.span

end Parlance.Check
