import Parlance.Usage
/-!
Checks on names: declared once, declared at all, imported from where they are exported, and used only
where they are open.
-/
namespace Parlance.Check

def grouped : List (String × Node) → List (String × List Node)
  | entries => entries.foldl add []
where
  add (acc : List (String × List Node)) (e : String × Node) : List (String × List Node) :=
    if acc.any (·.1 == e.1) then acc.map fun g => if g.1 == e.1 then (g.1, g.2 ++ [e.2]) else g
    else acc ++ [(e.1, [e.2])]

variable (p : Program)

def duplicatesAmong (declarations : List Node) (reported : List Nat) : List Nat × List Diagnostic :=
  let entries := declarations.filterMap fun d => (p.symbol? d).map fun s => (Forest.spelling s.shape, s)
  (grouped entries).foldl (fun acc (name, same) =>
    if same.length < 2 then acc
    else same.foldl (fun (reported, found) s =>
      if reported.contains s.id then (reported, found)
      else (s.id :: reported, found ++ [(Problem.duplicated name same.length).report s.span])) acc)
    (reported, [])

/-- The declarations of a scope that must differ in name. A partial class only announces one, and type
parameters belong to their class. -/
def rivals (scope : Node) (k : NameKind) : List Node :=
  (p.scopeDeclarations k scope).filter fun d =>
    match d.shape with
    | .classNode isPartial => !isPartial
    | .typeParameter _ => false
    | _ => true

def duplicates : List Diagnostic :=
  let scopes := (p.matching Shape.isScopeRoot).flatMap fun s => [rivals p s .type, rivals p s .value]
  let parameters := (p.matching Shape.isClass).map p.typeParameters
  ((scopes ++ parameters).foldl (fun (reported, found) ds =>
    let (reported, more) := duplicatesAmong p ds reported
    (reported, found ++ more)) ([], [])).2

def undefined (k : NameKind) (problem : String → Problem) : Typing (List Diagnostic) :=
  ((p.matching k.refers).filterMap p.symbol?).filterMapM fun s => do
    if (← p.usage s).isSome then return none
    return some ((problem (Forest.spelling s.shape)).report s.span)

def imports (p : Program) : List Diagnostic :=
  p.imports.filterMap fun i => do
    let q ← p.qualified? i
    match p.imported? i with
    | none => some ((Problem.undefinedImport (p.qualifiedText q)).report q.span)
    | some d =>
      if p.isExported d then none
      else some ((Problem.unexportedImport (p.qualifiedText q)).report q.span)

def privateAccess (p : Program) : Typing (List Diagnostic) :=
  p.messages.filterMapM fun m => do
    match ← p.methodOfMessage m with
    | none => return none
    | some method =>
      if p.isVisibleFrom method m then return none
      return do
        let name ← (p.closestClass? method).bind p.qualifiedName?
        return (Problem.privateAccess ((p.selector? m).getD "") name).report m.span

def distinct (names : List String) : List String :=
  names.foldl (fun acc n => if acc.contains n then acc else acc ++ [n]) []

/-- An initializer sets each variable of its class and nothing else. -/
def initializerProblems (className : String) (names : List String) (n : Node) : List Diagnostic :=
  let assignments := p.assignments n
  let unknown := (assignments.filter fun a => !names.contains a.name).map fun a =>
    (Problem.notAVariable a.name className).report a.keyword.span
  let missing := names.filter fun v => !assignments.any (·.name == v)
  if missing.isEmpty then unknown
  else
    let sorted := missing.mergeSort fun a b => a ≤ b
    unknown ++ [(Problem.incompleteInitializer sorted).report (((p.pattern? n).getD n).span)]

def initializers (p : Program) : List Diagnostic :=
  (p.matching Shape.isClass).flatMap fun c =>
    let names := distinct ((p.memberVariables c).filterMap p.nameOf?)
    (p.initializers c).flatMap (initializerProblems p ((p.nameOf? c).getD "") names)

end Parlance.Check
