import Parlance.Forest.Role
/-!
What names mean. A name is looked up in the scopes around it, then among the declarations of modules without a
namespace, and at last among the classes of the library.
-/
namespace Parlance

/-- Values and types have names of their own; a class is both. -/
inductive NameKind where
  | any
  | value
  | type
  deriving DecidableEq, Repr, Inhabited

namespace NameKind

def declares : NameKind → Shape → Bool
  | _, .classNode _ => true
  | k, .typeParameter _ => k != .value
  | k, .parameter | k, .letBinding | k, .variableNode _ => k != .type
  | _, _ => false

def refers : NameKind → Shape → Bool
  | k, .reference => k != .type
  | k, .typeReference => k != .value
  | _, _ => false

def of : Shape → NameKind
  | .typeReference | .typeParameter _ => .type
  | .reference | .parameter | .letBinding | .variableNode _ => .value
  | _ => .any

end NameKind

def libraryNamespace : String := "Loa"

structure Program extends Forest where
  /-- The declarations of modules without a namespace, by name; the first of a name counts. -/
  globals : List (String × Node)
  /-- The classes of the library by qualified name; the last of a name counts. -/
  library : List (String × Node)
  deriving Inhabited

namespace Forest

variable (f : Forest)

def modules : List Node := f.roots.filter (·.shape == .moduleRoot)

def lines : List Node := f.roots.filter (·.shape == .lineRoot)

def imports : List Node := f.matching (· == .importDirective)

def globalNames : List (String × Node) :=
  (f.modules.filter fun m => (f.namespaceOf? m).isNone).flatMap fun m =>
    (f.moduleDeclarations m).filterMap fun (_, d) => (f.nameOf? d).map (·, d)

def libraryNames : List (String × Node) :=
  (f.roots.filter (·.span.uri.isLibrary)).flatMap fun r =>
    ((f.within r).filter (·.shape.isClass)).filterMap fun c => (f.qualifiedName? c).map (·, c)

def modulesIn (ns : String) : List Node :=
  f.modules.filter fun m => ((f.namespaceOf? m).map (·.1)) == some ns

/-- What `import A/B/C` brings in: the declaration `C` of a module in the namespace `A/B`. -/
def imported? (n : Node) : Option Node := do
  guard (n.shape == .importDirective)
  let parts := f.parts (← f.qualified? n)
  let name ← parts.getLast?
  (f.modulesIn ("/".intercalate parts.dropLast)).findSome? fun m =>
    ((f.moduleDeclarations m).map (·.2)).find? (f.isNamed name)

/-- The nodes of a scope, without those of the scopes inside it. All lines are one scope. -/
def scopeNodes (enter : Node → Bool) (scope : Node) : List Node :=
  let enter n := enter n && (n.id == scope.id || !n.shape.isScopeRoot || n.shape == .lineRoot)
  if scope.shape == .lineRoot then f.lines.flatMap fun l => walk enter (f.within l)
  else walk enter (f.within scope)

/-- What a node of a scope makes the name mean, if anything. An import that leads nowhere stands for
itself. -/
def meaning? (name : String) (k : NameKind) (n : Node) : Option Node :=
  if n.shape == .importDirective then
    if f.isNamed name n then some ((f.imported? n).getD n) else none
  else if k.declares n.shape && f.isNamed name n then some n
  else none

/-- The type parameters of a class are known in its body. -/
def scopeParameters (k : NameKind) (scope : Node) : List Node :=
  if scope.shape == .classBody && k != .value then
    ((f.parent? scope).map f.typeParameters).getD []
  else []

def inScope? (name : String) (k : NameKind) (scope : Node) : Option Node :=
  ((f.scopeParameters k scope).find? (f.isNamed name)).or
    ((f.scopeNodes (·.shape != .typeParameterList) scope).findSome? (f.meaning? name k))

def scopesAround (n : Node) : List Node := (f.upwards n).filter (·.shape.isScopeRoot)

def scopeDeclarations (k : NameKind) (scope : Node) : List Node :=
  let enter (n : Node) : Bool := n.id == scope.id || !n.shape.isScopeRoot
  (walk enter (f.within scope)).filter fun n => k.declares n.shape || n.shape == .importDirective

end Forest

namespace Program

def ofForest (f : Forest) : Program := ⟨f, f.globalNames, f.libraryNames.reverse⟩

def ofDocuments (ds : List Document) : Program := ofForest (.ofDocuments ds)

variable (p : Program)

def libraryClass? (qualifiedName : String) : Option Node :=
  p.library.lookup qualifiedName

def standard? (name : String) : Option Node :=
  p.libraryClass? (libraryNamespace ++ "/" ++ name)

def global? (name : String) (k : NameKind) : Option Node :=
  (p.globals.lookup name).filter (k.declares ·.shape)

def declarationOf? (n : Node) (name : String) (k : NameKind) : Option Node :=
  ((p.scopesAround n).findSome? (p.inScope? name k)).or ((p.global? name k).or (p.standard? name))

def declaration? (n : Node) (k : NameKind) : Option Node :=
  match n.shape with
  | .selfReference | .selfType => p.closestClass? n
  | _ => (p.nameOf? n).bind fun name => p.declarationOf? n name k

/-! ### References -/

def resolved (k : NameKind) : List (Node × Option Node) :=
  (p.matching k.refers).map fun n => (n, p.declaration? n k)

def importsOf (qualifiedName : String) : List Node :=
  p.imports.filter fun i => ((p.qualified? i).map p.qualifiedText).getD "" == qualifiedName

def importsNaming (n : Node) : List Node :=
  if p.isExported n then
    match p.qualifiedName? n with
    | some name => if name.toList.contains '/' then p.importsOf name else []
    | none => []
  else []

/-- The parts of the program that may refer to a declaration. What belongs to a module without a
namespace or to the library is known everywhere. -/
def reach (n : Node) : List Node :=
  match p.closest? Shape.isScopeRoot n with
  | none => []
  | some scope =>
    if n.shape == .importDirective then [scope]
    else if scope.shape == .moduleRoot && (n.shape.isClass || n.shape == .letBinding) then
      if (p.namespaceOf? scope).isSome && !n.span.uri.isLibrary then [scope] else p.roots
    else if scope.shape == .lineRoot then p.lines
    else [scope]

/-- Whether a reference that means `found` is one to `n`. An import is referred to by its name where
that leads out of the source. -/
def isReferenceTo (n ref found : Node) : Bool :=
  (n.shape == .importDirective && found.span.uri != ref.span.uri &&
    p.nameOf? ref == p.nameOf? n) || found.id == n.id

def directReferences (uses : List (Node × Option Node)) (n : Node) : List Node :=
  (p.reach n).flatMap fun scope =>
    uses.filterMap fun (ref, found) =>
      if Forest.isWithin ref scope && (found.map (p.isReferenceTo n ref)).getD false then some ref
      else none

/-- The references to `n`, given what every reference refers to: those through imports of it first. -/
def referencesAmong (uses : List (Node × Option Node)) (n : Node) : List Node :=
  match p.nameOf? n with
  | none => []
  | some name =>
    let through :=
      if p.isExported n then
        match p.namespaceOf? (p.rootOf n) with
        | some (ns, _) => (p.importsOf (ns ++ "/" ++ name)).flatMap (p.directReferences uses)
        | none => []
      else []
    through ++ p.directReferences uses n

def references (n : Node) (k : NameKind) : List Node :=
  p.referencesAmong (p.resolved k) n

/-! ### What can be named at a place -/

def visible (n : Node) (k : NameKind) : List (String × Node) :=
  let named (d : Node) : Option (String × Node) := (p.nameOf? d).map (·, d)
  let scopes := (p.scopesAround n).flatMap fun scope =>
    (p.scopeParameters k scope).filterMap named ++
      (p.scopeNodes (·.shape != .typeParameterList) scope).filterMap fun c =>
        if c.shape == .importDirective then do return (← p.nameOf? c, ← p.imported? c)
        else if k.declares c.shape then named c
        else none
  let library := (p.library.mergeSort fun a b => a.1 ≤ b.1).filterMap fun (_, c) => named c
  (scopes ++ library).foldl (fun acc e => if acc.any (·.1 == e.1) then acc else acc ++ [e]) []

/-! ### Classes -/

def superClasses (n : Node) : List Node :=
  ((p.superExpressions n).filterMap fun t => p.declaration? t .type).filter (·.shape.isClass)

/-- All classes above a class that are not in `seen`, the farthest first, and those seen then. -/
def superClassesFrom (p : Program) : Nat → List Nat → Node → List Nat × List Node
  | 0, seen, _ => (seen, [])
  | depth + 1, seen, n =>
    (p.superClasses n).foldl (fun (seen, found) c =>
      if seen.contains c.id then (seen, found)
      else
        let (seen, above) := p.superClassesFrom depth (c.id :: seen) c
        (seen, found ++ above ++ [c])) (seen, [])

/-- All classes above a class, the farthest first; each counts once, so cycles do no harm. -/
def allSuperClasses (n : Node) : List Node :=
  (p.superClassesFrom p.nodes.size [n.id] n).2

def overridden (n : Node) : List Node :=
  match p.methodSelector? n, p.closestClass? n with
  | some selector, some c =>
    (p.allSuperClasses c).flatMap fun s =>
      (p.methods s).filter fun m => p.methodSelector? m == some selector
  | _, _ => []

/-! ### What an expression takes from around it -/

def isLocal (n : Node) : Bool :=
  match n.shape with
  | .classNode _ | .variableNode _ => false
  | .letBinding => !p.isGlobalBinding n
  | _ => true

/-- The local values an expression uses that are declared outside it, by position. -/
def crossing (n : Node) : List Node :=
  let found := ((p.within n).filter (NameKind.value.refers ·.shape)).filterMap fun r =>
    (p.declaration? r .value).filter fun d => p.isLocal d && !Forest.isWithin d n
  let distinct := found.foldl (fun acc d => if acc.any (·.id == d.id) then acc else acc ++ [d]) []
  distinct.mergeSort fun a b => a.span.start.offset ≤ b.span.start.offset

def selfCrosses (n : Node) : Bool :=
  (p.within n).any fun c =>
    match c.shape with
    | .selfReference => true
    | .reference => ((p.declaration? c .value).map (·.shape.isVariable)).getD false
    | _ => false

end Program

end Parlance
