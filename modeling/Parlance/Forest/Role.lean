import Parlance.Forest
/-!
What the parts of a node are to it: names, selectors, arguments, parameters and members.
-/
namespace Parlance.Forest

/-! ### Names -/

variable (f : Forest) (n : Node)

def name? : Option Node := f.part? Shape.isSymbol n

def type? : Option Node := f.part? Shape.isTypeExpression n

def value? : Option Node := f.part? Shape.isExpression n

def qualified? : Option Node := f.part? (· == .qualifiedSymbol) n

def spelling : Shape → String
  | .symbol w | .operator w => w.name
  | _ => "self"

def symbol? : Option Node :=
  match n.shape with
  | .symbol _ | .operator _ | .selfReference | .selfType => some n
  | .classNode _ | .letBinding | .typeReference | .reference | .typeParameter _ | .parameter
  | .variableNode _ => f.name? n
  | .importDirective =>
    match f.name? n with
    | some renamed => some renamed
    | none => (f.qualified? n).bind fun q => (f.children q).getLast?
  | _ => none

def nameOf? : Option String := (f.symbol? n).map (spelling ·.shape)

def isNamed (name : String) (n : Node) : Bool := f.nameOf? n == some name

def named? (name : String) : Option Node :=
  f.all.find? fun n => n.shape.isDeclaration && f.isNamed name n

def parts : List String :=
  if n.shape == .qualifiedSymbol then (f.children n).filterMap f.nameOf? else []

def qualifiedText : String := "/".intercalate (f.parts n)

/-! ### Messages and patterns -/

def pairs : List Node := (f.children n).filter (·.shape == .keywordPair)

def pairValue? : Option Node :=
  f.part? (fun s => s.isExpression || s == .parameter) n

def keywordValues : List (Node × Node) :=
  (f.pairs n).filterMap fun pair => do
    let keyword ← f.name? pair
    let value ← f.pairValue? pair
    return (keyword, value)

def keywordSelector? : Option String := do
  let keywords ← (f.pairs n).mapM fun pair => (f.name? pair).bind f.nameOf?
  if keywords.isEmpty then none else some (String.join (keywords.map (· ++ ":")))

def selector? : Option String :=
  match n.shape with
  | .unaryMessage | .unaryPattern => (f.name? n).bind f.nameOf?
  | .binaryMessage | .binaryPattern => (f.part? (·.isOperator) n).bind f.nameOf?
  | .keywordMessage | .keywordPattern => f.keywordSelector? n
  | _ => none

def patternSelector? : Option String :=
  if n.shape.isPattern then f.selector? n else none

def arguments : List Node :=
  match n.shape with
  | .binaryMessage => (f.value? n).toList
  | .keywordMessage => (f.keywordValues n).map (·.2)
  | _ => []

def patternParameters : List Node :=
  match n.shape with
  | .binaryPattern => (f.part? (· == .parameter) n).toList
  | .keywordPattern => (f.keywordValues n).map (·.2)
  | _ => []

def arity? : Option Nat :=
  match n.shape with
  | .unaryMessage | .unaryPattern => some 1
  | .binaryMessage | .binaryPattern => some 2
  | .keywordMessage | .keywordPattern => some ((f.pairs n).length + 1)
  | _ => none

def parameterIndex? : Option Nat := do
  let parent ← f.parent? n
  match parent.shape with
  | .binaryPattern => some 0
  | .keywordPair =>
    let pattern ← f.parent? parent
    guard (pattern.shape == .keywordPattern)
    (f.pairs pattern).findIdx? (·.id == parent.id)
  | _ => none

def receiver? (message : Node) : Option Node := do
  let parent ← f.parent? message
  guard (parent.shape == .send || parent.shape == .cascade)
  f.value? parent

/-! ### Classes and their members -/

def closestClass? : Option Node := f.closest? Shape.isClass n

def members : List Node :=
  if n.shape.isClass then ((f.part? (· == .classBody) n).map f.children).getD [] else []

def methods : List Node := (f.members n).filter (·.shape.isMethod)

def memberVariables : List Node := (f.members n).filter (·.shape.isVariable)

def initializers : List Node := (f.members n).filter (·.shape.isInitializer)

def superExpressions : List Node :=
  ((f.members n).filter (·.shape == .isDirective)).filterMap f.type?

/-- A class with initializers has an object that answers them; without any, the name of the class
stands for its only instance. -/
def hasClassObject : Bool := !(f.initializers n).isEmpty

def signature? : Option Node :=
  if n.shape.isMethod then f.part? (· == .signature) n else none

def pattern? : Option Node :=
  if n.shape.isInitializer then f.part? Shape.isPattern n
  else (f.signature? n).bind (f.part? Shape.isPattern)

def returnType? : Option Node :=
  (f.signature? n).bind (f.part? (· == .returnType))

def methodSelector? : Option String :=
  if n.shape.isMethod then (f.pattern? n).bind f.patternSelector? else none

def initializerSelector? : Option String :=
  if n.shape.isInitializer then (f.pattern? n).bind f.patternSelector? else none

def methodArity? : Option Nat := (f.pattern? n).bind f.arity?

def parameters : List Node :=
  ((f.pattern? n).map f.patternParameters).getD []

def body? : Option Node :=
  if n.shape.isMethod then (f.part? (· == .methodBody) n).bind f.value? else none

structure Assignment where
  name : String
  keyword : Node
  value : Node

def assignments : List Assignment :=
  if n.shape.isInitializer then
    (f.keywordValues n).filterMap fun (keyword, value) =>
      (f.nameOf? keyword).map (⟨·, keyword, value⟩)
  else []

def isVisibleFrom (member from_ : Node) : Bool :=
  if member.shape.visibility != .concealed then true
  else
    match f.closestClass? member, f.closestClass? from_ with
    | some owner, some caller => owner.id == caller.id
    | _, _ => false

def typeArguments : List Node :=
  if n.shape == .typeReference then
    ((f.part? (· == .typeArgumentList) n).map f.children).getD []
  else []

def typeParameters : List Node :=
  if n.shape.isClass then ((f.part? (· == .typeParameterList) n).map f.children).getD [] else []

/-! ### Modules -/

def namespaceOf? : Option (String × Node) := do
  guard (n.shape == .moduleRoot)
  let directive ← f.part? (· == .namespaceDirective) n
  let name ← f.qualified? directive
  return (f.qualifiedText name, name)

def moduleDeclarations : List (Bool × Node) :=
  if n.shape == .moduleRoot then
    (f.children n).filterMap fun c =>
      match c.shape with
      | .namespaceDirective | .importDirective => none
      | .exported => (f.children c).head?.map (true, ·)
      | _ => some (false, c)
  else []

def lineDeclarations : List Node :=
  if n.shape == .lineRoot then (f.children n).filter (·.shape.isDeclaration) else []

def isExported : Bool :=
  ((f.parent? n).map (·.shape == .exported)).getD false

def isGlobalBinding : Bool :=
  match f.parent? n with
  | some p => p.shape == .moduleRoot || p.shape == .lineRoot || p.shape == .exported
  | none => false

def qualifiedName? : Option String := do
  let name ← f.nameOf? n
  match f.namespaceOf? (f.rootOf n) with
  | some (ns, _) => return ns ++ "/" ++ name
  | none => return name

def qualifiedMethodName? : Option String := do
  let selector ← (f.methodSelector? n).or (f.initializerSelector? n)
  let name ← f.qualifiedName? (← f.closestClass? n)
  return name ++ "#" ++ selector

end Parlance.Forest
