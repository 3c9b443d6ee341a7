import Parlance.NumberClass
import Parlance.Ty
/-!
The types of a program. Answers are remembered by node. While one is being worked out it counts as
unknown, so a definition that leads back to itself is typed by what is known when it does, and the
node asked about first decides.
-/
namespace Parlance

structure Usage where
  declaration : Node
  references : List Node
  imports : List Node
  deriving Repr, Inhabited

def Usage.members (u : Usage) : List Node := u.declaration :: (u.references ++ u.imports)

structure Memo where
  types : Array (Option Ty)
  behaviours : Array (Option (List Behaviour))
  usages : Array (Option (Option Usage))
  uses : List (NameKind × List (Node × Option Node))
  deriving Inhabited

abbrev Typing := StateM Memo

namespace Memo

def fresh (p : Program) : Memo :=
  { types := .replicate p.nodes.size none
    behaviours := .replicate p.nodes.size none
    usages := .replicate p.nodes.size none
    uses := [] }

def setType (id : Nat) (t : Ty) : Typing Unit :=
  modify fun m => { m with types := m.types.setIfInBounds id (some t) }

def setBehaviours (id : Nat) (bs : List Behaviour) : Typing Unit :=
  modify fun m => { m with behaviours := m.behaviours.setIfInBounds id (some bs) }

def type (n : Node) (work : Typing Ty) : Typing Ty := do
  if let some t := ((← get).types[n.id]?).join then return t
  setType n.id .unknown
  let t ← work
  setType n.id t
  return t

def classBehaviours (n : Node) (work : Typing (List Behaviour)) : Typing (List Behaviour) := do
  if let some bs := ((← get).behaviours[n.id]?).join then return bs
  setBehaviours n.id []
  let bs ← work
  setBehaviours n.id bs
  return bs

end Memo

namespace Program

variable (p : Program)

/-- More than the questions that can be open at once: each node is asked about once, and between two
nodes the way leads up through their parents. -/
def patience : Nat := 16 * (p.nodes.size + 1) * (p.nodes.size + 1)

def isValueOf (part n : Node) : Bool :=
  ((p.value? n).map (·.id == part.id)).getD false

/-- The behaviours that are not shadowed by one of the same selector before them. -/
def addBehaviours (found more : List Behaviour) : List Behaviour :=
  more.foldl (fun acc b => if acc.any (·.selector == b.selector) then acc else acc ++ [b]) found

mutual

def expressionTypeIn (p : Program) : Nat → Node → Typing Ty
  | 0, _ => return .unknown
  | fuel + 1, n => Memo.type n do
    match n.shape with
    | .reference =>
      match p.declaration? n .value with
      | none => return .unknown
      | some d =>
        let t ← declarationTypeIn p fuel d
        if !d.shape.isClass then return t
        match t with
        | .object name id args =>
          if p.hasClassObject d then return .classObject name id args
          return t
        | _ => return .unknown
    | .selfReference => selfTypeIn p fuel n
    | .send | .cascade =>
      match ((p.children n).filter (·.shape.isMessage)).getLast? with
      | some m =>
        match ← messageBehaviourIn p fuel m with
        | some b => return b.result
        | none => return .unknown
      | none => return .unknown
    | .tuple | .letExpression =>
      match p.value? n with
      | some e => expressionTypeIn p fuel e
      | none => return .unknown
    | .string .. => standardTypeIn p fuel "String"
    | .character .. => standardTypeIn p fuel "Character"
    | .symbolLiteral _ value => return .symbol value
    | .integer .. => return (← numericContextIn p fuel n).getD .integerLiteral
    | .float .. => return (← numericContextIn p fuel n).getD .floatLiteral
    | _ => return .unknown

def selfTypeIn (p : Program) : Nat → Node → Typing Ty
  | 0, _ => return .unknown
  | fuel + 1, n => do
    match p.closestClass? n with
    | some c => return .self (← declarationTypeIn p fuel c)
    | none => return .unknown

def standardTypeIn (p : Program) : Nat → String → Typing Ty
  | 0, _ => return .unknown
  | fuel + 1, name => do
    match p.standard? name with
    | some c => declarationTypeIn p fuel c
    | none => return .unknown

def numericContextIn (p : Program) : Nat → Node → Typing (Option Ty)
  | 0, _ => return none
  | fuel + 1, n => do
    match ← expectedTypeIn p fuel n with
    | some (.object name id args) =>
      let number := ((p.node? id).bind p.qualifiedName?).bind NumberClass.ofName?
      return number.map fun _ => .object name id args
    | _ => return none

def expectedTypeIn (p : Program) : Nat → Node → Typing (Option Ty)
  | 0, _ => return none
  | fuel + 1, n => do
    match p.parent? n with
    | none => return none
    | some parent =>
      match parent.shape with
      | .letBinding =>
        match p.type? parent with
        | some t => if p.isValueOf n parent then some <$> typeExpressionTypeIn p fuel t else return none
        | none => return none
      | .methodBody =>
        match (p.parent? parent).bind p.returnType? with
        | some r =>
          match p.type? r with
          | some t => some <$> typeExpressionTypeIn p fuel t
          | none => return some .unknown
        | none => return none
      | .binaryMessage =>
        if p.isValueOf n parent then argumentTypeIn p fuel parent 0 else return none
      | .keywordPair =>
        match p.parent? parent with
        | none => return none
        | some owner =>
          if ((p.pairValue? parent).map (·.id)) != some n.id then return none
          match owner.shape with
          | .keywordMessage =>
            match (p.pairs owner).findIdx? (·.id == parent.id) with
            | some i => argumentTypeIn p fuel owner i
            | none => return none
          | .initializer _ =>
            let declared := ((p.closestClass? owner).map p.memberVariables).getD []
            match declared.find? fun v => p.nameOf? v == (p.name? parent).bind p.nameOf? with
            | some v => some <$> declarationTypeIn p fuel v
            | none => return none
          | _ => return none
      | .send | .cascade | .letExpression =>
        if p.isValueOf n parent then expectedTypeIn p fuel parent else return none
      | .tuple => expectedTypeIn p fuel parent
      | _ => return none

def argumentTypeIn (p : Program) : Nat → Node → Nat → Typing (Option Ty)
  | 0, _, _ => return none
  | fuel + 1, message, i => do
    match ← messageBehaviourIn p fuel message with
    | some b => return some (Ty.argument b.arguments i)
    | none => return none

def declarationTypeIn (p : Program) : Nat → Node → Typing Ty
  | 0, _ => return .unknown
  | fuel + 1, n => Memo.type n do
    match n.shape with
    | .parameter | .variableNode _ =>
      match p.type? n with
      | some t => typeExpressionTypeIn p fuel t
      | none => return .unknown
    | .letBinding =>
      match p.type? n, p.value? n with
      | some t, _ => typeExpressionTypeIn p fuel t
      | none, some e => expressionTypeIn p fuel e
      | none, none => return .unknown
    | .classNode _ =>
      match p.nameOf? n with
      | none => return .unknown
      | some name => return .object name n.id (← (p.typeParameters n).mapM (declarationTypeIn p fuel))
    | .typeParameter _ =>
      match p.nameOf? n with
      | none => return .unknown
      | some name => return .parameter name n.id []
    | _ => return .unknown

def typeExpressionTypeIn (p : Program) : Nat → Node → Typing Ty
  | 0, _ => return .unknown
  | fuel + 1, n => Memo.type n do
    match n.shape with
    | .selfType => selfTypeIn p fuel n
    | .typeReference =>
      let args ← (p.typeArguments n).mapM (typeExpressionTypeIn p fuel)
      match p.declaration? n .type with
      | some d => return (← declarationTypeIn p fuel d).withArguments args
      | none => return .unknown
    | _ => return .unknown

def behavioursIn (p : Program) : Nat → Ty → Typing (List Behaviour)
  | 0, _ => return []
  | fuel + 1, t => do
    match t with
    | .object _ id args => objectBehavioursIn p fuel id args t
    | .self (.object _ id args) => objectBehavioursIn p fuel id args t
    | .self u => behavioursIn p fuel u
    | .classObject name id args =>
      let inits := ((p.node? id).map p.initializers).getD []
      inits.filterMapM fun i => do
        match p.pattern? i with
        | none => return none
        | some pattern => patternBehaviourIn p fuel i.id t (.object name id args) pattern
    | .symbol _ => behavioursIn p fuel (← standardTypeIn p fuel "Symbol")
    | .integerLiteral => behavioursIn p fuel (← standardTypeIn p fuel "Integer")
    | .floatLiteral => behavioursIn p fuel (← standardTypeIn p fuel "Float")
    | _ => return []

def objectBehavioursIn (p : Program) : Nat → Nat → List Ty → Ty → Typing (List Behaviour)
  | 0, _, _, _ => return []
  | fuel + 1, id, args, receiver => do
    match p.node? id with
    | none => return []
    | some c =>
      let m := p.substitution (some c) args
      return (← classBehavioursIn p fuel c).map fun b => (b.subst m).bindSelf receiver

/-- The behaviours of a class in terms of its own type parameters and of `Self`: those of its methods
first, then those it inherits. -/
def classBehavioursIn (p : Program) : Nat → Node → Typing (List Behaviour)
  | 0, _ => return []
  | fuel + 1, c => do
    if !c.shape.isClass then return []
    Memo.classBehaviours c do
      let declared ← declarationTypeIn p fuel c
      let own ← (p.methods c).filterMapM fun m => methodBehaviourIn p fuel m declared
      (p.superExpressions c).foldlM (fun found t => do
        match ← typeExpressionTypeIn p fuel t with
        | .object _ id args =>
          match p.node? id with
          | some s =>
            let inherited ← classBehavioursIn p fuel s
            let m := p.substitution (some s) args
            return addBehaviours found (inherited.map (·.subst m))
          | none => return found
        | _ => return found) (addBehaviours [] own)

/-- The behaviour a method declares. Without a declared type it gives back what its body is. -/
def methodBehaviourIn (p : Program) : Nat → Node → Ty → Typing (Option Behaviour)
  | 0, _, _ => return none
  | fuel + 1, method, receiver => do
    match p.pattern? method with
    | none => return none
    | some pattern =>
      match ← patternBehaviourIn p fuel method.id receiver .unknown pattern with
      | none => return none
      | some b =>
        match p.returnType? method, p.body? method with
        | some r, _ =>
          match p.type? r with
          | some t => return some { b with result := ← typeExpressionTypeIn p fuel t }
          | none => return some b
        | none, some e => return some { b with result := ← expressionTypeIn p fuel e }
        | none, none => return some b

def patternBehaviourIn (p : Program) : Nat → Nat → Ty → Ty → Node → Typing (Option Behaviour)
  | 0, _, _, _, _ => return none
  | fuel + 1, method, receiver, result, pattern => do
    match pattern.shape with
    | .unaryPattern =>
      match p.selector? pattern with
      | some name => return some ⟨method, receiver, .unary, [name], [], result⟩
      | none => return none
    | .binaryPattern =>
      let arg ←
        match p.part? (· == .parameter) pattern with
        | some d => declarationTypeIn p fuel d
        | none => pure .unknown
      match p.selector? pattern with
      | some op => return some ⟨method, receiver, .binary, [op], [arg], result⟩
      | none => return none
    | .keywordPattern =>
      let pairs := p.keywordValues pattern
      let args ← pairs.mapM fun (_, d) => declarationTypeIn p fuel d
      let keywords := pairs.filterMap fun (k, _) => p.nameOf? k
      if keywords.isEmpty then return none
      return some ⟨method, receiver, .keyword, keywords, args, result⟩
    | _ => return none

def messageBehaviourIn (p : Program) : Nat → Node → Typing (Option Behaviour)
  | 0, _ => return none
  | fuel + 1, message => do
    if !message.shape.isMessage then return none
    match p.receiver? message, p.selector? message with
    | some r, some selector =>
      let t ← expressionTypeIn p fuel r
      return (← behavioursIn p fuel t).find? (·.selector == selector)
    | _, _ => return none

end

/-! ### Questions -/

def expressionType (n : Node) : Typing Ty := expressionTypeIn p p.patience n

def declarationType (n : Node) : Typing Ty := declarationTypeIn p p.patience n

def typeExpressionType (n : Node) : Typing Ty := typeExpressionTypeIn p p.patience n

def standardType (name : String) : Typing Ty := standardTypeIn p p.patience name

def expectedType (n : Node) : Typing (Option Ty) := expectedTypeIn p p.patience n

def behaviours (t : Ty) : Typing (List Behaviour) := behavioursIn p p.patience t

def behaviourNamed (t : Ty) (selector : String) : Typing (Option Behaviour) := do
  return (← p.behaviours t).find? (·.selector == selector)

def messageBehaviour (message : Node) : Typing (Option Behaviour) :=
  messageBehaviourIn p p.patience message

def methodOfMessage (message : Node) : Typing (Option Node) := do
  return (← p.messageBehaviour message).bind fun b => p.node? b.method

def returnType (n : Node) : Typing Ty := do
  match p.type? n with
  | some t => p.typeExpressionType t
  | none => return .unknown

def typeOf (n : Node) : Typing Ty := do
  if n.shape.isExpression then p.expressionType n
  else if n.shape.isTypeExpression then p.typeExpressionType n
  else if n.shape.isDeclaration then p.declarationType n
  else
    match n.shape with
    | .returnType => p.returnType n
    | .methodBody =>
      match p.value? n with
      | some e => p.expressionType e
      | none => return .unknown
    | .method .. =>
      let receiver ←
        match p.closestClass? n with
        | some c => p.declarationType c
        | none => pure .unknown
      match ← methodBehaviourIn p p.patience n receiver with
      | some b => return b.type
      | none => return .unknown
    | _ => return .unknown

def superTypes (id : Nat) (args : List Ty) : Typing (List Ty) := do
  match p.node? id with
  | none => return []
  | some c =>
    let m := p.substitution (some c) args
    (p.superExpressions c).filterMapM fun t => do
      match (← p.typeExpressionType t).subst m with
      | .object name id args => return some (.object name id args)
      | _ => return none

def declaredSuperTypes (c : Node) : Typing (List Ty) := do
  match ← p.declarationType c with
  | .object _ id args => p.superTypes id args
  | _ => return []

end Program

end Parlance
