import Parlance.Token.Kind
/-!
Syntax trees. A node has a shape, which holds what belongs to the node itself, a span and children.
Children stand in a fixed order of their roles and absent ones are left out; within one node the
shape of a child tells its role.
-/
namespace Parlance

inductive Visibility where
  | unmarked
  | concealed
  | exposed
  deriving DecidableEq, Repr, Inhabited

def Visibility.word : Visibility → String
  | unmarked => ""
  | concealed => "private"
  | exposed => "public"

inductive Variance where
  | invariant
  | input
  | output
  | both
  deriving DecidableEq, Repr, Inhabited

def Variance.word : Variance → String
  | invariant => ""
  | input => "in"
  | output => "out"
  | both => "inout"

inductive Shape where
  | moduleRoot
  | lineRoot
  | lineExpression
  /-- `:t e` asks for a type, `:b e` for behaviours. -/
  | lineDirective (word : Token)
  | exported
  | namespaceDirective
  | importDirective
  | qualifiedSymbol
  | symbol (word : Token)
  | classNode (isPartial : Bool)
  | typeParameterList
  | typeParameter (variance : Variance)
  | classBody
  | isDirective
  | method (visibility : Visibility) (isNative : Bool)
  | variableNode (visibility : Visibility)
  | initializer (visibility : Visibility)
  | signature
  | unaryPattern
  | binaryPattern
  | keywordPattern
  | keywordPair
  | operator (word : Token)
  | returnType
  | parameter
  | typeReference
  | selfType
  | typeArgumentList
  | methodBody
  | reference
  | selfReference
  | send
  | cascade
  | unaryMessage
  | binaryMessage
  | keywordMessage
  | tuple
  | letExpression
  | letBinding
  | panicExpression
  | string (word : Token) (value : String)
  | character (word : Token) (value : Nat)
  | symbolLiteral (word : Token) (value : String)
  | integer (word : Token) (value : Int)
  | float (word : Token) (value : Rat)
  deriving DecidableEq, Repr, Inhabited

namespace Shape

def name : Shape → String
  | moduleRoot => "Module"
  | lineRoot => "REPLLine"
  | lineExpression => "REPLExpression"
  | lineDirective _ => "REPLDirective"
  | exported => "Exported"
  | namespaceDirective => "NamespaceDirective"
  | importDirective => "ImportDirective"
  | qualifiedSymbol => "QualifiedSymbol"
  | symbol _ => "Symbol"
  | classNode _ => "Class"
  | typeParameterList => "TypeParameterList"
  | typeParameter _ => "TypeParameter"
  | classBody => "ClassBody"
  | isDirective => "IsDirective"
  | method .. => "Method"
  | variableNode _ => "Variable"
  | initializer _ => "Initializer"
  | signature => "Signature"
  | unaryPattern => "UnaryMessagePattern"
  | binaryPattern => "BinaryMessagePattern"
  | keywordPattern => "KeywordMessagePattern"
  | keywordPair => "KeywordPair"
  | operator _ => "Operator"
  | returnType => "ReturnType"
  | parameter => "ParameterPattern"
  | typeReference => "ReferenceTypeExpression"
  | selfType => "SelfTypeExpression"
  | typeArgumentList => "TypeArgumentList"
  | methodBody => "MethodBody"
  | reference => "ReferenceExpression"
  | selfReference => "SelfExpression"
  | send => "MessageSendExpression"
  | cascade => "CascadeExpression"
  | unaryMessage => "UnaryMessage"
  | binaryMessage => "BinaryMessage"
  | keywordMessage => "KeywordMessage"
  | tuple => "TupleExpression"
  | letExpression => "LetExpression"
  | letBinding => "LetBinding"
  | panicExpression => "PanicExpression"
  | string .. => "StringExpression"
  | character .. => "CharacterExpression"
  | symbolLiteral .. => "SymbolExpression"
  | integer .. => "IntegerExpression"
  | float .. => "FloatExpression"

def isScopeRoot : Shape → Bool
  | moduleRoot | lineRoot | classBody | method .. | initializer _ => true
  | _ => false

def isDeclaration : Shape → Bool
  | classNode _ | typeParameter _ | parameter | letBinding | variableNode _ => true
  | _ => false

def isExpression : Shape → Bool
  | reference | selfReference | send | cascade | tuple | letExpression | panicExpression
  | string .. | character .. | symbolLiteral .. | integer .. | float .. => true
  | _ => false

def isTypeExpression : Shape → Bool
  | typeReference | selfType => true
  | _ => false

def isMessage : Shape → Bool
  | unaryMessage | binaryMessage | keywordMessage => true
  | _ => false

def isPattern : Shape → Bool
  | unaryPattern | binaryPattern | keywordPattern => true
  | _ => false

def isSymbol : Shape → Bool
  | symbol _ => true
  | _ => false

def isClass : Shape → Bool
  | classNode _ => true
  | _ => false

def isOperator : Shape → Bool
  | operator _ => true
  | _ => false

def isMethod : Shape → Bool
  | method .. => true
  | _ => false

def isVariable : Shape → Bool
  | variableNode _ => true
  | _ => false

def isInitializer : Shape → Bool
  | initializer _ => true
  | _ => false

def isTypeParameter : Shape → Bool
  | typeParameter _ => true
  | _ => false

def isNumber : Shape → Bool
  | integer .. | float .. => true
  | _ => false

def visibility : Shape → Visibility
  | method v _ | initializer v | variableNode v => v
  | _ => .unmarked

def isNative : Shape → Bool
  | method _ native => native
  | _ => false

def variance : Shape → Variance
  | typeParameter v => v
  | _ => .invariant

def word? : Shape → Option Token
  | symbol w | operator w | lineDirective w => some w
  | _ => none

end Shape

inductive Tree where
  | node (shape : Shape) (span : Span) (children : List Tree)
  deriving Repr, Inhabited

namespace Tree

def shape : Tree → Shape
  | node s _ _ => s

def span : Tree → Span
  | node _ s _ => s

def children : Tree → List Tree
  | node _ _ cs => cs

mutual

def rowsFrom (depth : Nat) : Tree → List (Nat × Tree)
  | node shape span children => (depth, node shape span children) :: rowsOf (depth + 1) children

def rowsOf (depth : Nat) : List Tree → List (Nat × Tree)
  | [] => []
  | t :: ts => rowsFrom depth t ++ rowsOf depth ts

end

def rows (t : Tree) : List (Nat × Tree) := rowsFrom 0 t

def nodes (t : Tree) : List Tree := t.rows.map (·.2)

mutual

def size : Tree → Nat
  | node _ _ children => sizeOf children + 1

def sizeOf : List Tree → Nat
  | [] => 0
  | t :: ts => size t + sizeOf ts

end

mutual

/-- The positions, in the order of `nodes`, of the nodes a cursor at `l` lies in, from the root of
this tree inwards; the root is at position `first`. -/
def pathFrom (uri : Uri) (l : Location) (first : Nat) : Tree → List Nat
  | node _ _ children => first :: pathBelow uri l (first + 1) children

/-- The path goes through the first child that reaches beyond `l`, otherwise through the last one
that ends there. -/
def pathBelow (uri : Uri) (l : Location) (first : Nat) : List Tree → List Nat
  | [] => []
  | t :: ts =>
    if !t.span.contains uri l then pathBelow uri l (first + t.size) ts
    else if t.span.stop.offset == l.offset then
      match pathBelow uri l (first + t.size) ts with
      | [] => pathFrom uri l first t
      | path => path
    else pathFrom uri l first t

end

def positionsAround (t : Tree) (uri : Uri) (l : Location) : List Nat :=
  if t.span.contains uri l then (t.pathFrom uri l 0).reverse else []

def isSound (t : Tree) (source : Source) : Bool :=
  t.nodes.all fun n =>
    n.span.uri == source.uri && 0 ≤ n.span.start.offset &&
      n.span.start.offset ≤ n.span.stop.offset && n.span.stop.offset ≤ source.size

def absence : String := "invalid tree: missing root"

def child? (p : Shape → Bool) (t : Tree) : Option Tree := t.children.find? (p ·.shape)

def qualifiedName? (t : Tree) : Option String :=
  match t.shape with
  | .qualifiedSymbol =>
    if t.children.isEmpty then none
    else some ("/".intercalate (t.children.filterMap fun c => c.shape.word?.map Token.name))
  | _ => none

def namespace? (t : Tree) : Option String := do
  guard (t.shape == .moduleRoot)
  let directive ← t.child? (· == .namespaceDirective)
  (← directive.child? (· == .qualifiedSymbol)).qualifiedName?

def endOfImports (t : Tree) : Location :=
  if t.shape != .moduleRoot then t.span.start
  else
    match (t.children.filter (·.shape == .importDirective)).getLast?,
        t.child? (· == .namespaceDirective) with
    | some i, _ => i.span.stop
    | none, some n => n.span.stop
    | none, none => .origin

end Tree

end Parlance
