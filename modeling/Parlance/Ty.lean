import Parlance.Program
/-!
Types, and behaviours, which say what a value of a type answers to a message.
-/
namespace Parlance

inductive MessageForm where
  | unary
  | binary
  | keyword
  deriving DecidableEq, Repr, Inhabited

/-- A class or a type parameter is known by the position of its declaration. -/
inductive Ty where
  /-- Nothing is known; it fits everywhere, so that one mistake is reported once. -/
  | unknown
  | self (of : Ty)
  | object (name : String) (id : Nat) (arguments : List Ty)
  | classObject (name : String) (id : Nat) (arguments : List Ty)
  | parameter (name : String) (id : Nat) (arguments : List Ty)
  | symbol (value : String)
  | integerLiteral
  | floatLiteral
  | behaviour (method : Nat) (receiver : Ty) (form : MessageForm) (parts : List String)
      (arguments : List Ty) (result : Ty)
  deriving Repr, Inhabited

structure Behaviour where
  method : Nat
  receiver : Ty
  form : MessageForm
  /-- The name, the operator, or the keywords without their colons. -/
  parts : List String
  arguments : List Ty
  result : Ty
  deriving Repr, Inhabited

def Behaviour.type (b : Behaviour) : Ty :=
  .behaviour b.method b.receiver b.form b.parts b.arguments b.result

def MessageForm.selector (form : MessageForm) (parts : List String) : String :=
  match form with
  | .keyword => String.join (parts.map (· ++ ":"))
  | _ => parts.headD ""

def Behaviour.selector (b : Behaviour) : String := b.form.selector b.parts

namespace Ty

def isUnknown : Ty → Bool
  | unknown => true
  | _ => false

def withArguments (args : List Ty) : Ty → Ty
  | object name id _ => object name id args
  | parameter name id _ => parameter name id args
  | t => t

def keywordTexts : List String → List String → List String
  | [], _ => []
  | k :: ks, [] => (k ++ ": ?") :: keywordTexts ks []
  | k :: ks, a :: as => (k ++ ": " ++ a) :: keywordTexts ks as

def behaviourText (form : MessageForm) (parts : List String) (receiver result : String)
    (arguments : List String) : String :=
  let message :=
    match form with
    | .unary => form.selector parts
    | .binary => form.selector parts ++ " " ++ arguments.headD "?"
    | .keyword => " ".intercalate (keywordTexts parts arguments)
  receiver ++ " " ++ message ++ " -> " ++ result

def applied (name : String) (arguments : List String) : String :=
  if arguments.isEmpty then name else name ++ "<" ++ ", ".intercalate arguments ++ ">"

mutual

def render : Ty → String
  | unknown => "?"
  | self _ => "Self"
  | object name _ args => applied name (renderAll args)
  | classObject name _ args => applied name (renderAll args) ++ " class"
  | parameter name _ args => applied name (renderAll args)
  | symbol value => "#" ++ value
  | integerLiteral => "Integer"
  | floatLiteral => "Float"
  | behaviour _ receiver form parts args result =>
    behaviourText form parts (render receiver) (render result) (renderAll args)

def renderAll : List Ty → List String
  | [] => []
  | t :: ts => render t :: renderAll ts

end

abbrev Substitution := List (Nat × Ty)

mutual

def subst (m : Substitution) : Ty → Ty
  | parameter name id args =>
    match m.lookup id with
    | some t => t
    | none => parameter name id (substAll m args)
  | object name id args => object name id (substAll m args)
  | classObject name id args => classObject name id (substAll m args)
  | self t => self (subst m t)
  | behaviour method receiver form parts args result =>
    behaviour method (subst m receiver) form parts (substAll m args) (subst m result)
  | t => t

def substAll (m : Substitution) : List Ty → List Ty
  | [] => []
  | t :: ts => subst m t :: substAll m ts

end

mutual

def bindSelf (receiver : Ty) : Ty → Ty
  | self _ => receiver
  | object name id args => object name id (bindSelfAll receiver args)
  | parameter name id args => parameter name id (bindSelfAll receiver args)
  | t => t

def bindSelfAll (receiver : Ty) : List Ty → List Ty
  | [] => []
  | t :: ts => bindSelf receiver t :: bindSelfAll receiver ts

end

mutual

def same : Ty → Ty → Bool
  | unknown, unknown => true
  | self a, self b => same a b
  | object _ i as, object _ j bs => i == j && sameAll as bs
  | classObject _ i as, classObject _ j bs => i == j && sameAll as bs
  | parameter _ i as, parameter _ j bs => i == j && sameAll as bs
  | symbol a, symbol b => a == b
  | integerLiteral, integerLiteral => true
  | floatLiteral, floatLiteral => true
  | behaviour m _ _ _ _ _, behaviour n _ _ _ _ _ => m == n
  | _, _ => false

def sameAll : List Ty → List Ty → Bool
  | [], [] => true
  | a :: as, b :: bs => same a b && sameAll as bs
  | _, _ => false

end

def argument (args : List Ty) (i : Nat) : Ty := (args[i]?).getD unknown

end Ty

namespace Behaviour

def render (b : Behaviour) : String := b.type.render

def subst (m : Ty.Substitution) (b : Behaviour) : Behaviour :=
  { b with
    receiver := b.receiver.subst m
    arguments := Ty.substAll m b.arguments
    result := b.result.subst m }

def bindSelf (receiver : Ty) (b : Behaviour) : Behaviour :=
  { b with
    receiver
    arguments := Ty.bindSelfAll receiver b.arguments
    result := Ty.bindSelf receiver b.result }

end Behaviour

namespace Program

def substitution (p : Program) (n : Option Node) (args : List Ty) : Ty.Substitution :=
  ((n.map p.typeParameters).getD []).mapIdx fun i t => (t.id, Ty.argument args i)

end Program

end Parlance
