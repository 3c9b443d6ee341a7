import Parlance.Grammar.Literal
import Parlance.Grammar.Pattern
/-!
Expressions. Unary messages bind tighter than binary ones and these tighter than keyword messages;
chains lean to the left. Every level is given the reader of the innermost level, `primary`.
-/
namespace Parlance.Grammar

def unaryMessage (up : Nat) : Reader Twig := do
  let b ← openNode up
  let name ← symbol b.id
  close b .unaryMessage name.toList

/-- The receiver, which stood below `up` itself, comes to stand below the send. -/
def sendTo (up : Nat) (start : Location) (receiver : Twig) (message : Nat → Reader Twig) : Reader Twig := do
  let b ← openAt up start
  reparent b.id [receiver]
  let m ← message b.id
  close b .send [receiver, m]

def isAtUnary : Reader Bool := do
  return (← kindAhead 0) == .symbol && (← kindAhead 1) != .colon

def sendChain (receiver : Nat → Reader (Option Twig)) (more : Reader Bool) (message : Nat → Reader Twig)
    (up : Nat) : Reader (Option Twig) := do
  let start ← position
  match ← receiver up with
  | none => return none
  | some r => some <$> loop r fun r => do
    if ← more then return .yield (← sendTo up start r message)
    return .done r

section

variable (primary : Nat → Reader (Option Twig))

def unaryExpression (up : Nat) : Reader (Option Twig) := sendChain primary isAtUnary unaryMessage up

def binaryMessage (up : Nat) : Reader Twig := do
  let b ← openNode up
  let op ← operator b.id
  let operand ← required .expression (unaryExpression primary b.id)
  close b .binaryMessage (op :: operand.toList)

def binaryExpression (up : Nat) : Reader (Option Twig) :=
  sendChain (unaryExpression primary) isAtBinary (binaryMessage primary) up

def argument (up : Nat) : Reader (Option Twig) := required .expression (binaryExpression primary up)

def keywordMessage (up : Nat) : Reader Twig := do
  let b ← openNode up
  let pairs ← many isAtKeyword (keywordPair (argument primary) b.id)
  close b .keywordMessage pairs

def keywordExpression (up : Nat) : Reader (Option Twig) := do
  let start ← position
  match ← binaryExpression primary up with
  | none => return none
  | some r =>
    if ← isAtKeyword then return some (← sendTo up start r (keywordMessage primary))
    return some r

def cascaded (up : Nat) : Reader (Option Twig) := do
  if ← isAtKeyword then return some (← keywordMessage primary up)
  if ← isAt .symbol then return some (← unaryMessage up)
  if ← isAtBinary then return some (← binaryMessage primary up)
  miss .message
  return none

/-- The send is taken apart, and its receiver and its message come to stand below the cascade. -/
def cascade (up : Nat) (first : Twig) : Reader Twig := do
  match first.shape with
  | .send =>
    let b ← openAt up first.span.start
    reparent b.id first.children
    remove first
    let messages ← loop [] fun ms => do
      if ← eat .semicolon then
        let m ← cascaded primary b.id
        return .yield (ms ++ m.toList)
      return .done ms
    close b .cascade (first.children ++ messages)
  | _ =>
    remark (← here) .cascadeWithoutSend
    discard advance
    return first

def expressionWith (up : Nat) : Reader (Option Twig) := do
  match ← keywordExpression primary up with
  | none => return none
  | some e =>
    if ← isAt .semicolon then return some (← cascade primary up e)
    return some e

end

section

variable (expression : Nat → Reader (Option Twig))

/-- `Type name = expression`; the word `let` has been read. -/
def letBindingWith (b : Bud) : Reader Twig := do
  let equals := Bytes.ofString "="
  let next ← ahead 1
  let untyped := (← kindAhead 0) == .symbol && next.kind == .operator && next.text == equals
  let type ← if untyped then pure none else typeExpression b.id
  let name ← expectSymbol .bindingName b.id
  let word ← peek
  if word.kind == .operator && word.text == equals then
    discard advance
    let value ← required .expression (expression b.id)
    close b .letBinding (type.toList ++ name.toList ++ value.toList)
  else
    miss .equals
    close b .letBinding (type.toList ++ name.toList)

def letExpression (up : Nat) : Reader Twig := do
  let b ← openNode up
  discard advance
  let binding ← letBindingWith expression (← openNode b.id)
  expectPeriod
  let body ← required .expression (expression b.id)
  close b .letExpression (binding :: body.toList)

end

/-- Expressions without messages, when those within them are read by `primary`. Takes nothing if the
next word starts no expression. -/
def primaryWith (primary : Nat → Reader (Option Twig)) (up : Nat) : Reader (Option Twig) := do
  match ← kindAhead 0 with
  | .string | .character | .symbolLiteral | .integer | .float => some <$> literal up
  | .operator => if ← isAtNegative then some <$> negativeNumber up else return none
  | .kwSelf => some <$> leaf (fun _ => .selfReference) up
  | .symbol =>
    let b ← openNode up
    let name ← symbol b.id
    some <$> close b .reference name.toList
  | .openParen =>
    let b ← openNode up
    discard advance
    let e ← required .expression (expressionWith primary b.id)
    discard (expect .closeParen .closeParen)
    some <$> close b .tuple e.toList
  | .kwLet => some <$> letExpression (expressionWith primary) up
  | .kwPanic =>
    let b ← openNode up
    discard advance
    let e ← required .expression (keywordExpression primary b.id)
    some <$> close b .panicExpression e.toList
  | _ => return none

def primaryUpTo : Nat → Nat → Reader (Option Twig)
  | 0, _ => cutOff none
  | depth + 1, up => primaryWith (primaryUpTo depth) up

/-- Every level of nesting takes a word, so there are not more levels than words left. -/
def primary (up : Nat) : Reader (Option Twig) := do primaryUpTo ((← left) + 1) up

def expression (up : Nat) : Reader (Option Twig) := expressionWith primary up

end Parlance.Grammar
