import Parlance.Grammar.Expression
/-!
Classes and their members, global bindings and exports.
-/
namespace Parlance.Grammar

def variance? : Token.Kind → Option Variance
  | .kwIn => some .input
  | .kwOut => some .output
  | .kwInout => some .both
  | _ => none

def typeParameter (up : Nat) : Reader (Option Twig) := do
  if !(← isAtAny [.kwIn, .kwOut, .kwInout, .symbol]) then return none
  let b ← openNode up
  let v := variance? (← kindAhead 0)
  if v.isSome then discard advance
  let name ← expectSymbol .typeParameterName b.id
  return some (← close b (.typeParameter (v.getD .invariant)) name.toList)

def typeParameterList (up : Nat) : Reader Twig := do
  let b ← openNode up
  discard advance
  let ts ← loop [] fun ts => do
    if ← isAtAny [.closeAngle, .eof, .openCurly, .period] then return .done ts
    match ← typeParameter b.id with
    | none =>
      miss .typeParameter
      discard advance
      return .yield ts
    | some t =>
      if ← eat .comma then return .yield (ts ++ [t])
      return .done (ts ++ [t])
  discard (expect .closeAngle .closeAngle)
  close b .typeParameterList ts

def isMember (up : Nat) : Reader Twig := do
  let b ← openNode up
  discard advance
  let type ← required .typeExpression (typeExpression b.id)
  expectPeriod
  close b .isDirective type.toList

def variableMember (b : Bud) (v : Visibility) : Reader Twig := do
  discard advance
  let type ← typeExpression b.id
  let name ← expectSymbol .variableName b.id
  expectPeriod
  close b (.variableNode v) (type.toList ++ name.toList)

def initializerMember (b : Bud) (v : Visibility) : Reader Twig := do
  discard advance
  let p ← keywordPattern b.id
  let pairs ← do
    if ← expect .fatArrow .fatArrow then
      let pairs ← many isAtKeyword (keywordPair (binaryExpression primary) b.id)
      if pairs.isEmpty then miss .variableAssignment
      pure pairs
    else pure []
  expectPeriod
  close b (.initializer v) (p :: pairs)

def methodBody (up : Nat) : Reader (Option Twig) := do
  if !(← isAt .fatArrow) then return none
  let b ← openNode up
  discard advance
  let e ← required .expression (expression b.id)
  return some (← close b .methodBody e.toList)

/-- A method; nothing is taken when not even a modifier is there. -/
def methodMember (b : Bud) (v : Visibility) : Reader (Option Twig) := do
  let isNative ← eat .kwNative
  let s ← signature b.id
  if s.isNone then
    if v == .unmarked && !isNative then return none
    miss .methodSignature
  let body ← methodBody b.id
  if let some e := body then
    if isNative then remark e.span .nativeBody
  expectPeriod
  return some (← close b (.method v isNative) (s.toList ++ body.toList))

def visibility : Reader Visibility := do
  if ← eat .kwPublic then return .exposed
  if ← eat .kwPrivate then return .concealed
  return .unmarked

def member (up : Nat) : Reader (Option Twig) := do
  if ← isAt .kwIs then return some (← isMember up)
  let b ← openNode up
  let v ← visibility
  let next ← kindAhead 1
  if (← isAtSymbol "var") && next == .symbol then return some (← variableMember b v)
  if (← isAtSymbol "init") && next == .symbol && (← kindAhead 2) == .colon then
    return some (← initializerMember b v)
  methodMember b v

/-- Parts up to the closing word; where none starts, a word is skipped. -/
def manyUntil (stop : List Token.Kind) (part : Reader (Option Twig)) (what : Expected) : Reader (List Twig) :=
  loop [] fun ts => do
    if ← isAtAny stop then return .done ts
    match ← part with
    | some t => return .yield (ts ++ [t])
    | none =>
      miss what
      discard advance
      return .yield ts

def classBody (up : Nat) : Reader Twig := do
  let b ← openNode up
  discard advance
  let members ← manyUntil [.closeCurly, .eof] (member b.id) .classMember
  discard (expect .closeCurly .closeCurly)
  close b .classBody members

def classDeclaration (up : Nat) : Reader Twig := do
  let b ← openNode up
  let isPartial ← eat .kwPartial
  discard (expect .kwClass .classKeyword)
  let name ← expectSymbol .className b.id
  let parameters ← if ← isAt .openAngle then some <$> typeParameterList b.id else pure none
  let body ← do
    if ← isAt .openCurly then some <$> classBody b.id
    else
      if !(← eat .period) then miss .classBody
      pure none
  close b (.classNode isPartial) (name.toList ++ parameters.toList ++ body.toList)

def globalBinding (up : Nat) : Reader Twig := do
  let b ← openNode up
  discard advance
  let binding ← letBindingWith expression b
  expectPeriod
  return binding

/-- Takes nothing if the next word starts no declaration. Less than `depth` exports are read. -/
def declarationUpTo : Nat → Nat → Reader (Option Twig)
  | 0, _ => cutOff none
  | depth + 1, up => do
    match ← kindAhead 0 with
    | .kwExport =>
      let b ← openNode up
      discard advance
      let d ← required .exportedDeclaration (declarationUpTo depth b.id)
      if let some d := d then
        if d.shape == .exported then remark d.span .exportedTwice
      return some (← close b .exported d.toList)
    | .kwPartial | .kwClass => some <$> classDeclaration up
    | .kwLet => some <$> globalBinding up
    | _ => return none

def declaration (up : Nat) : Reader (Option Twig) := do declarationUpTo ((← left) + 1) up

end Parlance.Grammar
