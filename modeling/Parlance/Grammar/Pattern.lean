import Parlance.Grammar.State
/-!
Type expressions, parameters and the patterns of messages.
-/
namespace Parlance.Grammar

def typeArgumentList (argument : Nat → Reader (Option Twig)) (up : Nat) : Reader Twig := do
  let b ← openNode up
  discard advance
  let ts ← loop [] fun ts => do
    if ← isAtAny [.closeAngle, .eof] then return .done ts
    match ← required .typeArgument (argument b.id) with
    | none => return .done ts
    | some t =>
      if ← eat .comma then return .yield (ts ++ [t])
      return .done (ts ++ [t])
  discard (expect .closeAngle .closeAngle)
  close b .typeArgumentList ts

def typeExpressionWith (argument : Nat → Reader (Option Twig)) (up : Nat) : Reader (Option Twig) := do
  if !(← isAt .symbol) then return none
  let b ← openNode up
  if ← isAtSymbol "Self" then
    discard advance
    return some (← close b .selfType [])
  let name ← symbol b.id
  if ← isAt .openAngle then
    let list ← typeArgumentList argument b.id
    return some (← close b .typeReference (name.toList ++ [list]))
  return some (← close b .typeReference name.toList)

def typeExpressionUpTo : Nat → Nat → Reader (Option Twig)
  | 0, _ => cutOff none
  | depth + 1, up => typeExpressionWith (typeExpressionUpTo depth) up

def typeExpression (up : Nat) : Reader (Option Twig) := do typeExpressionUpTo ((← left) + 1) up

def operator (up : Nat) : Reader Twig := do
  let b ← openNode up
  let first ← advance
  let word ← loop first fun word => do
    let next ← peek
    if first.kind == .closeAngle && next.kind == .closeAngle &&
        next.span.start.offset == word.span.stop.offset then
      discard advance
      return .yield { word with
        text := word.text ++ next.text
        span := { word.span with stop := next.span.stop } }
    return .done word
  close b (.operator { word with kind := .operator }) []

def parameter (up : Nat) : Reader (Option Twig) := do
  if !(← isAt .symbol) then return none
  let b ← openNode up
  let next ← kindAhead 1
  let typed := next == .openAngle || (next == .symbol && (← kindAhead 2) != .colon)
  let type ← if typed then typeExpression b.id else pure none
  let name ← expectSymbol .parameterName b.id
  return some (← close b .parameter (type.toList ++ name.toList))

/-- The symbol of a keyword covers its colon. -/
def keywordPair (value : Nat → Reader (Option Twig)) (up : Nat) : Reader Twig := do
  let b ← openNode up
  let key ← openNode b.id
  let word ← advance
  discard advance
  let keyword ← close key (.symbol word) []
  let v ← value b.id
  close b .keywordPair (keyword :: v.toList)

def keywordPattern (up : Nat) : Reader Twig := do
  let b ← openNode up
  let pairs ← many isAtKeyword (keywordPair (fun i => required .parameter (parameter i)) b.id)
  if pairs.isEmpty then miss .keyword
  close b .keywordPattern pairs

def pattern (up : Nat) : Reader Twig := do
  if ← isAtKeyword then keywordPattern up
  else if ← isAt .symbol then
    let b ← openNode up
    let name ← symbol b.id
    close b .unaryPattern name.toList
  else
    let b ← openNode up
    let op ← operator b.id
    let p ← required .parameter (parameter b.id)
    close b .binaryPattern (op :: p.toList)

def returnType (up : Nat) : Reader (Option Twig) := do
  if !(← isAt .arrow) then return none
  let b ← openNode up
  discard advance
  let type ← required .returnType (typeExpression b.id)
  return some (← close b .returnType type.toList)

def signature (up : Nat) : Reader (Option Twig) := do
  if !(← isAt .symbol) && !(← isAtBinary) then return none
  let b ← openNode up
  let p ← pattern b.id
  let r ← returnType b.id
  return some (← close b .signature (p :: r.toList))

end Parlance.Grammar
