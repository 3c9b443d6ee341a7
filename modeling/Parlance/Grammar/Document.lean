import Parlance.Grammar.Declaration
/-!
Whole sources: modules, which hold declarations, and lines, which hold statements.
-/
namespace Parlance

namespace Grammar

def qualifiedSymbol (up : Nat) : Reader (Option Twig) := do
  if !(← isAt .symbol) then
    miss .qualifiedSymbol
    return none
  let b ← openNode up
  let first ← symbol b.id
  let names ← loop first.toList fun names => do
    if !(← eat .slash) then return .done names
    match ← expectSymbol .symbolAfterSlash b.id with
    | some name => return .yield (names ++ [name])
    | none => return .done names
  return some (← close b .qualifiedSymbol names)

def namespaceDirective (up : Nat) : Reader Twig := do
  let b ← openNode up
  discard advance
  let name ← qualifiedSymbol b.id
  expectPeriod
  close b .namespaceDirective name.toList

def importDirective (up : Nat) : Reader Twig := do
  let b ← openNode up
  discard advance
  let name ← qualifiedSymbol b.id
  let renamed ← if ← eat .kwAs then expectSymbol .importAlias b.id else pure none
  expectPeriod
  close b .importDirective (name.toList ++ renamed.toList)

/-- The children of a module: its namespace, its imports and its declarations, in this order
wherever they stand. A namespace that does not come first is dropped. -/
def moduleParts (up : Nat) : Reader (List Twig) := do
  let name ← if ← isAt .kwNamespace then some <$> namespaceDirective up else pure none
  let (imports, declarations) ← loop (([], []) : List Twig × List Twig) fun (is, ds) => do
    match ← kindAhead 0 with
    | .eof => return .done (is, ds)
    | .kwImport => return .yield (is ++ [← importDirective up], ds)
    | .kwNamespace =>
      remark (← here) .lateNamespace
      drop (← namespaceDirective up)
      return .yield (is, ds)
    | _ =>
      match ← declaration up with
      | some d => return .yield (is, ds ++ [d])
      | none =>
        miss .declaration
        discard advance
        return .yield (is, ds)
  return name.toList ++ imports ++ declarations

/-- A statement may leave its period out at the end of a line. -/
def endStatement : Reader Unit := do
  if !(← isAt .eof) then expectPeriod

def directiveNames : List Bytes := ["t", "type", "b", "behaviours"].map Bytes.ofString

/-- `:name expression`. A name that is missing is taken to be the word that stands there. -/
def lineDirective (up : Nat) : Reader Twig := do
  let b ← openNode up
  discard advance
  let word ← peek
  if ← expect .symbol .directiveName then
    if !directiveNames.contains word.text then remark word.span (.unknownDirective word.name)
  let e ← required .expression (expression b.id)
  endStatement
  close b (.lineDirective word) e.toList

def lineExpression (up : Nat) : Reader (Option Twig) := do
  let b ← openNode up
  match ← expression b.id with
  | none => return none
  | some e =>
    let statement ← close b .lineExpression [e]
    endStatement
    return some statement

def statement (up : Nat) : Reader (Option Twig) := do
  match ← kindAhead 0 with
  | .colon => some <$> lineDirective up
  | .kwImport => some <$> importDirective up
  | .kwExport | .kwPartial | .kwClass | .kwLet => declaration up
  | _ => lineExpression up

def lineParts (up : Nat) : Reader (List Twig) := manyUntil [.eof] (statement up) .expression

def rootShape (s : Source) : Shape := if s.kind.isLine then .lineRoot else .moduleRoot

/-- All of a source, which the root covers. -/
def text (s : Source) : Reader Twig := do
  let root : Bud := ⟨0, none, .origin⟩
  let parts ← if s.kind.isLine then lineParts root.id else moduleParts root.id
  add root (rootShape s) ⟨s.uri, .origin, s.endLocation⟩ parts

end Grammar

structure Document where
  source : Source
  tree : Tree
  remarks : List Diagnostic
  deriving Repr, Inhabited

namespace Source

/-- Reads a source. With `room` only that many remarks are kept. -/
def parse (s : Source) (room : Option Nat) : Document :=
  let (root, final) := (Grammar.text s).run (.start s room)
  ⟨s, final.arena.tree final.arena.size root.id, final.remarks.reverse⟩

end Source

end Parlance
