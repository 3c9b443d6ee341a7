import Parlance.Token.Scan
/-!
Selectors, the names of messages: a symbol, one binary operator, or keywords each closed by a colon.
-/
namespace Parlance

namespace Selector

/-- The kinds of all words of a text. Blanks are words too, so no selector has any. -/
def kinds (text : Bytes) : List Token.Kind := (lexemes text).map (·.kind)

def isSymbol (text : Bytes) : Bool := kinds text == [.symbol]

def isBinary (text : Bytes) : Bool :=
  match kinds text with
  | [k] => k.isBinaryOperator
  | _ => false

def keywordKinds (arity : Nat) : List Token.Kind :=
  (List.replicate arity [Token.Kind.symbol, .colon]).flatten

def isKeyword (text : Bytes) (arity : Nat) : Bool :=
  arity != 0 && kinds text == keywordKinds arity

/-- The 64-bit FNV-1a hash, under which machines look methods up. -/
def hash (selector : Bytes) : UInt64 :=
  selector.foldl (fun h b => (h ^^^ b.toUInt64) * 1099511628211) 14695981039346656037

end Selector

end Parlance
