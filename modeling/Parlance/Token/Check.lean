import Parlance.Token.Kind
/-!
What a stream of words must satisfy: offsets never go back, spans stay within the text, and one end
mark closes the stream.
-/
namespace Parlance

namespace Token

inductive Fault where
  | noTokens
  | misplaced (index : Nat) (kind : Kind) (start stop last : Int) (size : Nat)
  | strayEnd (index : Nat)
  deriving DecidableEq, Repr

def Fault.message : Fault → String
  | noTokens => "empty token stream"
  | misplaced i kind start stop last size =>
    s!"token {i} ({kind.name}): span {start}..{stop} after offset {last} of {size}"
  | strayEnd i => s!"token {i}: EOF must close the stream and appear once"

def firstFault? (size : Nat) (tokens : List Token) : Option Fault :=
  if tokens.isEmpty then some .noTokens else go 0 0 tokens
where
  go (i : Nat) (last : Int) : List Token → Option Fault
    | [] => none
    | t :: rest =>
      let start := t.span.start.offset
      let stop := t.span.stop.offset
      if start < last || stop < start || stop > size then
        some (.misplaced i t.kind start stop last size)
      else if (t.kind == .eof) != rest.isEmpty then some (.strayEnd i)
      else go (i + 1) start rest

end Token

end Parlance
