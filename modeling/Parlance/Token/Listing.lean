import Parlance.Text.Json
import Parlance.Text.Quoted
import Parlance.Token.Kind
/-!
Words listed for a reader or as JSON.
-/
namespace Parlance.Token

def listed (tokens : List Token) (trivia : Bool) : List Token :=
  tokens.filter fun t => trivia || !t.kind.isTrivia

def row (number : Nat) (t : Token) : String :=
  Text.padLeft (toString number) 3 ++ ": " ++ Text.padRight t.kind.name 18 ++ " " ++
    Text.padRight (Quoted.write t.text) 20 ++ " at " ++ t.span.start.render ++ "-" ++
    t.span.stop.render ++ "\n"

def listing (tokens : List Token) (trivia : Bool) : String :=
  String.join ((listed tokens trivia).mapIdx fun i t => row (i + 1) t)

def record (t : Token) : JsonValue :=
  .record <|
    ("kind", .ofString t.kind.name) ::
    (if t.text.isEmpty then [] else [("text", .str t.text)]) ++
    [("line", .ofNat t.span.start.line), ("character", .int t.span.start.character),
      ("start_byte", .int t.span.start.offset), ("end_byte", .int t.span.stop.offset)]

def listingJson (tokens : List Token) (trivia : Bool) : String :=
  (JsonValue.list ((listed tokens trivia).map record)).page

end Parlance.Token
