import Parlance.Text.Hex
/-!
JSON texts. Fields keep their order. Strings may hold any bytes: `<`, `>`, `&`, the two separators of
lines and stray bytes are escaped, so that the text can stand anywhere.
-/
namespace Parlance

inductive JsonValue where
  | null
  | bool (b : Bool)
  | int (n : Int)
  | str (s : Bytes)
  | list (items : List JsonValue)
  | record (fields : List (String × JsonValue))
  deriving Repr, Inhabited

namespace JsonValue

def ofString (s : String) : JsonValue := .str (Bytes.ofString s)

def ofNat (n : Nat) : JsonValue := .int n

def escaped (c : Char) (size : Nat) : String :=
  if c = '"' then "\\\""
  else if c = '\\' then "\\\\"
  else if c = '\n' then "\\n"
  else if c = '\r' then "\\r"
  else if c = '\t' then "\\t"
  else if c = Char.ofNat 8 then "\\b"
  else if c = Char.ofNat 12 then "\\f"
  else if c.toNat < 32 || c = '<' || c = '>' || c = '&' || c.toNat = 0x2028 || c.toNat = 0x2029 ||
      (c = Utf8.replacement && size = 1) then "\\u" ++ Hex.lower 4 c.toNat
  else c.toString

def quote (s : Bytes) : String :=
  "\"" ++ String.join ((Utf8.runes s).map fun (c, n) => escaped c n) ++ "\""

def flat (opening closing : String) (parts : List String) : String :=
  opening ++ ",".intercalate parts ++ closing

def tall (indent opening closing : String) (parts : List String) : String :=
  if parts.isEmpty then opening ++ closing
  else
    opening ++ "\n" ++ ",\n".intercalate (parts.map (indent ++ "  " ++ ·)) ++ "\n" ++ indent ++ closing

mutual

def compact : JsonValue → String
  | null => "null"
  | bool b => if b then "true" else "false"
  | int n => toString n
  | str s => quote s
  | list items => flat "[" "]" (compactAll items)
  | record fields => flat "\x7b" "\x7d" (compactFields fields)

def compactAll : List JsonValue → List String
  | [] => []
  | v :: vs => compact v :: compactAll vs

def compactFields : List (String × JsonValue) → List String
  | [] => []
  | (k, v) :: fs => (quote (Bytes.ofString k) ++ ":" ++ compact v) :: compactFields fs

end

mutual

def indented (indent : String) : JsonValue → String
  | list items => tall indent "[" "]" (indentedAll (indent ++ "  ") items)
  | record fields => tall indent "\x7b" "\x7d" (indentedFields (indent ++ "  ") fields)
  | null => "null"
  | bool b => if b then "true" else "false"
  | int n => toString n
  | str s => quote s

def indentedAll (indent : String) : List JsonValue → List String
  | [] => []
  | v :: vs => indented indent v :: indentedAll indent vs

def indentedFields (indent : String) : List (String × JsonValue) → List String
  | [] => []
  | (k, v) :: fs => (quote (Bytes.ofString k) ++ ": " ++ indented indent v) :: indentedFields indent fs

end

def page (v : JsonValue) : String := v.indented "" ++ "\n"

end JsonValue

end Parlance
