import Parlance.Text.Graphic
/-!
Quoted texts and characters: writing with escapes for what cannot be printed, and reading them
back. Texts are bytes; a byte that is no part of a character is written `\xNN`.
-/
namespace Parlance.Quoted

def escaped (c : Char) (quote : Char) : List Char :=
  if c = quote || c = '\\' then ['\\', c]
  else if Text.isPrintable c then [c]
  else match c.toNat with
    | 7 => ['\\', 'a']
    | 8 => ['\\', 'b']
    | 9 => ['\\', 't']
    | 10 => ['\\', 'n']
    | 11 => ['\\', 'v']
    | 12 => ['\\', 'f']
    | 13 => ['\\', 'r']
    | n =>
      if n < 0x20 || n = 0x7f then '\\' :: 'x' :: Hex.fixed Hex.lowerDigit 2 n
      else if n < 0x10000 then '\\' :: 'u' :: Hex.fixed Hex.lowerDigit 4 n
      else '\\' :: 'U' :: Hex.fixed Hex.lowerDigit 8 n

def body (quote : Char) : Nat → Bytes → List Char
  | _, [] => []
  | skip + 1, _ :: bs => body quote skip bs
  | 0, b :: bs =>
    let (c, n) := Utf8.decodeFrom b bs
    if c = Utf8.replacement && n = 0 then
      '\\' :: 'x' :: Hex.fixed Hex.lowerDigit 2 b.toNat ++ body quote 0 bs
    else escaped c quote ++ body quote n bs

def write (s : Bytes) : String := String.ofList ('"' :: body '"' 0 s ++ ['"'])

def writeString (s : String) : String := write (Bytes.ofString s)

def charOf (code : Nat) : Char := if code.isValidChar then Char.ofNat code else Utf8.replacement

def writeChar (code : Nat) : String := String.ofList ('\'' :: escaped (charOf code) '\'' ++ ['\''])

inductive Piece where
  | char (c : Char)
  | byte (b : UInt8)
  deriving DecidableEq, Repr

def Piece.bytes : Piece → Bytes
  | char c => Utf8.encodeChar c
  | byte b => [b]

def readHex (n : Nat) (s : Bytes) : Option (Nat × Bytes) :=
  if s.length < n then none
  else do
    let v ← (s.take n).foldlM (fun v b => (Hex.value? (Char.ofNat b.toNat)).map (v * 16 + ·)) 0
    some (v, s.drop n)

def isOctal (b : UInt8) : Bool := 48 ≤ b && b ≤ 55

def readEscape (quote : UInt8) : Bytes → Option (Piece × Bytes)
  | [] => none
  | c :: s =>
    match Char.ofNat c.toNat with
    | 'a' => some (.byte 7, s)
    | 'b' => some (.byte 8, s)
    | 'f' => some (.byte 12, s)
    | 'n' => some (.byte 10, s)
    | 'r' => some (.byte 13, s)
    | 't' => some (.byte 9, s)
    | 'v' => some (.byte 11, s)
    | 'x' => (readHex 2 s).map fun (v, s) => (.byte v.toUInt8, s)
    | 'u' => (readHex 4 s).bind fun (v, s) =>
      if v.isValidChar then some (.char (Char.ofNat v), s) else none
    | 'U' => (readHex 8 s).bind fun (v, s) =>
      if v.isValidChar then some (.char (Char.ofNat v), s) else none
    | '\\' => some (.byte c, s)
    | '\'' => if c = quote then some (.byte c, s) else none
    | '"' => if c = quote then some (.byte c, s) else none
    | _ =>
      match s with
      | d :: e :: s =>
        if isOctal c && isOctal d && isOctal e then
          let v := (c.toNat - 48) * 64 + (d.toNat - 48) * 8 + (e.toNat - 48)
          if v > 255 then none else some (.byte v.toUInt8, s)
        else none
      | _ => none

def readPiece (quote b : UInt8) (bs : Bytes) : Option (Piece × Bytes) :=
  if b = quote || b = 10 then none
  else if b ≥ 0x80 then let (c, n) := Utf8.decodeFrom b bs; some (.char c, bs.drop n)
  else if b = 92 then readEscape quote bs
  else some (.byte b, bs)

/-- The units up to the closing quote, and what follows it; a unit takes at least one byte. -/
def readPieces (quote : UInt8) : Nat → Bytes → Option (List Piece × Bytes)
  | 0, _ => none
  | _, [] => none
  | fuel + 1, b :: bs =>
    if b = quote then some ([], bs)
    else do
      let (p, bs) ← readPiece quote b bs
      if quote = 39 then
        match bs with
        | 39 :: bs => some ([p], bs)
        | _ => none
      else
        let (ps, bs) ← readPieces quote fuel bs
        some (p :: ps, bs)

def readRaw : Bytes → Option (Bytes × Bytes)
  | [] => none
  | b :: bs => if b = 96 then some ([], bs) else (readRaw bs).map fun (s, rest) => (b :: s, rest)

/-- The value of the quoted text that `s` begins with, and the bytes after it. Between apostrophes
stands one character or nothing; between backquotes everything stands for itself, but carriage
returns are left out. -/
def read? : Bytes → Option (Bytes × Bytes)
  | [] => none
  | b :: bs =>
    if b = 34 || b = 39 then
      match readPieces b (bs.length + 1) bs with
      | some (ps, rest) => some (ps.flatMap Piece.bytes, rest)
      | none => none
    else if b = 96 then (readRaw bs).map fun (s, rest) => (s.filter (· != 13), rest)
    else none

def value? (s : Bytes) : Option Bytes :=
  match read? s with
  | some (v, []) => some v
  | _ => none

end Parlance.Quoted
