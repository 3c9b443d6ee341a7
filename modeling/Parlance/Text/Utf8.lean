/-!
Byte strings read as UTF-8. Reading never fails: a byte that starts no well-formed sequence is one character,
the replacement character.
-/
namespace Parlance

abbrev Bytes := List UInt8

namespace Utf8

def replacement : Char := '�'

def isContinuation (b : UInt8) : Bool := 0x80 ≤ b && b ≤ 0xbf

def payload (b : UInt8) : Nat := b.toNat % 64

/-- The first character of `b :: bs` and how many bytes of `bs` belong to it. -/
def decodeFrom (b : UInt8) (bs : Bytes) : Char × Nat :=
  if b < 0x80 then (Char.ofNat b.toNat, 0)
  else if b < 0xc2 then (replacement, 0)
  else if b < 0xe0 then
    match bs with
    | c :: _ => if isContinuation c then (Char.ofNat (b.toNat % 32 * 64 + payload c), 1)
                else (replacement, 0)
    | _ => (replacement, 0)
  else if b < 0xf0 then
    match bs with
    | c :: d :: _ =>
      let low : UInt8 := if b = 0xe0 then 0xa0 else 0x80
      let high : UInt8 := if b = 0xed then 0x9f else 0xbf
      if low ≤ c && c ≤ high && isContinuation d then
        (Char.ofNat (b.toNat % 16 * 4096 + payload c * 64 + payload d), 2)
      else (replacement, 0)
    | _ => (replacement, 0)
  else if b < 0xf5 then
    match bs with
    | c :: d :: e :: _ =>
      let low : UInt8 := if b = 0xf0 then 0x90 else 0x80
      let high : UInt8 := if b = 0xf4 then 0x8f else 0xbf
      if low ≤ c && c ≤ high && isContinuation d && isContinuation e then
        (Char.ofNat (b.toNat % 8 * 262144 + payload c * 4096 + payload d * 64 + payload e), 3)
      else (replacement, 0)
    | _ => (replacement, 0)
  else (replacement, 0)

def runes (s : Bytes) : List (Char × Nat) :=
  go 0 s
where
  /-- `skip` bytes belong to a character already listed. -/
  go : Nat → Bytes → List (Char × Nat)
    | _, [] => []
    | skip + 1, _ :: bs => go skip bs
    | 0, b :: bs => let (c, n) := decodeFrom b bs; (c, n + 1) :: go n bs

def chars (s : Bytes) : List Char := (runes s).map (·.1)

def toString (s : Bytes) : String := String.ofList (chars s)

def encodeChar (c : Char) : Bytes :=
  let n := c.toNat
  if n < 0x80 then [n.toUInt8]
  else if n < 0x800 then [(0xc0 + n / 64).toUInt8, (0x80 + n % 64).toUInt8]
  else if n < 0x10000 then
    [(0xe0 + n / 4096).toUInt8, (0x80 + n / 64 % 64).toUInt8, (0x80 + n % 64).toUInt8]
  else
    [(0xf0 + n / 262144).toUInt8, (0x80 + n / 4096 % 64).toUInt8, (0x80 + n / 64 % 64).toUInt8,
      (0x80 + n % 64).toUInt8]

def encode (s : String) : Bytes := s.toList.flatMap encodeChar

def units16 (c : Char) : Nat := if c.toNat < 0x10000 then 1 else 2

end Utf8

namespace Bytes

def ofString (s : String) : Bytes := Utf8.encode s

end Bytes

end Parlance
