import Parlance.Text.Digit
import Parlance.Text.Letter
import Parlance.Token.Byte
import Parlance.Token.Kind
/-!
How a text falls apart into words. Every scanner says what kind of word a byte starts and how many of the bytes
that follow belong to it. Nothing is refused: what starts no word is of kind `unknown`.
-/
namespace Parlance

namespace Scan

def leading (p : Char → Bool) (s : Bytes) : Nat :=
  go 0 s
where
  go : Nat → Bytes → Nat
    | _, [] => 0
    | skip + 1, _ :: bs => go skip bs + 1
    | 0, b :: bs => let (c, n) := Utf8.decodeFrom b bs; if p c then go n bs + 1 else 0

def leadingBytes (p : UInt8 → Bool) : Bytes → Nat
  | [] => 0
  | b :: bs => if p b then leadingBytes p bs + 1 else 0

def startsIdentifier (c : Char) : Bool := c == '_' || Text.isLetter c

def inIdentifier (c : Char) : Bool := startsIdentifier c || Text.isDigit c

/-- The base that the digits before `#` name, if it is between 2 and 36. A digit counts by its
distance from `0`, and reading stops as soon as the value is over 36. -/
def readBase? (text : Bytes) : Option Nat :=
  (text.foldlM step 0).filter (2 ≤ ·)
where
  step (n : Nat) (b : UInt8) : Option Nat :=
    if b == Byte.underscore then some n
    else
      let m := n * 10 + (b - 48).toNat
      if m > 36 then none else some m

/-- The fraction, when a point and a digit of the base follow; otherwise the point ends a sentence. -/
def fraction (base taken : Nat) : Bytes → Token.Kind × Nat
  | 46 :: c :: bs =>
    if Byte.digitValue c < base then
      (.float, taken + 1 + leadingBytes (fun b => Byte.digitValue b < base || b == Byte.underscore) (c :: bs))
    else (.integer, taken)
  | _ => (.integer, taken)

/-- `123`, `1_000`, `16#FF`, `1.5`, `16#A.8`. A base out of range is read as 36; whoever reads the
value reports it. -/
def number (b : UInt8) (bs : Bytes) : Token.Kind × Nat :=
  let n := leadingBytes (fun b => Byte.isDigit b || b == Byte.underscore) bs
  match bs.drop n with
  | 35 :: c :: cs =>
    if Byte.isDigit c || Byte.isLetter c then
      let base := (readBase? (b :: bs.take n)).getD 36
      let m := leadingBytes (fun b => Byte.isDigit b || Byte.isLetter b || b == Byte.underscore) (c :: cs)
      fraction base (n + 1 + m) ((c :: cs).drop m)
    else fraction 10 n (35 :: c :: cs)
  | rest => fraction 10 n rest

def keywordTexts : List (Bytes × Token.Kind) :=
  Token.Kind.keywords.map fun k => (Bytes.ofString k.name, k)

def identifierKind (text : Bytes) : Token.Kind :=
  if text = [Byte.underscore] then .underscore
  else (keywordTexts.lookup text).getD .symbol

def identifier (b : UInt8) (bs : Bytes) : Token.Kind × Nat :=
  let (c, n) := Utf8.decodeFrom b bs
  if startsIdentifier c then
    let m := n + leading inIdentifier (bs.drop n)
    let k := m + leadingBytes (· == Byte.apostrophe) (bs.drop m)
    (identifierKind (b :: bs.take k), k)
  else (.unknown, n)

def symbolLiteral (bs : Bytes) : Token.Kind × Nat :=
  match bs with
  | [] => (.unknown, 0)
  | b :: rest =>
    if startsIdentifier (Utf8.decodeFrom b rest).1 then
      (.symbolLiteral, leading (fun c => inIdentifier c || c == ':') bs)
    else if Byte.isOperator b then (.symbolLiteral, leadingBytes Byte.isOperator bs)
    else (.unknown, 0)

/-- How many bytes follow the opening quote, the closing one included. A backslash takes the next
character with it, whatever it is; without a closing quote the literal runs to the end. -/
def quotedLength (quote : UInt8) (s : Bytes) : Nat :=
  go 0 false s
where
  go : Nat → Bool → Bytes → Nat
    | _, _, [] => 0
    | skip + 1, escaped, _ :: bs => go skip escaped bs + 1
    | 0, escaped, b :: bs =>
      if !escaped && b == quote then 1
      else if !escaped && b == Byte.backslash then go 0 true bs + 1
      else go (Utf8.decodeFrom b bs).2 false bs + 1

def punctuation? (b : UInt8) : Option Token.Kind :=
  match Char.ofNat b.toNat with
  | ':' => some .colon
  | ';' => some .semicolon
  | ',' => some .comma
  | '.' => some .period
  | '\x7b' => some .openCurly
  | '\x7d' => some .closeCurly
  | '(' => some .openParen
  | ')' => some .closeParen
  | _ => none

def operatorTail : Bytes → Nat
  | 47 :: 47 :: _ => 0
  | b :: bs => if Byte.isOperator b then operatorTail bs + 1 else 0
  | [] => 0

def operatorKind (text : Bytes) : Token.Kind :=
  if text = Bytes.ofString "/" then .slash
  else if text = Bytes.ofString "<" then .openAngle
  else if text = Bytes.ofString "->" then .arrow
  else if text = Bytes.ofString "=>" then .fatArrow
  else .operator

/-- Whether a `>` closes an angle by itself: another `>` or no operator follows, so that nested type
arguments close one by one. -/
def closesAngle (bs : Bytes) : Bool :=
  match bs with
  | b :: _ => b == Byte.greater || !Byte.isOperator b
  | [] => true

/-- Punctuation is one byte long, operators are as long as can be. -/
def operator (b : UInt8) (bs : Bytes) : Token.Kind × Nat :=
  match punctuation? b with
  | some k => (k, 0)
  | none =>
    if !Byte.isOperator b then (.unknown, (Utf8.decodeFrom b bs).2)
    else if b == Byte.greater && closesAngle bs then (.closeAngle, 0)
    else
      let n := operatorTail bs
      (operatorKind (b :: bs.take n), n)

def word (b : UInt8) (bs : Bytes) : Token.Kind × Nat :=
  if Byte.isSpace b then (.whitespace, leadingBytes Byte.isSpace bs)
  else if b == Byte.solidus && bs.head? == some Byte.solidus then
    (.lineComment, leadingBytes (· != Source.newline) bs)
  else if Byte.isDigit b then number b bs
  else if b == Byte.underscore || Byte.isLetter b || b ≥ 0x80 then identifier b bs
  else if b == Byte.quote then (.string, quotedLength b bs)
  else if b == Byte.apostrophe then (.character, quotedLength b bs)
  else if b == Byte.hash then symbolLiteral bs
  else operator b bs

end Scan

structure Lexeme where
  kind : Token.Kind
  text : Bytes
  deriving DecidableEq, Repr, Inhabited

/-- The words of a text, which put together are the text. -/
def lexemes : Bytes → List Lexeme
  | [] => []
  | b :: bs =>
    let (kind, n) := Scan.word b bs
    ⟨kind, b :: bs.take n⟩ :: lexemes (bs.drop n)
termination_by s => s.length
decreasing_by simp only [List.length_cons, List.length_drop]; omega

theorem flatMap_text_lexemes (s : Bytes) : (lexemes s).flatMap (·.text) = s := by
  fun_induction lexemes s with
  | case1 => rfl
  | case2 b bs kind n h ih => simp [ih]

namespace Token

def place (uri : Uri) (start : Location) : List Lexeme → List Token
  | [] => [⟨.eof, [], ⟨uri, start, start⟩⟩]
  | w :: ws =>
    let stop := start.advance w.text
    ⟨w.kind, w.text, ⟨uri, start, stop⟩⟩ :: place uri stop ws

end Token

namespace Source

def tokens (s : Source) : List Token := Token.place s.uri .origin (lexemes s.code)

end Source

end Parlance
