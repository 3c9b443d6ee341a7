import Parlance.Number.Reading
import Parlance.Text.Digit
import Parlance.Toml
/-!
Reading TOML documents.
-/
namespace Parlance.Toml

abbrev Reader := StateT (List Char) Drafting

namespace Reader

def fail {α : Type} : Reader α := failure

def peek : Reader (Option Char) := return (← get).head?

def next : Reader Char := do
  match ← get with
  | c :: cs => set cs; return c
  | [] => fail

def expect (c : Char) : Reader Unit := do if (← next) != c then fail

def takeWhile (p : Char → Bool) : Reader (List Char) := do
  let cs ← get
  set (cs.dropWhile p)
  return cs.takeWhile p

def accept (head : String) : Reader Bool := do
  let cs ← get
  if head.toList.isPrefixOf cs then
    set (cs.drop head.length)
    return true
  return false

def isSpace (c : Char) : Bool := c = ' ' || c = '\t'

def isBreak (c : Char) : Bool := c = '\n' || c = '\r'

def skipSpaces : Reader Unit := do let _ ← takeWhile isSpace

def skipComment : Reader Unit := do let _ ← takeWhile (!isBreak ·)

/-! ### Text -/

def hexValue? (cs : List Char) : Option Nat :=
  cs.foldlM (fun n c => (Hex.value? c).map (16 * n + ·)) 0

def escape : Reader Char := do
  let code (n : Nat) : Reader Char := do
    let cs ← get
    if cs.length < n then fail
    set (cs.drop n)
    match hexValue? (cs.take n) with
    | some v => if v.isValidChar then return Char.ofNat v else fail
    | none => fail
  match ← next with
  | 'b' => return Char.ofNat 8
  | 't' => return '\t'
  | 'n' => return '\n'
  | 'f' => return Char.ofNat 12
  | 'r' => return '\r'
  | '"' => return '"'
  | '\\' => return '\\'
  | 'u' => code 4
  | 'U' => code 8
  | _ => fail

def basicText : Nat → Reader (List Char)
  | 0 => fail
  | fuel + 1 => do
    match ← next with
    | '"' => return []
    | '\\' => return (← escape) :: (← basicText fuel)
    | c => if isBreak c then fail else return c :: (← basicText fuel)

def literalText : Reader (List Char) := do
  let cs ← takeWhile fun c => !isBreak c && c != '\''
  expect '\''
  return cs

/-- At the closing quotes, of which up to two more belong to the text before them. -/
def closing (quote : Char) : Reader (Option (List Char)) := do
  let cs ← get
  let n := (cs.takeWhile (· = quote)).length
  if n < 3 then return none
  if n > 5 then fail
  set (cs.drop n)
  return some (List.replicate (n - 3) quote)

/-- A backslash before the end of a line takes away all space up to the next character. -/
def lineEnd : Reader Bool := do
  let cs ← get
  let space := cs.takeWhile fun c => isSpace c || isBreak c
  if space.contains '\n' then
    set (cs.drop space.length)
    return true
  return false

def longText : Nat → Reader (List Char)
  | 0 => fail
  | fuel + 1 => do
    if let some quotes ← closing '"' then return quotes
    match ← next with
    | '\\' => if ← lineEnd then longText fuel else return (← escape) :: (← longText fuel)
    | c => return c :: (← longText fuel)

def longLiteral : Nat → Reader (List Char)
  | 0 => fail
  | fuel + 1 => do
    if let some quotes ← closing '\'' then return quotes
    return (← next) :: (← longLiteral fuel)

def skipFirstBreak : Reader Unit := do
  let _ ← accept "\r"
  let _ ← accept "\n"

def textAfter (fuel : Nat) (quote : Char) : Reader (List Char) := do
  if quote = '"' then
    if ← accept "\"\"" then skipFirstBreak; longText fuel else basicText fuel
  else if ← accept "''" then skipFirstBreak; longLiteral fuel
  else literalText

/-! ### Numbers and moments -/

def underscoresFit (cs : List Char) : Bool :=
  (cs.foldl (fun (ok, digit) c => (ok && (c != '_' || digit), (Hex.value? c).isSome)) (true, false)) |>
    fun (ok, digit) => ok && digit

def leadingZero : List Char → Bool
  | '0' :: c :: _ => !(c = 'b' || c = 'o' || c = 'x')
  | '-' :: '0' :: _ :: _ | '+' :: '0' :: _ :: _ => true
  | _ => false

def withoutUnderscores (cs : List Char) : String := String.ofList (cs.filter (· != '_'))

def integer (cs : List Char) : Reader Value := do
  if !underscoresFit cs || leadingZero cs then fail
  let (base, digits) := match cs with
    | '0' :: 'x' :: rest => (16, rest)
    | '0' :: 'o' :: rest => (8, rest)
    | '0' :: 'b' :: rest => (2, rest)
    | _ => (10, cs)
  let (negative, digits) := Reading.sign digits
  match Reading.natural base 64 (withoutUnderscores digits) with
  | .ok n => if n < Nat.pow 2 63 || (negative && n = Nat.pow 2 63)
    then return .integer (Reading.signed negative n) else fail
  | .error _ => fail

def pointsFit : List Char → Bool
  | '.' :: c :: cs => c.isDigit && pointsFit (c :: cs)
  | ['.'] => false
  | _ :: cs => pointsFit cs
  | [] => true

def float (cs : List Char) : Reader Value := do
  let isMark (c : Char) : Bool := c = '.' || c = 'e' || c = 'E'
  let parts := ((pieces '.' (cs.map fun c => if isMark c then '.' else c)).filter (!·.isEmpty))
  if !parts.all underscoresFit || leadingZero (parts.headD []) || !pointsFit cs then fail
  let s := withoutUnderscores cs
  if (Reading.binary .double s).toOption.isSome then return .real s else fail

def number2? : List Char → Option (Nat × List Char)
  | a :: b :: rest =>
    if a.isDigit && b.isDigit then some ((a.toNat - 48) * 10 + (b.toNat - 48), rest) else none
  | _ => none

def daysIn (year month : Nat) : Nat :=
  if month = 2 then (if year % 4 = 0 && (year % 100 != 0 || year % 400 = 0) then 29 else 28)
  else if [4, 6, 9, 11].contains month then 30 else 31

def dropDate? (cs : List Char) : Option (List Char) := do
  let (century, cs) ← number2? cs
  let (year, cs) ← number2? cs
  let '-' :: cs := cs | none
  let (month, cs) ← number2? cs
  let '-' :: cs := cs | none
  let (day, cs) ← number2? cs
  if 1 ≤ month && month ≤ 12 && 1 ≤ day && day ≤ daysIn (century * 100 + year) month then some cs else none

def dropHour? (cs : List Char) : Option (Nat × List Char) :=
  match number2? cs, cs with
  | some r, _ => some r
  | none, c :: rest => if c.isDigit then some (c.toNat - 48, rest) else none
  | none, [] => none

def dropTime? (cs : List Char) : Option (List Char) := do
  let (hour, cs) ← dropHour? cs
  let ':' :: cs := cs | none
  let (minute, cs) ← number2? cs
  let ':' :: cs := cs | none
  let (second, cs) ← number2? cs
  if hour > 23 || minute > 59 || second > 59 then none
  match cs with
  | '.' :: c :: rest => some (if c.isDigit then rest.dropWhile Char.isDigit else cs)
  | _ => some cs

def isZone : List Char → Bool
  | ['Z'] => true
  | sign :: cs =>
    (sign = '+' || sign = '-') &&
      match number2? cs with
      | some (hour, ':' :: rest) =>
        match number2? rest with
        | some (minute, []) => hour ≤ 24 && minute ≤ 60
        | _ => false
      | _ => false
  | [] => false

def isMoment (cs : List Char) : Bool :=
  dropTime? cs == some [] ||
    match dropDate? cs with
    | some [] => true
    | some ('T' :: rest) =>
      match dropTime? rest with
      | some [] => true
      | some zone => isZone zone
      | none => false
    | _ => false

def momentChar (c : Char) : Char := if c = 'z' then 'Z' else if c = 't' || c = ' ' then 'T' else c

def moment (read : List Char) : Reader Value := do
  let more ← takeWhile fun c => c.isDigit || "-:Tt .Zz+".toList.contains c
  let cs := ((read ++ more).reverse.dropWhile (· = ' ')).reverse.map momentChar
  if isMoment cs then return .moment (String.ofList cs) else fail

def floatAfter (read : List Char) : Reader Value := do
  let more ← takeWhile fun c => c.isDigit || "_.-+eE".toList.contains c
  float (read ++ more)

def isFloatMark (c : Char) : Bool := c = '.' || c = 'e' || c = 'E'

def decimalAfter (read : List Char) : Reader Value := do
  let cs := read ++ (← takeWhile fun c => c.isDigit || c = '_')
  if ((← peek).map isFloatMark).getD false then floatAfter cs else integer cs

def based (mark : Char) (p : Char → Bool) : Reader Value := do
  expect mark
  if !((← peek).map p).getD false then fail
  integer ('0' :: mark :: (← takeWhile fun c => p c || c = '_'))

def numberAfterDigits (cs : List Char) : Reader Value := do
  let cs := cs ++ (← takeWhile Char.isDigit)
  match ← peek with
  | some '-' | some ':' => moment cs
  | _ => decimalAfter cs

def numberOrMoment : Reader Value := do
  if ← accept "0" then
    match ← peek with
    | some 'b' => based 'b' fun c => c = '0' || c = '1'
    | some 'o' => based 'o' fun c => '0' ≤ c && c ≤ '7'
    | some 'x' => based 'x' fun c => (Hex.value? c).isSome
    | some c => if c.isDigit then numberAfterDigits ['0'] else decimalAfter ['0']
    | none => integer ['0']
  else numberAfterDigits []

def signedNumber (sign : Char) : Reader Value := do
  if (← accept "inf") || (← accept "nan") then return .real "inf"
  match ← get with
  | '0' :: 'b' :: _ | '0' :: 'o' :: _ | '0' :: 'x' :: _ => fail
  | c :: _ => if c.isDigit then decimalAfter [sign] else fail
  | [] => fail

/-! ### Keys, values and documents -/

def keyPart (fuel : Nat) : Reader String := do
  skipSpaces
  let part ← match ← peek with
    | some '"' => do expect '"'; basicText fuel
    | some '\'' => do expect '\''; literalText
    | _ => do
      let cs ← takeWhile isBareChar
      if cs.isEmpty then fail
      pure cs
  skipSpaces
  return String.ofList part

def key : Nat → Reader Key
  | 0 => fail
  | fuel + 1 => do
    let part ← keyPart (fuel + 1)
    if ← accept "." then return part :: (← key fuel) else return [part]

def truth : Reader Value := do
  let cs ← takeWhile Char.isAlpha
  if cs = "true".toList then return .flag true
  else if cs = "false".toList then return .flag false
  else fail

def skipLines : Nat → Reader Unit
  | 0 => return ()
  | fuel + 1 => do
    let _ ← takeWhile fun c => isSpace c || isBreak c
    if (← peek) = some '#' then
      skipComment
      skipLines fuel

mutual

/-- A value for a name in the open table. `inList` tells whether it is part of a list. -/
def value (fuel : Nat) (name : String) (inList : Bool) : Reader Value :=
  match fuel with
  | 0 => fail
  | fuel + 1 => do
    skipSpaces
    match ← peek with
    | some '[' =>
      expect '['
      Draft.markList ((← getThe Draft).context ++ [name])
      return .list (← items fuel name)
    | some '\x7b' =>
      expect '\x7b'
      inlineTable fuel name inList
    | some '"' => do expect '"'; return .text (String.ofList (← textAfter fuel '"'))
    | some '\'' => do expect '\''; return .text (String.ofList (← textAfter fuel '\''))
    | some '-' => do expect '-'; signedNumber '-'
    | some '+' => do expect '+'; signedNumber '+'
    | some c =>
      if c.isDigit then numberOrMoment
      else if (← accept "inf") || (← accept "nan") then return .real "inf"
      else truth
    | none => fail

def items (fuel : Nat) (name : String) : Reader (List Value) :=
  match fuel with
  | 0 => fail
  | fuel + 1 => do
    skipLines fuel
    if ← accept "]" then return []
    let v ← value fuel name true
    skipLines fuel
    if ← accept "," then return v :: (← items fuel name)
    expect ']'
    return [v]

def inlineTable (fuel : Nat) (name : String) (inList : Bool) : Reader Value :=
  match fuel with
  | 0 => fail
  | fuel + 1 => do
    let outer := (← getThe Draft).context
    let here := outer ++ [name]
    Draft.markImplicit here
    Draft.openTable here inList
    skipSpaces
    if !(← accept "\x7d") then pairs fuel here
    let d ← getThe Draft
    modifyThe Draft fun d => { d with context := outer }
    return .table ((Fields.table? here d.root).getD [])

def pairs (fuel : Nat) (here : Key) : Reader Unit :=
  match fuel with
  | 0 => fail
  | fuel + 1 => do
    pair fuel
    modifyThe Draft fun d => { d with context := here }
    skipSpaces
    if ← accept "," then
      skipSpaces
      pairs fuel here
    else expect '\x7d'

def pair (fuel : Nat) : Reader Unit :=
  match fuel with
  | 0 => fail
  | fuel + 1 => do
    let k ← key fuel
    expect '='
    Draft.openImplicit k.dropLast
    let name := k.getLastD ""
    let here := (← getThe Draft).context ++ [name]
    Draft.note here
    let v ← value fuel name false
    Draft.assign name v
    match v with
    | .list _ => Draft.markList here
    | _ => Draft.unmarkList here

end

def header (fuel : Nat) : Reader Unit := do
  let several ← accept "["
  let k ← key fuel
  expect ']'
  if several then expect ']'
  Draft.openTable k several
  Draft.unmarkList k
  Draft.note k

def endOfLine : Reader Unit := do
  skipSpaces
  if (← peek) = some '#' then skipComment
  match ← get with
  | [] => return ()
  | c :: _ => if !isBreak c then fail

def document : Nat → Reader Unit
  | 0 => return ()
  | fuel + 1 => do
    skipLines (fuel + 1)
    match ← peek with
    | none => return ()
    | some '[' =>
      expect '['
      header (fuel + 1)
    | some _ =>
      let outer := (← getThe Draft).context
      pair (fuel + 1)
      modifyThe Draft fun d => { d with context := outer }
    endOfLine
    document fuel

end Reader

/-- Control characters have no place in a document, and a carriage return only before a newline. -/
def isPlain : List Char → Bool
  | '\r' :: '\n' :: rest => isPlain rest
  | c :: rest => (c = '\t' || c = '\n' || (32 ≤ c.toNat && c.toNat != 127)) && isPlain rest
  | [] => true

def read? (s : Bytes) : Option Draft := do
  let s := match s with
    | 0xef :: 0xbb :: 0xbf :: rest | 0xff :: 0xfe :: rest | 0xfe :: 0xff :: rest => rest
    | _ => s
  let cs := Utf8.chars s
  if cs.contains Utf8.replacement || !isPlain cs then none
  let (_, d) ← ((Reader.document (4 * cs.length + 8)).run cs).run .empty
  return d

end Parlance.Toml
