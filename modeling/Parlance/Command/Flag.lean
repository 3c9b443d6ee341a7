import Parlance.Number.Reading
/-!
The flags of a command: what they take, how they are read, and how they are explained.
-/
namespace Parlance.Command

inductive Flag.Sort where
  | switch
  | text
  | number
  | duration
  deriving DecidableEq, Repr, Inhabited

structure Flag where
  name : String
  short : Option Char
  sort : Flag.Sort
  default : String
  usage : String
  deriving DecidableEq, Repr, Inhabited

namespace Flag

def switch (name usage : String) (short : Option Char := none) : Flag := ⟨name, short, .switch, "false", usage⟩
def text (name default usage : String) (short : Option Char := none) : Flag := ⟨name, short, .text, default, usage⟩
def number (name default usage : String) : Flag := ⟨name, none, .number, default, usage⟩

/-! ### Values -/

def truth? (s : String) : Option Bool :=
  if ["1", "t", "T", "TRUE", "true", "True"].contains s then some true
  else if ["0", "f", "F", "FALSE", "false", "False"].contains s then some false
  else none

def unit? (s : String) : Option Nat :=
  [("ns", 1), ("us", 1000), ("µs", 1000), ("μs", 1000), ("ms", 1000000), ("s", 1000000000),
    ("m", 60000000000), ("h", 3600000000000)].lookup s

private def isAmountChar (c : Char) : Bool := c.isDigit || c = '.'

private def digits (cs : List Char) : Nat := cs.foldl (fun n c => 10 * n + (c.toNat - 48)) 0

/-- Amounts with their units, such as `1h30m`, up to what 64 bits hold. Each takes two characters, so
`fuel` characters suffice. -/
private def amounts (whole : String) (total : Rat) : Nat → List Char → Except String Unit
  | _, [] => if total ≤ Nat.pow 2 63 then .ok () else .error s!"time: invalid duration {Quoted.writeString whole}"
  | 0, _ => .error ""
  | fuel + 1, cs =>
    let before := cs.takeWhile Char.isDigit
    let rest := cs.drop before.length
    let (after, rest) := match rest with
      | '.' :: rest => (rest.takeWhile Char.isDigit, rest.dropWhile Char.isDigit)
      | _ => ([], rest)
    let unit := rest.takeWhile (!isAmountChar ·)
    if before.isEmpty && after.isEmpty || digits before > Nat.pow 2 63 then
      .error s!"time: invalid duration {Quoted.writeString whole}"
    else if unit.isEmpty then .error s!"time: missing unit in duration {Quoted.writeString whole}"
    else
      let u := String.ofList unit
      match unit? u with
      | none => .error s!"time: unknown unit {Quoted.writeString u} in duration {Quoted.writeString whole}"
      | some n =>
        let amount : Rat := digits before + mkRat (digits after) (Nat.pow 10 after.length)
        amounts whole (total + amount * n) fuel (rest.drop unit.length)

def durationFault? (s : String) : Option String :=
  let cs := (Reading.sign s.toList).2
  if cs = ['0'] then none
  else if cs.isEmpty then some s!"time: invalid duration {Quoted.writeString s}"
  else match amounts s 0 cs.length cs with
    | .ok _ => none
    | .error e => some e

def fault? (f : Flag) (value : String) : Option String :=
  match f.sort with
  | .text => none
  | .switch =>
    if (truth? value).isSome then none else some (Reading.Failure.mk "ParseBool" value .syntactic).message
  | .number =>
    match Reading.wholeNumber value with
    | .ok _ => none
    | .error e => some e.message
  | .duration => durationFault? value

def written (f : Flag) : String :=
  match f.short with
  | some c => s!"-{c}, --{f.name}"
  | none => "--" ++ f.name

/-! ### Reading -/

abbrev Values := List (String × String)

structure Line where
  values : Values
  arguments : List String
  deriving DecidableEq, Repr, Inhabited

def give (f : Flag) (value : String) (l : Line) : Except String Line :=
  match f.fault? value with
  | none => .ok { l with values := (f.name, value) :: l.values }
  | some why =>
    .error s!"invalid argument {Quoted.writeString value} for {Quoted.writeString f.written} flag: {why}"

/-- Flags written with one dash and one character each. The last one may take what follows. -/
def readShort (flags : List Flag) (l : Line) (rest : List String) :
    List Char → Except String (Line × List String)
  | [] => .ok (l, rest)
  | c :: cs =>
    let cluster := String.ofList (c :: cs)
    match flags.find? (·.short == some c) with
    | none => .error s!"unknown shorthand flag: {Quoted.writeChar c.toNat} in -{cluster}"
    | some f =>
      match cs, f.sort, rest with
      | '=' :: d :: value, _, _ => do return (← f.give (String.ofList (d :: value)) l, rest)
      | _, .switch, _ => do readShort flags (← f.give "true" l) rest cs
      | d :: value, _, _ => do return (← f.give (String.ofList (d :: value)) l, rest)
      | [], _, value :: rest => do return (← f.give value l, rest)
      | [], _, [] => .error s!"flag needs an argument: {Quoted.writeChar c.toNat} in -{cluster}"

def readLong (flags : List Flag) (l : Line) (rest : List String) (written : String) :
    Except String (Line × List String) :=
  let (name, value) := cutAt '=' written.toList
  let name := String.ofList name
  if name = "" || Text.startsWith name "-" then .error s!"bad flag syntax: --{written}"
  else
    match flags.find? (·.name == name) with
    | none => .error s!"unknown flag: --{name}"
    | some f =>
      match value, f.sort, rest with
      | some value, _, _ => do return (← f.give (String.ofList value) l, rest)
      | none, .switch, _ => do return (← f.give "true" l, rest)
      | none, _, value :: rest => do return (← f.give value l, rest)
      | none, _, [] => .error s!"flag needs an argument: --{name}"

/-- Flags and arguments in any order. Two dashes end the flags. Every word is taken once, so as many
steps as words suffice. -/
def readWords (flags : List Flag) : Nat → Line → List String → Except String Line
  | _, l, [] => .ok l
  | 0, l, _ => .ok l
  | fuel + 1, l, word :: rest =>
    match word.toList with
    | ['-', '-'] => .ok { l with arguments := l.arguments ++ rest }
    | '-' :: '-' :: long => do
      let (l, rest) ← readLong flags l rest (String.ofList long)
      readWords flags fuel l rest
    | '-' :: c :: short => do
      let (l, rest) ← readShort flags l rest (c :: short)
      readWords flags fuel l rest
    | _ => readWords flags fuel { l with arguments := l.arguments ++ [word] } rest

def readAll (flags : List Flag) (words : List String) : Except String Line :=
  readWords flags words.length ⟨[], []⟩ words

namespace Values

def text (vs : Values) (f : Flag) : String := (vs.lookup f.name).getD f.default

def isOn (vs : Values) (f : Flag) : Bool := (truth? (vs.text f)).getD false

def number (vs : Values) (f : Flag) : Int := (Reading.wholeNumber (vs.text f)).toOption.getD 0

end Values

/-! ### Explanations -/

private def takes (f : Flag) : String :=
  match f.sort with
  | .switch => ""
  | .text => " string"
  | .number => " int"
  | .duration => " duration"

private def head (f : Flag) : String :=
  match f.short with
  | some c => s!"  -{c}, --{f.name}" ++ f.takes
  | none => s!"      --{f.name}" ++ f.takes

private def defaultNote (f : Flag) : String :=
  match f.sort with
  | .text => if f.default = "" then "" else s!" (default {Quoted.writeString f.default})"
  | .switch => if f.default = "false" then "" else s!" (default {f.default})"
  | .number | .duration => if f.default = "0" || f.default = "0s" then "" else s!" (default {f.default})"

def explain (flags : List Flag) : List String :=
  let sorted := flags.mergeSort fun a b => decide (a.name ≤ b.name)
  let width := (sorted.map (·.head.length)).foldl max 0
  sorted.map fun f => Text.padRight f.head width ++ "   " ++ f.usage ++ f.defaultNote

end Flag

end Parlance.Command
