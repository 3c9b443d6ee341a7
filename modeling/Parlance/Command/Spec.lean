import Parlance.Command.Flag
import Parlance.Text.Digit
/-!
Commands and the commands below them: which one a line means, and how they are explained.
-/
namespace Parlance.Command

inductive Arity where
  | any
  | none
  | exactly (n : Nat)
  | atLeast (n : Nat)
  deriving DecidableEq, Repr, Inhabited

structure Spec where
  name : String
  use : String
  short : String
  long : String := ""
  arity : Arity := .any
  flags : List Flag := []
  runs : Bool := true
  children : List Spec := []
  deriving Repr, Inhabited

structure Route where
  spec : Spec
  above : List Spec
  deriving Repr, Inhabited

structure Tool where
  root : Spec
  flags : List Flag
  version : String
  deriving Repr, Inhabited

namespace Route

def path (r : Route) : String := " ".intercalate ((r.spec :: r.above).reverse.map (·.name))

def isRoot (r : Route) : Bool := r.above.isEmpty

end Route

namespace Tool

def helpFlag (name : String) : Flag := .switch "help" ("help for " ++ name) (some 'h')

def versionFlag (name : String) : Flag := .switch "version" ("version for " ++ name) (some 'v')

def ownFlags (t : Tool) (r : Route) : List Flag :=
  helpFlag r.spec.name :: r.spec.flags ++ if r.isRoot then versionFlag t.root.name :: t.flags else []

def inheritedFlags (t : Tool) (r : Route) : List Flag := if r.isRoot then [] else t.flags

/-! ### Which command is meant -/

def takesNext (flags : List Flag) (word : String) : Bool :=
  let isSwitch (p : Flag → Bool) : Bool := flags.any fun f => p f && f.sort == .switch
  match word.toList with
  | '-' :: '-' :: name => !name.contains '=' && !isSwitch (·.name == String.ofList name)
  | ['-', c] => c != '=' && !isSwitch (·.short == some c)
  | _ => false

def arguments (flags : List Flag) : List String → List String
  | [] => []
  | word :: rest =>
    if word = "--" then []
    else if takesNext flags word then
      match rest with
      | _ :: next :: rest => arguments flags (next :: rest)
      | _ => []
    else if word != "" && !Text.startsWith word "-" then word :: arguments flags rest
    else arguments flags rest

def dropName (flags : List Flag) (name : String) : List String → List String
  | [] => []
  | word :: rest =>
    if word = "--" then word :: rest
    else if takesNext flags word then
      match rest with
      | value :: rest => word :: value :: dropName flags name rest
      | [] => [word]
    else if word = name then rest
    else word :: dropName flags name rest

/-- The command that words lead to, and the words without its names. Every step takes a word away. -/
def descend (t : Tool) : Nat → Route → List String → Route × List String
  | 0, r, words => (r, words)
  | fuel + 1, r, words =>
    let flags := r.spec.flags ++ t.flags
    match arguments flags words with
    | [] => (r, words)
    | name :: _ =>
      match r.spec.children.find? (·.name == name) with
      | none => (r, words)
      | some child => descend t fuel ⟨child, r.spec :: r.above⟩ (dropName flags name words)

/-! ### Names that are nearly right -/

private def nextRow (c : Char) : Nat → Nat → List Char → List Nat → List Nat
  | _, left, [], _ => [left]
  | corner, left, d :: ds, up :: ups =>
    let here := min (min (left + 1) (up + 1)) (corner + if c = d then 0 else 1)
    left :: nextRow c up here ds ups
  | _, left, _ :: _, [] => [left]

/-- How many characters must be put in, taken out or exchanged to make one text of another. -/
def distance (s t : List Char) : Nat :=
  let rows := s.foldl (fun row c =>
    match row with
    | [] => []
    | corner :: ups => nextRow c corner (corner + 1) t ups) (List.range (t.length + 1))
  rows.getLastD 0

def lowered (s : String) : List Char := s.toList.map Char.toLower

def similar (r : Route) (name : String) : List String :=
  (r.spec.children.map (·.name)).filter fun n =>
    distance (lowered name) (lowered n) ≤ 2 || (lowered name).isPrefixOf (lowered n)

def unknownCommand (r : Route) (name : String) : String :=
  let base := s!"unknown command {Quoted.writeString name} for {Quoted.writeString r.path}"
  match similar r name with
  | [] => base
  | names => base ++ "\n\nDid you mean this?\n" ++ String.join (names.map fun n => s!"\t{n}\n")

/-! ### What a line asks for -/

inductive Intent where
  | help (r : Route)
  | version
  | run (r : Route) (l : Flag.Line)
  deriving Repr, Inhabited

def arityFault? (r : Route) (args : List String) : Option String :=
  match r.spec.arity with
  | .any => none
  | .none => args.head?.map fun a => s!"unknown command {Quoted.writeString a} for {Quoted.writeString r.path}"
  | .exactly n => if args.length = n then none else some s!"accepts {n} arg(s), received {args.length}"
  | .atLeast n =>
    if args.length < n then some s!"requires at least {n} arg(s), only received {args.length}" else none

def find (t : Tool) (words : List String) : Except String (Route × List String) :=
  let (r, rest) := descend t words.length ⟨t.root, []⟩ words
  match arguments (r.spec.flags ++ t.flags) rest with
  | name :: _ =>
    if r.isRoot && !r.spec.children.isEmpty && r.spec.arity = .any then .error (unknownCommand r name)
    else .ok (r, rest)
  | [] => .ok (r, rest)

def intent (t : Tool) (words : List String) : Except String Intent := do
  let (r, rest) ← t.find words
  let l ← Flag.readAll (t.ownFlags r ++ t.inheritedFlags r) rest
  if l.values.isOn (helpFlag "") then return .help r
  if r.isRoot && l.values.isOn (versionFlag "") then return .version
  if !r.spec.runs then return .help r
  match arityFault? r l.arguments with
  | some why => throw why
  | none => return .run r l

/-! ### Explanations -/

private def useLine (r : Route) : String :=
  let lead := String.join (r.above.reverse.map (·.name ++ " "))
  lead ++ r.spec.use ++ if (r.spec.use.splitOn "[flags]").length > 1 then "" else " [flags]"

def isAvailable (s : Spec) : Bool := s.runs || !s.children.isEmpty

def usage (t : Tool) (r : Route) : String :=
  let children := (r.spec.children.filter isAvailable).mergeSort fun a b => decide (a.name ≤ b.name)
  let width := max 11 ((children.map (·.name.length)).foldl max 0)
  let section_ (title : String) (lines : List String) : String :=
    if lines.isEmpty then "" else "\n\n" ++ title ++ ":" ++ String.join (lines.map ("\n" ++ ·))
  "Usage:" ++ (if r.spec.runs then "\n  " ++ useLine r else "") ++
    (if children.isEmpty then "" else s!"\n  {r.path} [command]") ++
    section_ "Available Commands" (children.map fun s => "  " ++ Text.padRight s.name width ++ " " ++ s.short) ++
    section_ "Flags" (Flag.explain (t.ownFlags r)) ++
    section_ "Global Flags" (Flag.explain (t.inheritedFlags r)) ++
    (if children.isEmpty then ""
      else s!"\n\nUse \"{r.path} [command] --help\" for more information about a command.") ++ "\n"

def help (t : Tool) (r : Route) : String :=
  (if r.spec.long = "" then r.spec.short else r.spec.long) ++ "\n\n" ++ t.usage r

def versionLine (t : Tool) : String := s!"{t.root.name} version {t.version}\n"

end Tool

end Parlance.Command
