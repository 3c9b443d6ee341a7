import Parlance.Text.Hex
import Parlance.Text.Pieces
/-!
TOML documents: values, keys, and a document while it is put together. A table that only follows from
the name of another one is implicit, and may be opened once more on its own.
-/
namespace Parlance.Toml

inductive Value where
  | text (s : String)
  | integer (n : Int)
  | real (s : String)
  | flag (b : Bool)
  | moment (s : String)
  | list (items : List Value)
  | table (fields : List (String × Value))
  | tables (all : List (List (String × Value)))
  deriving Repr, Inhabited

abbrev Fields := List (String × Value)

abbrev Key := List String

def isBareChar (c : Char) : Bool := c.isAlphanum || c = '_' || c = '-'

def escaped (c : Char) : String :=
  if c = '"' then "\\\""
  else if c = '\\' then "\\\\"
  else if c = '\n' then "\\n"
  else if c = '\r' then "\\r"
  else if c = '\t' then "\\t"
  else if c = Char.ofNat 8 then "\\b"
  else if c = Char.ofNat 12 then "\\f"
  else if c.toNat < 32 || c.toNat = 127 then "\\u" ++ Hex.lower 4 c.toNat
  else c.toString

def Key.part (s : String) : String :=
  if s = "" || !s.toList.all isBareChar then "\"" ++ String.join (s.toList.map escaped) ++ "\"" else s

def Key.render (k : Key) : String := Text.join "." (k.map Key.part)

namespace Fields

def put (fs : Fields) (k : String) (v : Value) : Fields :=
  if (fs.lookup k).isSome then fs.map fun e => if e.1 = k then (k, v) else e else fs ++ [(k, v)]

/-- The fields with a change to the table a key leads to. Of several tables under one name the last is
meant; what is no table has no fields. -/
def update (f : Fields → Option Fields) : Key → Fields → Option Fields
  | [], fs => f fs
  | k :: ks, fs =>
    match fs.lookup k with
    | some (.table t) => do return fs.put k (.table (← update f ks t))
    | some (.tables ts) => do
      let last ← ts.getLast?
      return fs.put k (.tables (ts.dropLast ++ [← update f ks last]))
    | _ => none

def table? : Key → Fields → Option Fields
  | [], fs => some fs
  | k :: ks, fs =>
    match fs.lookup k with
    | some (.table t) => table? ks t
    | some (.tables ts) => ts.getLast?.bind (table? ks)
    | _ => none

def find? (fs : Fields) (k : Key) : Option Value := do
  (← table? k.dropLast fs).lookup (← k.getLast?)

end Fields

structure Draft where
  root : Fields
  context : Key
  implicit : List Key
  lists : List Key
  written : List Key
  deriving Inhabited

abbrev Drafting := StateT Draft Option

namespace Draft

def empty : Draft := ⟨[], [], [], [], []⟩

def markImplicit (k : Key) : Drafting Unit := modify fun d => { d with implicit := k :: d.implicit }

def unmark (k : Key) : Drafting Unit := modify fun d => { d with implicit := d.implicit.filter (· != k) }

def markList (k : Key) : Drafting Unit := modify fun d => { d with lists := k :: d.lists }

def unmarkList (k : Key) : Drafting Unit := modify fun d => { d with lists := d.lists.filter (· != k) }

def note (k : Key) : Drafting Unit := modify fun d => { d with written := k :: d.written }

def edit (f : Fields → Option Fields) : Drafting Unit := do
  let d ← get
  let root ← Fields.update f d.context d.root
  set { d with root }

/-- Gives a name in the open table a value. A name has one value only, but a list takes the place of
any, and a table that is implicit stays and is no longer so. -/
def assign (name : String) (v : Value) : Drafting Unit := do
  let d ← get
  let key := d.context ++ [name]
  let fs ← Fields.table? d.context d.root
  if (fs.lookup name).isNone then edit fun fs => some (fs.put name v)
  else if d.lists.contains key then
    unmark key
    edit fun fs => some (fs.put name v)
  else if d.implicit.contains key then unmark key
  else failure

def ensure (k : Key) : Drafting Unit := do
  let d ← get
  match d.root.find? k with
  | none =>
    markImplicit k
    modify fun d => { d with context := k.dropLast }
    edit fun fs => some (fs.put (k.getLastD "") (.table []))
  | some (.table _) | some (.tables _) => return ()
  | some _ => failure

def openTable (k : Key) (oneMore : Bool) : Drafting Unit := do
  for i in List.range (k.length - 1) do ensure (k.take (i + 1))
  let name := k.getLastD ""
  modify fun d => { d with context := k.dropLast }
  if oneMore then
    edit fun fs =>
      match fs.lookup name with
      | none => some (fs.put name (.tables [[]]))
      | some (.tables ts) => some (fs.put name (.tables (ts ++ [[]])))
      | some _ => none
  else assign name (.table [])
  modify fun d => { d with context := k }

def openImplicit (parts : List String) : Drafting Unit := do
  for part in parts do
    let key := (← get).context ++ [part]
    markImplicit key
    openTable key false

end Draft

end Parlance.Toml
