import Parlance.World
/-!
A world that is a value: its files are a table of paths, and all that is said stays in it.
-/
namespace Parlance

inductive Item where
  | folder
  | file (content : Bytes)
  deriving DecidableEq, Repr, Inhabited

abbrev Disk := List (List String × Item)

namespace Disk

variable (d : Disk)

def item? (at_ : List String) : Option Item :=
  if at_.isEmpty then some .folder else d.lookup at_

def enter (at_ : List String) (part : String) : List String :=
  if part = "" || part = "." then at_ else if part = ".." then at_.dropLast else at_ ++ [part]

/-- Where the parts of a path lead. Every place on the way must be a folder, the last may be none. -/
def resolve (d : Disk) (at_ : List String) : List String → Except Trouble (List String)
  | [] => .ok at_
  | part :: parts =>
    match d.item? at_ with
    | none => .error .missing
    | some (.file _) => .error .notFolder
    | some .folder => resolve d (enter at_ part) parts

def find (parts : List String) : Except Trouble Item := do
  match d.item? (← d.resolve [] parts) with
  | some i => .ok i
  | none => .error .missing

def put (at_ : List String) (i : Item) : Disk := d.filter (·.1 != at_) ++ [(at_, i)]

def drop (at_ : List String) : Disk := d.filter fun e => !at_.isPrefixOf e.1

def content (parts : List String) : Except Trouble Bytes := do
  match ← d.find parts with
  | .file s => .ok s
  | .folder => .error .isFolder

def write (parts : List String) (s : Bytes) : Except Trouble Disk := do
  let at_ ← d.resolve [] parts
  match d.item? at_ with
  | some .folder => .error .isFolder
  | _ => .ok (d.put at_ (.file s))

def entries (parts : List String) : Except Trouble (List (String × Bool)) := do
  let at_ ← d.resolve [] parts
  match d.item? at_ with
  | none => .error .missing
  | some (.file _) => .error .notFolder
  | some .folder =>
    let found := d.filterMap fun (path, i) =>
      if path.dropLast = at_ && !path.isEmpty then (path.getLast?).map (·, i == Item.folder) else none
    .ok (found.mergeSort fun a b => decide (a.1 ≤ b.1))

def makeFolder (parts : List String) : Except Trouble Disk := do
  let at_ ← d.resolve [] parts
  match d.item? at_ with
  | some _ => .error .taken
  | none => .ok (d.put at_ .folder)

/-- Files are renamed over files, never over folders. -/
def rename (old new : List String) : Except Trouble Disk := do
  let i ← d.find old
  let target ← d.resolve [] new
  match d.item? target with
  | some .folder => .error .taken
  | _ => .ok ((d.drop (← d.resolve [] old)).put target i)

def remove (parts : List String) : Disk :=
  match d.resolve [] parts with
  | .ok at_ => d.drop at_
  | .error _ => d

end Disk

/-- Files, a place to start from, settings, what is typed, and what was said so far. -/
structure Desk where
  disk : Disk
  here : String
  settings : List (String × String)
  input : Bytes
  said : Bytes
  remarked : Bytes
  deriving Repr, Inhabited

abbrev OnDesk := StateM Desk

namespace Desk

def fresh (here : String) : Desk :=
  let parts := Path.elements here
  ⟨(List.range parts.length).map fun i => (parts.take (i + 1), .folder), here, [], [], [], []⟩

def parts (d : Desk) (path : String) : List String :=
  if Path.isAbsolute path then Text.splitOn '/' path else Text.splitOn '/' (d.here ++ "/" ++ path)

/-- An empty path leads nowhere. -/
def ask {α : Type} (path : String) (f : Disk → List String → Except Trouble α) :
    OnDesk (Except Trouble α) := do
  let d ← get
  return if path = "" then .error .missing else f d.disk (d.parts path)

def change (path : String) (f : Disk → List String → Except Trouble Disk) : OnDesk (Except Trouble Unit) := do
  match ← ask path f with
  | .ok disk =>
    modify fun d => { d with disk }
    return .ok ()
  | .error t => return .error t

instance : World OnDesk where
  isFolder path := ask path fun d ps => do return (← d.find ps) == .folder
  read path := ask path Disk.content
  write path s := change path fun d ps => d.write ps s
  entries path := ask path Disk.entries
  makeFolder path := change path Disk.makeFolder
  rename old new := do
    let parts := (← get).parts new
    change old fun d ps => d.rename ps parts
  remove path := modify fun d => { d with disk := d.disk.remove (d.parts path) }
  here := return (← get).here
  setting name := return (← get).settings.lookup name
  input := return (← get).input
  say s := modify fun d => { d with said := d.said ++ s }
  remark s := modify fun d => { d with remarked := d.remarked ++ s }
  onTerminal := return false

def place (path : String) (s : Bytes) : OnDesk Unit := do
  let _ ← (do World.makeFolders (Path.dir path); World.writeFile path s : World.Try OnDesk FileError Unit).run

def holding (here : String) (files : List (String × Bytes)) : Desk :=
  ((files.forM fun (path, s) => place path s).run (fresh here)).2

end Desk

end Parlance
