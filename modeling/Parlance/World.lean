import Parlance.Path.Glob
/-!
The world around a command: files, settings, what is typed and what is shown. A command is written
for any world; which one it works in is decided where it is started.
-/
namespace Parlance

inductive Trouble where
  | missing
  | notFolder
  | isFolder
  | taken
  | said (text : String)
  deriving DecidableEq, Repr, Inhabited

def Trouble.message : Trouble → String
  | missing => "no such file or directory"
  | notFolder => "not a directory"
  | isFolder => "is a directory"
  | taken => "file exists"
  | said text => text

structure FileError where
  act : String
  path : String
  trouble : Trouble
  deriving DecidableEq, Repr, Inhabited

def FileError.message (e : FileError) : String := s!"{e.act} {e.path}: {e.trouble.message}"

class World (m : Type → Type) where
  isFolder : String → m (Except Trouble Bool)
  read : String → m (Except Trouble Bytes)
  write : String → Bytes → m (Except Trouble Unit)
  entries : String → m (Except Trouble (List (String × Bool)))
  makeFolder : String → m (Except Trouble Unit)
  rename : String → String → m (Except Trouble Unit)
  remove : String → m Unit
  here : m String
  setting : String → m (Option String)
  input : m Bytes
  say : Bytes → m Unit
  remark : Bytes → m Unit
  onTerminal : m Bool

namespace World

variable {m : Type → Type} [Monad m] [World m]

abbrev Try (m : Type → Type) (ε α : Type) := ExceptT ε m α

@[reducible]
def lifted {n : Type → Type} (f : {α : Type} → m α → n α) : World n where
  isFolder path := f (isFolder path)
  read path := f (World.read path)
  write path s := f (write path s)
  entries path := f (entries path)
  makeFolder path := f (makeFolder path)
  rename old new := f (World.rename old new)
  remove path := f (World.remove path)
  here := f here
  setting name := f (setting name)
  input := f input
  say s := f (say s)
  remark s := f (remark s)
  onTerminal := f onTerminal

instance {ε : Type} : World (ExceptT ε m) := lifted (m := m) ExceptT.lift

instance {σ : Type} : World (StateT σ m) := lifted (m := m) StateT.lift

def attempt {α : Type} (act path : String) (step : m (Except Trouble α)) : Try m FileError α := do
  match ← step with
  | .ok a => return a
  | .error t => throw ⟨act, path, t⟩

def stat (path : String) : Try m FileError Bool := attempt "stat" path (isFolder path)

def readFile (path : String) : Try m FileError Bytes := do
  match ← World.read path with
  | .ok content => return content
  | .error t => throw ⟨if t = .isFolder then "read" else "open", path, t⟩

def writeFile (path : String) (content : Bytes) : Try m FileError Unit :=
  attempt "open" path (write path content)

def ancestors (path : String) : List String :=
  let root := if Path.isAbsolute path then "/" else ""
  let parts := Path.elements path
  (List.range parts.length).map fun i => root ++ Text.join "/" (parts.take (i + 1))

def makeFolders (path : String) : Try m FileError Unit := do
  for folder in ancestors path do
    match ← isFolder folder with
    | .ok true => pure ()
    | .ok false => throw ⟨"mkdir", folder, .notFolder⟩
    | .error _ => attempt "mkdir" folder (makeFolder folder)

/-- Writes a file beside the one it is to replace, and then puts it there. -/
def replaceFile (beside path : String) (content : Bytes) : Try m FileError Unit := do
  writeFile beside content
  attempt ("rename " ++ beside) path (World.rename beside path)

def deepest : Nat := 4096

def filesBelow (skip : String → Bool) : Nat → String → Try m FileError (List String)
  | 0, _ => return []
  | depth + 1, folder => do
    let found ← attempt "open" folder (entries folder)
    let parts ← found.mapM fun (name, isFolder) => do
      if !isFolder then return [name]
      else if skip name then return []
      else return (← filesBelow skip depth (Path.join [folder, name])).map (name ++ "/" ++ ·)
    return parts.flatten

def allFilesBelow (folder : String) : Try m FileError (List String) :=
  filesBelow (fun _ => false) deepest folder

def glob (folder pattern : String) : Try m FileError (List String) := do
  let names ← filesBelow Glob.isHidden deepest folder
  return (Glob.search pattern names).map fun name => Path.join [folder, name]

def absolute (path : String) : m String := return Path.absolute (← here) path

def sayText (s : String) : m Unit := say (Bytes.ofString s)

def remarkText (s : String) : m Unit := remark (Bytes.ofString s)

end World

end Parlance
