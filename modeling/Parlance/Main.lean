import Parlance.Command.Compiler
import Parlance.Command.Runner
/-!
The command line: the tools at work in the world of the system.
-/
namespace Parlance.Main

def notFolderCode : UInt32 := 20

def trouble : IO.Error → Trouble
  | .noFileOrDirectory .. => .missing
  | .alreadyExists .. => .taken
  | .inappropriateType _ code _ => if code = notFolderCode then .notFolder else .isFolder
  | e => .said e.toString.decapitalize

def attempt {α : Type} (act : IO α) : IO (Except Trouble α) := do
  try
    let a ← act
    return .ok a
  catch e => return .error (trouble e)

def entries (path : String) : IO (List (String × Bool)) := do
  let found ← (← IO.FS.realPath path).readDir
  let named ← found.toList.mapM fun e => do return (e.fileName, ← e.path.isDir)
  return named.mergeSort fun a b => a.1 ≤ b.1

def isFolder (path : String) : IO Bool := do
  let info ← (← IO.FS.realPath path).metadata
  return info.type == .dir

def rename (old new : String) : IO (Except Trouble Unit) := do
  match ← attempt (isFolder new) with
  | .ok true => return .error .taken
  | _ => attempt (IO.FS.rename old new)

def remove (path : String) : IO Unit := do
  match ← attempt (isFolder path) with
  | .ok true => discard (attempt (IO.FS.removeDirAll path))
  | .ok false => discard (attempt (IO.FS.removeFile path))
  | .error _ => return

def chunk : USize := 65536

partial def readAll (s : IO.FS.Stream) (before : ByteArray) : IO ByteArray := do
  let more ← s.read chunk
  if more.isEmpty then return before else readAll s (before ++ more)

def put (s : IO.FS.Stream) (content : Bytes) : IO Unit := do
  s.write ⟨content.toArray⟩
  s.flush

instance : World IO where
  isFolder path := attempt (isFolder path)
  read path := attempt do return (← IO.FS.readBinFile path).toList
  write path content := attempt (IO.FS.writeBinFile path ⟨content.toArray⟩)
  entries path := attempt (entries path)
  makeFolder path := attempt (IO.FS.createDir path)
  rename := rename
  remove := remove
  here := do return (← IO.currentDir).toString
  setting name := IO.getEnv name
  input := do return (← readAll (← IO.getStdin) .empty).toList
  say content := do put (← IO.getStdout) content
  remark content := do put (← IO.getStderr) content
  onTerminal := do (← IO.getStderr).isTty

end Parlance.Main

open Parlance.Command in
/-- The name it is called by says which tool it is. -/
def main (words : List String) : IO UInt32 := do
  let called := (← IO.appPath).fileStem
  let worked ← if called = some Runner.tool.root.name then Runner.perform words else Compiler.perform words
  return if worked then 0 else 1
