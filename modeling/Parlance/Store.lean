import Parlance.Store.Entry
/-!
Built programs kept in files, one for each fingerprint. Only programs without errors are kept, with
their warnings.
-/
namespace Parlance

structure Store (format : Format := Entry.format) where
  folder : String
  deriving DecidableEq, Repr, Inhabited

namespace Store

inductive Fault where
  | files (e : FileError)
  | corrupt
  | unfit (u : Wire.Unfit)
  deriving Repr

def Fault.message : Fault → String
  | files e => e.message
  | corrupt => "corrupt cache entry"
  | unfit u => u.message

variable {format : Format} (s : Store format)

def programs : String := Path.join [s.folder, "programs"]

def extension : String := ".mp"

def file (key : Digest) : String :=
  Path.join [s.programs, String.ofList (key.hex.toList.take 2), key.hex ++ extension]

variable {m : Type → Type} [Monad m] [World m]

def openAt (folder : String) : World.Try m FileError Store := do
  World.makeFolders folder
  return ⟨folder⟩

def userFolder : World.Try m String String := do
  let set (name : String) : World.Try m String (Option String) := do
    return (← World.setting name).filter (· != "")
  match ← set "XDG_CACHE_HOME", ← set "HOME" with
  | some folder, _ =>
    if Path.isAbsolute folder then return folder
    throw "path in $XDG_CACHE_HOME is relative"
  | none, some home => return home ++ "/.cache"
  | none, none => throw "neither $XDG_CACHE_HOME nor $HOME are defined"

def openFor (tool : String) : World.Try m String Store := do
  Project.explain FileError.message (openAt (Path.join [← userFolder, tool]))

def load (key : Digest) : World.Try m Fault (Option Built) := do
  let path := s.file key
  match ← (World.readFile path : World.Try m FileError Bytes).run with
  | .error e => if e.trouble = .missing then return none else throw (.files e)
  | .ok content =>
    match format.find? key content with
    | some found => return found
    | none => throw .corrupt

def save (key : Digest) (b : Built) : World.Try m Fault Unit := do
  let content ← match format.write key b with
    | .ok content => pure content
    | .error u => throw (.unfit u)
  let path := s.file key
  Project.explain .files (World.makeFolders (Path.dir path))
  let beside := Path.join [Path.dir path, "put-" ++ key.hex]
  match ← (World.replaceFile beside path content : World.Try m FileError Unit).run with
  | .ok _ => return ()
  | .error e =>
    World.remove beside
    throw (.files e)

def clean : World.Try m FileError Nat := do
  let n ← match ← World.isFolder s.programs with
    | .ok true => do
      let names ← World.allFilesBelow s.programs
      pure (names.filter (Path.extension · == extension)).length
    | .ok false | .error .missing => pure 0
    | .error t => throw ⟨"lstat", s.programs, t⟩
  World.remove s.programs
  return n

def noteFailure (f : Fault) (j : Journal) : Journal :=
  match j.trace with
  | last :: before =>
    let point : Trace.Event :=
      ⟨some .point, some .pass, 0, last.span, "cache_put_failed", f.message, []⟩
    { j with trace := last :: point :: before }
  | [] => j

def keep (key : Digest) (o : Build.Outcome) (j : Journal) : m (Build.Outcome × Journal) := do
  if o.hit || o.failure.isSome then return (o, j)
  match ← (s.save key ⟨o.code, o.diagnostics⟩ : World.Try m Fault Unit).run with
  | .ok _ => return (o, j)
  | .error f => return (o, noteFailure f j)

def build (s : Option (Store format)) (opts : Build.Options) (ss : List Source) (j : Journal) :
    m (Build.Outcome × Journal) := do
  match s, opts.checkOnly with
  | some s, false =>
    let key := Project.fingerprint ss
    let kept := match ← (s.load key : World.Try m Fault (Option Built)).run with
      | .ok found => found
      | .error _ => none
    let (o, j) := (Build.run { opts with kept := some kept } ss).run j
    s.keep key o j
  | _, _ => return (Build.run opts ss).run j

end Store

structure Execution where
  outcome : Build.Outcome
  ran : Option Ran
  journal : Journal

namespace Execution

def failure? (e : Execution) : Option Progress.Failure :=
  e.outcome.failure.or <| match e.ran with
    | some ⟨.error f, _⟩ => some (.machine f)
    | _ => none

def start {m : Type → Type} [Monad m] [World m] (s : Option Store) (opts : Build.Options)
    (ss : List Source) : m Execution := do
  let (o, j) ← Store.build s opts ss .empty
  if o.failure.isSome || opts.checkOnly then return ⟨o, none, j⟩
  let (r, j) := (Ran.program (.fresh Machine.defaultMaxDepth) o.code).run j
  return ⟨o, some r, j⟩

end Execution

end Parlance
