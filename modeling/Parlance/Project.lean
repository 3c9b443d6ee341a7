import Parlance.Digest
import Parlance.Library
import Parlance.Toml.Reading
import Parlance.World
/-!
Projects: the settings of a directory tree, which sources belong to it, and where its program goes.
-/
namespace Parlance

structure Project where
  root : String
  manifest : String
  name : String
  sources : String
  main : String
  maxDiagnostics : Int
  sdk : String
  deriving DecidableEq, Repr, Inhabited

namespace Project

def manifestName : String := "loa.toml"
def sdkSetting : String := "LOA_SDK"
def defaultSources : String := "**/*.loa"

def plain (root : String) : Project :=
  { root
    manifest := ""
    name := Path.base root
    sources := defaultSources
    main := "Main"
    maxDiagnostics := 100
    sdk := "" }

inductive Flaw where
  | malformed
  | unreadable (e : FileError)
  | unknownKey (key : Toml.Key)
  | noSources
  | negativeMax
  deriving DecidableEq, Repr, Inhabited

def Flaw.message : Flaw → String
  | malformed => "failed to parse TOML: malformed document"
  | unreadable e => "failed to parse TOML: " ++ e.message
  | unknownKey key => "unknown key " ++ Quoted.writeString key.render
  | noSources => "invalid value: [build].sources is empty"
  | negativeMax => "invalid value: [build].max_diagnostics must not be negative"

inductive Error where
  | manifest (path : String) (flaw : Flaw)
  | stat (path : String) (e : FileError)
  deriving DecidableEq, Repr, Inhabited

def Error.message : Error → String
  | manifest path flaw => s!"{path}: {flaw.message}"
  | stat path e => s!"failed to stat {Quoted.writeString path}: {e.message}"

def settings : List (String × List (String × Bool)) :=
  [("package", [("name", false)]),
   ("build", [("sources", false), ("main", false), ("max_diagnostics", true)]),
   ("sdk", [("path", false)])]

def known? {α : Type} (names : List (String × α)) (key : String) : Option α :=
  (names.find? (·.1 == key)).or (names.find? fun n => Text.isWord n.1 key) |>.map (·.2)

def knownKeys (root : Toml.Fields) : Option (List Toml.Key) := do
  let parts ← root.mapM fun (k, v) =>
    match known? settings k, v with
    | none, _ => some []
    | some fields, .table t => do
      let inner ← t.mapM fun (f, v) =>
        match known? fields f, v with
        | none, _ => some []
        | some false, .text _ | some true, .integer _ => some [[k, f]]
        | some _, _ => none
      return [k] :: inner.flatten
    | some _, _ => none
  return parts.flatten

def ofManifest (path : String) (d : Toml.Draft) : Except Flaw Project := do
  let some keys := knownKeys d.root | throw .malformed
  if let some key := d.written.reverse.find? (!keys.contains ·) then throw (.unknownKey key)
  let text (table name : String) : Option String :=
    match d.root.find? [table, name] with
    | some (.text s) => some (Text.trim s)
    | _ => none
  let base := plain (Path.dir path)
  let sources := (text "build" "sources").getD base.sources
  if sources = "" then throw .noSources
  let maxDiagnostics := match d.root.find? ["build", "max_diagnostics"] with
    | some (.integer n) => n
    | _ => base.maxDiagnostics
  if maxDiagnostics < 0 then throw .negativeMax
  return { base with
    manifest := path
    name := (text "package" "name").getD base.name
    sources
    main := (text "build" "main").getD base.main
    maxDiagnostics
    sdk := (text "sdk" "path").getD "" }

variable {m : Type → Type} [Monad m] [World m]

/-- Settles which library is meant: the one asked for, that of the manifest, or that of the world. A
relative path starts from the project, but one that is asked for from where the reader stands. -/
def resolveSdk (p : Project) (wanted : String) : m Project := do
  let sdk ←
    if wanted != "" then World.absolute wanted
    else if p.sdk != "" then pure p.sdk
    else pure ((← World.setting sdkSetting).getD "")
  return { p with sdk := if sdk = "" || Path.isAbsolute sdk then sdk else Path.join [p.root, sdk] }

def upwards (folder : String) : List String :=
  let parts := Path.elements folder
  (List.range (parts.length + 1)).map fun i => "/" ++ Text.join "/" (parts.take (parts.length - i))

def locate : List String → World.Try m Error (Option String)
  | [] => return none
  | folder :: rest => do
    let path := Path.join [folder, manifestName]
    match ← World.isFolder path with
    | .ok _ => return some path
    | .error .missing => locate rest
    | .error t => throw (.stat path ⟨"stat", path, t⟩)

def loadManifest (path : String) : World.Try m Error Project := do
  let content ← match ← (World.readFile path : World.Try m FileError Bytes).run with
    | .ok s => pure s
    | .error e => throw (.manifest path (.unreadable e))
  let some d := Toml.read? content | throw (.manifest path .malformed)
  match ofManifest path d with
  | .ok p => p.resolveSdk ""
  | .error flaw => throw (.manifest path flaw)

def load (start : String) : World.Try m Error Project := do
  let folder ← World.absolute (if start = "" then "." else start)
  let folder := match ← World.isFolder folder with
    | .ok false => Path.dir folder
    | _ => folder
  match ← locate (upwards folder) with
  | some path => loadManifest path
  | none => (plain folder).resolveSdk ""

/-! ### Sources -/

inductive SourceError where
  | sdk (path : String) (e : FileError)
  | library (e : FileError)
  | stat (path : String) (e : FileError)
  | read (path : String) (e : FileError)
  | search (pattern folder : String) (e : FileError)
  deriving DecidableEq, Repr, Inhabited

def SourceError.message : SourceError → String
  | sdk path e => s!"sdk {path}: {e.message}"
  | library e => s!"read stdlib: {e.message}"
  | stat path e => s!"failed to stat {path}: {e.message}"
  | read path e => s!"failed to read {path}: {e.message}"
  | search pattern folder e => s!"glob {pattern} in {folder}: {e.message}"

def explain {ε α : Type} (why : FileError → ε) (step : World.Try m FileError α) : World.Try m ε α := do
  match ← step.run with
  | .ok a => return a
  | .error e => throw (why e)

def libraryIn (folder : String) : World.Try m SourceError (List Source) := do
  if !(← explain (.sdk folder) (World.stat folder)) then throw (.library ⟨"stat", ".", .notFolder⟩)
  let names ← explain .library (World.allFilesBelow folder)
  let names := (names.filter (Text.endsWith · ".loa")).mergeSort fun a b => decide (a ≤ b)
  names.mapM fun name => do
    let code ← explain .library (World.readFile (Path.join [folder, name]))
    return ⟨.module, Source.libraryUri name, code⟩

def library (p : Project) : World.Try m SourceError (List Source) :=
  if p.sdk = "" then return Library.sources else libraryIn p.sdk

def loadSource (path : String) : World.Try m SourceError Source := do
  let code ← explain (.read path) (World.readFile path)
  return ⟨.module, Source.fileUri (← World.absolute path), Source.clean code⟩

/-- The files meant by paths: folders stand for the sources in them, and no path for those of the
project. -/
def modulePaths (p : Project) (paths : List String) : World.Try m SourceError (List String) := do
  let search (folder pattern : String) : World.Try m SourceError (List String) :=
    explain (.search pattern folder) (World.glob folder pattern)
  if paths.isEmpty then search p.root p.sources
  else
    let found ← paths.mapM fun path => do
      if ← explain (.stat path) (World.stat path) then search path defaultSources else return [path]
    found.flatten.mapM fun path => World.absolute path

/-- The library, the modules and, if it is wanted, the line that starts the program. Of two sources
with one name the first counts. -/
def collect (p : Project) (paths : List String) (withMain : Bool) :
    World.Try m SourceError (List Source) := do
  let std ← p.library
  let modules ← (← p.modulePaths paths).mapM loadSource
  let all := std ++ modules ++ if withMain then [Source.bootstrap p.main] else []
  return all.foldl (fun out s => if out.any (·.uri == s.uri) then out else out ++ [s]) []

/-! ### Programs -/

def schema : Nat := 2

def fingerprint (ss : List Source) : Digest :=
  .combine (.of (Bytes.ofString s!"loa-bytecode/{schema}") ::
    ss.map fun s => .of (Bytes.ofString s.uri ++ 0 :: s.code))

def programExtension : String := ".loavmc"

def outputPath (folder name : String) : String :=
  let stem := Text.dropSuffix (Path.base name) (Path.extension name)
  let stem := if stem = "" || stem = "." || stem = "/" then "main" else stem
  Path.join [folder, stem ++ programExtension]

end Project

end Parlance
