import Parlance.Command.Console
import Parlance.Command.Spec
import Parlance.Diagnostic.Repair
import Parlance.Session
import Parlance.Token.Listing
import Parlance.Tree.Outline
import Parlance.Version
/-!
The tool that checks, builds and runs programs.
-/
namespace Parlance.Command.Compiler

open Act

variable {m : Type → Type} [Monad m] [World m]

def formatFlag (formats : String) : Flag := .text "format" "pretty" s!"output format ({formats})"
def format : Flag := formatFlag ""
def trivia : Flag := .switch "trivia" "include whitespace and comments"
def noCache : Flag := .switch "no-cache" "do not read or write the build cache"
def out : Flag :=
  .text "out" "" "output file (default build/<name>.loavmc under the project root)" (some 'o')
def noMain : Flag := .switch "no-main" "compile the modules only, without the main bootstrap"
def ui : Flag := .text "ui" "auto" "progress UI (auto|on|off)"
def all : Flag := .switch "all" "apply every available fix"
def id : Flag := .text "id" "" "apply the fix with this id"
def list : Flag := .switch "list" "list the available fixes without applying them"

/-! ### Projects and sources -/

def project : Act m Project := do
  let paths := (← get).arguments
  let p ← trying Project.Error.message (Project.load (paths.headD "."))
  let p ← p.resolveSdk (← text .sdk)
  let max ← number .maxDiagnostics
  return if max > 0 then { p with maxDiagnostics := max } else p

def sources (p : Project) (withMain : Bool) : Act m (List Source) := do
  trying Project.SourceError.message (p.collect (← get).arguments withMain)

def build (store : Option Store) (opts : Build.Options) (ss : List Source) : Act m Build.Outcome := do
  let (o, j) ← Store.build store opts ss (← get).journal
  follow j []
  return o

def opened (path : String) : Act m Source := do
  if path = "-" then return Source.ofStdin (← World.input)
  trying Project.SourceError.message (Project.loadSource path)

/-! ### Commands -/

def stats (tokens : List Token) (withTrivia : Bool) : String :=
  let counted := (Token.listed tokens withTrivia).filter (·.kind != .eof)
  let counts := (Token.Kind.all.map fun k => (k, counted.countP (·.kind == k))).filter (·.2 > 0)
  let sorted := counts.mergeSort fun a b => a.2 ≥ b.2
  String.join (sorted.map fun (k, n) =>
    Text.padRight k.name 18 ++ " " ++ Text.padLeft (toString n) 6 ++ "\n")

def tokenize : Act m Unit := do
  let name ← text format
  let show_ : List Token → Bool → String ← match name with
    | "pretty" => pure Token.listing
    | "json" => pure Token.listingJson
    | "stats" => pure stats
    | _ => told s!"unknown format {Quoted.writeString name} (must be pretty, json or stats)"
  let s ← opened ((← get).arguments.headD "")
  World.sayText (show_ s.tokens (← isOn trivia))

def parse : Act m Unit := do
  let name ← text format
  let s ← opened ((← get).arguments.headD "")
  let d := s.parse none
  showDiagnostics (Path.dir s.uri.path) [s] d.remarks
  match name with
  | "pretty" => World.sayText d.tree.outline
  | "json" => World.sayText d.tree.outlineJson
  | _ => told s!"unknown format: {name}"
  if !d.remarks.isEmpty then throw .shown

def lower (s : String) : String := String.ofList (s.toList.map Char.toLower)

def check : Act m Unit := do
  let name := lower (← text format)
  if name != "pretty" && name != "json" then told s!"unknown format: {name}"
  let p ← project
  let ss ← sources p false
  let o ← build none { max := p.maxDiagnostics, checkOnly := true } ss
  if name = "json" then
    let opts : Diagnostic.JsonOptions :=
      { positions := true, paths := ← pathMode, base := p.root, cwd := ← World.here, max := none
        notes := true, fixes := true }
    World.sayText (Diagnostic.json opts o.diagnostics)
  else showDiagnostics p.root o.sources o.diagnostics
  showTimings o
  if let some f := o.failure then throw (← stopFor f)
  if name = "pretty" && !(← isQuiet) then
    World.remarkText s!"checked {ss.length} modules\n"

def writeProgram (path : String) (code : List Instruction) : Act m Unit := do
  let folder := Path.dir path
  trying FileError.message (World.makeFolders folder)
  match Wire.writeAll code with
  | .error u => told s!"failed to encode {path}: {u.message}"
  | .ok bytes => trying FileError.message (World.replaceFile (folder ++ "/.loavmc-new") path bytes)

def build_ : Act m Unit := do
  let mode ← text ui
  if (When.ofName? mode).isNone then told (When.refusal "ui" mode)
  let p ← project
  let ss ← sources p !(← isOn noMain)
  let store ← if ← isOn noCache then pure none else
    match ← (Store.openFor Release.tool : World.Try m String Store).run with
    | .ok s => pure (some s)
    | .error e =>
      World.remarkText s!"warning: build cache disabled: {e}\n"
      pure none
  let o ← build store { max := p.maxDiagnostics } ss
  showDiagnostics p.root o.sources o.diagnostics
  showTimings o
  if let some f := o.failure then throw (← stopFor f)
  let wanted ← text out
  let path := if wanted = "" then Project.outputPath (Path.join [p.root, "build"]) p.name else wanted
  writeProgram path o.code
  if !(← isQuiet) then
    let shown := Uri.display (Source.fileUri (← World.absolute path)) p.root
    World.sayText ("wrote " ++ shown ++ (if o.hit then " (cached)" else "") ++ "\n")

def run : Act m Unit := do
  let p ← project
  let ss ← sources p true
  let store ← if ← isOn noCache then pure none else
    pure (← (Store.openFor Release.tool : World.Try m String Store).run).toOption
  let o ← build store { max := p.maxDiagnostics } ss
  showDiagnostics p.root o.sources o.diagnostics
  if let some f := o.failure then
    showTimings o
    throw (← stopFor f)
  let fresh := Machine.State.fresh Machine.defaultMaxDepth
  let (r, j) := (Ran.program fresh o.code).run (← get).journal
  follow j (← panicTexts fresh r.machine)
  showTimings o
  match r.value with
  | .error f => throw (← stopFor (.machine f))
  | .ok value => if let some v := value then World.sayText (v.render ++ "\n")
  if ← isOn .timings then World.remarkText "  run _ ms\n"

def typedLines (s : Bytes) : List Bytes :=
  let lines := pieces 10 s
  let lines := if lines.getLast? = some [] then lines.dropLast else lines
  lines.map fun l => if l.getLast? = some 13 then l.dropLast else l

def showAnswer : Lowering.Shown → String
  | ⟨t, none⟩ => t.render ++ "\n"
  | ⟨_, some bs⟩ =>
    let lines := (bs.map Behaviour.render).mergeSort fun a b => decide (a ≤ b)
    String.join (lines.map fun l => s!"  {l}\n")

def evaluate (root : String) (s : Session) (code : Bytes) : Act m Session := do
  let ((reply, next), j) := (s.line code).run (← get).journal
  World.sayText (String.join (reply.shown.map showAnswer))
  follow j (← panicTexts s.machine next.machine)
  if !reply.diagnostics.isEmpty then
    let known := next.sources.filter (·.uri != reply.source.uri) ++ [reply.source]
    let opts : Diagnostic.PrettyOptions :=
      { color := ← colored, context := 0, paths := .auto, base := root, cwd := ← World.here, width := none
        notes := false, fixes := false }
    World.remarkText (Diagnostic.pretty opts known reply.diagnostics)
  match reply.failure with
  | none => if let some v := reply.value then World.sayText (v.render ++ "\n")
  | some f =>
    if let .told message ← stopFor f then World.remarkText s!"error: {message}\n"
  return next

/-- A line that breaks off goes on with the next one. -/
def evaluateAll (root : String) (s : Session) (pending : Bytes) : List Bytes → Act m Unit
  | [] => return ()
  | l :: rest => do
    let code := pending ++ l ++ [10]
    if Session.isIncomplete code then evaluateAll root s code rest
    else if (Utf8.chars code).all Text.isBlank then evaluateAll root s [] rest
    else evaluateAll root (← evaluate root s code) [] rest

def repl : Act m Unit := do
  let p ← project
  let ss ← sources p false
  let fresh := Machine.State.fresh Machine.defaultMaxDepth
  let ((o, started), j) := (Session.start p.maxDiagnostics fresh ss).run (← get).journal
  let color ← colored
  follow j <| match started with
    | .error (.machine (.panic panic)) => [panic.print color]
    | _ => []
  showDiagnostics p.root o.sources o.diagnostics
  match started with
  | .error f => throw (← stopFor f)
  | .ok s => evaluateAll p.root s [] (typedLines (← World.input))

def fix : Act m Unit := do
  let every ← isOn all
  let wanted ← text id
  if every && wanted != "" then told "--all and --id are mutually exclusive"
  let p ← project
  let ss ← sources p false
  let o ← build none { max := p.maxDiagnostics, checkOnly := true } ss
  if ← isOn list then
    for c in (Repair.candidates o.diagnostics).1 do
      World.sayText s!"{c.id}  {c.span.uri.display p.root}:{c.span.start.render}  {c.title}\n"
    return
  let choice := if wanted != "" then Repair.Choice.named wanted else if every then .all else .first
  let r := Repair.apply o.sources o.diagnostics choice true
  let written ← (r.changes.forM fun c => do
    let path := c.source.uri.path
    Project.explain (fun e => s!"write {path}: {e.message}") (World.writeFile path c.source.code) :
      World.Try m String Unit).run
  let quiet ← isQuiet
  if !quiet then
    for a in r.applied do World.sayText s!"fixed {a.uri.display p.root}: {a.title}\n"
    for s in r.skipped do World.remarkText s!"skipped {s.id}: {s.reason.message}\n"
  if r.applied.isEmpty then
    if !quiet then World.sayText "nothing to fix\n"
  else if let .error e := written then told e

def clean : Act m Unit := do
  let s ← trying (fun e : String => e) (Store.openFor Release.tool)
  let n ← trying (fun e => "failed to clean cache: " ++ e.message) s.clean
  if !(← isQuiet) then World.sayText s!"removed {n} cached programs\n"

def version : Act m Unit := do
  let name ← text format
  match lower name with
  | "pretty" => World.sayText (Release.current.line ++ "\n")
  | "json" => World.sayText Release.current.json
  | "yaml" => World.sayText Release.current.yaml
  | _ => told s!"unsupported format {Quoted.writeString name} (must be pretty, json or yaml)"

/-! ### The tool -/

def acts : List (List String × Act m Unit) :=
  [(["tokenize"], tokenize), (["parse"], parse), (["check"], check), (["build"], build_), (["run"], run),
   (["repl"], repl), (["fix"], fix), (["cache", "clean"], clean), (["version"], version)]

def shells : List Spec :=
  ["bash", "fish", "powershell", "zsh"].map fun shell =>
    { name := shell, use := shell, short := "Generate the autocompletion script for " ++ shell, arity := .none }

def commands : List Spec :=
  [{ name := "tokenize", use := "tokenize [flags] file.loa|-", short := "Print the tokens of a Loa source"
     long := "Tokenize runs only the lexer. A dash reads the source from stdin.", arity := .exactly 1
     flags := [formatFlag "pretty|json|stats", trivia] },
   { name := "parse", use := "parse [flags] file.loa|-"
     short := "Parse a Loa source file and output its syntax tree", arity := .exactly 1
     flags := [formatFlag "pretty|json"] },
   { name := "check", use := "check [flags] [file.loa|directory...]"
     short := "Parse and check a Loa program without generating bytecode"
     long := "Check loads the project (or the given files), parses and analyses every module\n" ++
       "and reports diagnostics. Without arguments the project around the working\ndirectory is checked."
     flags := [formatFlag "pretty|json"] },
   { name := "build", use := "build [flags] [file.loa|directory...]"
     short := "Compile a Loa program to bytecode"
     long := "Build compiles the project (or the given files) together with the bootstrap\n" ++
       "line that sends run to the main class, and writes the bytecode next to the\n" ++
       "project in build/<name>.loavmc. Unchanged programs come from the cache."
     flags := [out, noMain, noCache, ui] },
   { name := "run", use := "run [flags] [file.loa|directory...]", short := "Compile and run a Loa program"
     long := "Run builds the program with its main bootstrap and evaluates it. The value\n" ++
       "left by the program, if any, is printed to stdout."
     flags := [noCache] },
   { name := "repl", use := "repl [flags] [file.loa|directory...]"
     short := "Start an interactive Loa session"
     long := "Repl loads the project (or the given files) and evaluates lines read from\n" ++
       "stdin against it. A line that stops in the middle of a construct continues\n" ++
       "on the next one. \":t expr.\" prints the type of an expression, \":b expr.\"\n" ++
       "lists what it responds to." },
   { name := "fix", use := "fix [flags] [file.loa|directory...]"
     short := "Apply the fixes suggested by diagnostics"
     long := "Fix checks the program and rewrites the modules with the edits suggested by\n" ++
       "its diagnostics. By default only the first fix is applied; --all applies\n" ++
       "every fix that does not conflict with another, --id applies one by name."
     flags := [all, id, list] },
   { name := "cache", use := "cache", short := "Manage the build cache", runs := false
     children := [{ name := "clean", use := "clean", short := "Remove every cached program", arity := .none }] },
   { name := "version", use := "version", short := "Show the loa version", arity := .none
     flags := [formatFlag "pretty|json|yaml"] },
   { name := "help", use := "help [command]", short := "Help about any command"
     long := "Help provides help for any command in the application.\n" ++
       "Simply type loa help [path to command] for full details." },
   { name := "completion", use := "completion"
     short := "Generate the autocompletion script for the specified shell"
     long := "Generate the autocompletion script for loa for the specified shell.\n" ++
       "See each sub-command's help for details on how to use the generated script."
     arity := .none, runs := false, children := shells }]

def tool : Tool :=
  { root :=
      { name := Release.tool, use := Release.tool, short := "Loa language compiler and toolchain"
        long := "Loa compiles, checks and runs programs written in the Loa language", runs := false
        children := commands }
    flags := Flag.shared
    version := Release.current.version }

def explain (words : List String) : m Unit := do
  match tool.find words with
  | .ok (r, _) => World.sayText (tool.help r)
  | .error _ =>
    let quoted := " ".intercalate (words.map fun w => "`" ++ w ++ "`")
    World.remarkText (s!"Unknown help topic [{quoted}]\n" ++ tool.usage ⟨tool.root, []⟩)

def perform (words : List String) : m Bool := do
  match tool.intent words with
  | .error message =>
    World.remarkText s!"error: {message}\n"
    return false
  | .ok (.help r) =>
    World.sayText (tool.help r)
    return true
  | .ok .version =>
    World.sayText tool.versionLine
    return true
  | .ok (.run r l) =>
    let way := ((r.spec :: r.above).reverse.map (·.name)).drop 1
    if way = ["help"] then
      explain l.arguments
      return true
    let act : Act m Unit := (acts.lookup way).getD (return ())
    complete (do setTracing; setProfiles; act) l.values l.arguments

end Parlance.Command.Compiler
