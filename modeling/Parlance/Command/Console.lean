import Parlance.Command.Flag
import Parlance.Diagnostic.Pretty
import Parlance.Diagnostic.Report
import Parlance.Store
/-!
What the commands of a tool share: the flags they were given, the trace they leave, and how they show
what is wrong.
-/
namespace Parlance.Command

inductive Stop where
  | shown
  | told (message : String)
  deriving DecidableEq, Repr

structure Tracing where
  level : Trace.Level
  mode : Trace.Mode
  size : Int
  file : Option String
  deriving DecidableEq, Repr, Inhabited

namespace Tracing

def off : Tracing := ⟨.off, .stream, 0, none⟩

def fileOf (path : String) : Option String := if path = "" || path = "-" then none else some path

def format (t : Tracing) : Trace.Format :=
  if ((t.file.map (Text.endsWith · ".ndjson")).getD false) then .lines else .text

def events (t : Tracing) (j : Journal) : List Trace.Event := Trace.select t.level j.trace.reverse

def lines (t : Tracing) (j : Journal) : List String :=
  Trace.record t.level t.mode t.format t.size (Trace.numbered (t.events j))

def isLive (t : Tracing) : Bool := t.level != .off && t.mode == .stream && t.file.isNone

end Tracing

structure Console where
  values : Flag.Values
  arguments : List String
  tracing : Tracing
  journal : Journal
  traced : Nat
  memory : String

abbrev Act (m : Type → Type) := ExceptT Stop (StateT Console m)

namespace Act

variable {m : Type → Type} [Monad m] [World m]

def told {α : Type} (message : String) : Act m α := throw (.told message)

def text (f : Flag) : Act m String := return (← get).values.text f

def isOn (f : Flag) : Act m Bool := return (← get).values.isOn f

def number (f : Flag) : Act m Int := return (← get).values.number f

def trying {ε α : Type} (message : ε → String) (step : World.Try m ε α) : Act m α := do
  match ← (step.run : m (Except ε α)) with
  | .ok a => return a
  | .error e => told (message e)

def interleave : List (Trace.Event × String) → List String → List String
  | [], panics => panics
  | (e, line) :: rest, panics =>
    if e.kind == some .point && e.name == "panic" then
      line :: panics.take 1 ++ interleave rest (panics.drop 1)
    else line :: interleave rest panics

def follow (j : Journal) (panics : List String) : Act m Unit := do
  let c ← get
  if c.tracing.isLive then
    let lines := (c.tracing.lines j).map (· ++ "\n")
    let fresh := ((c.tracing.events j).zip lines).drop c.traced
    set { c with journal := j, traced := lines.length }
    World.remarkText (String.join (interleave fresh panics))
  else
    set { c with journal := j }
    World.remarkText (String.join panics)

end Act

/-! ### Modes -/

inductive When where
  | auto
  | on
  | off
  deriving DecidableEq, Repr, Inhabited

namespace When

def ofName? (s : String) : Option When :=
  let is (word : String) : Bool := Text.isWord word (Text.trim s)
  if is "" || is "auto" then some auto else if is "on" then some on else if is "off" then some off else none

def refusal (flag value : String) : String :=
  s!"invalid --{flag} value {Quoted.writeString value} (expected auto|on|off)"

end When

namespace Flag

def color : Flag := .text "color" "auto" "colorize output (auto|on|off)"
def quiet : Flag := .switch "quiet" "suppress non-essential output"
def paths : Flag := .text "paths" "auto" "how diagnostics print file paths (auto|absolute|relative|basename)"
def timings : Flag := .switch "timings" "show timing information"
def maxDiagnostics : Flag :=
  .number "max-diagnostics" "0" "maximum number of diagnostics to show (0 = from loa.toml)"
def sdk : Flag := .text "sdk" "" "directory replacing the embedded standard library"
def jobs : Flag := .number "jobs" "0" "max parallel parse workers (0=auto)"
def trace : Flag := .text "trace" "" "trace output file (- for stderr)"
def traceLevel : Flag := .text "trace-level" "off" "trace level (off|error|phase|detail|debug)"
def traceMode : Flag := .text "trace-mode" "stream"
  "trace storage: stream writes as it goes, ring keeps the last events and writes them on exit (stream|ring)"
def traceRingSize : Flag := .number "trace-ring-size" "4096" "events kept in ring mode"
def traceHeartbeat : Flag := ⟨"trace-heartbeat", none, .duration, "0s", "heartbeat interval (0 = off)"⟩
def cpuProfile : Flag := .text "cpuprofile" "" "write a CPU profile to this file"
def memProfile : Flag := .text "memprofile" "" "write a heap profile to this file"
def runtimeTrace : Flag := .text "runtime-trace" "" "write a Go runtime trace to this file"

def shared : List Flag :=
  [color, quiet, paths, timings, maxDiagnostics, sdk, jobs, trace, traceLevel, traceMode, traceRingSize,
    traceHeartbeat, cpuProfile, memProfile, runtimeTrace]

end Flag

namespace Act

variable {m : Type → Type} [Monad m] [World m]

def colored : Act m Bool := do
  match When.ofName? (← text .color) with
  | some .on => return true
  | some .auto => World.onTerminal
  | _ => return false

def isQuiet : Act m Bool := isOn .quiet

def pathMode : Act m Path.Mode := do
  let name ← text .paths
  match Path.Mode.ofName? name with
  | some mode => return mode
  | none => told (Path.Mode.refusal name)

/-! ### Before and after -/

def traceError (e : FileError) : String := "open trace output: " ++ e.message

def startTracing (t : Tracing) (message : FileError → String) : Act m Unit := do
  if let some path := t.file then trying message (World.writeFile path [])
  modify fun c => { c with tracing := t }

def setTracing : Act m Unit := do
  let output ← text .trace
  let name ← text .traceLevel
  let some level := Trace.Level.ofName? name | told (Trace.Level.refusal name)
  let level := if level = .off && output != "" then .phase else level
  if level = .off then return
  let name ← text .traceMode
  let some mode := Trace.Mode.ofName? name | told (Trace.Mode.refusal name)
  startTracing ⟨level, mode, ← number .traceRingSize, Tracing.fileOf output⟩ ("trace: " ++ traceError ·)

def showMemory : Act m Unit := do
  let path := (← get).memory
  if path != "" then
    match ← (World.writeFile path [] : World.Try m FileError Unit).run with
    | .ok _ => return ()
    | .error e => World.remarkText s!"profile: {e.message}\n"

/-- The files the flags ask for beside the trace. Of what a machine spent nothing is known, so they
stay empty. -/
def setProfiles : Act m Unit := do
  let create (path : String) : Act m Unit := do
    if path != "" then trying FileError.message (World.writeFile path [])
  create (← text .cpuProfile)
  try create (← text .runtimeTrace)
  catch stop =>
    let path ← text .memProfile
    if path != "" then let _ ← (World.writeFile path [] : World.Try m FileError Unit).run
    throw stop
  let memory ← text .memProfile
  modify fun c => { c with memory }

def finish : Act m Unit := do
  showMemory
  let c ← get
  let lines := String.join ((c.tracing.lines c.journal).map (· ++ "\n"))
  match c.tracing.file with
  | some path =>
    let _ ← (World.writeFile path (Bytes.ofString lines) : World.Try m FileError Unit).run
  | none => if !c.tracing.isLive then World.remarkText lines

def complete (act : Act m Unit) (values : Flag.Values) (arguments : List String) : m Bool := do
  let whole : StateT Console m (Except Stop Unit) := do
    let r ← act.run
    let _ ← (finish : Act m Unit).run
    return r
  let (r, _) ← whole.run ⟨values, arguments, .off, .empty, 0, ""⟩
  match r with
  | .ok _ => return true
  | .error .shown => return false
  | .error (.told message) =>
    World.remarkText s!"error: {message}\n"
    return false

/-! ### Showing -/

def showDiagnostics (base : String) (sources : List Source) (ds : List Diagnostic) : Act m Unit := do
  if ds.isEmpty then return
  let mode ← pathMode
  let color ← colored
  let opts : Diagnostic.PrettyOptions :=
    { color, context := 1, paths := mode, base, cwd := ← World.here, width := none, notes := true, fixes := true }
  World.remarkText (Diagnostic.pretty opts sources ds ++ Diagnostic.summary color ds)

def stopFor (f : Progress.Failure) : Act m Stop := do
  match f with
  | .diagnostics | .machine (.panic _) => return .shown
  | .lowering e =>
    World.remarkText s!"internal compiler error: {e.message}\n"
    return .shown
  | .machine _ | .cancelled => return .told f.message

def showTimings (o : Build.Outcome) : Act m Unit := do
  if ← isOn .timings then
    World.remarkText (Phase.outline (← get).journal.phases.reverse)
    if o.hit then World.remarkText "  (cached)\n"

def panicTexts (before after : Machine.State) : Act m (List String) := do
  let color ← colored
  return (after.panics.drop before.panics.length).map (Machine.Panic.print color)

end Act

end Parlance.Command
