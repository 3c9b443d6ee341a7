import Parlance.Command.Console
import Parlance.Command.Spec
import Parlance.Version
/-!
The tool that runs built programs, one after another on one machine.
-/
namespace Parlance.Command.Runner

open Act

variable {m : Type → Type} [Monad m] [World m]

def color : Flag := .text "color" "auto" "colorize panics (auto|on|off)"

def tool : Tool :=
  { root :=
      { name := "loavm", use := "loavm file.loavmc...", short := "Run compiled Loa bytecode"
        arity := .atLeast 1, flags := [color, .trace] }
    flags := []
    version := Release.current.version }

def program (path : String) : Act m (List Instruction) := do
  match ← (World.readFile path : World.Try m FileError Bytes).run with
  | .error e => told (if e.act = "read" then s!"{path}: {e.message}" else e.message)
  | .ok bytes =>
    match Wire.readAll bytes with
    | .ok code => return code
    | .error f => told s!"{path}: {f.message}"

def runAll (machine : Machine.State) : List String → Act m Unit
  | [] => return ()
  | path :: rest => do
    let code ← program path
    let (r, j) := (Ran.program machine code).run (← get).journal
    follow j (← panicTexts machine r.machine)
    match r.value with
    | .error f => throw (← stopFor (.machine f))
    | .ok value => if let some v := value then World.sayText (v.render ++ "\n")
    runAll r.machine rest

def run : Act m Unit := do
  let output ← text .trace
  if output != "" then
    startTracing ⟨.detail, .stream, 0, Tracing.fileOf output⟩ ("failed to create tracer: " ++ traceError ·)
  runAll (.fresh Machine.defaultMaxDepth) (← get).arguments

def perform (words : List String) : m Bool := do
  match tool.intent words with
  | .error message =>
    World.remarkText s!"error: {message}\n"
    return false
  | .ok (.help r) =>
    World.sayText (tool.help r)
    return true
  | .ok .version =>
    World.sayText tool.versionLine
    return true
  | .ok (.run _ l) => complete run l.values l.arguments

end Parlance.Command.Runner
